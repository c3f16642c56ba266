import Abacus.Text.Blank

/-!
What is found under a file name. A path is followed from the root if it begins with a slash, and
from the working directory otherwise, through directories alone: `.` stays, `..` goes back. The
directories around the working directory are there, but nothing in them is known.
-/
namespace Abacus.CommandLine

inductive FileState where
  | missing
  | directory
  | unreadable (reason : String)
  | content (bytes : ByteArray)

inductive Base where
  | root
  | working
  | around
deriving DecidableEq, Repr

/-- A place in the file system, by the names entered from a base, the last one first. -/
structure Location where
  base : Base
  names : List String
deriving DecidableEq, Repr

namespace Location

def parent : Location → Location
  | ⟨base, _ :: names⟩ => ⟨base, names⟩
  | ⟨.root, []⟩ => ⟨.root, []⟩
  | ⟨_, []⟩ => ⟨.around, []⟩

def enter (place : Location) (name : String) : Location :=
  if name = "" || name = "." then place
  else if name = ".." then place.parent
  else ⟨place.base, name :: place.names⟩

def holds (place other : Location) : Bool :=
  place.base == other.base && place.names.isSuffixOf other.names && place.names != other.names

def start (path : String) : Location := ⟨if path.startsWith "/" then .root else .working, []⟩

/-- The names of a path. An empty one stands where nothing is between two slashes or at an end. -/
def namesIn (path : String) : List String :=
  (Text.pieces (· == '/') path.toList).map String.ofList

def ofPath (path : String) : Location := (namesIn path).foldl enter (start path)

end Location

structure FileSystem where
  entries : List (Location × FileState)

namespace FileSystem

def ofList (entries : List (String × FileState)) : FileSystem :=
  ⟨entries.map fun entry => (.ofPath entry.1, entry.2)⟩

def state (files : FileSystem) (place : Location) : FileState :=
  if place.names.isEmpty then .directory
  else match files.entries.lookup place with
    | some state => state
    | none => if files.entries.any (place.holds ·.1) then .directory else .missing

def follow (files : FileSystem) (place : Location) : List String → FileState
  | [] => files.state place
  | name :: rest =>
    match files.state place with
    | .directory => files.follow (place.enter name) rest
    | _ => .missing

def find (files : FileSystem) (path : String) : FileState :=
  if path.isEmpty then .missing else files.follow (.start path) (Location.namesIn path)

end FileSystem
end Abacus.CommandLine
