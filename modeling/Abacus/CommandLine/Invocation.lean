import Abacus.CommandLine.Arguments
import Abacus.CommandLine.Binding
import Abacus.CommandLine.FileSystem
import Abacus.Session

/-!
An invocation of the program: from arguments, files and standard input to what is printed and the
exit code. The code is 2 for a command line that is not well formed, 1 for a request that failed,
0 otherwise.
-/
namespace Abacus.CommandLine

structure Exit where
  code : Nat
  output : Output
deriving DecidableEq, Repr

def FileState.text (state : FileState) (name : String) : Except String String :=
  let refusal (reason : String) : String := "Error reading file '" ++ name ++ "': " ++ reason
  match state with
  | .missing => .error ("Error: File '" ++ name ++ "' not found")
  | .directory => .error (refusal "Is a directory (os error 21)")
  | .unreadable reason => .error (refusal reason)
  | .content bytes =>
    match String.fromUTF8? bytes with
    | some text => .ok text
    | none => .error (refusal "stream did not contain valid UTF-8")

def Exit.ofResponse (response : Response) : Exit :=
  ⟨if response.succeeded then 0 else 1, response.output⟩

structure Invocation where
  source : Source
  calculator : Calculator
  options : Options

def Invocation.read (arguments : List String) : Except String Invocation :=
  match Command.read arguments with
  | .error fault => .error ("error: " ++ fault.message)
  | .ok command =>
    match Binding.readAll command.bindings with
    | .error fault => .error ("Error: " ++ fault.message)
    | .ok values => .ok ⟨command.source, ⟨values⟩, command.options⟩

def Exit.refused (message : String) : Exit := ⟨2, .error message⟩

namespace Invocation

def ofFile (name : String) (state : FileState)
    (respond : String → Option String → Response) : Exit :=
  match state.text name with
  | .ok text => .ofResponse (respond text (some name))
  | .error message => ⟨1, .error message⟩

def run (invocation : Invocation) (files : String → FileState) (input : ByteArray) : Exit :=
  let calculator := invocation.calculator
  let options := invocation.options
  match invocation.source with
  | .expression text => .ofResponse (calculator.respond options text none)
  | .file name => ofFile name (files name) (calculator.respond options)
  | .listing name => ofFile name (files name) (calculator.respondListing options)
  | .session => ⟨0, Session.transcript ⟨calculator, options⟩ (inputLines input)⟩

end Invocation

def run (arguments : List String) (files : String → FileState) (input : ByteArray) : Exit :=
  match Invocation.read arguments with
  | .error message => .refused message
  | .ok invocation => invocation.run files input

end Abacus.CommandLine
