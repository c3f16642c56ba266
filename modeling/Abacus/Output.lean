import Abacus.Text.Line

/-!
What a request prints: text on the standard output, and messages on the standard error stream,
each ended by a line feed.
-/
namespace Abacus

structure Output where
  stdout : String
  stderr : List String
deriving DecidableEq, Repr

namespace Output

def empty : Output := ⟨"", []⟩

def line (text : String) : Output := ⟨text ++ "\n", []⟩

def error (text : String) : Output := ⟨"", [text]⟩

def errorLines (output : Output) : List String :=
  output.stderr.flatMap fun message => (Text.lines message.toList).map String.ofList

instance : Append Output where
  append first second := ⟨first.stdout ++ second.stdout, first.stderr ++ second.stderr⟩

theorem stdout_append (first second : Output) :
    (first ++ second).stdout = first.stdout ++ second.stdout := rfl

theorem stderr_append (first second : Output) :
    (first ++ second).stderr = first.stderr ++ second.stderr := rfl

end Output
end Abacus
