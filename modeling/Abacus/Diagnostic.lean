import Abacus.Fault
import Abacus.Text.Line

/-!
Diagnostics: the lines that show a fault to the user. After the headline comes the place in the
source, then the advice; both are left out when the fault points outside the source.
-/
namespace Abacus

namespace Stage

def colour : Stage → String
  | .lexical => "31"
  | .syntactic => "33"
  | .runtime => "35"
  | .internal | .listing => "34"

def colouredLabel (stage : Stage) : String :=
  "\x1b[" ++ stage.colour ++ "m" ++ stage.label ++ "\x1b[0m"

end Stage

/-- Whether a span can be shown in a source of a given length. Its first and its last character
may stand at the end of the source, but not beyond. -/
def Span.fits (span : Span) (length : Nat) : Bool :=
  0 < length && span.start ≤ length && (span.stop ≤ span.start || span.stop ≤ length + 1)

namespace Fault

def headline (fault : Fault) : String :=
  "\x1b[31mError:\x1b[0m " ++ fault.stage.colouredLabel ++ ": " ++ fault.message

def shownSpan (fault : Fault) (source : List Char) : Span :=
  fault.span?.getD ⟨0, max 1 source.length⟩

def diagnostic (fault : Fault) (source : String) (filename : Option String) : List String :=
  let chars := source.toList
  let span := fault.shownSpan chars
  if span.fits chars.length then
    let place := Text.place chars span.start
    [fault.headline,
      "at " ++ filename.getD "<input>" ++ ":" ++ toString place.line ++ ":" ++
        toString place.column] ++
      (fault.help?.map ("note help: " ++ ·)).toList
  else [fault.headline]

end Fault
end Abacus
