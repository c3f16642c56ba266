import Abacus.Expr.Parse
import Abacus.Machine.Trace
import Abacus.Program.Compile
import Abacus.Program.Listing
import Abacus.Token.Scan

/-!
Requests to the calculator. A source goes through scanning, parsing, compiling and running; the
answer keeps what every stage made, up to the one that failed. The program is run twice, once for
its value and once for its trace.
-/
namespace Abacus

/-- What a request made on its way, and the fault that ended it if there was one. -/
structure Answer where
  tokens : List Token
  tree : Option Expr
  program : Program
  result : Option Float
  trace : Option Trace
  fault : Option Fault
deriving DecidableEq

def Answer.failed (tokens : List Token) (fault : Fault) : Answer :=
  ⟨tokens, none, [], none, none, some fault⟩

/-- A calculator knows the values of the variables it was started with. -/
structure Calculator where
  values : Variables

namespace Calculator

def execute (calculator : Calculator) (program : Program) : Answer :=
  let trace := some (program.trace calculator.values)
  match program.evaluate calculator.values with
  | .ok value => ⟨[], none, program, some value, trace, none⟩
  | .error fault => ⟨[], none, program, none, trace, some fault⟩

def answer (calculator : Calculator) (source : String) : Answer :=
  match Token.scan source.toList with
  | .error fault => .failed [] fault
  | .ok tokens =>
    match Expr.parse tokens with
    | .error fault => .failed tokens fault
    | .ok tree =>
      { calculator.execute tree.compile with tokens := tokens, tree := some tree }

end Calculator
end Abacus
