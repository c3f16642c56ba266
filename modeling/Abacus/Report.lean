import Abacus.Diagnostic
import Abacus.Document
import Abacus.Expr.Render
import Abacus.Output

/-!
Reports: how the answer to a request is printed. The options choose the stages that are shown
before the result, or one document in place of them all. A fault is shown on the standard error
stream in either case.
-/
namespace Abacus

/-- Which stages of a request are shown, and whether as a document. -/
structure Options where
  tokens : Bool
  tree : Bool
  program : Bool
  trace : Bool
  json : Bool
deriving DecidableEq, Repr

namespace Text

def padLeft (width : Nat) (text : String) : String :=
  String.ofList (List.replicate (width - text.length) ' ') ++ text

def padRight (width : Nat) (text : String) : String :=
  text ++ String.ofList (List.replicate (width - text.length) ' ')

end Text

def Token.line (tokens : List Token) : String := String.intercalate " " (tokens.map Token.render)

def Program.numbered (program : Program) : String :=
  String.join (program.mapIdx fun index instruction =>
    Text.padLeft 4 (toString index) ++ "  " ++ instruction.render ++ "\n")

def Stack.render (stack : Stack) : String :=
  "[" ++ String.intercalate ", " (stack.reverse.map showNumber) ++ "]"

def Step.line (step : Step) : String :=
  Text.padLeft 4 (toString step.index) ++ "  " ++ Text.padRight 12 step.instruction.render ++ " " ++
    Text.padLeft 16 (Stack.render step.before) ++ " -> " ++
    Text.padRight 16 (Stack.render step.after.stack) ++ " " ++ step.description

def Trace.rows (trace : Trace) : String :=
  String.join (trace.steps.map fun step => step.line ++ "\n")

namespace Answer

def sections (answer : Answer) (options : Options) : String :=
  (if options.tokens && !answer.tokens.isEmpty then
    "Tokens:\n" ++ Token.line answer.tokens ++ "\n\n" else "") ++
  (match options.tree, answer.tree with
    | true, some tree => "Syntax tree:\n" ++ tree.outline ++ "\n"
    | _, _ => "") ++
  (if options.program && !answer.program.isEmpty then
    "Bytecode:\n" ++ answer.program.numbered ++ "\n" else "") ++
  (match options.trace, answer.trace with
    | true, some trace => "Execution:\n" ++ trace.rows ++ "\n"
    | _, _ => "") ++
  (match answer.result with
    | some value => showNumber value ++ "\n"
    | none => "")

def print (answer : Answer) (options : Options) : String :=
  if options.json then answer.document.print ++ "\n" else answer.sections options

end Answer

/-- What a request printed, and whether it was met. -/
structure Response where
  output : Output
  succeeded : Bool
deriving DecidableEq, Repr

def Response.failed (stdout : String) (fault : Fault) (source : String)
    (filename : Option String) : Response :=
  ⟨⟨stdout, fault.diagnostic source filename⟩, false⟩

def Answer.respond (answer : Answer) (options : Options) (source : String)
    (filename : Option String) : Response :=
  match answer.fault with
  | none => ⟨⟨answer.print options, []⟩, true⟩
  | some fault => .failed (answer.print options) fault source filename

namespace Answer

theorem stdout_respond (answer : Answer) (options : Options) (source : String)
    (filename : Option String) :
    (answer.respond options source filename).output.stdout = answer.print options := by
  rw [respond]
  split <;> rfl

theorem succeeded_respond (answer : Answer) (options : Options) (source : String)
    (filename : Option String) :
    (answer.respond options source filename).succeeded = answer.fault.isNone := by
  rw [respond]
  split
  all_goals
    next hfault =>
      rw [hfault]
      rfl

theorem stderr_respond {answer : Answer} {fault : Fault} (h : answer.fault = some fault)
    (options : Options) (source : String) (filename : Option String) :
    (answer.respond options source filename).output.stderr = fault.diagnostic source filename := by
  rw [respond, h]
  rfl

end Answer

namespace Calculator

def respond (calculator : Calculator) (options : Options) (source : String)
    (filename : Option String) : Response :=
  (calculator.answer source).respond options source filename

/-- Responds to an instruction listing. One that cannot be read shows its fault alone. -/
def respondListing (calculator : Calculator) (options : Options) (listing : String)
    (filename : Option String) : Response :=
  match Program.read listing with
  | .ok program => (calculator.execute program).respond options listing filename
  | .error fault => .failed "" fault listing filename

end Calculator
end Abacus
