import Abacus.Report
import Abacus.Text.Blank

/-!
Interactive sessions. Each line is a request of its own, a command that starts with a colon, or
a farewell. Only the options last from line to line.
-/
namespace Abacus

structure Session where
  calculator : Calculator
  options : Options

/-- What a line prints, and the session after it, none if the line ends it. -/
structure Turn where
  output : Output
  next : Option Session

namespace Session

def banner : Output :=
  ⟨"stackvm v0.1.0\nType an arithmetic expression, ':help' for commands, 'exit' to quit\n\n", []⟩

def prompt : Output := ⟨"> ", []⟩

def stay (session : Session) (output : Output) : Turn := ⟨output, some session⟩

def toggle (session : Session) (name : String) (now : Bool) (options : Options) : Turn :=
  ⟨.line (name ++ (if now then " on" else " off")), some { session with options := options }⟩

def variableLines (values : Variables) : String :=
  match values.toList with
  | [] => "(no variables)\n"
  | entries => String.join (entries.map fun entry => entry.1 ++ " = " ++ showNumber entry.2 ++ "\n")

def helpLines : String :=
  ":tokens :ast :bytecode :trace :json   toggle what is printed\n" ++
  ":vars                                 list seeded variables\n"

def command (session : Session) (name : String) : Turn :=
  let options := session.options
  match name with
  | "tokens" => session.toggle name (!options.tokens) { options with tokens := !options.tokens }
  | "ast" => session.toggle name (!options.tree) { options with tree := !options.tree }
  | "bytecode" =>
    session.toggle name (!options.program) { options with program := !options.program }
  | "trace" => session.toggle name (!options.trace) { options with trace := !options.trace }
  | "json" => session.toggle name (!options.json) { options with json := !options.json }
  | "vars" => session.stay ⟨variableLines session.calculator.values, []⟩
  | "help" => session.stay ⟨helpLines, []⟩
  | _ => session.stay (.error ("Unknown command ':" ++ name ++ "'. Try ':help'."))

def turn (session : Session) (line : String) : Turn :=
  let text := Text.trim line
  match text.toList with
  | [] => session.stay .empty
  | ':' :: name => session.command (String.ofList name)
  | _ =>
    if text = "exit" || text = "quit" then ⟨.line "Goodbye!", none⟩
    else session.stay (session.calculator.respond session.options text none).output

def badLine : Turn := ⟨.error "Error reading input: stream did not contain valid UTF-8", none⟩

def inputEnd : Turn := ⟨.line "", none⟩

def turnOf (session : Session) : Option (Option String) → Turn
  | none => inputEnd
  | some none => badLine
  | some (some line) => session.turn line

def converse (session : Session) : List (Option String) → Output
  | [] => prompt ++ (session.turnOf none).output
  | line :: rest =>
    let turn := session.turnOf (some line)
    let shown := prompt ++ turn.output
    match turn.next with
    | some next => shown ++ next.converse rest
    | none => shown

def transcript (session : Session) (lines : List (Option String)) : Output :=
  banner ++ session.converse lines

end Session

/-- The lines of an input stream, none for a line that is not text. A line feed at the very end
starts no further line. -/
def inputLines (input : ByteArray) : List (Option String) :=
  let pieces := Text.pieces (· == 10) input.toList
  let ended := if pieces.getLast? = some [] then pieces.dropLast else pieces
  ended.map fun bytes => String.fromUTF8? ⟨bytes.toArray⟩

end Abacus
