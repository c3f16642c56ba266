import Abacus.Report
import Abacus.Text.ControlSequence

/-!
The arguments of the command line. Options and the expression may come in any order; a value may
stand in the next argument or be attached to its option; after `--` nothing is an option. The use
of an option is settled, and only then found to lack its value or to be one too many, when the
next use begins.
-/
namespace Abacus.CommandLine

inductive Parameter where
  | expression
  | file
  | program
  | interactive
  | variable
  | tokens
  | tree
  | bytecode
  | trace
  | json
deriving DecidableEq, Repr

def Parameter.usage : Parameter → String
  | .expression => "[EXPR]"
  | .file => "--file <FILE>"
  | .program => "--program <FILE>"
  | .interactive => "--interactive"
  | .variable => "--var <NAME=VALUE>"
  | .tokens => "--tokens"
  | .tree => "--ast"
  | .bytecode => "--bytecode"
  | .trace => "--trace"
  | .json => "--json"

def Parameter.ofLong? : String → Option Parameter
  | "file" => some .file
  | "program" => some .program
  | "interactive" => some .interactive
  | "var" => some .variable
  | "tokens" => some .tokens
  | "ast" => some .tree
  | "bytecode" => some .bytecode
  | "trace" => some .trace
  | "json" => some .json
  | _ => none

def Parameter.ofShort? : Char → Option Parameter
  | 'f' => some .file
  | 'i' => some .interactive
  | _ => none

def Parameter.takesValue : Parameter → Bool
  | .expression | .file | .program | .variable => true
  | _ => false

def Parameter.isSource : Parameter → Bool
  | .expression | .file | .program | .interactive => true
  | _ => false

inductive UsageFault where
  | unexpectedArgument (text : String)
  | unexpectedValue (value : String) (parameter : Parameter)
  | missingValue (parameter : Parameter)
  | repeated (parameter : Parameter)
  | conflict (first second : Parameter)
  | conflicts (first : Parameter)
deriving DecidableEq, Repr

def UsageFault.message : UsageFault → String
  | .unexpectedArgument text => "unexpected argument '" ++ Text.visible text ++ "' found"
  | .unexpectedValue value parameter =>
    "unexpected value '" ++ Text.visible value ++ "' for '" ++ parameter.usage ++
      "' found; no more were expected"
  | .missingValue parameter =>
    "a value is required for '" ++ parameter.usage ++ "' but none was supplied"
  | .repeated parameter => "the argument '" ++ parameter.usage ++ "' cannot be used multiple times"
  | .conflict first second =>
    "the argument '" ++ first.usage ++ "' cannot be used with '" ++ second.usage ++ "'"
  | .conflicts first => "the argument '" ++ first.usage ++ "' cannot be used with:"

structure Use where
  parameter : Parameter
  value : String
deriving DecidableEq, Repr

/-- What has been read of the arguments: the settled uses in order, and the parameter that was
named last, with its value as soon as there is one. -/
structure Reading where
  settled : List Use
  last : Option (Parameter × Option String)

namespace Reading

def start : Reading := ⟨[], none⟩

def add (reading : Reading) (use : Use) : Except UsageFault Reading :=
  if use.parameter != .variable && reading.settled.any (·.parameter == use.parameter) then
    .error (.repeated use.parameter)
  else .ok ⟨reading.settled ++ [use], none⟩

def settle (reading : Reading) : Except UsageFault Reading :=
  match reading.last with
  | none => .ok reading
  | some (parameter, none) => .error (.missingValue parameter)
  | some (parameter, some value) => reading.add ⟨parameter, value⟩

def begin (reading : Reading) (parameter : Parameter) (attached : Option String) :
    Except UsageFault Reading := do
  let settled ← reading.settle
  match attached with
  | some value => settled.add ⟨parameter, value⟩
  | none =>
    if parameter.takesValue then return { settled with last := some (parameter, none) }
    else settled.add ⟨parameter, ""⟩

def long (reading : Reading) (body : List Char) : Except UsageFault Reading :=
  let name := String.ofList (body.takeWhile (· != '='))
  let attached := ((body.dropWhile (· != '=')).tail?).map String.ofList
  match Parameter.ofLong? name with
  | none => .error (.unexpectedArgument ("--" ++ name))
  | some parameter =>
    match parameter.takesValue, attached with
    | false, some value => .error (.unexpectedValue value parameter)
    | _, _ => reading.begin parameter attached

/-- Reads a cluster of short options, given without its dash. What follows an option that takes
a value is that value, with or without an equals sign between them. -/
def short (reading : Reading) : List Char → Except UsageFault Reading
  | [] => .ok reading
  | letter :: rest =>
    match Parameter.ofShort? letter with
    | none => .error (.unexpectedArgument (String.ofList ['-', letter]))
    | some parameter =>
      if parameter.takesValue then
        reading.begin parameter (match rest with
          | [] => none
          | '=' :: value => some (String.ofList value)
          | value => some (String.ofList value))
      else (reading.begin parameter none).bind fun next => next.short rest

def operand (reading : Reading) (text : String) : Except UsageFault Reading :=
  let begun := reading.last.any (·.1 == .expression)
  if begun || reading.settled.any (·.parameter == .expression) then
    .error (.unexpectedArgument text)
  else do
    let settled ← reading.settle
    return { settled with last := some (.expression, some text) }

def operands (reading : Reading) : List String → Except UsageFault Reading
  | [] => .ok reading
  | text :: rest => (reading.operand text).bind fun next => next.operands rest

def arguments (reading : Reading) : List String → Except UsageFault Reading
  | [] => .ok reading
  | argument :: rest =>
    if argument = "--" then reading.operands rest
    else match argument.toList with
    | '-' :: '-' :: body => (reading.long body).bind fun next => next.arguments rest
    | '-' :: letter :: letters =>
      (reading.short (letter :: letters)).bind fun next => next.arguments rest
    -- A lone dash is no option, and neither is the value of one.
    | _ =>
      match reading.last with
      | some (parameter, none) =>
        { reading with last := some (parameter, some argument) : Reading }.arguments rest
      | _ => (reading.operand argument).bind fun next => next.arguments rest

end Reading

inductive Source where
  | expression (text : String)
  | file (name : String)
  | listing (name : String)
  | session
deriving DecidableEq, Repr

structure Command where
  source : Source
  bindings : List String
  options : Options
deriving DecidableEq, Repr

def Source.ofUses (uses : List Use) : Except UsageFault Source :=
  match uses.filter (·.parameter.isSource) with
  | [] => .ok .session
  | [⟨.expression, text⟩] => .ok (.expression text)
  | [⟨.file, name⟩] => .ok (.file name)
  | [⟨.program, name⟩] => .ok (.listing name)
  | [_] => .ok .session
  | [first, second] => .error (.conflict first.parameter second.parameter)
  | first :: _ :: _ :: _ => .error (.conflicts first.parameter)

def Command.read (arguments : List String) : Except UsageFault Command := do
  let reading ← (Reading.start.arguments arguments).bind Reading.settle
  let uses := reading.settled
  let given (parameter : Parameter) : Bool := uses.any (·.parameter == parameter)
  let source ← Source.ofUses uses
  let bindings := (uses.filter (·.parameter == .variable)).map (·.value)
  return ⟨source, bindings,
    ⟨given .tokens, given .tree, given .bytecode, given .trace, given .json⟩⟩

end Abacus.CommandLine
