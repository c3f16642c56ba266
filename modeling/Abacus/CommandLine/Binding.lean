import Abacus.Decimal.Numeral
import Abacus.Machine.Basic
import Abacus.Token.Scan
import Abacus.Text.Blank

/-!
Bindings of variables on the command line: a name, an equals sign and a numeral, with blanks
allowed around both. A later binding of a name replaces an earlier one.
-/
namespace Abacus.CommandLine

structure Binding where
  name : String
  value : Float
deriving DecidableEq

inductive BindingFault where
  | noValue (text : String)
  | badName (name : String)
  | badNumber (numeral : String)
deriving DecidableEq, Repr

def BindingFault.message : BindingFault → String
  | .noValue text => "expected NAME=VALUE, got '" ++ text ++ "'"
  | .badName name => "'" ++ name ++ "' is not a valid variable name"
  | .badNumber numeral => "'" ++ numeral ++ "' is not a number"

namespace Binding

def isName (cs : List Char) : Bool :=
  cs.head?.any Token.isNameStart && cs.all Token.isNameChar

def read (text : String) : Except BindingFault Binding :=
  let cs := text.toList
  match cs.dropWhile (· != '=') with
  | [] => .error (.noValue text)
  | _ :: after =>
    let name := Text.trimChars (cs.takeWhile (· != '='))
    let numeral := Text.trimChars after
    if isName name then
      match Numeral.read numeral with
      | some value => .ok ⟨String.ofList name, value⟩
      | none => .error (.badNumber (String.ofList numeral))
    else .error (.badName (String.ofList name))

def values (bindings : List Binding) : Variables :=
  bindings.foldl (fun values binding => values.insert binding.name binding.value) ∅

def readAll (texts : List String) : Except BindingFault Variables :=
  (texts.mapM read).map values

end Binding
end Abacus.CommandLine
