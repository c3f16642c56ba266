import Abacus.Decimal.Numeral
import Abacus.Program.Instruction
import Abacus.Text.Line

/-!
Reading instructions from text. An instruction is one or two words: a mnemonic in capitals and,
for `PUSH` and `LOAD` alone, an operand. A listing holds one instruction on each line that is not
blank, and the first line that is not an instruction decides what is wrong with it.
-/
namespace Abacus

namespace Instruction

def withoutOperand : List Instruction :=
  [.apply .add, .apply .subtract, .apply .multiply, .apply .divide, .apply .power, .negate]

def ofMnemonic? (mnemonic : String) : Option Instruction :=
  withoutOperand.find? (·.mnemonic == mnemonic)

def operand? (numeral : String) : Option Float :=
  (Numeral.read numeral.toList).filter Binary.isFinite

def ofWords : List String → Except Defect Instruction
  | [] => .error .empty
  | [mnemonic] =>
    match ofMnemonic? mnemonic with
    | some instruction => .ok instruction
    | none =>
      if mnemonic = "PUSH" || mnemonic = "LOAD" then .error .missingOperand
      else .error .unknownOpcode
  | [mnemonic, operand] =>
    if mnemonic = "PUSH" then
      match operand? operand with
      | some value => .ok (.push value)
      | none => .error .notANumber
    else if mnemonic = "LOAD" then .ok (.load operand)
    else if (ofMnemonic? mnemonic).isSome then .error .needlessOperand
    else .error .unknownOpcode
  | _ :: _ :: _ :: _ => .error .tooManyOperands

/-- Reads one instruction; a fault quotes the text as it was given. -/
def read (text : String) : Except Fault Instruction :=
  (ofWords ((Text.words text.toList).map String.ofList)).mapError (.malformedInstruction text)

end Instruction

namespace Program

def listingLines (listing : String) : List String :=
  (((Text.lines listing.toList).map Text.trimChars).filter (!·.isEmpty)).map String.ofList

def read (listing : String) : Except Fault Program :=
  (listingLines listing).mapM Instruction.read

end Program
end Abacus
