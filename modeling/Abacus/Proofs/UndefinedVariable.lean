import Abacus.Proofs.SavedListing
import Abacus.Report

/-!
Where the fault of an undefined variable comes from. A request, a source or a listing, stands for
a program, or for the fault for which it has none. Only a run gives the fault of an undefined
variable: its program loads the name, and the table has no value for it.
-/
namespace Abacus

theorem Instruction.undefined_of_execute {values : Variables} {instruction : Instruction}
    {stack : Stack} {name : String}
    (h : (instruction.execute values stack).fault = some (.undefinedVariable name)) :
    instruction = .load name ∧ values[name]? = none := by
  have heffect := effect_execute values instruction stack
  generalize instruction.execute values stack = outcome at h heffect
  cases heffect with
  | undefined stack hnone =>
    cases h
    exact ⟨rfl, hnone⟩
  | _ => cases h

/-- A run that lacks a variable loads it, and the table has no value for it. -/
theorem Program.undefined_of_run {values : Variables} {program : Program} {stack : Stack}
    {name : String} (h : (program.run values stack).fault = some (.undefinedVariable name)) :
    .load name ∈ program ∧ values[name]? = none := by
  induction program generalizing stack with
  | nil => cases h
  | cons instruction rest ih =>
    rw [run] at h
    split at h
    · obtain ⟨rfl, hnone⟩ := Instruction.undefined_of_execute h
      exact ⟨List.mem_cons_self, hnone⟩
    · obtain ⟨hmem, hnone⟩ := ih h
      exact ⟨List.mem_cons_of_mem instruction hmem, hnone⟩

/-- A run without a fault finds a value for every name that the program loads. -/
theorem Program.defined_of_run {values : Variables} {program : Program} {stack : Stack}
    {name : String} (h : (program.run values stack).fault = none) (hload : .load name ∈ program) :
    ∃ value, values[name]? = some value := by
  induction program generalizing stack with
  | nil => cases hload
  | cons instruction rest ih =>
    rw [run] at h
    split at h
    · next fault hfault =>
      rw [hfault] at h
      cases h
    · next hnone =>
      rcases List.mem_cons.mp hload with rfl | hload
      · rw [Instruction.execute] at hnone
        split at hnone
        · next value hvalue => exact ⟨value, hvalue⟩
        · cases hnone
      · exact ih h hload

theorem Calculator.undefined_of_execute {calculator : Calculator} {program : Program}
    {name : String}
    (h : (calculator.execute program).fault = some (.undefinedVariable name)) :
    .load name ∈ program ∧ calculator.values[name]? = none := by
  rw [execute] at h
  split at h
  · cases h
  · next fault hfault =>
    cases h
    exact Program.undefined_of_run ((Outcome.value_eq_error (by simp)).mp hfault)

theorem Calculator.defined_of_execute {calculator : Calculator} {program : Program}
    {name : String} (h : (calculator.execute program).fault = none)
    (hload : .load name ∈ program) : ∃ value, calculator.values[name]? = some value := by
  rw [execute] at h
  split at h
  · next value hvalue =>
    have hrun := Outcome.value_eq_ok.mp hvalue
    exact Program.defined_of_run (by rw [hrun]) hload
  · cases h

/-- A lexeme whose operand is a name is that name. -/
theorem Token.Spells.of_load {kind : TokenKind} {payload : Payload} {lexeme : List Char}
    {span : Span} {name : String} (h : Spells kind payload lexeme)
    (hload : Token.operand? ⟨kind, payload, span⟩ = some (.load name)) :
    Spells .identifier (.text name) lexeme ∧ name.toList = lexeme := by
  cases h with
  | symbol hc => cases kind <;> cases hc <;> cases hload
  | identifier hfirst hrest =>
    cases hload
    exact ⟨.identifier hfirst hrest, String.toList_ofList⟩
  | number hlexeme hvalue => cases hload

inductive Request
  | source (text : String)
  | listing (text : String)

namespace Request

def text : Request → String
  | source text | listing text => text

def program : Request → Except Fault Program
  | source text =>
    (Token.scan text.toList).bind fun tokens => (Expr.parse tokens).map Expr.compile
  | listing text => Program.read text

end Request

namespace Calculator

def fault? (calculator : Calculator) : Request → Option Fault
  | .source text => (calculator.answer text).fault
  | .listing text =>
    match Program.read text with
    | .ok program => (calculator.execute program).fault
    | .error fault => some fault

def respondTo (calculator : Calculator) (options : Options) (filename : Option String) :
    Request → Response
  | .source text => calculator.respond options text filename
  | .listing text => calculator.respondListing options text filename

/-- A request has the fault for which it has no program, or that of the run of its program. -/
theorem fault?_eq (calculator : Calculator) (request : Request) :
    calculator.fault? request =
      match request.program with
      | .ok program => (calculator.execute program).fault
      | .error fault => some fault := by
  cases request with
  | listing text => rfl
  | source text =>
    rw [fault?, Request.program, answer]
    cases Token.scan text.toList with
    | error fault => rfl
    | ok tokens =>
      dsimp only [Except.bind]
      cases Expr.parse tokens <;> rfl

theorem stderr_respondTo {calculator : Calculator} {request : Request} {fault : Fault}
    (h : calculator.fault? request = some fault) (options : Options) (filename : Option String) :
    (calculator.respondTo options filename request).output.stderr =
      fault.diagnostic request.text filename := by
  cases request with
  | source text => exact Answer.stderr_respond h options text filename
  | listing text =>
    rw [fault?] at h
    rw [respondTo, respondListing]
    cases hprogram : Program.read text with
    | ok program =>
      rw [hprogram] at h
      exact Answer.stderr_respond h options text filename
    | error met =>
      rw [hprogram] at h
      cases h
      rfl

end Calculator

namespace Request

/-- What stands in the way of a program is no fault of a run. -/
theorem stage_of_program {request : Request} {fault : Fault}
    (h : request.program = .error fault) : fault.stage ≠ .runtime := by
  cases request with
  | source text =>
    rcases bind_eq_error.mp h with hscan | ⟨tokens, -, hparse⟩
    · rw [Token.stage_of_scanFrom hscan]
      decide
    · cases hread : Expr.parse tokens with
      | error fault =>
        rw [hread] at hparse
        cases hparse
        rw [Expr.stage_of_parse hread]
        decide
      | ok tree =>
        rw [hread] at hparse
        cases hparse
  | listing text =>
    rw [Program.stage_of_read h]
    decide

/-- A name that the program of a source loads stands in the source, and is an identifier. -/
theorem spells_of_load {text : String} {program : Program} {name : String}
    (h : (source text).program = .ok program) (hload : .load name ∈ program) :
    Token.Spells .identifier (.text name) name.toList ∧
      ∃ start stop, name.toList = text.toList.extract start stop := by
  obtain ⟨tokens, hscan, h⟩ := bind_eq_ok.mp h
  cases hparse : Expr.parse tokens with
  | error fault =>
    rw [hparse] at h
    cases h
  | ok tree =>
    rw [hparse] at h
    cases h
    obtain ⟨lexemes, -, hcut, depth, -, hphrase⟩ := exists_cut_of_parse hscan hparse
    have hcovers := Token.covers_of_cut hcut List.drop_zero
    have hoperand : .load name ∈ tree.compile.filter Instruction.isOperand :=
      List.mem_filter.mpr ⟨hload, rfl⟩
    rw [hphrase.operands_compile] at hoperand
    obtain ⟨token, htoken, hname⟩ := List.mem_filterMap.mp hoperand
    obtain ⟨hspells, hlexeme⟩ := (hcovers.spells token htoken).of_load hname
    exact ⟨hlexeme ▸ hspells, _, _, hlexeme⟩

/-- A request that loads a name is not empty. -/
theorem text_ne_empty {request : Request} {program : Program} {name : String}
    (h : request.program = .ok program) (hload : .load name ∈ program) : request.text ≠ "" := by
  intro hempty
  cases request with
  | source text =>
    obtain ⟨hspells, start, stop, hname⟩ := spells_of_load h hload
    obtain ⟨first, more, hfirst, -⟩ := hspells.exists_first
    rw [show text = "" from hempty, hfirst] at hname
    simp at hname
  | listing text =>
    rw [show text = "" from hempty] at h
    cases h
    cases hload

/-- A request that lacks a variable has a program that loads it. -/
theorem exists_program_of_undefined {calculator : Calculator} {request : Request} {name : String}
    (h : calculator.fault? request = some (.undefinedVariable name)) :
    ∃ program, request.program = .ok program ∧ .load name ∈ program ∧
      calculator.values[name]? = none := by
  rw [Calculator.fault?_eq] at h
  cases hprogram : request.program with
  | ok program =>
    rw [hprogram] at h
    exact ⟨program, rfl, Calculator.undefined_of_execute h⟩
  | error fault =>
    rw [hprogram] at h
    cases h
    exact absurd rfl (stage_of_program hprogram)

end Request
end Abacus
