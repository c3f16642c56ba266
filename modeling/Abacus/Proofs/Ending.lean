import Abacus.Calculator
import Abacus.Proofs.Evaluation
import Abacus.Proofs.Scanning
import Abacus.Proofs.SyntaxFault
import Abacus.Proofs.TracedRun
import Mathlib.Logic.ExistsUnique

/-!
How the answer to a source ends. The scanner has lexical faults only and the rules syntactic ones,
and the program of a tree stops for an undefined variable or a division by zero, or else leaves
its value alone on the stack. So the plain run and the trace end alike, and an answer shows every
stage before the one that failed and none after it.
-/
namespace Abacus

inductive Ending where
  | lexicalFault
  | syntaxFault
  | runtimeFault
  | value
deriving DecidableEq

namespace Answer

/-- The answer went through to a run of the tree of its tokens, and holds all that was made on the
way. -/
structure Ran (values : Variables) (source : String) (answer : Answer) (tree : Expr)
    (trace : Trace) : Prop where
  scanned : Token.scan source.toList = .ok answer.tokens
  hasTokens : answer.tokens ≠ []
  parsed : Expr.parse answer.tokens = .ok tree
  hasTree : answer.tree = some tree
  compiled : answer.program = tree.compile
  hasTrace : answer.trace = some trace
  traced : trace = answer.program.trace values

def EndsWith (values : Variables) (source : String) (answer : Answer) : Ending → Prop
  | .lexicalFault =>
    ∃ fault, Token.scan source.toList = .error fault ∧ answer.fault = some fault ∧
      fault.stage = .lexical ∧ answer.tokens = [] ∧ answer.tree = none ∧ answer.program = [] ∧
      answer.trace = none ∧ answer.result = none
  | .syntaxFault =>
    Token.scan source.toList = .ok answer.tokens ∧ answer.tokens ≠ [] ∧
    ∃ fault, Expr.parse answer.tokens = .error fault ∧ answer.fault = some fault ∧
      fault.stage = .syntactic ∧ answer.tree = none ∧ answer.program = [] ∧
      answer.trace = none ∧ answer.result = none
  | .runtimeFault =>
    ∃ tree trace fault, answer.Ran values source tree trace ∧ answer.fault = some fault ∧
      ((∃ name, fault = .undefinedVariable name) ∨ fault = .divisionByZero) ∧
      trace.halted = true ∧ trace.final.fault = some fault ∧ trace.result? = none ∧
      answer.result = none
  | .value =>
    ∃ tree trace value, answer.Ran values source tree trace ∧ answer.program ≠ [] ∧
      answer.fault = none ∧ trace.halted = false ∧ trace.final.fault = none ∧
      trace.steps.length = answer.program.length ∧ trace.result? = some value ∧
      answer.result = some value

def ending (answer : Answer) : Ending :=
  match answer.fault.map Fault.stage with
  | none => .value
  | some .lexical => .lexicalFault
  | some .syntactic => .syntaxFault
  | some _ => .runtimeFault

variable {values : Variables} {source : String} {answer : Answer}

theorem ending_eq {ending : Ending} (h : answer.EndsWith values source ending) :
    answer.ending = ending := by
  unfold Answer.ending
  cases ending with
  | lexicalFault =>
    obtain ⟨fault, -, hfault, hstage, -⟩ := h
    rw [hfault, Option.map_some, hstage]
  | syntaxFault =>
    obtain ⟨-, -, fault, -, hfault, hstage, -⟩ := h
    rw [hfault, Option.map_some, hstage]
  | runtimeFault =>
    obtain ⟨tree, trace, fault, -, hfault, ⟨name, rfl⟩ | rfl, -⟩ := h
    · rw [hfault]
      rfl
    · rw [hfault]
      rfl
  | value =>
    obtain ⟨tree, trace, value, -, -, hfault, -⟩ := h
    rw [hfault]
    rfl

/-- The faults that an answer can have, whichever way it ends. -/
theorem fault_of_endsWith {ending : Ending} {fault : Fault}
    (h : answer.EndsWith values source ending) (hfault : answer.fault = some fault) :
    fault.stage = .lexical ∨ fault.stage = .syntactic ∨
      (∃ name, fault = .undefinedVariable name) ∨ fault = .divisionByZero := by
  cases ending with
  | lexicalFault =>
    obtain ⟨met, -, hmet, hstage, -⟩ := h
    rw [hfault] at hmet
    cases hmet
    exact Or.inl hstage
  | syntaxFault =>
    obtain ⟨-, -, met, -, hmet, hstage, -⟩ := h
    rw [hfault] at hmet
    cases hmet
    exact Or.inr (Or.inl hstage)
  | runtimeFault =>
    obtain ⟨tree, trace, met, -, hmet, hcause, -⟩ := h
    rw [hfault] at hmet
    cases hmet
    exact Or.inr (Or.inr hcause)
  | value =>
    obtain ⟨tree, trace, value, -, -, hnone, -⟩ := h
    rw [hfault] at hnone
    cases hnone

end Answer

theorem Token.scan_ne_nil {source : List Char} {tokens : List Token}
    (h : scan source = .ok tokens) : tokens ≠ [] := by
  obtain ⟨lexemes, rfl, -⟩ := cut_of_scanFrom h
  simp

theorem Expr.stage_of_parse {tokens : List Token} {fault : Fault}
    (h : parse tokens = .error fault) : fault.stage = .syntactic := by
  obtain ⟨good, bad, rest, -, -, hmisfit⟩ := exists_misfit h
  cases hmisfit with
  | refused hnever hfault => rcases hfault with ⟨-, rfl⟩ | ⟨-, rfl⟩ <;> rfl
  | tooDeep => rfl

namespace Calculator

variable {calculator : Calculator} {source : String} {tokens : List Token} {tree : Expr}

theorem endsWith_of_scan_error {fault : Fault} (h : Token.scan source.toList = .error fault) :
    (calculator.answer source).EndsWith calculator.values source .lexicalFault := by
  have hanswer : calculator.answer source = .failed [] fault := by
    simp only [answer, h]
  rw [hanswer]
  exact ⟨fault, h, rfl, Token.stage_of_scanFrom h, rfl, rfl, rfl, rfl, rfl⟩

theorem endsWith_of_parse_error {fault : Fault} (hscan : Token.scan source.toList = .ok tokens)
    (h : Expr.parse tokens = .error fault) :
    (calculator.answer source).EndsWith calculator.values source .syntaxFault := by
  have hanswer : calculator.answer source = .failed tokens fault := by
    simp only [answer, hscan, h]
  rw [hanswer]
  exact ⟨hscan, Token.scan_ne_nil hscan, fault, h, rfl, Expr.stage_of_parse h, rfl, rfl, rfl, rfl⟩

section Runs

variable (hscan : Token.scan source.toList = .ok tokens) (hparse : Expr.parse tokens = .ok tree)
include hscan hparse

theorem answer_of_parse_ok : calculator.answer source =
    { calculator.execute tree.compile with tokens := tokens, tree := some tree } := by
  simp only [answer, hscan, hparse]

/-- A tree with a value gives that value in the plain run and in the trace. -/
theorem endsWith_of_value_ok {value : Float} (h : tree.value calculator.values = .ok value) :
    (calculator.answer source).EndsWith calculator.values source .value := by
  have hrun : tree.compile.run calculator.values [] = ⟨[value], none⟩ :=
    Expr.run_compile_of_ok h
  have hfinal : (tree.compile.trace calculator.values).final = ⟨[value], none⟩ := by
    rw [Program.final_trace, hrun]
  have hexecute : calculator.execute tree.compile =
      ⟨[], none, tree.compile, some value, some (tree.compile.trace calculator.values), none⟩ := by
    simp only [execute, Program.evaluate, hrun, Outcome.value]
  have hprogram : tree.compile ≠ [] := by
    intro hempty
    rw [hempty] at hrun
    cases hrun
  rw [answer_of_parse_ok hscan hparse, hexecute]
  refine ⟨tree, tree.compile.trace calculator.values, value, ?_, hprogram, rfl, ?_, ?_, ?_, ?_, rfl⟩
  · exact ⟨hscan, Token.scan_ne_nil hscan, hparse, rfl, rfl, rfl, rfl⟩
  · rw [Trace.halted_eq_false, hfinal]
  · rw [hfinal]
  · exact Program.length_steps_traceFrom (by rw [hrun])
  · exact Trace.result?_eq_some.mpr hfinal

/-- A tree with a fault gives that fault in the plain run and in the trace. -/
theorem endsWith_of_value_error {fault : Fault}
    (h : tree.value calculator.values = .error fault) :
    (calculator.answer source).EndsWith calculator.values source .runtimeFault := by
  have hrun : (tree.compile.run calculator.values []).fault = some fault :=
    Expr.fault_run_compileThen h [] []
  have hfinal : (tree.compile.trace calculator.values).final.fault = some fault := by
    rw [Program.final_trace, hrun]
  have hexecute : calculator.execute tree.compile =
      ⟨[], none, tree.compile, none, some (tree.compile.trace calculator.values), some fault⟩ := by
    simp only [execute, Program.evaluate, Outcome.value_of_fault hrun]
  rw [answer_of_parse_ok hscan hparse, hexecute]
  refine ⟨tree, tree.compile.trace calculator.values, fault, ?_, rfl, Expr.fault_of_value h, ?_,
    hfinal, Trace.result?_of_fault hfinal, rfl⟩
  · exact ⟨hscan, Token.scan_ne_nil hscan, hparse, rfl, rfl, rfl, rfl⟩
  · rw [Trace.halted, hfinal]
    rfl

end Runs

/-- The answer to a source ends in exactly one way: with a lexical fault and nothing else, with the
tokens and a syntax fault, with a program whose run and trace stop at one fault of the request, or
with one value of the run and the trace. No fault of the library itself comes out, nor one of a
listing, nor one of a program out of balance. -/
theorem answer_endsWith (calculator : Calculator) (source : String) :
    (∃! ending, (calculator.answer source).EndsWith calculator.values source ending) ∧
    ∀ fault, (calculator.answer source).fault = some fault →
      fault.stage ≠ .internal ∧ fault.stage ≠ .listing ∧
      (∀ mnemonic needed available, fault ≠ .stackUnderflow mnemonic needed available) ∧
      ∀ depth, fault ≠ .unbalancedStack depth := by
  obtain ⟨ending, hending⟩ :
      ∃ ending, (calculator.answer source).EndsWith calculator.values source ending := by
    cases hscan : Token.scan source.toList with
    | error fault => exact ⟨_, endsWith_of_scan_error hscan⟩
    | ok tokens =>
      cases hparse : Expr.parse tokens with
      | error fault => exact ⟨_, endsWith_of_parse_error hscan hparse⟩
      | ok tree =>
        cases hvalue : tree.value calculator.values with
        | error fault => exact ⟨_, endsWith_of_value_error hscan hparse hvalue⟩
        | ok value => exact ⟨_, endsWith_of_value_ok hscan hparse hvalue⟩
  refine ⟨⟨ending, hending, ?_⟩, ?_⟩
  · intro other hother
    exact (Answer.ending_eq hother).symm.trans (Answer.ending_eq hending)
  · intro fault hfault
    rcases Answer.fault_of_endsWith hending hfault with hstage | hstage | ⟨name, rfl⟩ | rfl
    · cases fault <;> simp [Fault.stage] at hstage ⊢
    · cases fault <;> simp [Fault.stage] at hstage ⊢
    · simp [Fault.stage]
    · simp [Fault.stage]

end Calculator
end Abacus
