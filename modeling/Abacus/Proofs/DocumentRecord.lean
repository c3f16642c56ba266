import Abacus.Document
import Abacus.Proofs.DocumentPrinting

/-!
What the document of an answer tells. A record has the parts that go into a document: a fault is
told by its stage, message and span, and a step by its instruction, number, stacks and description.
No two records of finite numbers have the same printed document, so nothing of a record is lost
on the way to the text. The parts of a record may be put together by hand and need not belong
to one run.
-/
namespace Abacus

@[ext]
structure FaultSummary where
  stage : Stage
  message : String
  span? : Option Span
deriving DecidableEq

@[ext]
structure StepRecord where
  index : Nat
  instruction : Instruction
  before : Stack
  after : Stack
  description : String
deriving DecidableEq

@[ext]
structure RunRecord where
  steps : List StepRecord
  isComplete : Bool
  halted : Bool
  result : Option Float
  fault : Option FaultSummary
deriving DecidableEq

@[ext]
structure Record where
  tokens : List Token
  tree : Option Expr
  program : Program
  result : Option Float
  run : Option RunRecord
  fault : Option FaultSummary
deriving DecidableEq

def FaultSummary.document (summary : FaultSummary) : Json :=
  .object [
    ("kind", .text summary.stage.name),
    ("message", .text summary.message),
    ("span", .ofOption Span.document summary.span?)]

def StepRecord.document (step : StepRecord) : Json :=
  .object [
    ("instruction", step.instruction.document),
    ("instructionIndex", .natural step.index),
    ("stackBefore", Stack.document step.before),
    ("stackAfter", Stack.document step.after),
    ("description", .text step.description)]

def RunRecord.document (run : RunRecord) : Json :=
  .object [
    ("steps", .list (run.steps.map StepRecord.document)),
    ("isComplete", .bool run.isComplete),
    ("halted", .bool run.halted),
    ("result", .ofOption .decimal run.result),
    ("error", .ofOption FaultSummary.document run.fault)]

def Record.document (record : Record) : Json :=
  .object [
    ("tokens", .list (record.tokens.map Token.document)),
    ("ast", .ofOption Expr.document record.tree),
    ("bytecode", .list (record.program.map Instruction.document)),
    ("result", .ofOption .decimal record.result),
    ("execution", .ofOption RunRecord.document record.run),
    ("error", .ofOption FaultSummary.document record.fault)]

def Fault.summary (fault : Fault) : FaultSummary := ⟨fault.stage, fault.message, fault.span?⟩

def Step.record (step : Step) : StepRecord :=
  ⟨step.index, step.instruction, step.before, step.after.stack, step.description⟩

def Trace.record (trace : Trace) : RunRecord :=
  ⟨trace.steps.map Step.record, true, trace.halted, trace.result?,
    trace.final.fault.map Fault.summary⟩

def Answer.record (answer : Answer) : Record :=
  ⟨answer.tokens, answer.tree, answer.program, answer.result, answer.trace.map Trace.record,
    answer.fault.map Fault.summary⟩

theorem Json.ofOption_map {α β : Type} (encode : β → Json) (f : α → β) (o : Option α) :
    ofOption encode (o.map f) = ofOption (encode ∘ f) o := by
  cases o <;> rfl

theorem Trace.document_record (trace : Trace) : trace.record.document = trace.document := by
  rw [RunRecord.document, record, List.map_map, Json.ofOption_map]
  rfl

/-- The document of an answer is that of its record. -/
theorem Answer.document_record (answer : Answer) : answer.record.document = answer.document := by
  have htrace : RunRecord.document ∘ Trace.record = Trace.document :=
    funext Trace.document_record
  rw [Record.document, record, Json.ofOption_map, Json.ofOption_map, htrace]
  rfl

def Payload.IsFinite : Payload → Prop
  | .number value => Binary.isFinite value
  | .text _ => True

def Expr.IsFinite : Expr → Prop
  | .number value _ => Binary.isFinite value
  | .identifier .. => True
  | .binary _ left right _ => left.IsFinite ∧ right.IsFinite
  | .unary _ operand _ => operand.IsFinite

def Instruction.IsFinite : Instruction → Prop
  | .push value => Binary.isFinite value
  | .load _ | .apply _ | .negate => True

structure StepRecord.IsFinite (step : StepRecord) : Prop where
  instruction : step.instruction.IsFinite
  before : ∀ value ∈ step.before, Binary.isFinite value
  after : ∀ value ∈ step.after, Binary.isFinite value

structure RunRecord.IsFinite (run : RunRecord) : Prop where
  steps : ∀ step ∈ run.steps, step.IsFinite
  result : ∀ value ∈ run.result, Binary.isFinite value

structure Record.IsFinite (record : Record) : Prop where
  tokens : ∀ token ∈ record.tokens, token.payload.IsFinite
  tree : ∀ e ∈ record.tree, e.IsFinite
  program : ∀ instruction ∈ record.program, instruction.IsFinite
  result : ∀ value ∈ record.result, Binary.isFinite value
  run : ∀ run ∈ record.run, run.IsFinite

@[simp]
theorem Span.isFinite_document (span : Span) : span.document.IsFinite := by simp [document]

@[simp]
theorem Payload.isFinite_document {payload : Payload} :
    payload.document.IsFinite ↔ payload.IsFinite := by
  cases payload <;> simp [document, IsFinite]

@[simp]
theorem Token.isFinite_document {token : Token} :
    token.document.IsFinite ↔ token.payload.IsFinite := by simp [document]

@[simp]
theorem Expr.isFinite_document {e : Expr} : e.document.IsFinite ↔ e.IsFinite := by
  induction e with
  | number | identifier => simp [document, IsFinite]
  | binary op left right span ihl ihr => simp [document, IsFinite, ihl, ihr]
  | unary sign operand span ih => simp [document, IsFinite, ih]

@[simp]
theorem Instruction.isFinite_document (instruction : Instruction) :
    instruction.document.IsFinite := by simp [document]

@[simp]
theorem Stack.isFinite_document {stack : Stack} :
    (Stack.document stack).IsFinite ↔ ∀ value ∈ stack, Binary.isFinite value := by
  simp [document]

@[simp]
theorem FaultSummary.isFinite_document (summary : FaultSummary) : summary.document.IsFinite := by
  simp [document]

theorem StepRecord.IsFinite.document {step : StepRecord} (h : step.IsFinite) :
    step.document.IsFinite := by
  simpa [StepRecord.document] using And.intro h.before h.after

theorem RunRecord.IsFinite.document {run : RunRecord} (h : run.IsFinite) :
    run.document.IsFinite := by
  have hsteps : ∀ step ∈ run.steps, step.document.IsFinite :=
    fun step hstep => (h.steps step hstep).document
  simpa [RunRecord.document] using And.intro hsteps h.result

theorem Record.IsFinite.document {record : Record} (h : record.IsFinite) :
    record.document.IsFinite := by
  have hrun : ∀ run ∈ record.run, run.document.IsFinite := fun run hmem => (h.run run hmem).document
  simpa [Record.document] using And.intro h.tokens (And.intro h.tree (And.intro h.result hrun))

namespace Json

theorem list_map_inj {α : Type} {encode : α → Json} {xs ys : List α}
    (hencode : ∀ x ∈ xs, ∀ y ∈ ys, encode x = encode y → x = y)
    (h : list (xs.map encode) = list (ys.map encode)) : xs = ys :=
  eq_of_map_eq hencode (list.inj h)

/-- What is there is told apart, and is told apart from nothing. -/
theorem ofOption_inj {α : Type} {encode : α → Json} {o o' : Option α}
    (hnull : ∀ a, encode a ≠ .null)
    (hencode : ∀ a ∈ o, ∀ a' ∈ o', encode a = encode a' → a = a')
    (h : ofOption encode o = ofOption encode o') : o = o' := by
  cases o with
  | none =>
    cases o' with
    | none => rfl
    | some a' => exact absurd h.symm (hnull a')
  | some a =>
    cases o' with
    | none => exact absurd h (hnull a)
    | some a' => rw [hencode a rfl a' rfl h]

theorem ofOption_decimal_inj {value value' : Option Float}
    (h : ofOption .decimal value = ofOption .decimal value') : value = value' :=
  ofOption_inj (by simp) (fun _ _ _ _ => decimal.inj) h

end Json

theorem Span.document_inj {span span' : Span} (h : span.document = span'.document) :
    span = span' := by
  obtain ⟨start, stop⟩ := span
  obtain ⟨start', stop'⟩ := span'
  simpa [document] using h

theorem Payload.document_inj {payload payload' : Payload}
    (h : payload.document = payload'.document) : payload = payload' := by
  cases payload with
  | number value =>
    cases payload' with
    | number value' => rw [Json.decimal.inj h]
    | text lexeme => cases h
  | text lexeme =>
    cases payload' with
    | number value => cases h
    | text lexeme' => rw [Json.text.inj h]

theorem Token.document_inj {token token' : Token} (h : token.document = token'.document) :
    token = token' := by
  obtain ⟨kind, payload, span⟩ := token
  obtain ⟨kind', payload', span'⟩ := token'
  simp only [document, Json.object.injEq, List.cons.injEq, Prod.mk.injEq, true_and, and_true,
    Json.text.injEq] at h
  rw [TokenKind.name_inj h.1, Payload.document_inj h.2.1, Span.document_inj h.2.2]

/-- The form of a node is told by its first field, and decides which fields follow. -/
theorem Expr.document_inj {e e' : Expr} (h : e.document = e'.document) : e = e' := by
  induction e generalizing e' with
  | number value span =>
    cases e' with
    | number value' span' =>
      simp only [document, Json.object.injEq, List.cons.injEq, Prod.mk.injEq, true_and, and_true,
        Json.decimal.injEq] at h
      rw [h.2.1, Span.document_inj h.2.2]
    | identifier | binary | unary => simp [document, typeName] at h
  | identifier name span =>
    cases e' with
    | identifier name' span' =>
      simp only [document, Json.object.injEq, List.cons.injEq, Prod.mk.injEq, true_and, and_true,
        Json.text.injEq] at h
      rw [h.2.1, Span.document_inj h.2.2]
    | number | binary | unary => simp [document, typeName] at h
  | binary op left right span ihl ihr =>
    cases e' with
    | binary op' left' right' span' =>
      simp only [document, Json.object.injEq, List.cons.injEq, Prod.mk.injEq, true_and, and_true,
        Json.text.injEq] at h
      obtain ⟨-, hleft, hop, hright, hspan⟩ := h
      rw [ihl hleft, BinaryOp.symbol_inj hop, ihr hright, Span.document_inj hspan]
    | number | identifier | unary => simp [document, typeName] at h
  | unary sign operand span ih =>
    cases e' with
    | unary sign' operand' span' =>
      simp only [document, Json.object.injEq, List.cons.injEq, Prod.mk.injEq, true_and, and_true,
        Json.text.injEq] at h
      obtain ⟨-, hsign, hoperand, hspan⟩ := h
      rw [Sign.symbol_inj hsign, ih hoperand, Span.document_inj hspan]
    | number | identifier | binary => simp [document, typeName] at h

theorem Instruction.render_inj {instruction instruction' : Instruction}
    (hfinite : instruction.IsFinite) (hfinite' : instruction'.IsFinite)
    (h : instruction.render = instruction'.render) : instruction = instruction' := by
  have hchars := congrArg String.toList h
  cases instruction with
  | push value =>
    cases instruction' with
    | push value' =>
      have hvalue : Binary.isFinite value := hfinite
      rw [render, render, mnemonic, mnemonic, String.append_right_inj] at h
      rw [NumberStyle.write_inj .plain hvalue hfinite' h]
    | load | negate => simp [render, mnemonic] at hchars
    | apply op => cases op <;> simp [render, mnemonic, BinaryOp.mnemonic] at hchars
  | load name =>
    cases instruction' with
    | load name' =>
      rw [render, render, mnemonic, mnemonic, String.append_right_inj] at h
      rw [h]
    | push | negate => simp [render, mnemonic] at hchars
    | apply op => cases op <;> simp [render, mnemonic, BinaryOp.mnemonic] at hchars
  | apply op =>
    cases instruction' with
    | apply op' =>
      cases op <;> cases op' <;>
        first | rfl | simp [render, mnemonic, BinaryOp.mnemonic] at hchars
    | push | load | negate => cases op <;> simp [render, mnemonic, BinaryOp.mnemonic] at hchars
  | negate =>
    cases instruction' with
    | negate => rfl
    | push | load => simp [render, mnemonic] at hchars
    | apply op => cases op <;> simp [render, mnemonic, BinaryOp.mnemonic] at hchars

theorem Instruction.document_inj {instruction instruction' : Instruction}
    (hfinite : instruction.IsFinite) (hfinite' : instruction'.IsFinite)
    (h : instruction.document = instruction'.document) : instruction = instruction' :=
  render_inj hfinite hfinite' (Json.text.inj h)

theorem Stack.document_inj {stack stack' : Stack}
    (h : Stack.document stack = Stack.document stack') : stack = stack' :=
  List.reverse_inj.mp (Json.list_map_inj (fun _ _ _ _ => Json.decimal.inj) h)

theorem FaultSummary.document_inj {summary summary' : FaultSummary}
    (h : summary.document = summary'.document) : summary = summary' := by
  simp only [document, Json.object.injEq, List.cons.injEq, Prod.mk.injEq, true_and, and_true,
    Json.text.injEq] at h
  obtain ⟨hstage, hmessage, hspan⟩ := h
  have hsame := Json.ofOption_inj (by simp [Span.document])
    (fun _ _ _ _ => Span.document_inj) hspan
  exact FaultSummary.ext (Stage.name_inj hstage) hmessage hsame

theorem FaultSummary.ofOption_document_inj {summary summary' : Option FaultSummary}
    (h : Json.ofOption document summary = Json.ofOption document summary') : summary = summary' :=
  Json.ofOption_inj (by simp [document]) (fun _ _ _ _ => document_inj) h

theorem StepRecord.document_inj {step step' : StepRecord} (hfinite : step.IsFinite)
    (hfinite' : step'.IsFinite) (h : step.document = step'.document) : step = step' := by
  simp only [document, Json.object.injEq, List.cons.injEq, Prod.mk.injEq, true_and, and_true,
    Json.text.injEq, Json.natural.injEq] at h
  obtain ⟨hinstruction, hindex, hbefore, hafter, hdescription⟩ := h
  have hsame := Instruction.document_inj hfinite.instruction hfinite'.instruction hinstruction
  exact StepRecord.ext hindex hsame (Stack.document_inj hbefore) (Stack.document_inj hafter)
    hdescription

theorem RunRecord.document_inj {run run' : RunRecord} (hfinite : run.IsFinite)
    (hfinite' : run'.IsFinite) (h : run.document = run'.document) : run = run' := by
  simp only [document, Json.object.injEq, List.cons.injEq, Prod.mk.injEq, true_and, and_true,
    Json.bool.injEq] at h
  obtain ⟨hsteps, hcomplete, hhalted, hresult, hfault⟩ := h
  have hsame := Json.list_map_inj (fun step hstep step' hstep' =>
    StepRecord.document_inj (hfinite.steps step hstep) (hfinite'.steps step' hstep')) hsteps
  exact RunRecord.ext hsame hcomplete hhalted (Json.ofOption_decimal_inj hresult)
    (FaultSummary.ofOption_document_inj hfault)

theorem Record.document_inj {record record' : Record} (hfinite : record.IsFinite)
    (hfinite' : record'.IsFinite) (h : record.document = record'.document) :
    record = record' := by
  simp only [document, Json.object.injEq, List.cons.injEq, Prod.mk.injEq, true_and, and_true] at h
  obtain ⟨htokens, htree, hprogram, hresult, hrun, hfault⟩ := h
  have hsameTokens := Json.list_map_inj (fun _ _ _ _ => Token.document_inj) htokens
  have hsameTree := Json.ofOption_inj (fun e => by cases e <;> simp [Expr.document])
    (fun _ _ _ _ => Expr.document_inj) htree
  have hsameProgram := Json.list_map_inj (fun i hi i' hi' =>
    Instruction.document_inj (hfinite.program i hi) (hfinite'.program i' hi')) hprogram
  have hsameRun := Json.ofOption_inj (by simp [RunRecord.document])
    (fun run hrun run' hrun' =>
      RunRecord.document_inj (hfinite.run run hrun) (hfinite'.run run' hrun')) hrun
  exact Record.ext hsameTokens hsameTree hsameProgram (Json.ofOption_decimal_inj hresult)
    hsameRun (FaultSummary.ofOption_document_inj hfault)

theorem Record.eq_of_print {record record' : Record} (hfinite : record.IsFinite)
    (hfinite' : record'.IsFinite) (h : record.document.print = record'.document.print) :
    record = record' :=
  document_inj hfinite hfinite' (Json.print_inj hfinite.document hfinite'.document h)

/-- Records of finite numbers with the same printed document are the same, whether or not their
parts belong to one run. So are the records of answers: the tokens, the tree, the program and the
result, each step of the run, and what is told about the faults. -/
theorem document_determines_record :
    (∀ record record' : Record, record.IsFinite → record'.IsFinite →
      record.document.print = record'.document.print → record = record') ∧
    ∀ answer answer' : Answer, answer.record.IsFinite → answer'.record.IsFinite →
      answer.document.print = answer'.document.print →
      answer.tokens = answer'.tokens ∧ answer.tree = answer'.tree ∧
      answer.program = answer'.program ∧ answer.result = answer'.result ∧
      answer.trace.map Trace.record = answer'.trace.map Trace.record ∧
      answer.fault.map Fault.summary = answer'.fault.map Fault.summary := by
  refine ⟨fun record record' hfinite hfinite' h => Record.eq_of_print hfinite hfinite' h, ?_⟩
  intro answer answer' hfinite hfinite' h
  rw [← Answer.document_record, ← Answer.document_record] at h
  have hsame := Record.eq_of_print hfinite hfinite' h
  exact ⟨congrArg Record.tokens hsame, congrArg Record.tree hsame,
    congrArg Record.program hsame, congrArg Record.result hsame, congrArg Record.run hsame,
    congrArg Record.fault hsame⟩

/-- The two zeros are the same number to a comparison, but not in a document. -/
theorem document_of_zero_ne_negative_zero :
    (Answer.mk [] none [.push 0] (some 0) none none).record.IsFinite ∧
      (Answer.mk [] none [.push 0] (some (-0)) none none).record.IsFinite ∧
      (Answer.mk [] none [.push 0] (some 0) none none).document.print ≠
        (Answer.mk [] none [.push 0] (some (-0)) none none).document.print := by
  have hzero : Binary.isFinite 0 := by decide
  have hnegative : Binary.isFinite (-0) := by decide
  have hfinite (result : Float) (h : Binary.isFinite result) :
      (Answer.mk [] none [.push 0] (some result) none none).record.IsFinite := by
    constructor
    case tokens => exact List.forall_mem_nil _
    case tree => exact fun _ he => absurd he (by simp [Answer.record])
    case program => exact List.forall_mem_singleton.mpr hzero
    case result =>
      rintro _ ⟨⟩
      exact h
    case run => exact fun _ hrun => absurd hrun (by simp [Answer.record])
  refine ⟨hfinite 0 hzero, hfinite (-0) hnegative, fun h => ?_⟩
  obtain ⟨-, -, -, hresult, -⟩ :=
    document_determines_record.2 _ _ (hfinite 0 hzero) (hfinite (-0) hnegative) h
  revert hresult
  decide

end Abacus
