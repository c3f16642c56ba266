import Abacus.Proofs.Descent

/-!
What the procedures of the parser do at the token that the cursor is at, step by step. Each of
these lemmas follows one way through a procedure, up to the calls that it makes.
-/
namespace Abacus.Parser

open Abacus.Expr Grammar

section Actions

variable {α β : Type} {x : Parsing α} {f : α → Parsing β} {history later : History}
  {token : Token} {kind : TokenKind} {kinds : List TokenKind}

theorem bind_of_ok {a : α} (h : x history = some (.ok a, later)) :
    (x >>= f) history = f a later := by
  change (x history).bind _ = _
  rw [h]
  rfl

theorem bind_of_error {fault : Fault} (h : x history = some (.error fault, later)) :
    (x >>= f) history = some (.error fault, later) := by
  change (x history).bind _ = _
  rw [h]
  rfl

theorem peek_of_faces (h : history.now.Faces token) : peek history = some (.ok token, history) := by
  change (history.now.tokens[history.now.current]?).bind _ = _
  rw [h]
  rfl

theorem check_of_faces (h : history.now.Faces token) (kind : TokenKind) :
    check kind history = some (.ok (token.kind == kind), history) := by
  rw [check, bind_of_ok (peek_of_faces h)]
  rfl

theorem previous_forward (h : history.now.Faces token) :
    previous history.forward = some (.ok token, history.forward) := by
  change (history.now.tokens[history.now.current]?).bind _ = _
  rw [h]
  rfl

theorem advance_of_faces (h : history.now.Faces token) (hkind : token.kind ≠ .eof) :
    advance history = some (.ok token, history.forward) := by
  rw [advance, isAtEnd, bind_of_ok (check_of_faces h .eof), beq_false_of_ne hkind]
  exact previous_forward h

theorem matchKinds_of_not_mem (h : history.now.Faces token) (hkind : token.kind ∉ kinds) :
    matchKinds kinds history = some (.ok false, history) := by
  induction kinds with
  | nil => rfl
  | cons kind kinds ih =>
    have hne : token.kind ≠ kind := List.ne_of_not_mem_cons hkind
    rw [matchKinds, bind_of_ok (check_of_faces h kind), beq_false_of_ne hne]
    exact ih (List.not_mem_of_not_mem_cons hkind)

theorem matchKinds_of_mem (h : history.now.Faces token) (hkind : token.kind ∈ kinds)
    (hend : token.kind ≠ .eof) :
    matchKinds kinds history = some (.ok true, history.forward) := by
  induction kinds with
  | nil => cases hkind
  | cons kind kinds ih =>
    rw [matchKinds, bind_of_ok (check_of_faces h kind)]
    by_cases heq : token.kind = kind
    · rw [heq, beq_self_eq_true, if_pos rfl, bind_of_ok (advance_of_faces h hend)]
      rfl
    · rw [beq_false_of_ne heq]
      exact ih ((List.mem_cons.mp hkind).resolve_left heq)

theorem consume_of_eq (h : history.now.Faces token) (hkind : token.kind = kind)
    (hend : token.kind ≠ .eof) : consume kind history = some (.ok token, history.forward) := by
  rw [consume, bind_of_ok (check_of_faces h kind), hkind, beq_self_eq_true, if_pos rfl]
  exact advance_of_faces h hend

theorem consume_of_ne (h : history.now.Faces token) (hkind : token.kind ≠ kind) :
    consume kind history =
      some (.error (.mismatchedToken kind token.kind token.span), history) := by
  rw [consume, bind_of_ok (check_of_faces h kind), beq_false_of_ne hkind]
  exact bind_of_ok (peek_of_faces h)

theorem refuse_of_faces (h : history.now.Faces token) :
    refuse history = some (.error (unexpected token), history) :=
  bind_of_ok (peek_of_faces h)

theorem enter_of_lt (h : history.now.depth < maxNesting) :
    enter history = some (.ok (), history.deeper) := by
  have hnot : ¬ history.now.depth ≥ maxNesting := Nat.not_le_of_lt h
  have hget : (get : Parsing History) history = some (.ok history, history) := rfl
  rw [enter, bind_of_ok hget, if_neg hnot]
  rfl

theorem enter_of_ge (h : history.now.Faces token) (hdepth : history.now.depth ≥ maxNesting) :
    enter history = some (.error (.nestingTooDeep maxNesting token.span), history) := by
  have hget : (get : Parsing History) history = some (.ok history, history) := rfl
  rw [enter, bind_of_ok hget, if_pos hdepth, bind_of_ok (peek_of_faces h)]
  rfl

end Actions

section Procedures

variable {history later : History} {symbol : Symbol} {rank : Rank} {op : BinaryOp} {sign : Sign}
  {token : Token} {kind : TokenKind} {left : Expr} {outcome : Except Fault Expr}
  {turns height : Nat} {callee : Symbol → Parsing Expr}

theorem mem_operatorKinds : kind ∈ operatorKinds rank ↔ ∃ op, Joins rank kind op := by
  constructor
  · intro h
    cases rank <;> simp only [operatorKinds, List.mem_cons, List.not_mem_nil, or_false] at h
    case sum =>
      rcases h with rfl | rfl
      · exact ⟨_, .add⟩
      · exact ⟨_, .subtract⟩
    case product =>
      rcases h with rfl | rfl
      · exact ⟨_, .multiply⟩
      · exact ⟨_, .divide⟩
    case power =>
      cases h
      exact ⟨_, .power⟩
  · rintro ⟨op, h⟩
    cases h <;> simp [operatorKinds]

theorem mem_signKinds : kind ∈ signKinds ↔ ∃ sign, Signs kind sign := by
  simp only [signKinds, List.mem_cons, List.not_mem_nil, or_false]
  constructor
  · intro h
    rcases h with rfl | rfl
    · exact ⟨_, .plus⟩
    · exact ⟨_, .minus⟩
  · rintro ⟨sign, h⟩
    cases h <;> simp

theorem ofToken_of_joins (h : Joins rank token.kind op) : BinaryOp.ofToken token = .ok op := by
  generalize hkind : token.kind = kind at h
  cases h <;>
    simp [BinaryOp.ofToken, hkind, BinaryOp.ofSum?, BinaryOp.ofProduct?, BinaryOp.ofPower?]

theorem ofToken_of_signs (h : Signs token.kind sign) : Sign.ofToken token = .ok sign := by
  generalize hkind : token.kind = kind at h
  cases h <;> simp [Sign.ofToken, hkind, Sign.ofKind?]

theorem call_of_procedure
    (h : procedure (call turns height) turns symbol history = some (outcome, later)) :
    call turns (height + 1) symbol history =
      some (outcome, later.note ⟨symbol, history.now, later.now, outcome⟩) := by
  change (procedure (call turns height) turns symbol history).bind _ = _
  rw [h]
  rfl

/-- What is counted inside is no longer counted after it, whatever the outcome. -/
theorem nested_of_call (hdepth : history.now.depth < maxNesting)
    (h : callee symbol history.deeper = some (outcome, later))
    (hlater : later.now.depth = history.now.depth + 1) :
    nested callee symbol history =
      some (outcome, later.change { later.now with depth := history.now.depth }) := by
  have hleave : later.leave? =
      some (later.change { later.now with depth := history.now.depth }) := by
    rw [History.leave?, hlater]
  rw [nested, bind_of_ok (enter_of_lt hdepth), h]
  change later.leave?.bind _ = _
  rw [hleave]
  rfl

theorem nested_of_full (h : history.now.Faces token) (hdepth : history.now.depth ≥ maxNesting) :
    nested callee symbol history =
      some (.error (.nestingTooDeep maxNesting token.span), history) := by
  rw [nested, bind_of_error (enter_of_ge h hdepth)]

theorem extend_of_not_mem (h : history.now.Faces token) (hkind : token.kind ∉ operatorKinds rank) :
    extend callee rank (turns + 1) left history = some (.ok left, history) := by
  rw [extend, bind_of_ok (matchKinds_of_not_mem h hkind)]
  rfl

theorem extend_of_joins (h : history.now.Faces token) (hop : Joins rank token.kind op)
    (hend : token.kind ≠ .eof) :
    extend callee rank (turns + 1) left history =
      (callee rank.operand >>= fun right => extend callee rank turns (left.join op right))
        history.forward := by
  have hkind : token.kind ∈ operatorKinds rank := mem_operatorKinds.mpr ⟨op, hop⟩
  rw [extend, bind_of_ok (matchKinds_of_mem h hkind hend), if_pos rfl,
    bind_of_ok (previous_forward h), ofToken_of_joins hop]
  rfl

theorem procedure_chain :
    procedure callee turns (.chain rank) history =
      (callee rank.operand >>= extend callee rank turns) history := by
  rw [procedure]

theorem procedure_signed (h : history.now.Faces token) (hsign : Signs token.kind sign)
    (hend : token.kind ≠ .eof) :
    procedure callee turns .factor history =
      (nested callee .factor >>= fun operand => pure (signed sign token operand))
        history.forward := by
  have hkind : token.kind ∈ signKinds := mem_signKinds.mpr ⟨sign, hsign⟩
  have hprevious := previous_forward h
  rw [procedure, bind_of_ok (matchKinds_of_mem h hkind hend), if_pos rfl, bind_of_ok hprevious,
    ofToken_of_signs hsign]
  exact bind_of_ok hprevious

theorem procedure_unsigned (h : history.now.Faces token)
    (hkind : ∀ sign, ¬ Signs token.kind sign) :
    procedure callee turns .factor history = callee .power history := by
  have hnone : token.kind ∉ signKinds := by
    rw [mem_signKinds]
    exact not_exists.mpr hkind
  rw [procedure, bind_of_ok (matchKinds_of_not_mem h hnone)]
  rfl

theorem procedure_number {value : Float} (h : history.now.Faces token)
    (hkind : token.kind = .number) (hvalue : token.number? = some value) :
    procedure callee turns .atom history =
      some (.ok (.number value token.span), history.forward) := by
  have hend : token.kind ≠ .eof := by simp [hkind]
  rw [procedure, bind_of_ok (peek_of_faces h)]
  simp only [hkind]
  rw [bind_of_ok (advance_of_faces h hend), hvalue]
  rfl

/-- A number without a value is refused when the cursor is past it. -/
theorem procedure_number_of_none (h : history.now.Faces token) (hkind : token.kind = .number)
    (hvalue : token.number? = none) :
    procedure callee turns .atom history = some (.error (unexpected token), history.forward) := by
  have hend : token.kind ≠ .eof := by simp [hkind]
  rw [procedure, bind_of_ok (peek_of_faces h)]
  simp only [hkind]
  rw [bind_of_ok (advance_of_faces h hend), hvalue]
  rfl

theorem procedure_identifier (h : history.now.Faces token) (hkind : token.kind = .identifier) :
    procedure callee turns .atom history =
      some (.ok (.identifier token.text token.span), history.forward) := by
  have hend : token.kind ≠ .eof := by simp [hkind]
  rw [procedure, bind_of_ok (peek_of_faces h)]
  simp only [hkind]
  rw [bind_of_ok (advance_of_faces h hend)]
  rfl

theorem procedure_group (h : history.now.Faces token) (hkind : token.kind = .leftParen) :
    procedure callee turns .atom history =
      (nested callee .expression >>= fun e => consume .rightParen >>= fun _ => pure e)
        history.forward := by
  have hend : token.kind ≠ .eof := by simp [hkind]
  rw [procedure, bind_of_ok (peek_of_faces h)]
  simp only [hkind]
  rw [bind_of_ok (advance_of_faces h hend)]

theorem procedure_refused (h : history.now.Faces token)
    (hkind : token.kind ∉ [TokenKind.number, .identifier, .leftParen]) :
    procedure callee turns .atom history = some (.error (unexpected token), history) := by
  rw [procedure, bind_of_ok (peek_of_faces h)]
  cases hfound : token.kind with
  | number | identifier | leftParen => simp [hfound] at hkind
  | _ => exact refuse_of_faces h

end Procedures

def Refines {α : Type} (x y : Parsing α) : Prop :=
  ∀ history result, x history = some result → y history = some result

section Bounds

variable {α β : Type} {x y : Parsing α} {f g : α → Parsing β} {symbol : Symbol} {rank : Rank}
  {turns turns' height height' : Nat} {callee callee' : Symbol → Parsing Expr}

theorem Refines.refl (x : Parsing α) : Refines x x := fun _ _ h => h

theorem Refines.bind (hx : Refines x y) (hf : ∀ a, Refines (f a) (g a)) :
    Refines (x >>= f) (y >>= g) := by
  intro history result h
  cases hresult : x history with
  | none =>
    have hnone : (x >>= f) history = none := by
      change (x history).bind _ = _
      rw [hresult]
      rfl
    rw [hnone] at h
    cases h
  | some found =>
    obtain ⟨a | a, later⟩ := found
    · rw [bind_of_error hresult] at h
      rw [bind_of_error (hx _ _ hresult)]
      exact h
    · rw [bind_of_ok hresult] at h
      rw [bind_of_ok (hx _ _ hresult)]
      exact hf a _ _ h

theorem Refines.ite {b : Bool} {x' y' : Parsing α} (hx : Refines x y) (hx' : Refines x' y') :
    Refines (if b then x else x') (if b then y else y') := by
  cases b
  · exact hx'
  · exact hx

theorem nested_refines (hcallee : ∀ symbol, Refines (callee symbol) (callee' symbol))
    (symbol : Symbol) :
    Refines (nested callee symbol) (nested callee' symbol) := by
  refine .bind (.refl _) fun _ => ?_
  intro history result h
  obtain ⟨found, hfound, hleave⟩ := Option.bind_eq_some_iff.mp h
  exact Option.bind_eq_some_iff.mpr ⟨found, hcallee _ _ _ hfound, hleave⟩

theorem extend_refines (hcallee : ∀ symbol, Refines (callee symbol) (callee' symbol))
    (hturns : turns ≤ turns') (left : Expr) :
    Refines (extend callee rank turns left) (extend callee' rank turns' left) := by
  induction turns generalizing turns' left with
  | zero => exact fun _ _ h => by cases h
  | succ turns ih =>
    obtain ⟨more, rfl⟩ : ∃ more, turns' = more + 1 := ⟨turns' - 1, by omega⟩
    refine .bind (.refl _) fun matched => .ite ?_ (.refl _)
    refine .bind (.refl _) fun token => .bind (.refl _) fun op => .bind (hcallee _) fun right => ?_
    exact ih (by omega) _

theorem procedure_refines (hcallee : ∀ symbol, Refines (callee symbol) (callee' symbol))
    (hturns : turns ≤ turns') (symbol : Symbol) :
    Refines (procedure callee turns symbol) (procedure callee' turns' symbol) := by
  cases symbol with
  | chain rank => exact .bind (hcallee _) fun first => extend_refines hcallee hturns first
  | factor =>
    refine .bind (.refl _) fun matched => .ite ?_ (hcallee _)
    refine .bind (.refl _) fun token => .bind (.refl _) fun sign => .bind (.refl _) fun token => ?_
    exact .bind (nested_refines hcallee _) fun operand => .refl _
  | atom =>
    refine .bind (.refl _) fun token => ?_
    cases hkind : token.kind with
    | leftParen =>
      refine .bind (.refl _) fun _ => ?_
      exact .bind (nested_refines hcallee _) fun e => .refl _
    | _ => exact .refl _

/-- With more room for turns and calls, whatever has come to an end still comes to the same. -/
theorem call_refines (hturns : turns ≤ turns') (hheight : height ≤ height') (symbol : Symbol) :
    Refines (call turns height symbol) (call turns' height' symbol) := by
  induction height generalizing height' symbol with
  | zero => exact fun _ _ h => by cases h
  | succ height ih =>
    obtain ⟨more, rfl⟩ : ∃ more, height' = more + 1 := ⟨height' - 1, by omega⟩
    have hless : height ≤ more := by omega
    intro history result h
    obtain ⟨found, hfound, hnote⟩ := Option.bind_eq_some_iff.mp h
    have hmore := procedure_refines (ih hless) hturns symbol history found hfound
    exact Option.bind_eq_some_iff.mpr ⟨found, hmore, hnote⟩

theorem parse_refines (hturns : turns ≤ turns') (hheight : height ≤ height') :
    Refines (parse turns height) (parse turns' height') :=
  .bind (call_refines hturns hheight _) fun _ => .refl _

end Bounds

end Abacus.Parser
