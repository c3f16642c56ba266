import Abacus.Proofs.OpenNesting
import Abacus.Proofs.Procedures

/-!
What a parser keeps to at work. Its cursor does not go back, and is never past the first end of
input. A procedure finds counted what is open when it is called and leaves the count as it was; if
it succeeds, it has taken a token. Here are the steps that keep to this: the cursor moves on, the
nesting is counted anew, a call is noted.
-/
namespace Abacus.Parser

open Abacus.Expr Grammar

/-- The cursor is at a token, with no end of input before it. -/
structure InRange (parser : Parser) : Prop where
  index : parser.current < parser.tokens.length
  before : ∀ token ∈ parser.tokens.take parser.current, token.kind ≠ .eof

/-- At its entry a procedure finds counted the signs and parentheses that the tokens before the
cursor leave open. An outcome of either kind leaves the count as it was. -/
structure Call.Disciplined (call : Call) : Prop where
  counted : call.before.depth = (opened (call.before.tokens.take call.before.current)).length
  bounded : call.before.depth ≤ maxNesting
  restored : call.after.depth = call.before.depth
  moved : ∀ e, call.outcome = .ok e → call.before.current < call.after.current
  known : ∀ symbol span, call.outcome ≠ .error (.unknownOperator symbol span)

structure History.Disciplined (start : Parser) (history : History) : Prop where
  begins : history.states.getLast? = some start
  ascending : history.states.Pairwise fun later earlier => earlier.current ≤ later.current
  within : ∀ parser ∈ history.states,
    parser.tokens = start.tokens ∧ parser.InRange ∧ parser.depth ≤ maxNesting
  called : ∀ call ∈ history.calls, call.Disciplined

/-- The cursor is between two stretches of the tokens. -/
structure Between (front rest : List Token) (parser : Parser) : Prop where
  tokens : parser.tokens = front ++ rest
  current : parser.current = front.length

/-- A stretch of work that keeps to the discipline and leaves the nesting counted as it was. -/
structure History.Continues (start : Parser) (history later : History) : Prop where
  disciplined : later.Disciplined start
  current : history.now.current ≤ later.now.current
  depth : later.now.depth = history.now.depth

section Places

variable {parser : Parser} {history later : History} {front rest : List Token}
  {stop token : Token} {kinds : List TokenKind}

theorem inRange_of_before (hend : ∃ token ∈ parser.tokens, token.kind = .eof)
    (hbefore : ∀ token ∈ parser.tokens.take parser.current, token.kind ≠ .eof) :
    parser.InRange := by
  refine ⟨?_, hbefore⟩
  obtain ⟨token, htoken, hkind⟩ := hend
  refine Nat.lt_of_not_le fun hle => ?_
  rw [List.take_of_length_le hle] at hbefore
  exact hbefore token htoken hkind

theorem Between.faces (h : parser.Between front (token :: rest)) : parser.Faces token := by
  rw [Faces, h.tokens, h.current]
  simp

/-- The first token of the rest, or else the end of the input. -/
theorem Between.faces_next {extra : List Token} (h : parser.Between front (rest ++ stop :: extra)) :
    parser.Faces (rest.head?.getD stop) := by
  cases rest with
  | nil => exact h.faces
  | cons token rest => exact h.faces

theorem Between.take (h : parser.Between front rest) :
    parser.tokens.take parser.current = front := by
  rw [h.tokens, h.current, List.take_left]

theorem Between.forward (h : history.now.Between front (token :: rest)) :
    history.forward.now.Between (front ++ [token]) rest := by
  constructor
  · rw [List.append_assoc]
    exact h.tokens
  · rw [List.length_append]
    exact congrArg (· + 1) h.current

/-- What has been matched is the token that was at the cursor. It is the previous one now, and an
operator or a sign if it was matched as one. -/
structure Matched (parser : Parser) (kinds : List TokenKind) (later : History) (token : Token) :
    Prop where
  faced : parser.Faces token
  kind : token.kind ∈ kinds
  previous : previous later = some (.ok token, later)
  operator : ∀ rank, kinds = operatorKinds rank → ∃ op, BinaryOp.ofToken token = .ok op
  sign : kinds = signKinds → ∃ sign, Sign.ofToken token = .ok sign

theorem InRange.matched (h : history.now.InRange) (hkinds : .eof ∉ kinds)
    (hmatch : matchKinds kinds history = some (.ok true, later)) :
    ∃ token, history.now.Matched kinds later token := by
  obtain ⟨token, hfaces⟩ : ∃ token, history.now.Faces token :=
    ⟨_, List.getElem?_eq_getElem h.index⟩
  by_cases hkind : token.kind ∈ kinds
  · have hend : token.kind ≠ .eof := fun hend => hkinds (hend ▸ hkind)
    rw [matchKinds_of_mem hfaces hkind hend] at hmatch
    cases hmatch
    refine ⟨token, ?_⟩
    constructor
    case faced => exact hfaces
    case kind => exact hkind
    case previous => exact previous_forward hfaces
    case operator =>
      rintro rank rfl
      obtain ⟨op, hop⟩ := mem_operatorKinds.mp hkind
      exact ⟨op, ofToken_of_joins hop⟩
    case sign =>
      rintro rfl
      obtain ⟨sign, hsign⟩ := mem_signKinds.mp hkind
      exact ⟨sign, ofToken_of_signs hsign⟩
  · rw [matchKinds_of_not_mem hfaces hkind] at hmatch
    cases hmatch

end Places

section Steps

variable {start parser : Parser} {history middle later : History} {front rest extra : List Token}
  {stop token : Token} {depth : Nat}

theorem History.Disciplined.now (h : history.Disciplined start) :
    history.now.tokens = start.tokens ∧ history.now.InRange ∧ history.now.depth ≤ maxNesting :=
  h.within history.now List.mem_cons_self

theorem History.Disciplined.change (h : history.Disciplined start)
    (htokens : parser.tokens = start.tokens) (hcurrent : history.now.current ≤ parser.current)
    (hrange : parser.InRange) (hdepth : parser.depth ≤ maxNesting) :
    (history.change parser).Disciplined start := by
  constructor
  case begins =>
    rw [← h.begins]
    rfl
  case ascending =>
    refine List.pairwise_cons.mpr ⟨?_, h.ascending⟩
    intro earlier hearlier
    rcases List.mem_cons.mp hearlier with rfl | hpast
    · exact hcurrent
    · exact Nat.le_trans ((List.pairwise_cons.mp h.ascending).1 earlier hpast) hcurrent
  case within =>
    intro state hstate
    rcases List.mem_cons.mp hstate with rfl | hpast
    · exact ⟨htokens, hrange, hdepth⟩
    · exact h.within state hpast
  case called => exact h.called

theorem History.Disciplined.note (h : history.Disciplined start) {call : Call}
    (hcall : call.Disciplined) : (history.note call).Disciplined start := by
  refine ⟨h.begins, h.ascending, h.within, ?_⟩
  intro other hother
  rcases List.mem_cons.mp hother with rfl | hpast
  · exact hcall
  · exact h.called other hpast

/-- The nesting may be counted anew within the limit. -/
theorem History.Disciplined.recount (h : history.Disciplined start) (hdepth : depth ≤ maxNesting) :
    (history.change { history.now with depth }).Disciplined start := by
  obtain ⟨htokens, hrange, -⟩ := h.now
  exact h.change htokens (Nat.le_refl _) ⟨hrange.index, hrange.before⟩ hdepth

/-- A token may be taken that is not the end of the input. -/
theorem History.Disciplined.forward (h : history.Disciplined start) (hstop : stop.kind = .eof)
    (hbetween : history.now.Between front (token :: rest ++ stop :: extra))
    (hkind : token.kind ≠ .eof) : history.Continues start history.forward := by
  obtain ⟨htokens, hrange, hdepth⟩ := h.now
  have hnext : history.forward.now.Between (front ++ [token]) (rest ++ stop :: extra) :=
    hbetween.forward
  have hforward : history.forward.now.InRange := by
    apply inRange_of_before
    · refine ⟨stop, ?_, hstop⟩
      rw [hnext.tokens]
      simp
    · rw [hnext.take]
      intro earlier hearlier
      rcases List.mem_append.mp hearlier with hfront | hlast
      · rw [← hbetween.take] at hfront
        exact hrange.before earlier hfront
      · rwa [List.mem_singleton.mp hlast]
  have hle : history.now.current ≤ history.forward.now.current := Nat.le_succ _
  exact ⟨h.change htokens hle hforward hdepth, hle, rfl⟩

theorem History.Disciplined.continues (h : history.Disciplined start) :
    history.Continues start history :=
  ⟨h, Nat.le_refl _, rfl⟩

theorem History.Continues.trans (h : history.Continues start middle)
    (h' : middle.Continues start later) : history.Continues start later :=
  ⟨h'.disciplined, Nat.le_trans h.current h'.current, h'.depth.trans h.depth⟩

end Steps

end Abacus.Parser
