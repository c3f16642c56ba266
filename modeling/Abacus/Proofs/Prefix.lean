import Abacus.Proofs.Grammar
import Mathlib.Algebra.Ring.Int.Defs

/-!
Beginnings of phrases. A token list begins a phrase if some tokens after it complete one. Tokens
without a place in any source serve as the ones that are missing, so that every point of a
phrase where an operand or a closing parenthesis is wanted can be completed.
-/
namespace Abacus.Grammar

variable {symbol : Symbol} {room depth : Nat} {tokens : List Token} {e : Expr}

def Begins (symbol : Symbol) (room : Nat) (tokens : List Token) : Prop :=
  ∃ later depth e, Phrase symbol depth (tokens ++ later) e ∧ depth ≤ room

def Viable (tokens : List Token) : Prop := ∃ later e, Sentence (tokens ++ later) e

theorem viable_iff_begins : Viable tokens ↔ Begins .expression Expr.maxNesting tokens := by
  constructor
  · intro h
    obtain ⟨later, e, depth, hdepth, h⟩ := h
    exact ⟨later, depth, e, h, hdepth⟩
  · intro h
    obtain ⟨later, depth, e, h, hdepth⟩ := h
    exact ⟨later, e, depth, hdepth, h⟩

theorem Phrase.begins (h : Phrase symbol depth tokens e) (hdepth : depth ≤ room) :
    Begins symbol room tokens :=
  ⟨[], depth, e, by rwa [List.append_nil], hdepth⟩

theorem Begins.mono {room' : Nat} (h : Begins symbol room tokens) (hroom : room ≤ room') :
    Begins symbol room' tokens := by
  obtain ⟨later, depth, e, h, hdepth⟩ := h
  exact ⟨later, depth, e, h, by omega⟩

theorem Begins.of_append {more : List Token} (h : Begins symbol room (tokens ++ more)) :
    Begins symbol room tokens := by
  obtain ⟨later, depth, e, h, hdepth⟩ := h
  exact ⟨more ++ later, depth, e, by rwa [← List.append_assoc], hdepth⟩

theorem Viable.take (h : Viable tokens) (n : Nat) : Viable (tokens.take n) := by
  rw [viable_iff_begins] at h ⊢
  rw [← List.take_append_drop n tokens] at h
  exact h.of_append

/-- The place of the first token that makes the tokens so far not viable, the end of the list if
none does. -/
def FirstMisfit (tokens : List Token) (i : Nat) : Prop :=
  (∀ j < i, Viable (tokens.take (j + 1))) ∧
    (i < tokens.length ∧ ¬ Viable (tokens.take (i + 1)) ∨ i = tokens.length)

theorem FirstMisfit.not_lt {i j : Nat} (hi : FirstMisfit tokens i) (hj : FirstMisfit tokens j) :
    ¬ i < j := by
  intro hlt
  rcases hi.2 with ⟨-, hnot⟩ | hlength
  · exact hnot (hj.1 i hlt)
  · rcases hj.2 with ⟨hlt', -⟩ | hlength'
    · omega
    · omega

theorem FirstMisfit.unique {i j : Nat} (hi : FirstMisfit tokens i) (hj : FirstMisfit tokens j) :
    i = j := by
  have hij := hi.not_lt hj
  have hji := hj.not_lt hi
  omega

section Completions

def someNumber : Token := ⟨.number, .number 0, ⟨0, 0⟩⟩

def someClosing : Token := ⟨.rightParen, .text ")", ⟨0, 0⟩⟩

theorem phrase_someNumber : Phrase .atom 0 [someNumber] (.number 0 ⟨0, 0⟩) := .number rfl rfl

theorem begins_atom_nil (room : Nat) : Begins .atom room [] :=
  ⟨[someNumber], 0, _, phrase_someNumber, by omega⟩

theorem begins_operand {rank : Rank} (h : Begins rank.operand room tokens) :
    Begins (.chain rank) room tokens := by
  obtain ⟨later, depth, e, h, hdepth⟩ := h
  exact ⟨later, depth, e, .operand h, hdepth⟩

theorem begins_unsigned (h : Begins .power room tokens) : Begins .factor room tokens := by
  obtain ⟨later, depth, e, h, hdepth⟩ := h
  exact ⟨later, depth, e, .unsigned h, hdepth⟩

theorem begins_factor_nil (room : Nat) : Begins .factor room [] := by
  have hpower : Begins (.chain .power) room [] := begins_operand (begins_atom_nil room)
  exact begins_unsigned hpower

theorem begins_expression_nil (room : Nat) : Begins .expression room [] := by
  have hterm : Begins (.chain .product) room [] := begins_operand (begins_factor_nil room)
  exact begins_operand hterm

theorem begins_operation {rank : Rank} {op : BinaryOp} {token : Token} {front : List Token}
    {left : Expr} (hleft : Phrase (.chain rank) depth front left) (hdepth : depth ≤ room)
    (hop : Joins rank token.kind op) (h : Begins rank.operand room tokens) :
    Begins (.chain rank) room (front ++ token :: tokens) := by
  obtain ⟨later, depth', right, hright, hdepth'⟩ := h
  have hjoined := Phrase.operation hleft hop hright
  rw [← List.cons_append, ← List.append_assoc] at hjoined
  exact ⟨later, _, _, hjoined, Nat.max_le.mpr ⟨hdepth, hdepth'⟩⟩

theorem begins_signed {sign : Sign} {token : Token} (hsign : Signs token.kind sign)
    (h : Begins .factor room tokens) : Begins .factor (room + 1) (token :: tokens) := by
  obtain ⟨later, depth, e, h, hdepth⟩ := h
  exact ⟨later, depth + 1, _, .signed hsign h, by omega⟩

theorem begins_group {opening : Token} (hopening : opening.kind = .leftParen)
    (h : Begins .expression room tokens) : Begins .atom (room + 1) (opening :: tokens) := by
  obtain ⟨later, depth, e, h, hdepth⟩ := h
  refine ⟨later ++ [someClosing], depth + 1, e, ?_, by omega⟩
  rw [List.cons_append, ← List.append_assoc]
  exact .group hopening h rfl

end Completions

section Parentheses

def weight : TokenKind → Int
  | .leftParen => 1
  | .rightParen => -1
  | _ => 0

theorem Joins.weight_eq {rank : Rank} {kind : TokenKind} {op : BinaryOp} (h : Joins rank kind op) :
    weight kind = 0 := by
  cases h <;> rfl

theorem Signs.weight_eq {kind : TokenKind} {sign : Sign} (h : Signs kind sign) :
    weight kind = 0 := by
  cases h <;> rfl

def surplus (tokens : List Token) : Int := (tokens.map fun token => weight token.kind).sum

@[simp] theorem surplus_nil : surplus [] = 0 := rfl

@[simp] theorem surplus_cons (token : Token) (tokens : List Token) :
    surplus (token :: tokens) = weight token.kind + surplus tokens := by
  simp [surplus]

@[simp] theorem surplus_append (tokens tokens' : List Token) :
    surplus (tokens ++ tokens') = surplus tokens + surplus tokens' := by
  simp [surplus]

def Balanced (tokens : List Token) : Prop :=
  surplus tokens = 0 ∧ ∀ before after, tokens = before ++ after → 0 ≤ surplus before

theorem balanced_cons {token : Token} (hweight : weight token.kind = 0) (h : Balanced tokens) :
    Balanced (token :: tokens) := by
  refine ⟨by rw [surplus_cons, hweight, h.1]; rfl, ?_⟩
  intro before after htokens
  cases before with
  | nil => simp
  | cons first before =>
    obtain ⟨rfl, hrest⟩ := List.cons.inj htokens
    have hbefore := h.2 before after hrest
    rw [surplus_cons]
    omega

theorem balanced_nil : Balanced [] := by
  refine ⟨rfl, ?_⟩
  intro before after htokens
  obtain ⟨rfl, -⟩ := List.append_eq_nil_iff.mp htokens.symm
  exact Int.le_refl 0

theorem Balanced.append {tokens' : List Token} (h : Balanced tokens) (h' : Balanced tokens') :
    Balanced (tokens ++ tokens') := by
  refine ⟨by rw [surplus_append, h.1, h'.1]; rfl, ?_⟩
  intro before after htokens
  rcases List.append_eq_append_iff.mp htokens with ⟨middle, rfl, hrest⟩ | ⟨middle, hfront, -⟩
  · have hmiddle := h'.2 middle after hrest
    rw [surplus_append, h.1]
    omega
  · exact h.2 before middle hfront

theorem balanced_group {opening closing : Token} (hopening : opening.kind = .leftParen)
    (hclosing : closing.kind = .rightParen) (h : Balanced tokens) :
    Balanced (opening :: (tokens ++ [closing])) := by
  have hone : weight opening.kind = 1 := by rw [hopening, weight]
  have hminus : weight closing.kind = -1 := by rw [hclosing, weight]
  refine ⟨by simp [hone, hminus, h.1], ?_⟩
  intro before after htokens
  cases before with
  | nil => simp
  | cons first before =>
    obtain ⟨rfl, hrest⟩ := List.cons.inj htokens
    rw [surplus_cons, hone]
    rcases List.append_eq_append_iff.mp hrest with ⟨middle, rfl, hmiddle⟩ | ⟨middle, hinner, -⟩
    · have hend : -1 ≤ surplus middle := by
        rcases List.append_eq_singleton_iff.mp hmiddle.symm with ⟨rfl, -⟩ | ⟨rfl, -⟩ <;>
          simp [hminus]
      rw [surplus_append, h.1]
      omega
    · have hbefore := h.2 before middle hinner
      omega

theorem Phrase.balanced (h : Phrase symbol depth tokens e) : Balanced tokens := by
  induction h with
  | number hkind => exact balanced_cons (congrArg weight hkind) balanced_nil
  | identifier hkind => exact balanced_cons (congrArg weight hkind) balanced_nil
  | group hopening h hclosing ih => exact balanced_group hopening hclosing ih
  | operand h ih => exact ih
  | operation hleft hop hright ihl ihr => exact ihl.append (balanced_cons hop.weight_eq ihr)
  | signed hsign h ih => exact balanced_cons hsign.weight_eq ih
  | unsigned h ih => exact ih

end Parentheses

section Ends

def EndsPhrase : TokenKind → Prop
  | .number | .identifier | .rightParen => True
  | _ => False

theorem Joins.not_endsPhrase {rank : Rank} {kind : TokenKind} {op : BinaryOp}
    (h : Joins rank kind op) : ¬ EndsPhrase kind := by
  cases h <;> exact id

theorem Signs.not_endsPhrase {kind : TokenKind} {sign : Sign} (h : Signs kind sign) :
    ¬ EndsPhrase kind := by
  cases h <;> exact id

theorem Phrase.exists_last (h : Phrase symbol depth tokens e) :
    ∃ front last, tokens = front ++ [last] ∧ EndsPhrase last.kind := by
  induction h with
  | @number token value hkind => exact ⟨[], token, rfl, by rw [hkind]; trivial⟩
  | @identifier token hkind => exact ⟨[], token, rfl, by rw [hkind]; trivial⟩
  | @group opening closing depth tokens e hopening h hclosing ih =>
    exact ⟨opening :: tokens, closing, rfl, by rw [hclosing]; trivial⟩
  | operand h ih => exact ih
  | @operation rank op depth depth' token tokens tokens' left right hleft hop hright ihl ihr =>
    obtain ⟨front, last, rfl, hlast⟩ := ihr
    exact ⟨tokens ++ token :: front, last, by simp, hlast⟩
  | @signed sign token depth tokens operand hsign h ih =>
    obtain ⟨front, last, rfl, hlast⟩ := ih
    exact ⟨token :: front, last, rfl, hlast⟩
  | unsigned h ih => exact ih

def OperandDue (tokens : List Token) : Prop :=
  ∀ front last, tokens = front ++ [last] → ¬ EndsPhrase last.kind

theorem operandDue_nil : OperandDue [] := by
  intro front last h
  simp at h

theorem OperandDue.append_cons {token : Token} (hkind : ¬ EndsPhrase token.kind)
    (h : OperandDue tokens) (front : List Token) : OperandDue (front ++ token :: tokens) := by
  intro front' last hlast
  rcases List.eq_nil_or_concat tokens with rfl | ⟨tokens, final, rfl⟩
  · obtain ⟨-, rfl⟩ := List.append_singleton_inj.mp hlast
    exact hkind
  · rw [List.concat_eq_append] at h hlast
    rw [← List.cons_append, ← List.append_assoc] at hlast
    obtain ⟨-, rfl⟩ := List.append_singleton_inj.mp hlast
    exact h tokens final rfl

def AfterOpen (tokens inner : List Token) : Prop :=
  ∃ before opening, tokens = before ++ opening :: inner ∧ opening.kind = .leftParen ∧
    Balanced inner

/-- Some parenthesis is still open, and a whole expression stands after the innermost one. -/
def AwaitsClosing (tokens : List Token) : Prop :=
  ∃ inner, AfterOpen tokens inner ∧ ∃ depth e, Phrase .expression depth inner e

theorem awaitsClosing_group {opening : Token} (hopening : opening.kind = .leftParen)
    (h : Phrase .expression depth tokens e) : AwaitsClosing (opening :: tokens) :=
  ⟨tokens, ⟨[], opening, rfl, hopening, h.balanced⟩, depth, e, h⟩

theorem AwaitsClosing.append_left (h : AwaitsClosing tokens) (front : List Token) :
    AwaitsClosing (front ++ tokens) := by
  obtain ⟨inner, ⟨before, opening, rfl, hopening, hbalanced⟩, hinner⟩ := h
  exact ⟨inner, ⟨front ++ before, opening, by simp, hopening, hbalanced⟩, hinner⟩

theorem OperandDue.not_awaitsClosing (h : OperandDue tokens) : ¬ AwaitsClosing tokens := by
  intro hawaits
  obtain ⟨inner, ⟨before, opening, rfl, -, -⟩, depth, e, hinner⟩ := hawaits
  obtain ⟨front, last, rfl, hlast⟩ := hinner.exists_last
  exact h (before ++ opening :: front) last (by simp) hlast

theorem Balanced.not_awaitsClosing (h : Balanced tokens) : ¬ AwaitsClosing tokens := by
  intro hawaits
  obtain ⟨inner, ⟨before, opening, rfl, hopening, hinner⟩, -⟩ := hawaits
  have hbefore : 0 ≤ surplus before := h.2 before (opening :: inner) rfl
  have hone : weight opening.kind = 1 := congrArg weight hopening
  have htotal : surplus (before ++ opening :: inner) = 0 := h.1
  rw [surplus_append, surplus_cons, hone, hinner.1] at htotal
  omega

end Ends

end Abacus.Grammar
