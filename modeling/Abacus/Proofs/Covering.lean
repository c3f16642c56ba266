import Abacus.Proofs.Scanning

/-!
The tokens of a source seen from the finished list. Their spans lie one after another, the text at
each span is a lexeme of the token's kind that the next character would not make longer, and what
lies outside them is blank. A list with these properties is the one that the scanner gives, since
they decide, character by character from the left, where the next token begins and ends.
-/
namespace Abacus

def Span.Holds (span : Span) (offset : Nat) : Prop := span.start ≤ offset ∧ offset < span.stop

namespace Token

/-- From an offset of the source on, the tokens have the characters that are not blank to
themselves. None of them is the end of the input, their spans are in order and not empty, and each
token is that of the text at its span, up to where the next character would not make it longer. -/
structure Covers (source : List Char) (offset : Nat) (tokens : List Token) : Prop where
  notEnd : ∀ token ∈ tokens, token.kind ≠ .eof
  inside : ∀ token ∈ tokens, offset ≤ token.span.start ∧ token.span.start < token.span.stop ∧
    token.span.stop ≤ source.length
  ordered : tokens.Pairwise fun earlier later => earlier.span.stop ≤ later.span.start
  blank : ∀ i c, offset ≤ i → source[i]? = some c →
    (Text.isBlank c ↔ ∀ token ∈ tokens, ¬ token.span.Holds i)
  spells : ∀ token ∈ tokens,
    Spells token.kind token.payload (source.extract token.span.start token.span.stop)
  ends : ∀ token ∈ tokens, ∀ c, source[token.span.stop]? = some c → ¬ Extends token.kind c

theorem Spells.kind_ne_eof {kind : TokenKind} {payload : Payload} {lexeme : List Char}
    (h : Spells kind payload lexeme) : kind ≠ .eof := by
  rintro rfl
  cases h with
  | symbol h => cases h

theorem Spells.isBlank_eq_false {kind : TokenKind} {payload : Payload} {lexeme : List Char}
    (h : Spells kind payload lexeme) : ∀ c ∈ lexeme, Text.isBlank c = false := by
  obtain ⟨first, more, rfl, hbegins, hmore, -⟩ := h.exists_first
  intro c hc
  rcases List.mem_cons.mp hc with rfl | hc
  · exact hbegins.notBlank
  · exact (hmore c hc).isBlank_eq_false

section Fronts

variable {source : List Char} {offset stop : Nat} {tokens : List Token} {c : Char}

theorem mem_extract {i : Nat} (hi : offset ≤ i) (hstop : i < stop) (hc : source[i]? = some c) :
    c ∈ source.extract offset stop := by
  rw [List.extract_eq_take_drop, List.mem_iff_getElem?]
  refine ⟨i - offset, ?_⟩
  rw [List.getElem?_take_of_lt (by omega), List.getElem?_drop, Nat.add_sub_cancel' hi, hc]

theorem extract_append_drop (h : offset ≤ stop) :
    source.extract offset stop ++ source.drop stop = source.drop offset := by
  have hdrop : source.drop stop = (source.drop offset).drop (stop - offset) := by
    rw [List.drop_drop, Nat.add_sub_cancel' h]
  rw [hdrop, List.extract_eq_take_drop, List.take_append_drop]

theorem covers_end (h : source.length ≤ offset) : Covers source offset [] where
  notEnd := by simp
  inside := by simp
  ordered := .nil
  blank i c hi hc := by
    obtain ⟨hlength, -⟩ := List.getElem?_eq_some_iff.mp hc
    omega
  spells := by simp
  ends := by simp

/-- A blank in front belongs to no token. -/
theorem Covers.blankFront (h : Covers source (offset + 1) tokens)
    (hc : source[offset]? = some c) (hblank : Text.isBlank c) : Covers source offset tokens where
  notEnd := h.notEnd
  inside token htoken := by
    have := h.inside token htoken
    omega
  ordered := h.ordered
  blank i d hi hd := by
    by_cases hfront : i = offset
    · subst hfront
      rw [hc] at hd
      cases hd
      refine iff_of_true hblank ?_
      intro token htoken hholds
      have := h.inside token htoken
      have := hholds.1
      omega
    · exact h.blank i d (by omega) hd
  spells := h.spells
  ends := h.ends

/-- A lexeme in front belongs to the first token. -/
theorem Covers.lexemeFront {kind : TokenKind} {payload : Payload} (h : Covers source stop tokens)
    (hstart : offset < stop) (hstop : stop ≤ source.length)
    (hspells : Spells kind payload (source.extract offset stop))
    (hends : ∀ c, source[stop]? = some c → ¬ Extends kind c) :
    Covers source offset (⟨kind, payload, ⟨offset, stop⟩⟩ :: tokens) where
  notEnd token htoken := by
    rcases List.mem_cons.mp htoken with rfl | htoken
    · exact hspells.kind_ne_eof
    · exact h.notEnd token htoken
  inside token htoken := by
    rcases List.mem_cons.mp htoken with rfl | htoken
    · exact ⟨Nat.le_refl offset, hstart, hstop⟩
    · have := h.inside token htoken
      omega
  ordered := List.pairwise_cons.mpr ⟨fun token htoken => (h.inside token htoken).1, h.ordered⟩
  blank i c hi hc := by
    by_cases hfront : i < stop
    · have hlexeme : c ∈ source.extract offset stop := mem_extract hi hfront hc
      rw [hspells.isBlank_eq_false c hlexeme]
      refine iff_of_false (by simp) ?_
      intro hnone
      exact hnone _ List.mem_cons_self ⟨hi, hfront⟩
    · rw [h.blank i c (by omega) hc]
      constructor
      · intro hnone token htoken hholds
        rcases List.mem_cons.mp htoken with rfl | htoken
        · exact hfront hholds.2
        · exact hnone token htoken hholds
      · intro hnone token htoken
        exact hnone token (List.mem_cons_of_mem _ htoken)
  spells token htoken := by
    rcases List.mem_cons.mp htoken with rfl | htoken
    · exact hspells
    · exact h.spells token htoken
  ends token htoken := by
    rcases List.mem_cons.mp htoken with rfl | htoken
    · exact hends
    · exact h.ends token htoken

/-- After a blank in front, the same tokens cover the rest. -/
theorem Covers.afterBlank (h : Covers source offset tokens) (hc : source[offset]? = some c)
    (hblank : Text.isBlank c) : Covers source (offset + 1) tokens where
  notEnd := h.notEnd
  inside token htoken := by
    have hinside := h.inside token htoken
    have hfree := (h.blank offset c (Nat.le_refl offset) hc).mp hblank token htoken
    rw [Span.Holds] at hfree
    omega
  ordered := h.ordered
  blank i d hi hd := h.blank i d (by omega) hd
  spells := h.spells
  ends := h.ends

/-- A character in front that is not blank begins the first token. -/
theorem Covers.start_head (h : Covers source offset tokens) (hc : source[offset]? = some c)
    (hblank : Text.isBlank c = false) :
    ∃ token later, tokens = token :: later ∧ token.span.start = offset := by
  have hheld : ¬ ∀ token ∈ tokens, ¬ token.span.Holds offset := by
    rw [← h.blank offset c (Nat.le_refl offset) hc, hblank]
    simp
  obtain ⟨token, htoken, hholds⟩ : ∃ token ∈ tokens, token.span.Holds offset := by
    simpa using hheld
  have hstart := (h.inside token htoken).1
  cases tokens with
  | nil => cases htoken
  | cons first later =>
    refine ⟨first, later, rfl, ?_⟩
    have hfirst := h.inside first List.mem_cons_self
    rcases List.mem_cons.mp htoken with rfl | hlater
    · exact Nat.le_antisymm hholds.1 hstart
    · -- the first token would end before this one begins, and so before it begins itself
      have hbefore := (List.pairwise_cons.mp h.ordered).1 token hlater
      have := hholds.1
      omega

/-- After the first token, the others cover the rest. -/
theorem Covers.afterLexeme {token : Token} (h : Covers source offset (token :: tokens)) :
    Covers source token.span.stop tokens where
  notEnd other hother := h.notEnd other (List.mem_cons_of_mem token hother)
  inside other hother := by
    have hafter := (List.pairwise_cons.mp h.ordered).1 other hother
    have hinside := h.inside other (List.mem_cons_of_mem token hother)
    exact ⟨hafter, hinside.2⟩
  ordered := (List.pairwise_cons.mp h.ordered).2
  blank i c hi hc := by
    have hinside := h.inside token List.mem_cons_self
    rw [h.blank i c (by omega) hc]
    constructor
    · intro hnone other hother
      exact hnone other (List.mem_cons_of_mem token hother)
    · intro hnone other hother hholds
      rcases List.mem_cons.mp hother with rfl | hother
      · have := hholds.2
        omega
      · exact hnone other hother hholds
  spells other hother := h.spells other (List.mem_cons_of_mem token hother)
  ends other hother := h.ends other (List.mem_cons_of_mem token hother)

end Fronts

/-- The tokens of a cut cover the text. -/
theorem covers_of_cut {source text : List Char} {offset : Nat} {tokens : List Token}
    (h : Cut offset text tokens) (htext : source.drop offset = text) :
    Covers source offset tokens := by
  induction h with
  | nil offset => exact covers_end (List.drop_eq_nil_iff.mp htext)
  | @blank offset c rest tokens hc h ih =>
    have hfront : source[offset]? = some c := by
      rw [← List.head?_drop, htext]
      rfl
    have hrest : source.drop (offset + 1) = rest := by
      rw [← List.tail_drop, htext]
      rfl
    exact (ih hrest).blankFront hfront hc
  | @lexeme offset kind payload lexeme rest tokens hspells hends h ih =>
    have hlexeme : source.extract offset (offset + lexeme.length) = lexeme := by
      rw [List.extract_eq_take_drop, htext, Nat.add_sub_cancel_left, List.take_left]
    have hrest : source.drop (offset + lexeme.length) = rest := by
      rw [← List.drop_drop, htext, List.drop_left]
    have hlength := congrArg List.length htext
    rw [List.length_drop, List.length_append] at hlength
    obtain ⟨first, more, hfirst, -⟩ := hspells.exists_first
    have hpositive : 0 < lexeme.length := by
      rw [hfirst]
      exact Nat.succ_pos _
    refine (ih hrest).lexemeFront (by omega) (by omega) ?_ ?_
    · rwa [hlexeme]
    · intro c hc
      refine hends c ?_
      rw [← hrest, List.head?_drop]
      exact hc

/-- A text that is covered is cut into the tokens that cover it. -/
theorem cut_of_covers {source : List Char} {offset : Nat} {tokens : List Token}
    (h : Covers source offset tokens) : Cut offset (source.drop offset) tokens := by
  induction hn : source.length - offset using Nat.strongRecOn generalizing offset tokens with
  | ind n ih =>
    cases htext : source.drop offset with
    | nil =>
      have hlength := List.drop_eq_nil_iff.mp htext
      cases tokens with
      | nil => exact .nil offset
      | cons token later =>
        have := h.inside token List.mem_cons_self
        omega
    | cons c rest =>
      have hfront : source[offset]? = some c := by
        rw [← List.head?_drop, htext]
        rfl
      obtain ⟨hlength, -⟩ := List.getElem?_eq_some_iff.mp hfront
      cases hblank : Text.isBlank c with
      | true =>
        have hrest : source.drop (offset + 1) = rest := by
          rw [← List.tail_drop, htext]
          rfl
        have hcut := ih (source.length - (offset + 1)) (by omega) (h.afterBlank hfront hblank) rfl
        rw [hrest] at hcut
        exact .blank hblank hcut
      | false =>
        obtain ⟨⟨kind, payload, start, stop⟩, later, rfl, hoffset⟩ := h.start_head hfront hblank
        change start = offset at hoffset
        subst hoffset
        obtain ⟨-, hstart, hstop⟩ := h.inside _ List.mem_cons_self
        change start < stop at hstart
        change stop ≤ source.length at hstop
        have hsplit : source.extract start stop ++ source.drop stop = source.drop start :=
          extract_append_drop (Nat.le_of_lt hstart)
        have hsize : start + (source.extract start stop).length = stop := by
          rw [List.extract_eq_take_drop, List.length_take, List.length_drop]
          omega
        have hlater := ih (source.length - stop) (by omega) h.afterLexeme rfl
        have hends : ∀ d ∈ (source.drop stop).head?, ¬ Extends kind d := by
          intro d hd
          rw [List.head?_drop] at hd
          exact h.ends _ List.mem_cons_self d hd
        have hcut : Cut start (source.extract start stop ++ source.drop stop)
            (⟨kind, payload, ⟨start, start + (source.extract start stop).length⟩⟩ :: later) :=
          .lexeme (h.spells _ List.mem_cons_self) hends (by rwa [hsize])
        rwa [hsize, hsplit, htext] at hcut

/-- The tokens that the scanner gives are those that cover the source, and after them the end.
No two lists of tokens cover one source. -/
theorem scan_eq_ok_iff_covers (source : List Char) (tokens : List Token) :
    (scan source = .ok tokens ↔
      ∃ lexemes, tokens = lexemes ++ [endOfInput source.length] ∧ Covers source 0 lexemes) ∧
    ∀ lexemes lexemes', Covers source 0 lexemes → Covers source 0 lexemes' →
      lexemes = lexemes' := by
  have hscan : ∀ lexemes, Covers source 0 lexemes →
      scan source = .ok (lexemes ++ [endOfInput source.length]) := by
    intro lexemes h
    have hread := scanFrom_of_cut (cut_of_covers h)
    rwa [List.drop_zero, Nat.zero_add] at hread
  refine ⟨⟨?_, ?_⟩, ?_⟩
  · intro h
    obtain ⟨lexemes, htokens, hcut⟩ := cut_of_scanFrom h
    rw [Nat.zero_add] at htokens
    exact ⟨lexemes, htokens, covers_of_cut hcut List.drop_zero⟩
  · intro h
    obtain ⟨lexemes, rfl, hcovers⟩ := h
    exact hscan lexemes hcovers
  · intro lexemes lexemes' h h'
    have hsame := (hscan lexemes h).symm.trans (hscan lexemes' h')
    exact List.append_cancel_right (Except.ok.inj hsame)

end Token
end Abacus
