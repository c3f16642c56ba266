import Abacus.Proofs.LexicalFault
import Abacus.Proofs.Moving

/-!
Blanks only part a source. No lexeme goes on through a blank, so what stands before some blanks is
scanned as if it were all, and what stands after them as if it were at the front: the same tokens or
the same fault, moved to the right. The text before the blanks decides first.
-/
namespace Abacus

def Fault.moved (distance : Nat) : Fault → Fault
  | .invalidCharacter found span => .invalidCharacter found (span.moved distance)
  | .malformedNumber lexeme span => .malformedNumber lexeme (span.moved distance)
  | .unexpectedToken found span => .unexpectedToken found (span.moved distance)
  | .mismatchedToken expected found span => .mismatchedToken expected found (span.moved distance)
  | .nestingTooDeep limit span => .nestingTooDeep limit (span.moved distance)
  | .unknownOperator symbol span => .unknownOperator symbol (span.moved distance)
  | fault => fault

namespace Token

variable {distance : Nat} {left right blanks : List Char} {c : Char}

theorem ofLexeme?_moved (span : Span) (first : Char) (lexeme : List Char) :
    ofLexeme? (span.moved distance) first lexeme =
      ((ofLexeme? span first lexeme).map (Option.map (Token.moved distance))).mapError
        (Fault.moved distance) := by
  unfold ofLexeme?
  dsimp only
  split
  · rfl
  · split
    · cases Numeral.read lexeme <;> rfl
    · split
      · rfl
      · cases symbolKind? first <;> rfl

/-- A text further right has the same tokens, or the same fault, further right. -/
theorem scanFrom_moved (offset distance : Nat) (text : List Char) :
    scanFrom (offset + distance) text =
      ((scanFrom offset text).map (List.map (Token.moved distance))).mapError
        (Fault.moved distance) := by
  fun_induction scanFrom offset text with
  | case1 offset =>
    rw [scanFrom]
    rfl
  | case2 offset first rest lexeme next ih =>
    have hnext : offset + distance + lexeme.length = next + distance :=
      Nat.add_right_comm offset distance lexeme.length
    have hspan : (⟨offset + distance, next + distance⟩ : Span) =
        Span.moved distance ⟨offset, next⟩ := rfl
    rw [scanFrom_cons]
    rw [hnext, hspan, ofLexeme?_moved, ih]
    cases ofLexeme? ⟨offset, next⟩ first lexeme with
    | error fault => rfl
    | ok token? =>
      cases scanFrom next (rest.dropWhile (continues first)) with
      | error fault => rfl
      | ok later => cases token? <;> rfl

theorem scanFrom_blanks (hblanks : ∀ c ∈ blanks, Text.isBlank c) (offset : Nat)
    (text : List Char) :
    scanFrom offset (blanks ++ text) = scanFrom (offset + blanks.length) text := by
  induction blanks generalizing offset with
  | nil => rfl
  | cons c blanks ih =>
    obtain ⟨hc, hblanks⟩ := List.forall_mem_cons.mp hblanks
    rw [List.cons_append, scanFrom_blank hc, ih hblanks, List.length_cons, Nat.add_assoc,
      Nat.add_comm 1]

theorem not_extends_of_isBlank (hc : Text.isBlank c) (kind : TokenKind) : ¬ Extends kind c := by
  intro h
  rw [h.isBlank_eq_false] at hc
  cases hc

/-- Nothing goes on through a blank. -/
theorem continues_blank (hc : Text.isBlank c) (first : Char) : continues first c = false := by
  have hnumeral : isNumeralChar c = false := by
    rw [← Bool.not_eq_true, ← extends_number_iff]
    exact not_extends_of_isBlank hc .number
  have hname : isNameChar c = false := by
    rw [← Bool.not_eq_true, ← extends_identifier_iff]
    exact not_extends_of_isBlank hc .identifier
  simp [continues, hnumeral, hname]

/-- The first character of a text with blanks in front is one of them. -/
theorem isBlank_of_mem_head? (hne : blanks ≠ []) (hblanks : ∀ c ∈ blanks, Text.isBlank c)
    (hc : c ∈ (blanks ++ right).head?) : Text.isBlank c := by
  cases blanks with
  | nil => exact absurd rfl hne
  | cons first blanks =>
    obtain rfl : first = c := by simpa using hc
    exact hblanks first List.mem_cons_self

/-- A text that is refused is refused alike with blanks after it. -/
theorem scan_append_of_error {fault : Fault} (hne : blanks ≠ [])
    (hblanks : ∀ c ∈ blanks, Text.isBlank c) (h : scan left = .error fault) :
    scan (left ++ (blanks ++ right)) = .error fault := by
  obtain ⟨before, lexemes, first, more, after, rfl, hstops, hends⟩ := exists_stopsAt h
  have hlater : ∀ c ∈ (after ++ (blanks ++ right)).head?, continues first c = false := by
    intro c hc
    cases after with
    | nil => exact continues_blank (isBlank_of_mem_head? hne hblanks hc) first
    | cons d after => exact hends c hc
  rw [List.append_assoc, List.append_assoc]
  exact hstops.scanFrom_eq hlater

/-- A text that is scanned keeps its tokens in front of blanks, and what comes after the blanks is
scanned from where it stands. -/
theorem scan_append_of_cut {lexemes : List Token} (hne : blanks ≠ [])
    (hblanks : ∀ c ∈ blanks, Text.isBlank c) (h : Cut 0 left lexemes) :
    scan (left ++ (blanks ++ right)) =
      (scanFrom (left ++ blanks).length right).map (lexemes ++ ·) := by
  have hparts : Parts (0 + left.length) lexemes (blanks ++ right) := by
    intro c hc token _ _
    exact not_extends_of_isBlank (isBlank_of_mem_head? hne hblanks hc) token.kind
  rw [scan, scanFrom_append h hparts, Nat.zero_add, scanFrom_blanks hblanks, List.length_append]

/-- Blanks between two texts part them: the fault of the first text comes first, then that of the
second where the second stands, and without a fault the tokens of the one are followed by those of
the other, up to the one end of the input. -/
theorem scan_parted_by_blanks (left blanks right : List Char) (hne : blanks ≠ [])
    (hblanks : ∀ c ∈ blanks, Text.isBlank c) :
    let distance := (left ++ blanks).length
    scan (left ++ blanks ++ right) =
      match scan left, scan right with
      | .error fault, _ => .error fault
      | .ok _, .error fault => .error (fault.moved distance)
      | .ok tokens, .ok later =>
        .ok (tokens.filter (·.kind != .eof) ++ later.map (Token.moved distance)) := by
  intro distance
  rw [List.append_assoc]
  cases hleft : scan left with
  | error fault => exact scan_append_of_error hne hblanks hleft
  | ok tokens =>
    obtain ⟨lexemes, rfl, hcut⟩ := cut_of_scanFrom hleft
    have hmoved : scanFrom distance right =
        ((scan right).map (List.map (Token.moved distance))).mapError (Fault.moved distance) := by
      rw [scan, ← scanFrom_moved, Nat.zero_add]
    have hkept : (lexemes ++ [endOfInput (0 + left.length)]).filter (·.kind != .eof) =
        lexemes := by
      have hall : ∀ token ∈ lexemes, token.kind != .eof := by simpa using hcut.kind_ne_eof
      rw [List.filter_append, List.filter_eq_self.mpr hall]
      simp [endOfInput]
    rw [scan_append_of_cut hne hblanks hcut, hmoved]
    cases scan right with
    | error fault => rfl
    | ok later =>
      dsimp only
      rw [hkept]
      rfl

/-- A name and a malformed number with a no-break space between them. -/
theorem scan_parted_by_no_break_space :
    Text.isBlank '\u00a0' ∧
      scan ['x', '\u00a0', '.'] = .error (.malformedNumber "." ⟨2, 3⟩) := by
  have hblank : Text.isBlank '\u00a0' := rfl
  have hleft : scan ['x'] = .ok [⟨.identifier, .text "x", ⟨0, 1⟩⟩, endOfInput 1] :=
    scanFrom_of_cut ((spells_letter rfl).cut 0)
  have hright : scan ['.'] = .error (.malformedNumber "." ⟨0, 1⟩) := by
    rw [scan, scanFrom_cons]
    rfl
  have hparted := scan_parted_by_blanks ['x'] ['\u00a0'] ['.'] (by simp) (by simpa using hblank)
  rw [hleft, hright] at hparted
  exact ⟨hblank, hparted⟩

end Token
end Abacus
