import Abacus.Diagnostic
import Abacus.Proofs.LexicalFault
import Abacus.Proofs.OpenNesting
import Abacus.Proofs.SyntaxFault

/-!
What stands where a fault of the scanner or the parser points. Its span lies inside the source, and
the text there is what the fault is about: the character, the malformed run, the token that does
not fit, or the token after the sign or parenthesis that is open beyond the limit. The end of the
input stands after the last character. So the place of such a fault is shown for every source that
is not empty.
-/
namespace Abacus

open Token Grammar

namespace Token

/-- Where a token stands in a source: at its lexeme, all of it, or at the end. -/
inductive Stands (source : List Char) : Token → Prop
  | lexeme {kind : TokenKind} {payload : Payload} {start stop : Nat} (hstart : start < stop)
      (hstop : stop ≤ source.length) (hspells : Spells kind payload (source.extract start stop))
      (hends : ∀ c, source[stop]? = some c → ¬ Extends kind c) :
      Stands source ⟨kind, payload, ⟨start, stop⟩⟩
  | endOfInput : Stands source (endOfInput source.length)

variable {source : List Char} {token : Token} {tokens : List Token}

theorem Stands.inside (h : Stands source token) :
    token.span.start ≤ token.span.stop ∧ token.span.stop ≤ source.length := by
  cases h with
  | lexeme hstart hstop => exact ⟨Nat.le_of_lt hstart, hstop⟩
  | endOfInput => exact ⟨Nat.le_refl _, Nat.le_refl _⟩

/-- Every token of a scanned source stands in it. -/
theorem stands_of_mem_scan (hscan : scan source = .ok tokens) (h : token ∈ tokens) :
    Stands source token := by
  obtain ⟨lexemes, rfl, hcut⟩ := cut_of_scanFrom hscan
  rw [Nat.zero_add] at h
  have hcovers := covers_of_cut hcut List.drop_zero
  rcases List.mem_append.mp h with hlexeme | hlast
  · obtain ⟨-, hstart, hstop⟩ := hcovers.inside token hlexeme
    exact .lexeme hstart hstop (hcovers.spells token hlexeme) (hcovers.ends token hlexeme)
  · rw [List.mem_singleton.mp hlast]
    exact .endOfInput

/-- The parser takes the tokens of a scanned source as they are, with the end of the input last. -/
theorem splitEnd_of_scan (hscan : scan source = .ok tokens) :
    (Expr.splitEnd tokens).1 ++ [(Expr.splitEnd tokens).2] = tokens := by
  obtain ⟨lexemes, rfl, hcut⟩ := cut_of_scanFrom hscan
  rw [Nat.zero_add]
  have hnone : lexemes.find? (·.kind == .eof) = none := by
    simpa using hcut.kind_ne_eof
  simp only [Expr.splitEnd, hcut.takeWhile_eq, List.find?_append, hnone]
  rfl

end Token

namespace Fault

inductive ShowsCulprit (source : List Char) : Fault → Prop
  | invalidCharacter {c : Char} {start : Nat} (hstop : start + 1 ≤ source.length)
      (hc : source.extract start (start + 1) = [c]) (hforeign : IsForeign c) :
      ShowsCulprit source (.invalidCharacter c ⟨start, start + 1⟩)
  | malformedNumber {start stop : Nat} (hstart : start < stop) (hstop : stop ≤ source.length)
      (hrun : ∀ c ∈ source.extract start stop, Extends .number c)
      (hplain : ¬ Numeral.IsPlain (source.extract start stop)) :
      ShowsCulprit source
        (.malformedNumber (String.ofList (source.extract start stop)) ⟨start, stop⟩)
  | unexpectedToken {good rest : List Token} {bad : Token}
      (hscan : scan source = .ok (good ++ bad :: rest)) (hgood : Viable good)
      (hbad : ¬ Viable (good ++ [bad])) (hstands : Stands source bad) :
      ShowsCulprit source (.unexpectedToken bad.kind bad.span)
  | mismatchedToken {good rest : List Token} {bad : Token}
      (hscan : scan source = .ok (good ++ bad :: rest)) (hgood : Viable good)
      (hbad : ¬ Viable (good ++ [bad])) (hstands : Stands source bad) :
      ShowsCulprit source (.mismatchedToken .rightParen bad.kind bad.span)
  | nestingTooDeep {front rest : List Token} {opener next : Token}
      (hscan : scan source = .ok (front ++ opener :: next :: rest)) (hopens : opens opener.kind)
      (hopened : opened (front ++ [opener]) = opener :: opened front)
      (hlimit : (opened front).length = Expr.maxNesting)
      (hfirst : ∀ j, (opened (front.take j)).length ≤ Expr.maxNesting)
      (hstands : Stands source next) :
      ShowsCulprit source (.nestingTooDeep Expr.maxNesting next.span)

variable {source : List Char} {tokens : List Token} {fault : Fault}

/-- A culprit stands inside the source, and the message tells where it begins. -/
theorem ShowsCulprit.inside (h : fault.ShowsCulprit source) :
    ∃ start stop what, fault.span? = some ⟨start, stop⟩ ∧ start ≤ stop ∧ stop ≤ source.length ∧
      fault.message = what ++ (" at position " ++ toString start) := by
  cases h with
  | invalidCharacter hstop => exact ⟨_, _, _, rfl, Nat.le_succ _, hstop, rfl⟩
  | malformedNumber hstart hstop => exact ⟨_, _, _, rfl, Nat.le_of_lt hstart, hstop, rfl⟩
  | unexpectedToken _ _ _ hstands | mismatchedToken _ _ _ hstands
  | nestingTooDeep _ _ _ _ _ hstands =>
    exact ⟨_, _, _, rfl, hstands.inside.1, hstands.inside.2, rfl⟩

theorem showsCulprit_of_scan (h : scan source = .error fault) : fault.ShowsCulprit source := by
  obtain ⟨before, lexemes, first, more, after, rfl, hstops, -⟩ := exists_stopsAt h
  obtain ⟨-, -, hextract, -⟩ := stretch_eq before (first :: more) after
  have hrefused := hstops.refused
  rw [Nat.zero_add] at hrefused
  rcases refused_cases hstops.goesOn hrefused with ⟨rfl, hrun, hplain⟩ | ⟨rfl, rfl, hforeign⟩
  · rw [← hextract] at hrun hplain
    have hculprit := ShowsCulprit.malformedNumber (by simp) (by simp) hrun hplain
    rwa [hextract] at hculprit
  · exact .invalidCharacter (by simp) hextract hforeign

theorem showsCulprit_of_parse (hscan : scan source = .ok tokens)
    (h : Expr.parse tokens = .error fault) : fault.ShowsCulprit source := by
  have hsplit := splitEnd_of_scan hscan
  obtain ⟨good, bad, rest, htokens, hgood, hmisfit⟩ := Expr.exists_misfit h
  rw [hsplit] at htokens
  have hbad := hmisfit.not_viable
  cases hmisfit with
  | refused hnever hfault =>
    have hstands : Stands source bad := stands_of_mem_scan hscan (by simp [htokens])
    rw [htokens] at hscan
    rcases hfault with ⟨-, rfl⟩ | ⟨-, rfl⟩
    · exact .mismatchedToken hscan hgood hbad hstands
    · exact .unexpectedToken hscan hgood hbad hstands
  | tooDeep =>
    obtain ⟨front, opener, later, around, hbody, hfault, hopens, hleads, hlength⟩ :=
      Expr.overflows_of_parse h
    have hopened : opened front = around := congrArg Standing.opened hleads.foldl_eq
    -- if no other token comes after the opener, the end of the input does
    obtain ⟨next, final, hnext, hspan⟩ : ∃ next final,
        later ++ [(Expr.splitEnd tokens).2] = next :: final ∧
          later.head?.getD (Expr.splitEnd tokens).2 = next := by
      cases later with
      | nil => exact ⟨_, _, rfl, rfl⟩
      | cons next later => exact ⟨_, _, rfl, rfl⟩
    rw [hbody, List.append_assoc, List.cons_append, hnext] at hsplit
    have hstands : Stands source next := stands_of_mem_scan hscan (by simp [← hsplit])
    rw [← hsplit] at hscan
    rw [hfault, Expr.tooDeep, hspan]
    refine .nestingTooDeep hscan hopens ?_ ?_ ?_ hstands
    · rw [hopened, opened, List.foldl_append, hleads.foldl_eq]
      exact congrArg Standing.opened (after_opener hopens around)
    · rw [hopened, hlength]
    · intro j
      rw [← List.take_append_drop j front] at hleads
      exact hleads.length_foldl_le

/-- The place of a fault is shown if it lies inside a source that is not empty. -/
theorem diagnostic_of_inside {source : String} {start stop : Nat} (hsource : source ≠ "")
    (hspan : fault.span? = some ⟨start, stop⟩) (hstart : start ≤ stop)
    (hstop : stop ≤ source.toList.length) (filename : Option String) :
    fault.diagnostic source filename =
      [fault.headline, "at " ++ filename.getD "<input>" ++ ":" ++
        toString (Text.place source.toList start).line ++ ":" ++
        toString (Text.place source.toList start).column] ++
      (fault.help?.map ("note help: " ++ ·)).toList := by
  have hlength : 0 < source.toList.length := by
    rw [List.length_pos_iff]
    exact mt String.toList_eq_nil_iff.mp hsource
  have hshown : fault.shownSpan source.toList = ⟨start, stop⟩ := by
    rw [shownSpan, hspan]
    rfl
  have hfits : (⟨start, stop⟩ : Span).fits source.toList.length := by
    simp only [Span.fits, Bool.and_eq_true, Bool.or_eq_true, decide_eq_true_eq]
    omega
  simp only [diagnostic, hshown, hfits, if_true]

/-- The fault of a source that has no tree points into the source, at its culprit, and the message
says where. For a source that is not empty the place is shown. -/
theorem points_at_culprit {source : String}
    (h : (scan source.toList).bind Expr.parse = .error fault) :
    ∃ start stop what, fault.span? = some ⟨start, stop⟩ ∧ start ≤ stop ∧
      stop ≤ source.toList.length ∧
      fault.message = what ++ (" at position " ++ toString start) ∧
      fault.ShowsCulprit source.toList ∧
      (source ≠ "" → ∀ filename, fault.diagnostic source filename =
        [fault.headline, "at " ++ filename.getD "<input>" ++ ":" ++
          toString (Text.place source.toList start).line ++ ":" ++
          toString (Text.place source.toList start).column] ++
        (fault.help?.map ("note help: " ++ ·)).toList) := by
  have hculprit : fault.ShowsCulprit source.toList := by
    rcases bind_eq_error.mp h with hscan | ⟨tokens, hscan, hparse⟩
    · exact showsCulprit_of_scan hscan
    · exact showsCulprit_of_parse hscan hparse
  obtain ⟨start, stop, what, hspan, hstart, hstop, hmessage⟩ := hculprit.inside
  exact ⟨start, stop, what, hspan, hstart, hstop, hmessage, hculprit,
    fun hsource => diagnostic_of_inside hsource hspan hstart hstop⟩

/-- Offsets are counted in characters, whatever these take up. -/
theorem points_at_culprit_of_open_parenthesis :
    let source := "\u00a0-("
    let fault := unexpectedToken .eof ⟨3, 3⟩
    (scan source.toList).bind Expr.parse = .error fault ∧ fault.ShowsCulprit source.toList := by
  intro source fault
  have hminus : TokenKind.minus.symbol? = some '-' := rfl
  have hopening : TokenKind.leftParen.symbol? = some '(' := rfl
  have hcut : Cut 0 ['\u00a0', '-', '('] _ :=
    .blank rfl (.symbol hminus (.symbol hopening (.nil 3)))
  have hfault : (scan source.toList).bind Expr.parse = .error fault := by
    rw [show source.toList = ['\u00a0', '-', '('] by simp [source], scan, scanFrom_of_cut hcut]
    rfl
  obtain ⟨start, stop, what, -, -, -, -, hculprit, -⟩ := points_at_culprit hfault
  exact ⟨hfault, hculprit⟩

end Fault
end Abacus
