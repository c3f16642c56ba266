import Abacus.Proofs.Listing

/-!
Listings as lines. A listing is read one line after another: where two texts are joined by a line
feed, the instructions of the first come before those of the second, and the first line that is no
instruction decides. That line is quoted as it stands between its blanks, and has the same fault by
itself.
-/
namespace Abacus

namespace Text

/-- A stretch of a text that is one of its lines: it holds no line feed, and on either side is one,
or the text ends there. -/
structure LineBetween (before line after : List Char) : Prop where
  unbroken : '\n' ∉ line
  begins : ∀ c ∈ before.getLast?, c = '\n'
  ends : ∀ c ∈ after.head?, c = '\n'

/-- An induction along the lines of a text. -/
theorem line_induction {motive : List Char → Prop}
    (last : ∀ line, '\n' ∉ line → motive line)
    (more : ∀ line rest, '\n' ∉ line → motive rest → motive (line ++ '\n' :: rest))
    (text : List Char) : motive text := by
  induction hn : text.length using Nat.strongRecOn generalizing text with
  | ind n ih =>
    by_cases hbroken : '\n' ∈ text
    · obtain ⟨line, rest, rfl, hline⟩ := List.eq_append_cons_of_mem hbroken
      refine more line rest hline (ih rest.length ?_ rest rfl)
      simp only [List.length_append, List.length_cons] at hn
      omega
    · exact last text hbroken

/-- A line that is not blank, trimmed. -/
theorem isLine_trimChars {line : List Char} (hunbroken : '\n' ∉ line)
    (hne : trimChars line ≠ []) : IsLine (trimChars line) := by
  obtain ⟨before, after, -, -, hfirst, hlast⟩ := exists_trimChars line
  exact ⟨hne, hfirst, hlast, fun h => hunbroken (mem_of_mem_trimChars h)⟩

end Text

namespace Instruction

/-- The words of a line that is not blank are never found empty. -/
theorem reason_of_ofWords {words : List String} {defect : Defect} (hne : words ≠ [])
    (h : ofWords words = .error defect) : defect.reason ≠ "empty instruction" := by
  unfold ofWords at h
  split at h
  · exact absurd rfl hne
  · split at h
    · cases h
    · split at h <;> cases h <;> decide
  · split at h
    · split at h <;> cases h
      decide
    · split at h
      · cases h
      · split at h <;> cases h <;> decide
  · cases h
    decide

/-- The fault of a line quotes it and says what is wrong with it. -/
theorem exists_defect_of_read {text : String} {fault : Fault} (hline : Text.IsLine text.toList)
    (h : read text = .error fault) :
    ∃ defect : Defect, fault = .malformedInstruction text defect ∧
      defect.reason ≠ "empty instruction" := by
  have hwords : (Text.words text.toList).map String.ofList ≠ [] := by
    obtain ⟨first, rest, htext⟩ := List.exists_cons_of_ne_nil hline.not_empty
    have hfirst := hline.first first (by simp [htext])
    rw [htext]
    simpa using Text.words_cons_ne_nil hfirst rest
  rw [read] at h
  cases hread : ofWords ((Text.words text.toList).map String.ofList) with
  | ok instruction =>
    rw [hread] at h
    cases h
  | error defect =>
    rw [hread] at h
    cases h
    exact ⟨defect, rfl, reason_of_ofWords hwords hread⟩

end Instruction

namespace Program

/-- The lines of two texts with a line feed between them. -/
theorem listingLines_append (front back : List Char) :
    listingLines (String.ofList (front ++ '\n' :: back)) =
      listingLines (String.ofList front) ++ listingLines (String.ofList back) := by
  simp only [listingLines, String.toList_ofList, Text.lines]
  rw [Text.pieces_append_cons _ (by rfl)]
  simp only [List.map_append, List.filter_append]

/-- A text without a line feed is one line, or none if it is blank. -/
theorem listingLines_of_unbroken {line : List Char} (h : '\n' ∉ line) :
    listingLines (String.ofList line) =
      if Text.trimChars line = [] then [] else [String.ofList (Text.trimChars line)] := by
  have hone : Text.lines line = [line] := by
    rw [Text.lines, Text.pieces_eq_splitOnP]
    refine List.splitOnP_eq_singleton ?_
    intro c hc
    rw [beq_eq_false_iff_ne]
    rintro rfl
    exact h hc
  rw [listingLines, String.toList_ofList, hone]
  split
  · next hblank => simp [hblank]
  · next hne => simp [hne]

/-- A trimmed line that is not blank is a listing of its own. -/
theorem read_of_isLine {text : String} (h : Text.IsLine text.toList) :
    read text = (Instruction.read text).map fun instruction => [instruction] := by
  have htrim : Text.trimChars text.toList = text.toList := Text.trimChars_eq_self h.first h.last
  have hlines := listingLines_of_unbroken h.unbroken
  rw [htrim, if_neg h.not_empty, String.ofList_toList] at hlines
  rw [read, hlines, List.mapM_cons]
  cases Instruction.read text <;> rfl

/-- Two texts with a line feed between them are read one after the other. -/
theorem read_append_cons (front back : List Char) :
    read (String.ofList (front ++ '\n' :: back)) =
      match read (String.ofList front), read (String.ofList back) with
      | .error fault, _ => .error fault
      | .ok _, .error fault => .error fault
      | .ok program, .ok later => .ok (program ++ later) := by
  simp only [read]
  rw [listingLines_append, List.mapM_append]
  cases (listingLines (String.ofList front)).mapM Instruction.read with
  | error fault => rfl
  | ok program => cases (listingLines (String.ofList back)).mapM Instruction.read <;> rfl

/-- A line of a listing that is no instruction, with the listing readable up to it. -/
structure BadLine (before line after : List Char) (fault : Fault) : Prop where
  between : Text.LineBetween before line after
  readable : ∃ program, read (String.ofList before) = .ok program
  notBlank : Text.trimChars line ≠ []
  refused : Instruction.read (String.ofList (Text.trimChars line)) = .error fault

theorem badLine_of_unbroken {line : List Char} {fault : Fault} (hline : '\n' ∉ line)
    (h : read (String.ofList line) = .error fault) {after : List Char}
    (hends : ∀ c ∈ after.head?, c = '\n') : BadLine [] line after fault := by
  obtain ⟨text, htext, hfault⟩ := exists_of_mapM_eq_error h
  rw [listingLines_of_unbroken hline] at htext
  split at htext
  · cases htext
  · next hne =>
    rw [List.mem_singleton.mp htext] at hfault
    exact ⟨⟨hline, by simp, hends⟩, ⟨[], rfl⟩, hne, hfault⟩

/-- A bad line after a readable one and a line feed. -/
theorem BadLine.cons_line {line before bad after : List Char} {program : Program} {fault : Fault}
    (hread : read (String.ofList line) = .ok program) (h : BadLine before bad after fault) :
    BadLine (line ++ '\n' :: before) bad after fault := by
  obtain ⟨later, hlater⟩ := h.readable
  refine ⟨⟨h.between.unbroken, ?_, h.between.ends⟩, ⟨program ++ later, ?_⟩, h.notBlank, h.refused⟩
  · intro c hc
    rw [List.getLast?_append, List.getLast?_cons] at hc
    cases hlast : before.getLast? with
    | none => simpa [hlast, eq_comm] using hc
    | some d => exact h.between.begins c (by simpa [hlast] using hc)
  · rw [read_append_cons, hread, hlater]

/-- A listing that cannot be read has a first bad line. -/
theorem exists_badLine (text : List Char) {fault : Fault}
    (h : read (String.ofList text) = .error fault) :
    ∃ before line after, text = before ++ (line ++ after) ∧ BadLine before line after fault := by
  induction text using Text.line_induction with
  | last line hline =>
    exact ⟨[], line, [], by simp, badLine_of_unbroken hline h (by simp)⟩
  | more line rest hline ih =>
    rw [read_append_cons] at h
    cases hfront : read (String.ofList line) with
    | error met =>
      rw [hfront] at h
      cases h
      exact ⟨[], line, '\n' :: rest, rfl, badLine_of_unbroken hline hfront (by simp)⟩
    | ok program =>
      cases hback : read (String.ofList rest) with
      | ok later =>
        rw [hfront, hback] at h
        cases h
      | error met =>
        rw [hfront, hback] at h
        cases h
        obtain ⟨before, bad, after, rfl, hbad⟩ := ih hback
        exact ⟨line ++ '\n' :: before, bad, after, by simp, hbad.cons_line hfront⟩

/-- A listing is read line by line, in order. Of two texts joined by a line feed, the fault of the
first decides, then that of the second, and without a fault the instructions of the one come before
those of the other. A fault quotes the first bad line: trimmed, not blank, and with the same fault
when it is all of the listing. -/
theorem read_line_by_line :
    (∀ front back : String, read (front ++ "\n" ++ back) =
      match read front, read back with
      | .error fault, _ => .error fault
      | .ok _, .error fault => .error fault
      | .ok program, .ok later => .ok (program ++ later)) ∧
    ∀ (listing : String) (fault : Fault), read listing = .error fault →
      ∃ before line after defect,
        let text := Text.trim (String.ofList line)
        listing.toList = before ++ (line ++ after) ∧ Text.LineBetween before line after ∧
        (∃ program, read (String.ofList before) = .ok program) ∧
        fault = .malformedInstruction text defect ∧ defect.reason ≠ "empty instruction" ∧
        text ≠ "" ∧ Text.trim text = text ∧
        Instruction.read text = .error fault ∧ read text = .error fault := by
  refine ⟨?_, ?_⟩
  · intro front back
    have hjoined : front ++ "\n" ++ back = String.ofList (front.toList ++ '\n' :: back.toList) := by
      rw [← String.toList_inj]
      simp
    rw [hjoined, read_append_cons, String.ofList_toList, String.ofList_toList]
  · intro listing fault h
    rw [← String.ofList_toList (s := listing)] at h
    obtain ⟨before, line, after, hsplit, hbad⟩ := exists_badLine listing.toList h
    have htext : Text.trim (String.ofList line) = String.ofList (Text.trimChars line) := by
      rw [Text.trim, String.toList_ofList]
    have hline : Text.IsLine (String.ofList (Text.trimChars line)).toList := by
      rw [String.toList_ofList]
      exact Text.isLine_trimChars hbad.between.unbroken hbad.notBlank
    obtain ⟨defect, hfault, hreason⟩ := Instruction.exists_defect_of_read hline hbad.refused
    refine ⟨before, line, after, defect, hsplit, hbad.between, hbad.readable, ?_⟩
    rw [htext]
    refine ⟨hfault, hreason, ?_, ?_, hbad.refused, ?_⟩
    · intro hempty
      exact hline.not_empty (String.toList_eq_nil_iff.mpr hempty)
    · rw [Text.trim, String.toList_ofList, Text.trimChars_trimChars]
    · rw [read_of_isLine hline, hbad.refused]
      rfl

/-- A carriage return before the line feed is no part of either line. -/
theorem read_line_by_line_of_carriage_return :
    let fault : Fault := .malformedInstruction "JMP 3" .unknownOpcode
    read ("NEG\r" ++ "\n" ++ " JMP 3") = .error fault ∧ read "JMP 3" = .error fault := by
  intro fault
  have hjoined : read ("NEG\r" ++ "\n" ++ " JMP 3") = .error fault := by
    rw [read_line_by_line.1]
    rfl
  obtain ⟨before, line, after, defect, -, -, -, hfault, -, -, -, -, hline⟩ :=
    read_line_by_line.2 _ fault hjoined
  obtain ⟨htext, -⟩ := Fault.malformedInstruction.inj hfault
  rw [← htext] at hline
  exact ⟨hjoined, hline⟩

end Program
end Abacus
