import Abacus.Decimal.ReadBack
import Abacus.Program.Listing
import Mathlib.Data.List.Forall2

/-!
Listings and the programs they hold. The text of an instruction is its words with single blanks
between them, so that reading finds the same words again, and they spell the instruction if the
number it pushes is finite and the name it loads is one word. Nothing else can be read, since the
words of a line have no blanks in them.
-/
namespace Abacus

namespace Text

theorem words_intercalate {ws : List (List Char)} (h : ∀ word ∈ ws, IsWord word) :
    words ([' '].intercalate ws) = ws := by
  induction ws with
  | nil => rfl
  | cons word ws ih =>
    have hword := words_eq_singleton (h word List.mem_cons_self)
    cases ws with
    | nil => rw [List.intercalate_singleton, hword]
    | cons next ws =>
      have hlater := ih fun other hother => h other (List.mem_cons_of_mem word hother)
      rw [List.intercalate_cons_cons, List.append_assoc, List.singleton_append,
        words_append_cons (by rfl), hword, hlater, List.singleton_append]

/-- A line of a listing as it stands after trimming: neither end is blank, and no line feed is
inside. -/
structure IsLine (cs : List Char) : Prop where
  not_empty : cs ≠ []
  first : ∀ c ∈ cs.head?, isBlank c = false
  last : ∀ c ∈ cs.getLast?, isBlank c = false
  unbroken : '\n' ∉ cs

theorem IsWord.isLine {word : List Char} (h : IsWord word) : IsLine word where
  not_empty := h.1
  first c hc := h.2 c (List.mem_of_mem_head? hc)
  last c hc := h.2 c (List.mem_of_mem_getLast? hc)
  unbroken hc := by
    have hblank := h.2 '\n' hc
    cases hblank

theorem IsLine.cons_word {word line : List Char} (h : IsLine line) (hword : IsWord word) :
    IsLine (word ++ ' ' :: line) where
  not_empty := by simp
  first c hc := by
    rw [List.head?_append_of_ne_nil _ hword.1] at hc
    exact hword.isLine.first c hc
  last c hc := by
    rw [List.getLast?_append_cons, List.getLast?_cons_of_ne_nil h.not_empty] at hc
    exact h.last c hc
  unbroken := by
    rw [List.mem_append, List.mem_cons]
    rintro (hc | hc | hc)
    · exact hword.isLine.unbroken hc
    · cases hc
    · exact h.unbroken hc

/-- Words with single blanks between them make a line. -/
theorem isLine_intercalate {ws : List (List Char)} (hne : ws ≠ []) (h : ∀ word ∈ ws, IsWord word) :
    IsLine ([' '].intercalate ws) := by
  induction ws with
  | nil => exact absurd rfl hne
  | cons word ws ih =>
    have hword := h word List.mem_cons_self
    cases ws with
    | nil =>
      rw [List.intercalate_singleton]
      exact hword.isLine
    | cons next ws =>
      have hlater := ih (by simp) fun other hother => h other (List.mem_cons_of_mem word hother)
      rw [List.intercalate_cons_cons, List.append_assoc, List.singleton_append]
      exact hlater.cons_word hword

end Text

namespace Instruction

def WellFormed : Instruction → Prop
  | .push value => Binary.isFinite value
  | .load name => Text.IsWord name.toList
  | .apply _ | .negate => True

def spelling (instruction : Instruction) : List String :=
  match instruction with
  | .push value => [instruction.mnemonic, showNumber value]
  | .load name => [instruction.mnemonic, name]
  | .apply _ | .negate => [instruction.mnemonic]

theorem render_eq_intercalate (instruction : Instruction) :
    instruction.render = " ".intercalate instruction.spelling := by
  cases instruction <;> rfl

theorem isWord_mnemonic (instruction : Instruction) :
    Text.IsWord instruction.mnemonic.toList := by
  cases instruction with
  | apply op => cases op <;> simp [mnemonic, BinaryOp.mnemonic, Text.IsWord, Text.isBlank_eq_false]
  | _ => simp [mnemonic, Text.IsWord, Text.isBlank_eq_false]

/-- What is no finite number is written as a word of letters, perhaps with a sign. -/
theorem showNumber_of_not_finite {x : Float} (h : Binary.isFinite x = false) :
    showNumber x = "NaN" ∨ showNumber x = "inf" ∨ showNumber x = "-inf" := by
  have hpattern : ¬ Binary.pattern x < Binary.infinity := by simpa [Binary.isFinite] using h
  rw [showNumber, NumberStyle.write]
  split
  · exact Or.inl rfl
  · rw [NumberStyle.magnitudeChars, if_neg hpattern]
    cases Binary.isNegative x
    · exact Or.inr (Or.inl rfl)
    · exact Or.inr (Or.inr rfl)

theorem isWord_showNumber (x : Float) : Text.IsWord (showNumber x).toList := by
  cases h : Binary.isFinite x with
  | true =>
    refine ⟨?_, ?_⟩
    · intro hempty
      have hread := NumberStyle.read_write .plain h
      rw [showNumber] at hempty
      rw [hempty] at hread
      cases hread
    · intro c hc
      rcases NumberStyle.writes_write .plain h c hc with h | rfl | rfl | rfl | rfl
      · exact Text.isBlank_of_isDigit h
      all_goals rfl
  | false =>
    rcases showNumber_of_not_finite h with hword | hword | hword <;>
      simp [hword, Text.IsWord, Text.isBlank_eq_false]

def NamesWord : Instruction → Prop
  | .load name => Text.IsWord name.toList
  | .push _ | .apply _ | .negate => True

theorem WellFormed.namesWord {instruction : Instruction} (h : instruction.WellFormed) :
    instruction.NamesWord := by
  cases instruction with
  | load name => exact h
  | push | apply | negate => trivial

theorem isWord_spelling {instruction : Instruction} (h : instruction.NamesWord) :
    ∀ word ∈ instruction.spelling, Text.IsWord word.toList := by
  have hmnemonic := instruction.isWord_mnemonic
  cases instruction with
  | push value =>
    simp only [spelling, List.forall_mem_cons]
    exact ⟨hmnemonic, isWord_showNumber value, by simp⟩
  | load name =>
    simp only [spelling, List.forall_mem_cons]
    exact ⟨hmnemonic, h, by simp⟩
  | apply | negate => simpa [spelling] using hmnemonic

theorem ofWords_spelling {instruction : Instruction} (h : instruction.WellFormed) :
    ofWords instruction.spelling = .ok instruction := by
  cases instruction with
  | push value =>
    have hfinite : Binary.isFinite value := h
    have hread : operand? (showNumber value) = some value := by
      rw [operand?, showNumber, NumberStyle.read_write .plain h]
      simp [hfinite]
    simp [spelling, mnemonic, ofWords, hread]
  | load name => simp [spelling, mnemonic, ofWords]
  | apply op => cases op <;> rfl
  | negate => rfl

/-- The instructions that words spell are well formed. -/
theorem wellFormed_of_ofWords {words : List String} {instruction : Instruction}
    (hwords : ∀ word ∈ words, Text.IsWord word.toList) (h : ofWords words = .ok instruction) :
    instruction.WellFormed := by
  have hfixed : ∀ {mnemonic : String} {instruction : Instruction},
      ofMnemonic? mnemonic = some instruction → instruction.WellFormed := by
    intro mnemonic instruction hfound
    have hmember := List.mem_of_find?_eq_some hfound
    simp only [withoutOperand, List.mem_cons, List.not_mem_nil, or_false] at hmember
    rcases hmember with rfl | rfl | rfl | rfl | rfl | rfl <;> trivial
  unfold ofWords at h
  split at h
  · cases h
  · split at h
    · next found hfound =>
      cases h
      exact hfixed hfound
    · split at h <;> cases h
  · next mnemonic operand =>
    split at h
    · split at h
      · next value hvalue =>
        cases h
        exact (Option.filter_eq_some_iff.mp hvalue).2
      · cases h
    · split at h
      · cases h
        exact hwords operand (by simp)
      · split at h <;> cases h
  · cases h

theorem read_eq_ok {text : String} {instruction : Instruction} :
    read text = .ok instruction ↔
      ofWords ((Text.words text.toList).map String.ofList) = .ok instruction := by
  unfold read
  cases ofWords ((Text.words text.toList).map String.ofList) <;> simp [Except.mapError]

theorem stage_of_read {text : String} {fault : Fault} (h : read text = .error fault) :
    fault.stage = .listing := by
  rw [read] at h
  cases hwords : ofWords ((Text.words text.toList).map String.ofList) with
  | ok instruction =>
    rw [hwords] at h
    cases h
  | error defect =>
    rw [hwords] at h
    cases h
    rfl

theorem wellFormed_of_read {text : String} {instruction : Instruction}
    (h : read text = .ok instruction) : instruction.WellFormed := by
  refine wellFormed_of_ofWords ?_ (read_eq_ok.mp h)
  intro word hword
  obtain ⟨cs, hcs, rfl⟩ := List.mem_map.mp hword
  rw [String.toList_ofList]
  exact Text.isWord_of_mem_words hcs

theorem toList_render (instruction : Instruction) : instruction.render.toList =
    [' '].intercalate (instruction.spelling.map String.toList) := by
  rw [render_eq_intercalate, String.toList_intercalate]
  rfl

/-- The words of an instruction's text are found again. -/
theorem words_render {instruction : Instruction} (h : instruction.NamesWord) :
    (Text.words instruction.render.toList).map String.ofList = instruction.spelling := by
  have hwords : ∀ word ∈ instruction.spelling.map String.toList, Text.IsWord word := by
    simpa using isWord_spelling h
  rw [toList_render, Text.words_intercalate hwords, List.map_map]
  simp [Function.comp_def]

theorem read_render {instruction : Instruction} (h : instruction.WellFormed) :
    read instruction.render = .ok instruction := by
  rw [read_eq_ok, words_render h.namesWord]
  exact ofWords_spelling h

theorem isLine_render {instruction : Instruction} (h : instruction.NamesWord) :
    Text.IsLine instruction.render.toList := by
  rw [toList_render]
  refine Text.isLine_intercalate ?_ ?_
  · cases instruction <;> simp [spelling]
  · simpa using isWord_spelling h

end Instruction

namespace Program

def WellFormed (program : Program) : Prop := ∀ instruction ∈ program, instruction.WellFormed

/-- Lines joined by line feeds are the lines of the listing. -/
theorem listingLines_intercalate {ls : List String} (h : ∀ l ∈ ls, Text.IsLine l.toList) :
    listingLines ("\n".intercalate ls) = ls := by
  cases ls with
  | nil => rfl
  | cons l ls =>
    have hlines : ∀ m ∈ (l :: ls).map String.toList, Text.IsLine m := by simpa using h
    have hcut : Text.lines ("\n".intercalate (l :: ls)).toList = (l :: ls).map String.toList := by
      rw [String.toList_intercalate]
      exact Text.lines_intercalate (by simp) fun m hm => (hlines m hm).unbroken
    have htrim : ((l :: ls).map String.toList).map Text.trimChars = (l :: ls).map String.toList :=
      calc ((l :: ls).map String.toList).map Text.trimChars
          = ((l :: ls).map String.toList).map id := List.map_congr_left fun m hm =>
            Text.trimChars_eq_self (hlines m hm).first (hlines m hm).last
        _ = (l :: ls).map String.toList := List.map_id _
    have hkeep : ((l :: ls).map String.toList).filter (!·.isEmpty) =
        (l :: ls).map String.toList := by
      rw [List.filter_eq_self]
      intro m hm
      simpa using (hlines m hm).not_empty
    rw [listingLines, hcut, htrim, hkeep, List.map_map]
    simp [Function.comp_def]

theorem mapM_eq_ok {ε α β : Type} {f : α → Except ε β} {l : List α} {r : List β} :
    l.mapM f = .ok r ↔ List.Forall₂ (fun a b => f a = .ok b) l r := by
  induction l generalizing r with
  | nil =>
    rw [List.mapM_nil, List.forall₂_nil_left_iff]
    constructor
    · intro h
      cases h
      rfl
    · rintro rfl
      rfl
  | cons a l ih =>
    rw [List.mapM_cons, List.forall₂_cons_left_iff]
    constructor
    · intro h
      obtain ⟨b, hb, h⟩ := bind_eq_ok.mp h
      obtain ⟨later, hlater, h⟩ := bind_eq_ok.mp h
      cases h
      exact ⟨b, later, hb, ih.mp hlater, rfl⟩
    · rintro ⟨b, later, hb, hlater, rfl⟩
      exact bind_eq_ok.mpr ⟨b, hb, bind_eq_ok.mpr ⟨later, ih.mpr hlater, rfl⟩⟩

theorem exists_of_mem_mapM {ε α β : Type} {f : α → Except ε β} {l : List α} {r : List β} {b : β}
    (h : l.mapM f = .ok r) (hb : b ∈ r) : ∃ a ∈ l, f a = .ok b := by
  have hall := mapM_eq_ok.mp h
  clear h
  induction hall with
  | nil => cases hb
  | @cons a first l r hfirst hlater ih =>
    rcases List.mem_cons.mp hb with rfl | hb
    · exact ⟨a, List.mem_cons_self, hfirst⟩
    · obtain ⟨other, hother, hread⟩ := ih hb
      exact ⟨other, List.mem_cons_of_mem a hother, hread⟩

/-- A list is refused at its first element that is. -/
theorem mapM_eq_error {ε α β : Type} {f : α → Except ε β} {l : List α} {e : ε} :
    l.mapM f = .error e ↔ ∃ before a after, l = before ++ a :: after ∧
      (∀ a ∈ before, ∃ b, f a = .ok b) ∧ f a = .error e := by
  induction l with
  | nil =>
    constructor
    · intro h
      cases h
    · rintro ⟨before, a, after, hl, -⟩
      simp at hl
  | cons first l ih =>
    rw [List.mapM_cons]
    constructor
    · intro h
      rcases bind_eq_error.mp h with hfirst | ⟨b, hfirst, h⟩
      · exact ⟨[], first, l, rfl, by simp, hfirst⟩
      · rcases bind_eq_error.mp h with hlater | ⟨later, -, h⟩
        · obtain ⟨before, a, after, rfl, hbefore, ha⟩ := ih.mp hlater
          exact ⟨first :: before, a, after, rfl,
            List.forall_mem_cons.mpr ⟨⟨b, hfirst⟩, hbefore⟩, ha⟩
        · cases h
    · rintro ⟨before, a, after, hl, hbefore, ha⟩
      cases before with
      | nil =>
        obtain ⟨rfl, rfl⟩ := List.cons.inj hl
        exact bind_eq_error.mpr (Or.inl ha)
      | cons other before =>
        obtain ⟨rfl, rfl⟩ := List.cons.inj hl
        obtain ⟨⟨b, hfirst⟩, hbefore⟩ := List.forall_mem_cons.mp hbefore
        have hlater := ih.mpr ⟨before, a, after, rfl, hbefore, ha⟩
        exact bind_eq_error.mpr (Or.inr ⟨b, hfirst, bind_eq_error.mpr (Or.inl hlater)⟩)

theorem exists_of_mapM_eq_error {ε α β : Type} {f : α → Except ε β} {l : List α} {e : ε}
    (h : l.mapM f = .error e) : ∃ a ∈ l, f a = .error e := by
  obtain ⟨before, a, after, rfl, -, ha⟩ := mapM_eq_error.mp h
  exact ⟨a, by simp, ha⟩

/-- A listing is read if and only if each of its lines is, each as one instruction. -/
theorem read_eq_ok {listing : String} {program : Program} :
    read listing = .ok program ↔
      List.Forall₂ (fun line instruction => Instruction.read line = .ok instruction)
        (listingLines listing) program :=
  mapM_eq_ok

/-- A listing that is not read has a fault of a listing. -/
theorem stage_of_read {listing : String} {fault : Fault} (h : read listing = .error fault) :
    fault.stage = .listing := by
  obtain ⟨line, -, hline⟩ := exists_of_mapM_eq_error h
  exact Instruction.stage_of_read hline

theorem wellFormed_of_read {listing : String} {program : Program}
    (h : read listing = .ok program) : program.WellFormed := by
  intro instruction hmember
  obtain ⟨line, -, hline⟩ := exists_of_mem_mapM h hmember
  exact Instruction.wellFormed_of_read hline

/-- A listing of instructions that name words has a line for each of them. -/
theorem listingLines_render {program : Program}
    (h : ∀ instruction ∈ program, instruction.NamesWord) :
    listingLines ("\n".intercalate (program.map Instruction.render)) =
      program.map Instruction.render := by
  refine listingLines_intercalate ?_
  simpa using fun instruction hmember => Instruction.isLine_render (h instruction hmember)

theorem read_render {program : Program} (h : program.WellFormed) :
    read ("\n".intercalate (program.map Instruction.render)) = .ok program := by
  have hlines := listingLines_render fun instruction hmember => (h instruction hmember).namesWord
  rw [read_eq_ok, hlines, List.forall₂_map_left_iff, List.forall₂_same]
  intro instruction hmember
  exact Instruction.read_render (h instruction hmember)

/-- What a listing can hold and what can be read from it: the programs whose numbers are finite and
whose names are words. Each is read back from its own listing. -/
theorem read_listing :
    (∀ listing program, read listing = .ok program → program.WellFormed) ∧
    (∀ program : Program, program.WellFormed →
      read ("\n".intercalate (program.map Instruction.render)) = .ok program) ∧
    ∀ instruction : Instruction,
      Instruction.read instruction.render = .ok instruction ↔ instruction.WellFormed :=
  ⟨fun _ _ h => wellFormed_of_read h, fun _ h => read_render h,
    fun _ => ⟨Instruction.wellFormed_of_read, Instruction.read_render⟩⟩

end Program
end Abacus
