/-!
Blank characters, and the two ways text is divided at them: trimming and splitting into words.
A character is blank when Unicode gives it the property White_Space. Splitting loses nothing:
joining the pieces with the characters that parted them gives the text back.
-/
namespace Abacus.Text

def blankRanges : List (Nat × Nat) :=
  [(0x0009, 0x000D), (0x0020, 0x0020), (0x0085, 0x0085), (0x00A0, 0x00A0), (0x1680, 0x1680),
   (0x2000, 0x200A), (0x2028, 0x2029), (0x202F, 0x202F), (0x205F, 0x205F), (0x3000, 0x3000)]

def isBlank (c : Char) : Bool :=
  blankRanges.any fun range => range.1 ≤ c.toNat && c.toNat ≤ range.2

def pieces {α : Type} (p : α → Bool) : List α → List (List α)
  | [] => [[]]
  | a :: rest => if p a then [] :: pieces p rest else (pieces p rest).modifyHead (a :: ·)

def words (cs : List Char) : List (List Char) :=
  (pieces isBlank cs).filter (!·.isEmpty)

def trimChars (cs : List Char) : List Char :=
  ((cs.dropWhile isBlank).reverse.dropWhile isBlank).reverse

def trim (text : String) : String := String.ofList (trimChars text.toList)

theorem isBlank_eq_false {c : Char} (hlow : 0x20 < c.toNat) (hhigh : c.toNat < 0x85) :
    isBlank c = false := by
  simp [isBlank, blankRanges]
  omega

theorem isBlank_of_isDigit {c : Char} (h : c.isDigit) : isBlank c = false := by
  obtain ⟨hlow, hhigh⟩ : 48 ≤ c.toNat ∧ c.toNat ≤ 57 := Char.isDigit_iff_toNat.mp h
  exact isBlank_eq_false (by omega) (by omega)

theorem pieces_eq_splitOnP {α : Type} (p : α → Bool) (l : List α) : pieces p l = l.splitOnP p := by
  induction l with
  | nil => rfl
  | cons a rest ih => rw [pieces, ih, List.splitOnP_cons_eq_if_modifyHead]

@[simp] theorem pieces_ne_nil {α : Type} (p : α → Bool) (l : List α) : pieces p l ≠ [] := by
  rw [pieces_eq_splitOnP]
  exact List.splitOnP_ne_nil p l

theorem pieces_append_cons {α : Type} (p : α → Bool) {sep : α} (hsep : p sep) (l r : List α) :
    pieces p (l ++ sep :: r) = pieces p l ++ pieces p r := by
  simp only [pieces_eq_splitOnP]
  exact List.splitOnP_append_cons l r hsep

/-- No piece holds an element that parts the pieces. -/
theorem eq_false_of_mem_pieces {α : Type} {p : α → Bool} {l piece : List α} {a : α}
    (hpiece : piece ∈ pieces p l) (ha : a ∈ piece) : p a = false := by
  induction l generalizing piece with
  | nil =>
    rw [List.mem_singleton.mp hpiece] at ha
    cases ha
  | cons b l ih =>
    rw [pieces] at hpiece
    split at hpiece
    · rcases List.mem_cons.mp hpiece with rfl | hpiece
      · cases ha
      · exact ih hpiece ha
    · next hb =>
      obtain ⟨first, later, hpieces⟩ := List.exists_cons_of_ne_nil (pieces_ne_nil p l)
      rw [hpieces] at hpiece ih
      rcases List.mem_cons.mp hpiece with rfl | hpiece
      · rcases List.mem_cons.mp ha with rfl | ha
        · simpa using hb
        · exact ih List.mem_cons_self ha
      · exact ih (List.mem_cons_of_mem first hpiece) ha

def IsWord (cs : List Char) : Prop := cs ≠ [] ∧ ∀ c ∈ cs, isBlank c = false

theorem words_eq_singleton {cs : List Char} (h : IsWord cs) : words cs = [cs] := by
  rw [words, pieces_eq_splitOnP, List.splitOnP_eq_singleton h.2]
  simp [h.1]

theorem words_append_cons {sep : Char} (hsep : isBlank sep) (l r : List Char) :
    words (l ++ sep :: r) = words l ++ words r := by
  rw [words, pieces_append_cons isBlank hsep, List.filter_append]
  rfl

/-- A text that begins with a character that is not blank has a word. -/
theorem words_cons_ne_nil {first : Char} (h : isBlank first = false) (rest : List Char) :
    words (first :: rest) ≠ [] := by
  obtain ⟨piece, later, hpieces⟩ := List.exists_cons_of_ne_nil (pieces_ne_nil isBlank rest)
  simp [words, pieces, h, hpieces]

theorem isWord_of_mem_words {cs word : List Char} (h : word ∈ words cs) : IsWord word := by
  rw [words, List.mem_filter] at h
  exact ⟨by simpa using h.2, fun c hc => eq_false_of_mem_pieces h.1 hc⟩

/-- A text that neither begins nor ends with a blank is trimmed. -/
theorem trimChars_eq_self {cs : List Char} (hfirst : ∀ c ∈ cs.head?, isBlank c = false)
    (hlast : ∀ c ∈ cs.getLast?, isBlank c = false) : trimChars cs = cs := by
  have hdrop {ds : List Char} (h : ∀ c ∈ ds.head?, isBlank c = false) :
      ds.dropWhile isBlank = ds := by
    cases ds with
    | nil => rfl
    | cons d ds => simp [h d (by simp)]
  rw [trimChars, hdrop hfirst, hdrop (by rwa [List.head?_reverse]), List.reverse_reverse]

/-- Trimming takes blanks off both ends, and all of them. -/
theorem exists_trimChars (cs : List Char) :
    ∃ before after, cs = before ++ (trimChars cs ++ after) ∧
      (∀ c ∈ before ++ after, isBlank c) ∧
      (∀ c ∈ (trimChars cs).head?, isBlank c = false) ∧
      ∀ c ∈ (trimChars cs).getLast?, isBlank c = false := by
  have hfront : cs.takeWhile isBlank ++ cs.dropWhile isBlank = cs :=
    List.takeWhile_append_dropWhile
  have hfirst := List.head?_dropWhile_not isBlank cs
  generalize hkept : cs.dropWhile isBlank = kept at hfront hfirst
  have hback : kept.reverse.takeWhile isBlank ++ kept.reverse.dropWhile isBlank = kept.reverse :=
    List.takeWhile_append_dropWhile
  have hlast := List.head?_dropWhile_not isBlank kept.reverse
  have htrim : trimChars cs = (kept.reverse.dropWhile isBlank).reverse := by rw [trimChars, hkept]
  have hsplit : kept = trimChars cs ++ (kept.reverse.takeWhile isBlank).reverse := by
    rw [htrim, ← List.reverse_append, hback, List.reverse_reverse]
  refine ⟨cs.takeWhile isBlank, (kept.reverse.takeWhile isBlank).reverse, ?_, ?_, ?_, ?_⟩
  · rw [← hsplit, hfront]
  · intro c hc
    rcases List.mem_append.mp hc with hc | hc
    · exact List.all_eq_true.mp List.all_takeWhile c hc
    · exact List.all_eq_true.mp List.all_takeWhile c (List.mem_reverse.mp hc)
  · intro c hc
    rw [hsplit, List.head?_append, hc] at hfirst
    exact hfirst
  · intro c hc
    rw [htrim, List.getLast?_reverse] at hc
    rw [hc] at hlast
    exact hlast

theorem mem_of_mem_trimChars {cs : List Char} {c : Char} (h : c ∈ trimChars cs) : c ∈ cs := by
  obtain ⟨before, after, hsplit, -⟩ := exists_trimChars cs
  rw [hsplit]
  simp [h]

/-- Trimming a trimmed text changes nothing. -/
theorem trimChars_trimChars (cs : List Char) : trimChars (trimChars cs) = trimChars cs := by
  obtain ⟨before, after, -, -, hfirst, hlast⟩ := exists_trimChars cs
  exact trimChars_eq_self hfirst hlast

end Abacus.Text
