import Abacus.Proofs.DocumentNumber

/-!
The notation of documents. A text shows a document if the notation allows it and it says what the
document says; blanks may stand around every value, and a number that has no decimal is shown as
null. Whatever is printed for a document shows the document.
-/
namespace Abacus
namespace Json

def IsGap (cs : List Char) : Prop := ∀ c ∈ cs, c = ' ' ∨ c = '\t' ∨ c = '\n' ∨ c = '\r'

def letters : List (Char × Char) :=
  [('"', '"'), ('\\', '\\'), ('/', '/'), ('b', '\x08'), ('f', '\x0C'), ('n', '\n'), ('r', '\r'),
   ('t', '\t')]

/-- How one character of a text can be shown: by itself, by a letter or by its code. -/
inductive ShowsChar : List Char → Char → Prop
  | plain {c : Char} (hcontrol : 0x20 ≤ c.toNat) (hquotation : c ≠ '"') (hbackslash : c ≠ '\\') :
      ShowsChar [c] c
  | letter {letter c : Char} (h : (letter, c) ∈ letters) : ShowsChar ['\\', letter] c
  | code {digits : List Nat} {c : Char} (hlength : digits.length = 4)
      (hdigits : ∀ digit ∈ digits, digit < 16) (h : digits.foldl (16 * · + ·) 0 = c.toNat) :
      ShowsChar ('\\' :: 'u' :: digits.map Nat.digitChar) c

inductive ShowsChars : List Char → List Char → Prop
  | nil : ShowsChars [] []
  | cons {shown later : List Char} {c : Char} {cs : List Char} (h : ShowsChar shown c)
      (hlater : ShowsChars later cs) : ShowsChars (shown ++ later) (c :: cs)

inductive ShowsText : List Char → String → Prop
  | quoted {shown : List Char} {value : String} (h : ShowsChars shown value.toList) :
      ShowsText ('"' :: (shown ++ ['"'])) value

inductive ShowsEach {α : Type} (ShowsOne : List Char → α → Prop) : List Char → List α → Prop
  | none {gap : List Char} (h : IsGap gap) : ShowsEach ShowsOne gap []
  | last {before shown after : List Char} {member : α} (hbefore : IsGap before)
      (h : ShowsOne shown member) (hafter : IsGap after) :
      ShowsEach ShowsOne (before ++ shown ++ after) [member]
  | more {before shown after later : List Char} {member next : α} {members : List α}
      (hbefore : IsGap before) (h : ShowsOne shown member) (hafter : IsGap after)
      (hlater : ShowsEach ShowsOne later (next :: members)) :
      ShowsEach ShowsOne (before ++ shown ++ after ++ ',' :: later) (member :: next :: members)

inductive ShowsField (ShowsValue : List Char → Json → Prop) : List Char → String × Json → Prop
  | named {shownName before after shown : List Char} {name : String} {value : Json}
      (hname : ShowsText shownName name) (hbefore : IsGap before) (hafter : IsGap after)
      (h : ShowsValue shown value) :
      ShowsField ShowsValue (shownName ++ before ++ ':' :: (after ++ shown)) (name, value)

inductive Shows : List Char → Json → Prop
  | null : Shows ['n', 'u', 'l', 'l'] .null
  | true : Shows ['t', 'r', 'u', 'e'] (.bool .true)
  | false : Shows ['f', 'a', 'l', 's', 'e'] (.bool .false)
  | natural {shown : List Char} {value : Nat} (h : IsWhole shown)
      (hvalue : Numeral.ofDigits shown = value) : Shows shown (.natural value)
  | decimal {shown : List Char} {value : Float} (h : IsNumeral shown)
      (hvalue : Numeral.read shown = some value) : Shows shown (.decimal value)
  | notFinite {value : Float} (h : Binary.isFinite value = .false) :
      Shows ['n', 'u', 'l', 'l'] (.decimal value)
  | text {shown : List Char} {value : String} (h : ShowsText shown value) :
      Shows shown (.text value)
  | list {shown : List Char} {items : List Json} (h : ShowsEach Shows shown items) :
      Shows ('[' :: (shown ++ [']'])) (.list items)
  | object {shown : List Char} {fields : List (String × Json)}
      (h : ShowsEach (ShowsField Shows) shown fields) :
      Shows ('{' :: (shown ++ ['}'])) (.object fields)

theorem showsChar_escape (c : Char) : ShowsChar (escape c) c := by
  have hletter (letter : Char) (h : (letter, c) ∈ letters) : ShowsChar ['\\', letter] c :=
    .letter h
  unfold escape
  simp only [beq_iff_eq]
  split
  · next h => exact hletter '"' (by simp [letters, h])
  split
  · next h => exact hletter '\\' (by simp [letters, h])
  split
  · next h => exact hletter 'n' (by simp [letters, h])
  split
  · next h => exact hletter 't' (by simp [letters, h])
  split
  · next h => exact hletter 'r' (by simp [letters, h])
  split
  · next h =>
    have hc : c = '\x08' := Char.toNat_inj.mp h
    exact hletter 'b' (by simp [letters, hc])
  split
  · next h =>
    have hc : c = '\x0C' := Char.toNat_inj.mp h
    exact hletter 'f' (by simp [letters, hc])
  split
  · next hcontrol =>
    have hdigits : ∀ digit ∈ [0, 0, c.toNat / 16, c.toNat % 16], digit < 16 := by
      intro digit hdigit
      simp only [List.mem_cons, List.not_mem_nil, or_false] at hdigit
      omega
    have hcode : [0, 0, c.toNat / 16, c.toNat % 16].foldl (16 * · + ·) 0 = c.toNat := by
      simp only [List.foldl_cons, List.foldl_nil]
      omega
    exact .code rfl hdigits hcode
  · next hquotation hbackslash _ _ _ _ _ hcontrol =>
    exact .plain (by omega) hquotation hbackslash

theorem showsChars_escape (cs : List Char) : ShowsChars (cs.flatMap escape) cs := by
  induction cs with
  | nil => exact .nil
  | cons c cs ih => exact .cons (showsChar_escape c) ih

/-- A text in quotation marks is shown in front of what follows it. -/
theorem exists_showsText (value : String) (rest : List Char) :
    ∃ shown, quote value rest = shown ++ rest ∧ ShowsText shown value :=
  ⟨_, by simp [quote], .quoted (showsChars_escape value.toList)⟩

theorem isGap_nil : IsGap [] := fun _ hc => absurd hc List.not_mem_nil

theorem exists_gap (depth : Nat) (rest : List Char) :
    ∃ gap, newLine depth rest = gap ++ rest ∧ IsGap gap := by
  refine ⟨'\n' :: List.replicate (2 * depth) ' ', rfl, fun c hc => ?_⟩
  rcases List.mem_cons.mp hc with rfl | hc
  · simp
  · exact .inl (List.eq_of_mem_replicate hc)

theorem shows_number (value : Float) : Shows (number value) (.decimal value) := by
  by_cases h : Binary.isFinite value
  · obtain ⟨hnumeral, hread⟩ := isNumeral_number h
    exact .decimal hnumeral hread
  · rw [Bool.not_eq_true] at h
    rw [number, if_neg (by simp [h])]
    exact .notFinite h

theorem itemsChars_eq_foldr (depth : Nat) (rest : List Char) (items : List Json) :
    itemsChars depth rest items =
      items.foldr (fun item later => ',' :: newLine depth (chars depth later item)) rest := by
  induction items with
  | nil => rw [itemsChars, List.foldr_nil]
  | cons item items ih => rw [itemsChars, ih, List.foldr_cons]

theorem fieldsChars_eq_foldr (depth : Nat) (rest : List Char) (fields : List (String × Json)) :
    fieldsChars depth rest fields = fields.foldr (fun field later =>
      ',' :: newLine depth (quote field.1 (':' :: ' ' :: chars depth later field.2))) rest := by
  induction fields with
  | nil => rw [fieldsChars, List.foldr_nil]
  | cons field fields ih => rw [fieldsChars, ih, List.foldr_cons]

/-- Members that are printed on lines of their own, with a comma after each but the last, are
shown if each of them is. -/
theorem exists_showsEach {α : Type} {ShowsOne : List Char → α → Prop}
    (print : α → List Char → List Char) (depth outer : Nat) (rest : List Char) (first : α)
    (members : List α) (h : ∀ member ∈ first :: members, ∀ later,
      ∃ shown, print member later = shown ++ later ∧ ShowsOne shown member) :
    ∃ shown, newLine depth (print first (members.foldr
        (fun member later => ',' :: newLine depth (print member later)) (newLine outer rest))) =
      shown ++ rest ∧ ShowsEach ShowsOne shown (first :: members) := by
  induction members generalizing first with
  | nil =>
    obtain ⟨after, hafter, hafterGap⟩ := exists_gap outer rest
    obtain ⟨shown, hshown, hfirst⟩ := h first List.mem_cons_self (newLine outer rest)
    obtain ⟨before, hbefore, hbeforeGap⟩ := exists_gap depth (shown ++ newLine outer rest)
    refine ⟨_, ?_, .last hbeforeGap hfirst hafterGap⟩
    rw [List.foldr_nil, hshown, hbefore, hafter, List.append_assoc, List.append_assoc]
  | cons member members ih =>
    obtain ⟨later, hlater, hmembers⟩ := ih member fun m hm => h m (List.mem_cons_of_mem first hm)
    obtain ⟨shown, hshown, hfirst⟩ := h first List.mem_cons_self (',' :: (later ++ rest))
    obtain ⟨before, hbefore, hgap⟩ := exists_gap depth (shown ++ ',' :: (later ++ rest))
    refine ⟨_, ?_, .more hgap hfirst isGap_nil hmembers⟩
    rw [List.foldr_cons, hlater, hshown, hbefore]
    simp

/-- A field is shown if its value is. -/
theorem exists_showsField (depth : Nat) (later : List Char) (field : String × Json)
    (h : ∃ shown, chars depth later field.2 = shown ++ later ∧ Shows shown field.2) :
    ∃ shown, quote field.1 (':' :: ' ' :: chars depth later field.2) = shown ++ later ∧
      ShowsField Shows shown field := by
  obtain ⟨shown, hshown, hvalue⟩ := h
  obtain ⟨shownName, hshownName, hname⟩ := exists_showsText field.1 (':' :: ' ' :: (shown ++ later))
  have hblank : IsGap [' '] := fun c hc => .inl (List.mem_singleton.mp hc)
  refine ⟨_, ?_, .named hname isGap_nil hblank hvalue⟩
  rw [hshown, hshownName]
  simp

/-- What is printed for a document, in front of anything, shows the document. -/
theorem exists_shows (depth : Nat) (rest : List Char) (document : Json) :
    ∃ shown, document.chars depth rest = shown ++ rest ∧ Shows shown document := by
  -- The recursion goes to the members of lists and objects, which are smaller documents.
  match document with
  | .null => exact ⟨_, rfl, .null⟩
  | .bool .true => exact ⟨_, rfl, .true⟩
  | .bool .false => exact ⟨_, rfl, .false⟩
  | .natural value =>
    exact ⟨_, rfl, .natural (isWhole_toDigits value) (Numeral.ofDigits_toDigits value)⟩
  | .decimal value => exact ⟨_, rfl, shows_number value⟩
  | .text value =>
    obtain ⟨shown, hshown, h⟩ := exists_showsText value rest
    exact ⟨shown, hshown, .text h⟩
  | .list [] => exact ⟨_, rfl, .list (.none isGap_nil)⟩
  | .list (first :: items) =>
    obtain ⟨shown, hshown, h⟩ := exists_showsEach (fun item later => chars (depth + 1) later item)
      (depth + 1) depth (']' :: rest) first items
      fun item hitem later => exists_shows (depth + 1) later item
    refine ⟨_, ?_, .list h⟩
    rw [chars, itemsChars_eq_foldr, hshown]
    simp
  | .object [] => exact ⟨_, rfl, .object (.none isGap_nil)⟩
  | .object (first :: fields) =>
    obtain ⟨shown, hshown, h⟩ := exists_showsEach
      (fun field later => quote field.1 (':' :: ' ' :: chars (depth + 1) later field.2))
      (depth + 1) depth ('}' :: rest) first fields
      fun field hfield later =>
        exists_showsField (depth + 1) later field (exists_shows (depth + 1) later field.2)
    refine ⟨_, ?_, .object h⟩
    rw [chars, fieldsChars_eq_foldr, hshown]
    simp
termination_by sizeOf document
decreasing_by
  · have := List.sizeOf_lt_of_mem hitem
    simp only [list.sizeOf_spec]
    omega
  · have := List.sizeOf_lt_of_mem hfield
    have : sizeOf field = 1 + sizeOf field.1 + sizeOf field.2 := rfl
    simp only [object.sizeOf_spec]
    omega

/-- The printed text of a document shows it. -/
theorem shows_print (document : Json) : Shows document.print.toList document := by
  obtain ⟨shown, hshown, h⟩ := exists_shows 0 [] document
  rw [print, String.toList_ofList, hshown, List.append_nil]
  exact h

end Json
end Abacus
