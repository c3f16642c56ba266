import Abacus.Proofs.DocumentText
import Abacus.Text.Boundary

/-!
Documents are told apart by their texts. The first character of a text shows the form of the
document. Texts, lists and objects show where they end, and a number ends at the first character
that no number is written with. So a text is printed for one document only, among those that have
nothing but finite numbers.
-/
namespace Abacus

namespace Json

inductive IsFinite : Json → Prop
  | null : IsFinite .null
  | bool (value : Bool) : IsFinite (.bool value)
  | natural (value : Nat) : IsFinite (.natural value)
  | decimal {value : Float} (h : Binary.isFinite value) : IsFinite (.decimal value)
  | text (value : String) : IsFinite (.text value)
  | list {items : List Json} (h : ∀ item ∈ items, IsFinite item) : IsFinite (.list items)
  | object {fields : List (String × Json)} (h : ∀ field ∈ fields, IsFinite field.2) :
      IsFinite (.object fields)

@[simp]
theorem isFinite_bool (value : Bool) : (bool value).IsFinite := .bool value

@[simp]
theorem isFinite_natural (value : Nat) : (natural value).IsFinite := .natural value

@[simp]
theorem isFinite_text (value : String) : (text value).IsFinite := .text value

@[simp]
theorem isFinite_decimal {value : Float} : (decimal value).IsFinite ↔ Binary.isFinite value :=
  ⟨fun | .decimal h => h, .decimal⟩

@[simp]
theorem isFinite_ofOption {α : Type} {encode : α → Json} {o : Option α} :
    (ofOption encode o).IsFinite ↔ ∀ a ∈ o, (encode a).IsFinite := by
  cases o with
  | none => simp [ofOption, IsFinite.null]
  | some a => simp [ofOption]

@[simp]
theorem isFinite_list {items : List Json} :
    (list items).IsFinite ↔ ∀ item ∈ items, item.IsFinite :=
  ⟨fun | .list h => h, .list⟩

@[simp]
theorem isFinite_object {fields : List (String × Json)} :
    (object fields).IsFinite ↔ ∀ field ∈ fields, field.2.IsFinite :=
  ⟨fun | .object h => h, .object⟩

/-- A function that tells the members of two lists apart tells the lists apart. -/
theorem eq_of_map_eq {α β : Type} {f : α → β} {xs ys : List α}
    (hf : ∀ x ∈ xs, ∀ y ∈ ys, f x = f y → x = y) (h : xs.map f = ys.map f) : xs = ys := by
  induction xs generalizing ys with
  | nil => exact (List.map_eq_nil_iff.mp h.symm).symm
  | cons x xs ih =>
    cases ys with
    | nil => cases h
    | cons y ys =>
      rw [List.map_cons, List.map_cons, List.cons.injEq] at h
      rw [hf x List.mem_cons_self y List.mem_cons_self h.1,
        ih (fun x' hx y' hy =>
          hf x' (List.mem_cons_of_mem _ hx) y' (List.mem_cons_of_mem _ hy)) h.2]

section Texts

theorem letters_functional : ∀ entry ∈ letters, ∀ entry' ∈ letters, entry.1 = entry'.1 →
    entry.2 = entry'.2 := by decide

theorem digitChar_inj {digit digit' : Nat} (hdigit : digit < 16) (hdigit' : digit' < 16)
    (h : Nat.digitChar digit = Nat.digitChar digit') : digit = digit' := by
  have hall : ∀ i j : Fin 16, Nat.digitChar i = Nat.digitChar j → i = j := by decide
  exact Fin.mk.inj (hall ⟨digit, hdigit⟩ ⟨digit', hdigit'⟩ h)

variable {shown shown' rest rest' : List Char}

/-- A character of a text is shown in a way that is no other character's and shows its end. -/
theorem ShowsChar.unique {c c' : Char} (h : ShowsChar shown c) (h' : ShowsChar shown' c')
    (hsame : shown ++ rest = shown' ++ rest') : c = c' ∧ rest = rest' := by
  cases h with
  | plain hcontrol hquotation hbackslash =>
    cases h' with
    | plain => exact List.cons.inj hsame
    | letter | code => exact absurd (List.cons.inj hsame).1 hbackslash
  | @letter letter _ hletter =>
    cases h' with
    | plain hcontrol hquotation hbackslash =>
      exact absurd (List.cons.inj hsame).1.symm hbackslash
    | @letter letter' _ hletter' =>
      simp only [List.cons_append, List.nil_append, List.cons.injEq, true_and] at hsame
      exact ⟨letters_functional _ hletter _ hletter' hsame.1, hsame.2⟩
    | code =>
      simp only [List.cons_append, List.nil_append, List.cons.injEq, true_and] at hsame
      rw [hsame.1] at hletter
      simp [letters] at hletter
  | @code digits _ hlength hdigits hcode =>
    cases h' with
    | plain hcontrol hquotation hbackslash =>
      exact absurd (List.cons.inj hsame).1.symm hbackslash
    | letter hletter =>
      simp only [List.cons_append, List.nil_append, List.cons.injEq, true_and] at hsame
      rw [← hsame.1] at hletter
      simp [letters] at hletter
    | @code digits' _ hlength' hdigits' hcode' =>
      -- a code has four digits, so both end at the same place
      simp only [List.cons_append, List.cons.injEq, true_and] at hsame
      obtain ⟨hmap, hrest⟩ := List.append_inj hsame (by simp [hlength, hlength'])
      have hdigit := eq_of_map_eq (fun digit hdigit digit' hdigit' =>
        digitChar_inj (hdigits digit hdigit) (hdigits' digit' hdigit')) hmap
      rw [hdigit, hcode'] at hcode
      exact ⟨(Char.toNat_inj.mp hcode).symm, hrest⟩

theorem ShowsChar.ne_quotation {c : Char} (h : ShowsChar shown c) (later : List Char) :
    shown ++ later ≠ '"' :: rest := by
  intro hsame
  cases h with
  | plain hcontrol hquotation => exact hquotation (List.cons.inj hsame).1
  | letter | code => cases (List.cons.inj hsame).1

/-- The quotation mark that ends a text is not shown for a character of it. -/
theorem ShowsChars.unique {cs cs' : List Char} (h : ShowsChars shown cs)
    (h' : ShowsChars shown' cs') (hsame : shown ++ '"' :: rest = shown' ++ '"' :: rest') :
    cs = cs' ∧ rest = rest' := by
  induction h generalizing shown' cs' with
  | nil =>
    cases h' with
    | nil => exact ⟨rfl, (List.cons.inj hsame).2⟩
    | cons hchar =>
      rw [List.append_assoc] at hsame
      exact absurd hsame.symm (hchar.ne_quotation _)
  | cons hchar hlater ih =>
    cases h' with
    | nil =>
      rw [List.append_assoc] at hsame
      exact absurd hsame (hchar.ne_quotation _)
    | cons hchar' hlater' =>
      rw [List.append_assoc, List.append_assoc] at hsame
      obtain ⟨rfl, hsame⟩ := hchar.unique hchar' hsame
      obtain ⟨rfl, hrest⟩ := ih hlater' hsame
      exact ⟨rfl, hrest⟩

theorem quote_inj {value value' : String} (h : quote value rest = quote value' rest') :
    value = value' ∧ rest = rest' := by
  obtain ⟨hvalue, hrest⟩ := (showsChars_escape value.toList).unique
    (showsChars_escape value'.toList) (List.cons.inj h).2
  exact ⟨String.toList_inj.mp hvalue, hrest⟩

end Texts

section Numbers

def isNumberChar (c : Char) : Bool :=
  c.isDigit || c == '.' || c == '-' || c == '+' || c == 'e'

theorem isNumberChar_of_writes {c : Char} (h : NumberStyle.Writes c) : isNumberChar c := by
  simpa [isNumberChar, NumberStyle.Writes, or_assoc] using h

/-- What comes after a number so that the number has ended. -/
def EndsNumber (rest : List Char) : Prop := ∀ c ∈ rest.head?, isNumberChar c = false

theorem endsNumber_nil : EndsNumber [] := by simp [EndsNumber]

theorem endsNumber_cons {c : Char} (h : isNumberChar c = false) (rest : List Char) :
    EndsNumber (c :: rest) := by
  rintro _ ⟨⟩
  exact h

/-- The text of a finite number, with decimal places or without. -/
inductive SpellsNumber : List Char → Json → Prop
  | natural (value : Nat) : SpellsNumber (Nat.toDigits 10 value) (.natural value)
  | decimal {value : Float} (h : Binary.isFinite value) :
      SpellsNumber (number value) (.decimal value)

variable {cs cs' : List Char} {j j' : Json}

theorem number_of_isFinite {value : Float} (h : Binary.isFinite value) :
    number value = (NumberStyle.document.write value).toList := if_pos h

theorem SpellsNumber.isNumberChar (h : SpellsNumber cs j) : ∀ c ∈ cs, isNumberChar c := by
  cases h with
  | natural value => exact fun c hc => isNumberChar_of_writes (NumberStyle.writes_digits value c hc)
  | decimal h =>
    rw [number_of_isFinite h]
    exact fun c hc => isNumberChar_of_writes (NumberStyle.writes_write .document h c hc)

theorem SpellsNumber.exists_head (h : SpellsNumber cs j) :
    ∃ c later, cs = c :: later ∧ (c.isDigit ∨ c = '-') := by
  cases h with
  | natural value =>
    obtain ⟨hne, hdigits⟩ := isDigits_toDigits value
    obtain ⟨c, later, hcs⟩ := List.exists_cons_of_ne_nil hne
    exact ⟨c, later, hcs, .inl (hdigits c (by simp [hcs]))⟩
  | decimal h =>
    obtain ⟨c, hc, hbegins⟩ := NumberStyle.head_write .document h
    obtain ⟨later, hlater⟩ := List.head?_eq_some_iff.mp hc
    rw [number_of_isFinite h]
    exact ⟨c, later, hlater, hbegins⟩

theorem toDigits_ne_number {value : Float} (h : Binary.isFinite value) (n : Nat) :
    Nat.toDigits 10 n ≠ number value := by
  intro hsame
  obtain ⟨c, hc, hdigit⟩ := NumberStyle.exists_not_isDigit_write .document rfl h
  rw [← number_of_isFinite h, ← hsame] at hc
  rw [(isDigits_toDigits n).2 c hc] at hdigit
  cases hdigit

theorem SpellsNumber.unique (h : SpellsNumber cs j) (h' : SpellsNumber cs j') : j = j' := by
  cases h with
  | natural value =>
    generalize hcs : Nat.toDigits 10 value = cs at h'
    cases h' with
    | natural value' =>
      rw [← Numeral.ofDigits_toDigits value, hcs, Numeral.ofDigits_toDigits]
    | decimal h => exact absurd hcs (toDigits_ne_number h value)
  | @decimal value h =>
    generalize hcs : number value = cs at h'
    cases h' with
    | natural value' => exact absurd hcs.symm (toDigits_ne_number h value')
    | decimal h' =>
      rw [number_of_isFinite h, number_of_isFinite h', String.toList_inj] at hcs
      rw [NumberStyle.write_inj .document h h' hcs]

end Numbers

/-- The forms of documents that the first character tells apart. -/
inductive Form where
  | null
  | bool (value : Bool)
  | number
  | text
  | list
  | object
deriving DecidableEq, Repr

def form : Json → Form
  | .null => .null
  | .bool value => .bool value
  | .natural _ | .decimal _ => .number
  | .text _ => .text
  | .list _ => .list
  | .object _ => .object

def Form.ofChar (c : Char) : Form :=
  if c = 'n' then .null
  else if c = 't' then .bool true
  else if c = 'f' then .bool false
  else if c = '"' then .text
  else if c = '[' then .list
  else if c = '{' then .object
  else .number

section Printing

variable {j j' : Json} {depth outer : Nat} {rest rest' : List Char}

theorem exists_spellsNumber (hj : j.IsFinite) (hform : j.form = .number) :
    ∃ cs, SpellsNumber cs j ∧ ∀ depth rest, j.chars depth rest = cs ++ rest := by
  cases hj with
  | natural value => exact ⟨_, .natural value, fun depth rest => by rw [chars]⟩
  | decimal h => exact ⟨_, .decimal h, fun depth rest => by rw [chars]⟩
  | null | bool | text | list | object => cases hform

/-- The first character of a text tells the form of the document. -/
theorem exists_head_chars (hj : j.IsFinite) (depth : Nat) (rest : List Char) :
    ∃ c later, j.chars depth rest = c :: later ∧ Form.ofChar c = j.form := by
  by_cases hform : j.form = .number
  · obtain ⟨cs, hcs, hchars⟩ := exists_spellsNumber hj hform
    obtain ⟨c, later, rfl, hc⟩ := hcs.exists_head
    refine ⟨c, later ++ rest, hchars depth rest, ?_⟩
    rw [hform]
    rcases hc with hdigit | rfl
    · unfold Form.ofChar
      repeat' split
      all_goals first | rfl | (subst c; cases hdigit)
    · rfl
  · cases hj with
    | null => exact ⟨_, _, by rw [chars], rfl⟩
    | bool value => cases value <;> exact ⟨_, _, by rw [chars], rfl⟩
    | text value => exact ⟨_, _, by rw [chars, quote], rfl⟩
    | @list items => cases items <;> exact ⟨_, _, by rw [chars], rfl⟩
    | @object fields => cases fields <;> exact ⟨_, _, by rw [chars], rfl⟩
    | natural | decimal => exact absurd rfl hform

theorem form_eq_of_chars (hj : j.IsFinite) (hj' : j'.IsFinite)
    (h : j.chars depth rest = j'.chars depth rest') : j.form = j'.form := by
  obtain ⟨c, later, hchars, hform⟩ := exists_head_chars hj depth rest
  obtain ⟨c', later', hchars', hform'⟩ := exists_head_chars hj' depth rest'
  rw [hchars, hchars'] at h
  rw [← hform, ← hform', (List.cons.inj h).1]

theorem newLine_inj (h : newLine depth rest = newLine depth rest') : rest = rest' :=
  List.append_cancel_left (List.cons.inj h).2

section Members

variable {α : Type} {print : α → List Char → List Char} {first first' : α}
  {members members' : List α}

def laterMembers (print : α → List Char → List Char) (depth : Nat) (rest : List Char)
    (members : List α) : List Char :=
  members.foldr (fun member later => ',' :: newLine depth (print member later)) rest

def group (opening closing : Char) (print : α → List Char → List Char) (depth : Nat)
    (rest : List Char) : List α → List Char
  | [] => opening :: closing :: rest
  | first :: members => opening :: newLine (depth + 1)
      (print first (laterMembers print (depth + 1) (newLine depth (closing :: rest)) members))

/-- Texts of members are told apart if they stand in front of what ends a number. -/
def TellsApart (print : α → List Char → List Char) (member member' : α) : Prop :=
  ∀ later later', EndsNumber later → EndsNumber later' →
    print member later = print member' later' → member = member' ∧ later = later'

theorem endsNumber_laterMembers (outer : Nat) (members : List α) :
    EndsNumber (laterMembers print depth (newLine outer rest) members) := by
  cases members with
  | nil => exact endsNumber_cons (by rfl) _
  | cons member members => exact endsNumber_cons (by rfl) _

/-- After each member stands a comma, or the new line of the closing bracket. -/
theorem members_inj
    (hprint : ∀ member ∈ first :: members, ∀ member' ∈ first' :: members',
      TellsApart print member member')
    (h : print first (laterMembers print depth (newLine outer rest) members) =
      print first' (laterMembers print depth (newLine outer rest') members')) :
    first :: members = first' :: members' ∧ rest = rest' := by
  induction members generalizing first first' members' with
  | nil =>
    obtain ⟨rfl, hlater⟩ := hprint first List.mem_cons_self first' List.mem_cons_self _ _
      (endsNumber_laterMembers _ _) (endsNumber_laterMembers _ _) h
    cases members' with
    | nil => exact ⟨rfl, newLine_inj hlater⟩
    | cons => cases (List.cons.inj hlater).1
  | cons next members ih =>
    obtain ⟨rfl, hlater⟩ := hprint first List.mem_cons_self first' List.mem_cons_self _ _
      (endsNumber_laterMembers _ _) (endsNumber_laterMembers _ _) h
    cases members' with
    | nil => cases (List.cons.inj hlater).1
    | cons next' members' =>
      obtain ⟨hmembers, hrest⟩ := ih (fun member hmember member' hmember' =>
        hprint member (List.mem_cons_of_mem _ hmember) member' (List.mem_cons_of_mem _ hmember'))
        (newLine_inj (List.cons.inj hlater).2)
      exact ⟨by rw [hmembers], hrest⟩

theorem group_inj {opening closing : Char} (hclosing : closing ≠ '\n')
    (hprint : ∀ member ∈ members, ∀ member' ∈ members', TellsApart print member member')
    (h : group opening closing print depth rest members =
      group opening closing print depth rest' members') : members = members' ∧ rest = rest' := by
  cases members with
  | nil =>
    cases members' with
    | nil => exact ⟨rfl, (List.cons.inj (List.cons.inj h).2).2⟩
    | cons => exact absurd (List.cons.inj (List.cons.inj h).2).1 hclosing
  | cons first members =>
    cases members' with
    | nil => exact absurd (List.cons.inj (List.cons.inj h).2).1.symm hclosing
    | cons first' members' =>
      obtain ⟨hmembers, hrest⟩ := members_inj hprint (newLine_inj (List.cons.inj h).2)
      exact ⟨hmembers, (List.cons.inj hrest).2⟩

end Members

theorem chars_list (depth : Nat) (rest : List Char) (items : List Json) :
    chars depth rest (.list items) =
      group '[' ']' (fun item later => chars (depth + 1) later item) depth rest items := by
  cases items with
  | nil => rw [chars, group]
  | cons item items => rw [chars, itemsChars_eq_foldr, group, laterMembers]

theorem chars_object (depth : Nat) (rest : List Char) (fields : List (String × Json)) :
    chars depth rest (.object fields) = group '{' '}' (fun field later =>
      quote field.1 (':' :: ' ' :: chars (depth + 1) later field.2)) depth rest fields := by
  cases fields with
  | nil => rw [chars, group]
  | cons field fields => rw [chars, fieldsChars_eq_foldr, group, laterMembers]

theorem chars_inj_of_number (hj : j.IsFinite) (hj' : j'.IsFinite) (hnumber : j.form = .number)
    (hrest : EndsNumber rest) (hrest' : EndsNumber rest')
    (h : j.chars depth rest = j'.chars depth rest') : j = j' ∧ rest = rest' := by
  have hnumber' : j'.form = .number := (form_eq_of_chars hj hj' h).symm.trans hnumber
  obtain ⟨cs, hcs, hchars⟩ := exists_spellsNumber hj hnumber
  obtain ⟨cs', hcs', hchars'⟩ := exists_spellsNumber hj' hnumber'
  rw [hchars, hchars'] at h
  obtain ⟨rfl, hsame⟩ :=
    Text.append_inj_of_ends hcs.isNumberChar hcs'.isNumberChar hrest hrest' h
  exact ⟨hcs.unique hcs', hsame⟩

/-- The text of a document shows the document and where it ends. -/
theorem chars_inj (hj : j.IsFinite) (hj' : j'.IsFinite) (hrest : EndsNumber rest)
    (hrest' : EndsNumber rest') (h : j.chars depth rest = j'.chars depth rest') :
    j = j' ∧ rest = rest' := by
  -- By induction on what is finite in the one document, which reaches the members of lists and
  -- objects; the form then leaves one constructor for the other document.
  induction hj generalizing j' depth rest rest' with
  | null =>
    have hform := form_eq_of_chars .null hj' h
    cases hj' with
    | null =>
      rw [chars, chars] at h
      exact ⟨rfl, by simpa using h⟩
    | bool | natural | decimal | text | list | object => cases hform
  | bool value =>
    have hform := form_eq_of_chars (.bool value) hj' h
    cases hj' with
    | bool value' =>
      cases hform
      cases value
      · rw [chars, chars] at h
        exact ⟨rfl, by simpa using h⟩
      · rw [chars, chars] at h
        exact ⟨rfl, by simpa using h⟩
    | null | natural | decimal | text | list | object => cases hform
  | natural value => exact chars_inj_of_number (.natural value) hj' rfl hrest hrest' h
  | decimal hvalue => exact chars_inj_of_number (.decimal hvalue) hj' rfl hrest hrest' h
  | text value =>
    have hform := form_eq_of_chars (.text value) hj' h
    cases hj' with
    | text value' =>
      rw [chars, chars] at h
      obtain ⟨rfl, hsame⟩ := quote_inj h
      exact ⟨rfl, hsame⟩
    | null | bool | natural | decimal | list | object => cases hform
  | list hitems ih =>
    have hform := form_eq_of_chars (.list hitems) hj' h
    cases hj' with
    | list hitems' =>
      rw [chars_list, chars_list] at h
      obtain ⟨rfl, hsame⟩ := group_inj (by decide)
        (fun item hitem item' hitem' _ _ hends hends' hchars =>
          ih item hitem (hitems' item' hitem') hends hends' hchars) h
      exact ⟨rfl, hsame⟩
    | null | bool | natural | decimal | text | object => cases hform
  | object hfields ih =>
    have hform := form_eq_of_chars (.object hfields) hj' h
    cases hj' with
    | object hfields' =>
      rw [chars_object, chars_object] at h
      obtain ⟨rfl, hsame⟩ := group_inj (by decide)
        (fun field hfield field' hfield' _ _ hends hends' hchars => by
          obtain ⟨hname, hvalue⟩ := quote_inj hchars
          obtain ⟨hsame, hlater⟩ := ih field hfield (hfields' field' hfield') hends hends'
            (List.cons.inj (List.cons.inj hvalue).2).2
          exact ⟨Prod.ext hname hsame, hlater⟩) h
      exact ⟨rfl, hsame⟩
    | null | bool | natural | decimal | text | list => cases hform

/-- Documents with the same printed text are the same. -/
theorem print_inj (hj : j.IsFinite) (hj' : j'.IsFinite) (h : j.print = j'.print) : j = j' := by
  rw [print, print, String.ofList_inj] at h
  exact (chars_inj hj hj' endsNumber_nil endsNumber_nil h).1

end Printing

end Json
end Abacus
