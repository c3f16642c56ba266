import Abacus.CommandLine.Binding
import Abacus.Proofs.Listing
import Abacus.Proofs.Scanning
import Mathlib.Data.List.Induction

/-!
What a binding on the command line must look like. Its name stands before its first equals sign
and is an identifier of the scanner; its numeral is all that comes after. Bindings are read one by
one, and each is put into the table that those before it gave.
-/
namespace Abacus
namespace CommandLine

open Token

namespace Binding

theorem isName_cons (first : Char) (rest : List Char) :
    isName (first :: rest) ↔ isNameStart first ∧ ∀ c ∈ rest, isNameChar c := by
  simp only [isName, List.head?_cons, Option.any_some, List.all_cons, Bool.and_eq_true,
    List.all_eq_true]
  exact ⟨fun h => ⟨h.1, h.2.2⟩, fun h => ⟨h.1, isNameChar_of_isNameStart h.1, h.2⟩⟩

theorem isName_of_spells {payload : Payload} {cs : List Char}
    (h : Spells .identifier payload cs) : isName cs := by
  cases h with
  | symbol hc => cases hc
  | @identifier first rest hfirst hrest =>
    exact (isName_cons first rest).mpr ⟨isNameStart_iff.mpr hfirst,
      fun c hc => extends_identifier_iff.mp (hrest c hc)⟩

/-- The names that can be bound are the identifiers of the scanner. -/
theorem isName_iff_spells {cs : List Char} :
    isName cs ↔ Spells .identifier (.text (String.ofList cs)) cs := by
  refine ⟨fun h => ?_, isName_of_spells⟩
  cases cs with
  | nil => cases h
  | cons first rest =>
    obtain ⟨hfirst, hrest⟩ := (isName_cons first rest).mp h
    exact .identifier (isNameStart_iff.mp hfirst) fun c hc =>
      extends_identifier_iff.mpr (hrest c hc)

theorem equals_not_mem_of_isName {cs : List Char} (h : isName cs) : '=' ∉ cs := by
  rw [isName, Bool.and_eq_true, List.all_eq_true] at h
  intro hmem
  cases h.2 '=' hmem

theorem bne_equals_of_not_mem {cs : List Char} (h : '=' ∉ cs) : ∀ c ∈ cs, (c != '=') = true := by
  intro c hc
  rw [bne_iff_ne]
  rintro rfl
  exact h hc

/-- How a text is read that has an equals sign. -/
theorem read_of_split {before after : List Char} (h : '=' ∉ before) :
    read (String.ofList (before ++ '=' :: after)) =
      if isName (Text.trimChars before) then
        (Numeral.read (Text.trimChars after)).elim
          (.error (.badNumber (String.ofList (Text.trimChars after))))
          fun value => .ok ⟨String.ofList (Text.trimChars before), value⟩
      else .error (.badName (String.ofList (Text.trimChars before))) := by
  have hbefore := bne_equals_of_not_mem h
  have htake : (before ++ '=' :: after).takeWhile (· != '=') = before := by
    rw [List.takeWhile_append_of_pos hbefore]
    simp
  have hdrop : (before ++ '=' :: after).dropWhile (· != '=') = '=' :: after := by
    rw [List.dropWhile_append_of_pos hbefore]
    simp
  rw [read, String.toList_ofList]
  simp only [hdrop, htake]
  cases Numeral.read (Text.trimChars after) <;> rfl

theorem read_of_not_mem {text : String} (h : '=' ∉ text.toList) :
    read text = .error (.noValue text) := by
  have hdrop : text.toList.dropWhile (· != '=') = [] := by
    rw [← List.append_nil text.toList, List.dropWhile_append_of_pos (bne_equals_of_not_mem h)]
    rfl
  simp only [read, hdrop]

theorem read_split_eq_ok {before after : List Char} (h : '=' ∉ before) {binding : Binding} :
    read (String.ofList (before ++ '=' :: after)) = .ok binding ↔
      isName (Text.trimChars before) ∧ String.ofList (Text.trimChars before) = binding.name ∧
        Numeral.read (Text.trimChars after) = some binding.value := by
  obtain ⟨name, value⟩ := binding
  rw [read_of_split h]
  split
  · next hname => cases Numeral.read (Text.trimChars after) <;> simp [hname]
  · next hname => simp [hname]

/-- A text is read as a binding if its first equals sign parts it into a name and a numeral. -/
theorem read_eq_ok {text : String} {binding : Binding} :
    read text = .ok binding ↔ ∃ before after, text.toList = before ++ '=' :: after ∧
      '=' ∉ before ∧ isName (Text.trimChars before) ∧
      String.ofList (Text.trimChars before) = binding.name ∧
      Numeral.read (Text.trimChars after) = some binding.value := by
  constructor
  · intro h
    by_cases hequals : '=' ∈ text.toList
    · obtain ⟨before, after, htext, hbefore⟩ := List.eq_append_cons_of_mem hequals
      rw [← String.ofList_toList (s := text), htext, read_split_eq_ok hbefore] at h
      exact ⟨before, after, htext, hbefore, h⟩
    · rw [read_of_not_mem hequals] at h
      cases h
  · rintro ⟨before, after, htext, hbefore, h⟩
    rwa [← String.ofList_toList (s := text), htext, read_split_eq_ok hbefore]

theorem isName_of_read {text : String} {binding : Binding} (h : read text = .ok binding) :
    isName binding.name.toList := by
  obtain ⟨before, after, -, -, hname, hbinding, -⟩ := read_eq_ok.mp h
  rwa [← hbinding, String.toList_ofList]

/-- The last binding is read into the table of those before it. -/
theorem readAll_concat (texts : List String) (text : String) :
    readAll (texts ++ [text]) = (readAll texts).bind fun values =>
      (read text).map fun binding => values.insert binding.name binding.value := by
  rw [readAll, readAll, List.mapM_append, List.mapM_cons]
  cases texts.mapM read with
  | error fault => rfl
  | ok bindings =>
    cases read text with
    | error fault => rfl
    | ok binding =>
      change Except.ok (Binding.values (bindings ++ [binding])) = _
      rw [Binding.values, List.foldl_append]
      rfl

/-- A further binding is put into the table of those before it. -/
theorem readAll_append {texts : List String} {values : Variables} (h : readAll texts = .ok values)
    {text : String} {binding : Binding} (htext : read text = .ok binding) :
    readAll (texts ++ [text]) = .ok (values.insert binding.name binding.value) := by
  rw [readAll_concat, h, htext]
  rfl

def NamesOnly (values : Variables) : Prop :=
  ∀ (name : String) (value : Float), values[name]? = some value → isName name.toList

theorem NamesOnly.insert {values : Variables} (h : NamesOnly values) {binding : Binding}
    (hname : isName binding.name.toList) :
    NamesOnly (values.insert binding.name binding.value) := by
  intro name value hvalue
  rw [Std.TreeMap.getElem?_insert] at hvalue
  split at hvalue
  · next heq => rwa [← Std.LawfulEqCmp.eq_of_compare heq]
  · exact h name value hvalue

/-- Bindings that are read put identifiers into the table, and nothing else. -/
theorem namesOnly_of_readAll {texts : List String} {values : Variables}
    (h : readAll texts = .ok values) : NamesOnly values := by
  induction texts using List.reverseRecOn generalizing values with
  | nil =>
    cases h
    simp [NamesOnly, Binding.values]
  | append_singleton texts text ih =>
    rw [readAll_concat] at h
    obtain ⟨start, hstart, h⟩ := bind_eq_ok.mp h
    cases hread : read text with
    | error fault =>
      rw [hread] at h
      cases h
    | ok binding =>
      rw [hread] at h
      cases h
      exact (ih hstart).insert (isName_of_read hread)

end Binding
end CommandLine
end Abacus
