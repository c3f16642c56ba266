import Abacus.Proofs.Ending
import Abacus.Proofs.NamedBinding
import Abacus.Proofs.Sources

/-!
What bindings on the command line are good for. The names they can have are the texts that the
scanner takes for one identifier. Of several bindings of a name the last one counts: a source that
is that name alone has its value, and a source that is a name without a binding has none. A binding
that is bad is refused before those that come after it are looked at.
-/
namespace Abacus

namespace Token

def IsIdentifier (text : String) : Prop :=
  scan text.toList = .ok [⟨.identifier, .text text, ⟨0, text.toList.length⟩⟩,
    endOfInput text.toList.length]

theorem isIdentifier_iff_spells {text : String} :
    IsIdentifier text ↔ Spells .identifier (.text text) text.toList := by
  constructor
  · intro h
    obtain ⟨lexemes, htokens, hcut⟩ := cut_of_scanFrom h
    obtain ⟨rfl, -⟩ := List.append_singleton_inj.mp
      (show [_] ++ [_] = lexemes ++ [_] from htokens)
    have hspells := (covers_of_cut hcut List.drop_zero).spells _ List.mem_cons_self
    simpa [List.extract_eq_take_drop] using hspells
  · intro h
    have hscan := scanFrom_of_cut (h.cut 0)
    simpa [IsIdentifier, scan] using hscan

end Token

namespace CommandLine.Binding

open Token

variable {text name numeral message : String} {texts : List String} {values : Variables}
  {binding : Binding} {value : Float}

theorem isIdentifier_iff_isName : IsIdentifier name ↔ isName name.toList := by
  rw [isIdentifier_iff_spells, isName_iff_spells, String.ofList_toList]

/-- The first equals sign of a text stands between these two, which are trimmed. -/
def Parts (text name numeral : String) : Prop :=
  ∃ before after, text.toList = before ++ '=' :: after ∧ '=' ∉ before ∧
    name = Text.trim (String.ofList before) ∧ numeral = Text.trim (String.ofList after)

theorem exists_parts (h : '=' ∈ text.toList) : ∃ name numeral, Parts text name numeral := by
  obtain ⟨before, after, htext, hbefore⟩ := List.eq_append_cons_of_mem h
  exact ⟨_, _, before, after, htext, hbefore, rfl, rfl⟩

/-- How a text is read that has an equals sign. -/
theorem Parts.read_eq (h : Parts text name numeral) :
    read text =
      if isName name.toList then
        (Numeral.read numeral.toList).elim (.error (.badNumber numeral))
          fun value => .ok ⟨name, value⟩
      else .error (.badName name) := by
  obtain ⟨before, after, htext, hbefore, rfl, rfl⟩ := h
  rw [← String.ofList_toList (s := text), htext, read_of_split hbefore]
  simp only [Text.trim, String.toList_ofList]

/-- A text that is read is a binding of its name to the value of its numeral. -/
theorem exists_parts_of_read (h : read text = .ok binding) :
    ∃ numeral, Parts text binding.name numeral ∧
      Numeral.read numeral.toList = some binding.value := by
  obtain ⟨before, after, htext, hbefore, -, hname, hvalue⟩ := read_eq_ok.mp h
  refine ⟨Text.trim (String.ofList after), ⟨before, after, htext, hbefore, ?_, rfl⟩, ?_⟩
  · rw [← hname, Text.trim, String.toList_ofList]
  · rwa [Text.trim, String.toList_ofList, String.toList_ofList]

theorem Parts.name_of_read (h : Parts text name numeral) (hread : read text = .ok binding) :
    binding.name = name := by
  obtain ⟨before, after, htext, hbefore, rfl, -⟩ := h
  rw [← String.ofList_toList (s := text), htext, read_split_eq_ok hbefore] at hread
  rw [← hread.2.1, Text.trim, String.toList_ofList]

inductive Refused (text : String) : String → Prop
  | noValue (h : '=' ∉ text.toList) :
      Refused text ("expected NAME=VALUE, got '" ++ text ++ "'")
  | badName {name numeral : String} (h : Parts text name numeral) (hname : ¬ IsIdentifier name) :
      Refused text ("'" ++ name ++ "' is not a valid variable name")
  | badNumber {name numeral : String} (h : Parts text name numeral) (hname : IsIdentifier name)
      (hnumeral : Numeral.read numeral.toList = none) :
      Refused text ("'" ++ numeral ++ "' is not a number")

theorem refused_iff :
    Refused text message ↔ ∃ fault, read text = .error fault ∧ fault.message = message := by
  constructor
  · intro h
    cases h with
    | noValue h => exact ⟨_, read_of_not_mem h, rfl⟩
    | @badName name numeral h hname =>
      refine ⟨.badName name, ?_, rfl⟩
      rw [h.read_eq, if_neg (mt isIdentifier_iff_isName.mpr hname)]
    | @badNumber name numeral h hname hnumeral =>
      refine ⟨.badNumber numeral, ?_, rfl⟩
      rw [h.read_eq, if_pos (isIdentifier_iff_isName.mp hname), hnumeral]
      rfl
  · rintro ⟨fault, h, rfl⟩
    by_cases hequals : '=' ∈ text.toList
    · obtain ⟨name, numeral, hparts⟩ := exists_parts hequals
      rw [hparts.read_eq] at h
      split at h
      · next hname =>
        cases hnumeral : Numeral.read numeral.toList with
        | some value =>
          rw [hnumeral] at h
          cases h
        | none =>
          rw [hnumeral] at h
          cases h
          exact .badNumber hparts (isIdentifier_iff_isName.mpr hname) hnumeral
      · next hname =>
        cases h
        exact .badName hparts (mt isIdentifier_iff_isName.mp hname)
    · rw [read_of_not_mem hequals] at h
      cases h
      exact .noValue hequals

/-- A text is read exactly if nothing is wrong with it. -/
theorem exists_read_iff :
    (∃ binding, read text = .ok binding) ↔ ∀ message, ¬ Refused text message := by
  simp only [refused_iff]
  cases read text <;> simp

/-- Bindings are refused with what is wrong with the first bad one. -/
theorem readAll_refused_iff :
    (∃ fault, readAll texts = .error fault ∧ fault.message = message) ↔
      ∃ before text after, texts = before ++ text :: after ∧
        (∀ other ∈ before, ∀ message, ¬ Refused other message) ∧ Refused text message := by
  have hfaults : ∀ fault, readAll texts = .error fault ↔ texts.mapM read = .error fault := by
    intro fault
    rw [readAll]
    cases texts.mapM read <;> simp [Except.map]
  simp only [hfaults, Program.mapM_eq_error, exists_read_iff, refused_iff]
  constructor
  · rintro ⟨fault, ⟨before, text, after, htexts, hbefore, hfault⟩, hmessage⟩
    exact ⟨before, text, after, htexts, hbefore, fault, hfault, hmessage⟩
  · rintro ⟨before, text, after, htexts, hbefore, fault, hfault, hmessage⟩
    exact ⟨fault, ⟨before, text, after, htexts, hbefore, hfault⟩, hmessage⟩

section Tables

def LastBinds (texts : List String) (name : String) (value : Float) : Prop :=
  ∃ before text after numeral, texts = before ++ text :: after ∧ Parts text name numeral ∧
    Numeral.read numeral.toList = some value ∧
    ∀ other ∈ after, ∀ numeral, ¬ Parts other name numeral

theorem LastBinds.concat (h : LastBinds texts name value)
    (htext : ∀ numeral, ¬ Parts text name numeral) : LastBinds (texts ++ [text]) name value := by
  obtain ⟨before, last, after, numeral, rfl, hparts, hvalue, hafter⟩ := h
  refine ⟨before, last, after ++ [text], numeral, by simp, hparts, hvalue, ?_⟩
  rw [List.forall_mem_append]
  exact ⟨hafter, by simpa using htext⟩

/-- The table that bindings give has for each name the value of its last binding. -/
theorem lastBinds_or_unbound (h : readAll texts = .ok values) (name : String) :
    (∃ value, LastBinds texts name value ∧ values[name]? = some value) ∨
      (∀ text ∈ texts, ∀ numeral, ¬ Parts text name numeral) ∧ values[name]? = none := by
  -- from the end, as the last binding of a name decides
  induction texts using List.reverseRecOn generalizing values with
  | nil =>
    cases h
    exact Or.inr ⟨by simp, rfl⟩
  | append_singleton texts text ih =>
    rw [readAll_concat] at h
    obtain ⟨start, hstart, h⟩ := bind_eq_ok.mp h
    cases hread : read text with
    | error fault =>
      rw [hread] at h
      cases h
    | ok binding =>
      rw [hread] at h
      cases h
      obtain ⟨numeral, hparts, hvalue⟩ := exists_parts_of_read hread
      by_cases hname : binding.name = name
      · subst hname
        refine Or.inl ⟨_, ⟨texts, text, [], numeral, rfl, hparts, hvalue, by simp⟩, ?_⟩
        rw [Std.TreeMap.getElem?_insert_self]
      · have hother : ∀ numeral, ¬ Parts text name numeral := fun numeral hparts =>
          hname (hparts.name_of_read hread)
        have hlookup : (start.insert binding.name binding.value)[name]? = start[name]? := by
          rw [Std.TreeMap.getElem?_insert, if_neg]
          exact fun heq => hname (Std.LawfulEqCmp.eq_of_compare heq)
        rw [hlookup]
        rcases ih hstart with ⟨value, hlast, hvalue⟩ | ⟨hnone, hvalue⟩
        · exact Or.inl ⟨value, hlast.concat hother, hvalue⟩
        · refine Or.inr ⟨?_, hvalue⟩
          rw [List.forall_mem_append]
          exact ⟨hnone, by simpa using hother⟩

end Tables

/-- The text of a binding has the parts that it is put together from. -/
theorem parts_append (h : '=' ∉ name.toList) :
    Parts (name ++ "=" ++ numeral) (Text.trim name) (Text.trim numeral) := by
  refine ⟨name.toList, numeral.toList, ?_, h, by simp, by simp⟩
  simp [String.toList_append]

/-- No equals sign stands in a text that is an identifier when it is trimmed. -/
theorem equals_not_mem_of_isIdentifier (h : IsIdentifier (Text.trim name)) :
    '=' ∉ name.toList := by
  obtain ⟨before, after, hsplit, hblank, -⟩ := Text.exists_trimChars name.toList
  intro hequals
  rw [hsplit, ← List.append_assoc, List.mem_append, List.mem_append] at hequals
  have hnot : '=' ∉ Text.trimChars name.toList := by
    rw [isIdentifier_iff_isName, Text.trim, String.toList_ofList] at h
    exact equals_not_mem_of_isName h
  rcases hequals with (hbefore | hname) | hafter
  · cases hblank '=' (List.mem_append_left after hbefore)
  · exact hnot hname
  · cases hblank '=' (List.mem_append_right before hafter)

/-- One binding is read if its text is. -/
theorem readAll_singleton :
    (∃ values, readAll [text] = .ok values) ↔ ∃ binding, read text = .ok binding := by
  have hconcat := readAll_concat [] text
  rw [List.nil_append] at hconcat
  rw [hconcat]
  cases read text <;> simp [readAll, Except.bind, Except.map, pure, Except.pure]

/-- In front of an equals sign and a numeral stands a name that can be bound, if and only if it is
an identifier when it is trimmed. -/
theorem accepted_iff_isIdentifier (hvalue : Numeral.read (Text.trim numeral).toList = some value) :
    ('=' ∉ name.toList ∧ ∃ values, readAll [name ++ "=" ++ numeral] = .ok values) ↔
      IsIdentifier (Text.trim name) := by
  rw [readAll_singleton]
  constructor
  · rintro ⟨hequals, binding, hread⟩
    rw [(parts_append hequals).read_eq] at hread
    split at hread
    · next hname => exact isIdentifier_iff_isName.mpr hname
    · cases hread
  · intro h
    have hequals := equals_not_mem_of_isIdentifier h
    refine ⟨hequals, ⟨Text.trim name, value⟩, ?_⟩
    rw [(parts_append hequals).read_eq, if_pos (isIdentifier_iff_isName.mp h), hvalue]
    rfl

/-- A source that is one identifier is a program that loads it. -/
theorem program_of_isIdentifier (h : IsIdentifier name) :
    ∃ tokens tree, scan name.toList = .ok tokens ∧ Expr.parse tokens = .ok tree ∧
      tree.compile = [.load name] := by
  have hspells := isIdentifier_iff_spells.mp h
  have hphrase : Grammar.Phrase .expression 0
      [⟨.identifier, .text name, ⟨0, 0 + name.toList.length⟩⟩] (.identifier name _) :=
    (Grammar.Phrase.identifier rfl).of_atom .expression
  obtain ⟨hscan, hparse⟩ := parse_of_cut (hspells.cut 0) ⟨0, Nat.zero_le _, hphrase⟩
  exact ⟨_, _, hscan, hparse, rfl⟩

/-- A source that is one identifier has the value of the table, or the fault that there is none. -/
theorem answer_of_isIdentifier (h : IsIdentifier name) (values : Variables) :
    ((Calculator.mk values).answer name).result = values[name]? ∧
      ((Calculator.mk values).answer name).fault =
        if values[name]?.isSome then none else some (.undefinedVariable name) := by
  obtain ⟨tokens, tree, hscan, hparse, hcompile⟩ := program_of_isIdentifier h
  rw [Calculator.answer_of_parse_ok hscan hparse, hcompile]
  cases hlookup : values[name]? with
  | none => simp [Calculator.execute, Program.evaluate, Program.run, Instruction.execute,
      Outcome.value, hlookup]
  | some value => simp [Calculator.execute, Program.evaluate, Program.run, Instruction.execute,
      Outcome.value, hlookup]

/-- The names that can be bound are the texts that are one identifier when they are trimmed. A
source that is one identifier has the value of the last binding of its name, or the fault that it
has none. Bad bindings are refused with what is wrong with the first of them. -/
theorem readAll_binds_identifiers :
    (∀ name numeral value, Numeral.read (Text.trim numeral).toList = some value →
      (('=' ∉ name.toList ∧ ∃ values, readAll [name ++ "=" ++ numeral] = .ok values) ↔
        IsIdentifier (Text.trim name))) ∧
    (∀ texts values name, readAll texts = .ok values → IsIdentifier name →
      (∃ value, LastBinds texts name value ∧
        ((Calculator.mk values).answer name).result = some value ∧
        ((Calculator.mk values).answer name).fault = none) ∨
      (∀ text ∈ texts, ∀ numeral, ¬ Parts text name numeral) ∧
        ((Calculator.mk values).answer name).result = none ∧
        ((Calculator.mk values).answer name).fault = some (.undefinedVariable name)) ∧
    ∀ texts message, (∃ fault, readAll texts = .error fault ∧ fault.message = message) ↔
      ∃ before text after, texts = before ++ text :: after ∧
        (∀ other ∈ before, ∀ message, ¬ Refused other message) ∧ Refused text message := by
  refine ⟨fun name numeral value => accepted_iff_isIdentifier, ?_,
    fun texts message => readAll_refused_iff⟩
  intro texts values name hvalues hname
  obtain ⟨hresult, hfault⟩ := answer_of_isIdentifier hname values
  rcases lastBinds_or_unbound hvalues name with ⟨value, hlast, hvalue⟩ | ⟨hnone, hvalue⟩
  · rw [hvalue] at hresult hfault
    exact Or.inl ⟨value, hlast, hresult, hfault⟩
  · rw [hvalue] at hresult hfault
    exact Or.inr ⟨hnone, hresult, hfault⟩

/-- Blanks around a name are no part of it, and the second binding replaces the first. -/
theorem readAll_binds_spaced_name :
    '=' ∉ " x ".toList ∧ ∃ values, readAll ["x=1", " x =2"] = .ok values ∧
      ∃ value, LastBinds ["x=1", " x =2"] "x" value ∧
        ((Calculator.mk values).answer "x").result = some value ∧
        ((Calculator.mk values).answer "x").fault = none := by
  have hname : IsIdentifier "x" := isIdentifier_iff_isName.mpr rfl
  have hspaced : '=' ∉ " x ".toList :=
    ((readAll_binds_identifiers.1 " x " "2" _ rfl).mpr hname).1
  have hread : readAll ["x=1", " x =2"] = .ok _ := rfl
  refine ⟨hspaced, _, hread, ?_⟩
  rcases readAll_binds_identifiers.2.1 _ _ "x" hread hname with hlast | ⟨hnone, -⟩
  · exact hlast
  · have hparts : Parts (" x " ++ "=" ++ "2") "x" "2" := parts_append hspaced
    exact absurd hparts (hnone _ (by simp) "2")

end CommandLine.Binding
end Abacus
