import Abacus.Proofs.NamedBinding
import Abacus.Proofs.UndefinedVariable

/-!
The advice given for an undefined variable: a binding to put on the command line. Where the name
is an identifier, the binding is read as one of that name, and with it the request never lacks the
name again. The names of a source are identifiers. A listing may load any word, and then no
binding can give it a value.
-/
namespace Abacus

open CommandLine Token

/-- The advice for a fault without a place of its own is always shown. -/
theorem Fault.note_mem_diagnostic {fault : Fault} {advice source : String}
    (hspan : fault.span? = none) (hhelp : fault.help? = some advice) (hsource : source ≠ "")
    (filename : Option String) : "note help: " ++ advice ∈ fault.diagnostic source filename := by
  have hlength : 0 < source.toList.length :=
    List.length_pos_iff.mpr fun h => hsource (String.toList_eq_nil_iff.mp h)
  have hfits : (fault.shownSpan source.toList).fits source.toList.length = true := by
    rw [shownSpan, hspan]
    simp [Span.fits]
    omega
  rw [diagnostic]
  dsimp only
  rw [if_pos hfits, hhelp]
  simp

/-- The binding suggested for a name is one of that name if the name is an identifier. -/
theorem CommandLine.Binding.read_suggestion {name : String} :
    Binding.read (name ++ "=1") = .ok ⟨name, 1⟩ ↔
      Spells .identifier (.text name) name.toList := by
  constructor
  · intro h
    simpa using Binding.isName_iff_spells.mp (Binding.isName_of_read h)
  · intro h
    have hblank := h.isBlank_eq_false
    have htrim : Text.trimChars name.toList = name.toList :=
      Text.trimChars_eq_self (fun c hc => hblank c (List.mem_of_mem_head? hc))
        fun c hc => hblank c (List.mem_of_mem_getLast? hc)
    have hname := Binding.isName_of_spells h
    have hone : Numeral.read (Text.trimChars ['1']) = some 1 := by decide +kernel
    refine Binding.read_eq_ok.mpr ⟨name.toList, ['1'], String.toList_append,
      Binding.equals_not_mem_of_isName hname, htrim.symm ▸ hname, ?_, hone⟩
    rw [htrim, String.ofList_toList]

namespace Calculator

/-- A request that lacks a variable shows the advice to bind it, and with the name in the table it
does not lack it again. The suggested binding is one of that name exactly if the name is an
identifier, which it always is in a source. If it is none, the request fails whatever is bound. -/
theorem undefined_variable_advice (calculator : Calculator) (request : Request) (name : String)
    (h : calculator.fault? request = some (.undefinedVariable name)) :
    let suggestion := name ++ "=1"
    let advice := "Seed a value for '" ++ name ++ "' before running, e.g. --var " ++ suggestion
    let values := calculator.values.insert name 1
    (∀ options filename, "note help: " ++ advice ∈
      (calculator.respondTo options filename request).output.stderr) ∧
    (Binding.read suggestion = .ok ⟨name, 1⟩ ↔ Spells .identifier (.text name) name.toList) ∧
    ((∃ text, request = .source text) → Spells .identifier (.text name) name.toList) ∧
    (∀ texts, Binding.readAll texts = .ok calculator.values →
      Spells .identifier (.text name) name.toList →
      Binding.readAll (texts ++ [suggestion]) = .ok values) ∧
    (¬Spells .identifier (.text name) name.toList → ∀ texts bound,
      Binding.readAll texts = .ok bound → fault? ⟨bound⟩ request ≠ none) ∧
    fault? ⟨values⟩ request ≠ some (.undefinedVariable name) := by
  intro suggestion advice values
  obtain ⟨program, hprogram, hload, -⟩ := Request.exists_program_of_undefined h
  refine ⟨fun options filename => ?_, Binding.read_suggestion, ?_, fun texts htexts hname => ?_,
    fun hname texts bound hbound hnone => ?_, fun hagain => ?_⟩
  · have hhelp : (Fault.undefinedVariable name).help? = some advice := by
      simp [Fault.help?, advice, suggestion, String.append_assoc]
    rw [stderr_respondTo h]
    exact Fault.note_mem_diagnostic rfl hhelp (Request.text_ne_empty hprogram hload) filename
  · rintro ⟨text, rfl⟩
    exact (Request.spells_of_load hprogram hload).1
  · exact Binding.readAll_append htexts (Binding.read_suggestion.mpr hname)
  · rw [fault?_eq, hprogram] at hnone
    obtain ⟨value, hvalue⟩ := defined_of_execute hnone hload
    have hidentifier := Binding.isName_iff_spells.mp
      (Binding.namesOnly_of_readAll hbound name value hvalue)
    rw [String.ofList_toList] at hidentifier
    exact hname hidentifier
  · obtain ⟨-, -, -, hnone⟩ := Request.exists_program_of_undefined hagain
    rw [Std.TreeMap.getElem?_insert_self] at hnone
    cases hnone

theorem undefined_variable_advice_of_load :
    fault? ⟨∅⟩ (.listing "LOAD x") = some (.undefinedVariable "x") ∧
      Binding.read "x=1" = .ok ⟨"x", 1⟩ ∧
      fault? ⟨(∅ : Variables).insert "x" 1⟩ (.listing "LOAD x") ≠
        some (.undefinedVariable "x") := by
  have hfault : fault? ⟨∅⟩ (.listing "LOAD x") = some (.undefinedVariable "x") := by
    rfl
  obtain ⟨-, hread, -, -, -, hagain⟩ := undefined_variable_advice ⟨∅⟩ (.listing "LOAD x") "x" hfault
  exact ⟨hfault, hread.mpr (spells_letter rfl), hagain⟩

/-- A listing may lack a name that no binding can have. -/
theorem suggestion_refused :
    fault? ⟨∅⟩ (.listing "LOAD 2x") = some (.undefinedVariable "2x") ∧
      Binding.read "2x=1" = .error (.badName "2x") :=
  ⟨rfl, rfl⟩

end Calculator
end Abacus
