import Abacus.Proofs.DocumentText
import Abacus.Report

/-!
Answers in the form of documents. When the options ask for one, every request that got as far as
an answer prints exactly one document, and the error in it tells whether the request was met. A
listing that cannot be read has no answer, and nothing is printed for it but its diagnostic.
-/
namespace Abacus

def Json.field? (name : String) : Json → Option Json
  | .object fields => (fields.find? (·.1 == name)).map (·.2)
  | _ => none

/-- A response whose output is one document and a line end. The document has an error, which is
null if the request was met and an object if it was not. -/
structure Response.ShowsDocument (response : Response) (document : Json) : Prop where
  printed : ∃ shown, response.output.stdout = String.ofList shown ++ "\n" ∧
    Json.Shows shown document
  met : response.succeeded = true ↔ document.field? "error" = some .null
  failed : response.succeeded = false ↔ ∃ fields, document.field? "error" = some (.object fields)

theorem Answer.field?_error (answer : Answer) :
    answer.document.field? "error" = some (.ofOption Fault.document answer.fault) := rfl

/-- Every answer is printed as its document. -/
theorem Answer.showsDocument_respond (answer : Answer) {options : Options}
    (hjson : options.json = true) (source : String) (filename : Option String) :
    (answer.respond options source filename).ShowsDocument answer.document := by
  have hsucceeded := answer.succeeded_respond options source filename
  have herror := answer.field?_error
  constructor
  case printed =>
    refine ⟨answer.document.print.toList, ?_, Json.shows_print answer.document⟩
    rw [stdout_respond, print, if_pos hjson, String.ofList_toList]
  all_goals
    rw [hsucceeded, herror]
    cases answer.fault with
    | none => simp [Json.ofOption]
    | some fault => simp [Json.ofOption, Fault.document]

/-- A response that prints nothing shows no document. -/
theorem Response.not_showsDocument {response : Response} (h : response.output.stdout = "")
    (document : Json) : ¬response.ShowsDocument document := by
  intro hshows
  obtain ⟨shown, hstdout, -⟩ := hshows.printed
  rw [h] at hstdout
  simpa using congrArg String.toList hstdout

namespace Calculator

theorem respondListing_of_ok {listing : String} {program : Program}
    (h : Program.read listing = .ok program) (calculator : Calculator) (options : Options)
    (filename : Option String) :
    calculator.respondListing options listing filename =
      (calculator.execute program).respond options listing filename := by
  rw [respondListing, h]

theorem stdout_respondListing_of_error {listing : String} {fault : Fault}
    (h : Program.read listing = .error fault) (calculator : Calculator) (options : Options)
    (filename : Option String) :
    (calculator.respondListing options listing filename).output.stdout = "" := by
  rw [respondListing, h]
  rfl

/-- A source always shows the document of its answer, whichever stage fails. A listing shows a
document exactly when it can be read, and then that of its run. -/
theorem respond_showsDocument (calculator : Calculator) (options : Options) (text : String)
    (filename : Option String) :
    let options := { options with json := true }
    let listed := calculator.respondListing options text filename
    (calculator.respond options text filename).ShowsDocument (calculator.answer text).document ∧
    (∀ program, Program.read text = .ok program →
      listed.ShowsDocument (calculator.execute program).document) ∧
    ((∃ document, listed.ShowsDocument document) ↔ ∃ program, Program.read text = .ok program) := by
  intro options listed
  have hread : ∀ program, Program.read text = .ok program →
      listed.ShowsDocument (calculator.execute program).document := by
    intro program hprogram
    rw [show listed = _ from respondListing_of_ok hprogram calculator options filename]
    exact (calculator.execute program).showsDocument_respond rfl text filename
  refine ⟨(calculator.answer text).showsDocument_respond rfl text filename, hread, ?_, ?_⟩
  · rintro ⟨document, hdocument⟩
    cases hprogram : Program.read text with
    | ok program => exact ⟨program, rfl⟩
    | error fault =>
      have hstdout := stdout_respondListing_of_error hprogram calculator options filename
      exact absurd hdocument (Response.not_showsDocument hstdout document)
  · rintro ⟨program, hprogram⟩
    exact ⟨_, hread program hprogram⟩

/-- The listing of one instruction that does not exist shows no document. -/
theorem unknown_opcode_shows_no_document :
    ¬∃ document, (respondListing ⟨∅⟩ ⟨false, false, false, false, true⟩ "JMP 3"
      none).ShowsDocument document := by
  have hread : ∃ fault, Program.read "JMP 3" = .error fault := ⟨_, rfl⟩
  obtain ⟨fault, hfault⟩ := hread
  rintro ⟨document, hdocument⟩
  exact Response.not_showsDocument (stdout_respondListing_of_error hfault _ _ _) document hdocument

end Calculator
end Abacus
