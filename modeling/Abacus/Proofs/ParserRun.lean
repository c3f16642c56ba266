import Abacus.Proofs.ProcedureOutcome

/-!
The run of a parser on a token list, from the call that begins it on. It comes to an end on every
list, however long and in whatever order the tokens are, and keeps to the discipline.
-/
namespace Abacus.Parser

open Abacus.Expr Grammar

theorem tokens_new (tokens : List Token) :
    (∃ last ∈ tokens, last.kind = .eof ∧ (new tokens).tokens = tokens) ∨
      (new tokens).tokens =
        tokens ++ [.endOfInput ((tokens.getLast?.map (·.span.stop)).getD 0)] := by
  unfold new
  split
  · next hlast =>
    obtain ⟨last, hmem, hkind⟩ := Option.map_eq_some_iff.mp hlast
    exact Or.inl ⟨last, List.mem_of_getLast? hmem, hkind, rfl⟩
  · exact Or.inr rfl

theorem new_eq (tokens : List Token) : new tokens = ⟨(new tokens).tokens, 0, 0⟩ := by
  unfold new
  split <;> rfl

/-- A new parser has the tokens before the first end of input, that end, and perhaps more. -/
theorem exists_tokens_new (tokens : List Token) :
    ∃ extra, (new tokens).tokens = (splitEnd tokens).1 ++ (splitEnd tokens).2 :: extra := by
  cases hfind : tokens.find? (·.kind == .eof) with
  | some stop =>
    obtain ⟨hstop, body, extra, rfl, hbody⟩ := List.find?_eq_some_iff_append.mp hfind
    have hwhile : (body ++ stop :: extra).takeWhile (·.kind != .eof) = body := by
      rw [List.takeWhile_append_of_pos (by simpa using hbody),
        List.takeWhile_cons_of_neg (by simpa using hstop), List.append_nil]
    simp only [splitEnd, hfind, hwhile, Option.getD_some]
    rcases tokens_new (body ++ stop :: extra) with ⟨last, -, -, hnew⟩ | hnew
    · exact ⟨extra, hnew⟩
    · rw [List.append_assoc] at hnew
      exact ⟨_, hnew⟩
  | none =>
    have hbody : ∀ token ∈ tokens, token.kind ≠ .eof := by simpa using hfind
    have hwhile : tokens.takeWhile (·.kind != .eof) = tokens := by
      rw [← List.append_nil tokens, List.takeWhile_append_of_pos (by simpa using hbody),
        List.takeWhile_nil]
    simp only [splitEnd, hfind, hwhile, Option.getD_none]
    rcases tokens_new tokens with ⟨last, hlast, hkind, -⟩ | hnew
    · exact absurd hkind (hbody last hlast)
    · exact ⟨[], hnew⟩

theorem disciplined_start (tokens : List Token) :
    (History.start (new tokens)).Disciplined (new tokens) := by
  obtain ⟨extra, hnew⟩ := exists_tokens_new tokens
  have hrange : (new tokens).InRange := by
    apply inRange_of_before
    · refine ⟨(splitEnd tokens).2, ?_, kind_splitEnd tokens⟩
      rw [hnew]
      exact List.mem_append_right _ List.mem_cons_self
    · rw [new_eq, List.take_zero]
      simp
  have hdepth : (new tokens).depth ≤ maxNesting := by
    rw [new_eq]
    exact Nat.zero_le _
  constructor
  case begins => rfl
  case ascending => exact List.pairwise_singleton _ _
  case within =>
    intro parser hparser
    rw [List.mem_singleton.mp hparser]
    exact ⟨rfl, hrange, hdepth⟩
  case called =>
    intro call hcall
    cases hcall

theorem exists_enters_start (tokens : List Token) :
    ∃ extra, Enters (new tokens) (splitEnd tokens).2 extra .expression maxNesting []
      (splitEnd tokens).1 [] (.start (new tokens)) := by
  obtain ⟨extra, hnew⟩ := exists_tokens_new tokens
  refine ⟨extra, ?_⟩
  constructor
  case disciplined => exact disciplined_start tokens
  case between =>
    refine ⟨hnew, ?_⟩
    rw [History.start, new_eq]
    rfl
  case body =>
    intro token htoken
    simpa using List.all_eq_true.mp List.all_takeWhile token htoken
  case standing => rfl
  case depth =>
    rw [History.start, new_eq]
    rfl
  case room => exact Nat.zero_add _
  case begins => rfl

theorem length_tokens_new (tokens : List Token) :
    (new tokens).tokens.length ≤ tokens.length + 1 := by
  rcases tokens_new tokens with ⟨last, -, -, hnew⟩ | hnew <;> simp [hnew]

/-- A call that has ended is the last one noted. -/
theorem exists_note {turns height : Nat} {symbol : Symbol} {history final : History}
    {outcome : Except Fault Expr}
    (h : call turns (height + 1) symbol history = some (outcome, final)) :
    ∃ call ∈ final.calls, call.symbol = symbol ∧ call.before = history.now := by
  obtain ⟨⟨found, later⟩, -, hresult⟩ := Option.bind_eq_some_iff.mp h
  cases hresult
  exact ⟨_, List.mem_cons_self, rfl, rfl⟩

/-- A run ends as the rules read, and keeps to the discipline from its first call on. -/
theorem exists_run (tokens : List Token) :
    ∃ history, run (tokens.length + 1) (5 * (maxNesting + 1)) tokens =
        some (Expr.parse tokens, history) ∧
      history.Disciplined (new tokens) ∧
      ∃ call ∈ history.calls, call.symbol = .expression ∧ call.before = new tokens := by
  obtain ⟨extra, henters⟩ := exists_enters_start tokens
  have hstop : (splitEnd tokens).2.kind = .eof := kind_splitEnd tokens
  have hheight : callHeight maxNesting .expression ≤ 5 * (maxNesting + 1) := Nat.le_refl _
  rw [run, parse]
  simp only [Expr.parse, expression_ofDepth]
  cases serves hstop (length_tokens_new tokens) hheight _ _ _ _ henters with
  | error hreading hresult hcontinues =>
    rw [hreading]
    exact ⟨_, bind_of_error hresult, hcontinues.disciplined, exists_note hresult⟩
  | @ok taken later e final hreading hresult hrest hcontinues hbetween =>
    rw [hreading, bind_of_ok hresult]
    refine ⟨final, ?_, hcontinues.disciplined, exists_note hresult⟩
    rw [isAtEnd, bind_of_ok (check_of_faces hbetween.faces_next .eof)]
    cases later with
    | nil =>
      rw [List.head?_nil, Option.getD_none, hstop]
      rfl
    | cons token later =>
      have hkind : token.kind ≠ .eof := henters.body token (by simp [hrest])
      rw [List.head?_cons, Option.getD_some, beq_false_of_ne hkind]
      exact refuse_of_faces hbetween.faces

/-- The run of a parser comes to an end of itself on every token list, with the outcome of the
rules: loops take no more turns than there are tokens, and calls are nested to a depth that no
input exceeds. No place outside the token list is looked at, since that would halt the run. The
parser keeps to the discipline throughout. What it matches from any of its states is the previous
token then, known as the operator or sign that it was matched as. -/
theorem run_disciplined (tokens : List Token) :
    ∃ history,
      (∀ turns height, tokens.length < turns → 5 * (maxNesting + 1) ≤ height →
        run turns height tokens = some (Expr.parse tokens, history)) ∧
      history.Disciplined (new tokens) ∧
      (∃ call ∈ history.calls, call.symbol = .expression ∧ call.before = new tokens) ∧
      ∀ earlier later kinds, earlier.now ∈ history.states → .eof ∉ kinds →
        matchKinds kinds earlier = some (.ok true, later) →
        ∃ token, earlier.now.Matched kinds later token := by
  obtain ⟨history, hrun, hdisciplined, hnoted⟩ := exists_run tokens
  refine ⟨history, ?_, hdisciplined, hnoted, ?_⟩
  · intro turns height hturns hheight
    exact parse_refines hturns hheight _ _ hrun
  · intro earlier later kinds hearlier hkinds hmatch
    obtain ⟨-, hrange, -⟩ := hdisciplined.within earlier.now hearlier
    exact hrange.matched hkinds hmatch

-- In `-(x)` the calls inside the sign find one level counted, those inside the parenthesis two.
example :
    let symbol kind offset : Token := ⟨kind, .text "", ⟨offset, offset + 1⟩⟩
    let tokens := [symbol .minus 0, symbol .leftParen 1, symbol .identifier 2, symbol .rightParen 3]
    (run 5 12 tokens).map (fun result =>
        result.2.calls.map fun call => (call.before.current, call.before.depth)) =
      some ([(0, 0), (0, 0), (0, 0), (1, 1), (1, 1), (1, 1)] ++ List.replicate 5 (2, 2)) := by
  rfl

end Abacus.Parser
