import Abacus.Decimal.Plain
import Abacus.Proofs.Sources

/-!
The lexical grammar, and where a source breaks it. A source is scanned if and only if it can be cut
from the left into blanks, symbols, names and plain runs of digits and points. Otherwise the fault
is at the leftmost lexeme that is none of these: what stands before it is scanned by itself, and
what comes after it plays no part, as long as it does not make the lexeme longer.
-/
namespace Abacus.Token

/-- The texts of the lexical grammar, cut from the left. A name or a run goes on for as long as the
characters allow. -/
inductive Lexical : List Char → Prop
  | nil : Lexical []
  | blank {c : Char} {rest : List Char} (hc : Text.isBlank c) (h : Lexical rest) :
      Lexical (c :: rest)
  | symbol {kind : TokenKind} {c : Char} {rest : List Char} (hc : kind.symbol? = some c)
      (h : Lexical rest) : Lexical (c :: rest)
  | name {first : Char} {more rest : List Char} (hfirst : first.isAlpha ∨ first = '_')
      (hmore : ∀ c ∈ more, Extends .identifier c)
      (hends : ∀ c ∈ rest.head?, ¬ Extends .identifier c) (h : Lexical rest) :
      Lexical (first :: more ++ rest)
  | run {run rest : List Char} (hrun : ∀ c ∈ run, Extends .number c)
      (hplain : Numeral.IsPlain run) (hends : ∀ c ∈ rest.head?, ¬ Extends .number c)
      (h : Lexical rest) : Lexical (run ++ rest)

/-- The characters that neither are blank nor begin a lexeme. -/
structure IsForeign (c : Char) : Prop where
  notBlank : Text.isBlank c = false
  notSymbol : ∀ kind : TokenKind, kind.symbol? ≠ some c
  notLetter : ¬ (c.isAlpha ∨ c = '_')
  notNumeral : ¬ Extends .number c

/-- A stretch of the source that is a run of digits and points as the scanner cuts it: the next
character does not go on with it, and of the tokens before it no number ends where it begins. -/
structure IsRun (source : List Char) (tokens : List Token) (start stop : Nat) : Prop where
  nonempty : start < stop
  inside : stop ≤ source.length
  numeral : ∀ c ∈ source.extract start stop, Extends .number c
  ends : ∀ c, source[stop]? = some c → ¬ Extends .number c
  begins : ∀ token ∈ tokens, token.kind = .number → token.span.stop ≠ start

section Grammar

variable {offset : Nat} {text : List Char} {lexemes : List Token}

theorem exists_read_iff {run : List Char} (h : ∀ c ∈ run, Extends .number c) :
    (∃ value, Numeral.read run = some value) ↔ Numeral.IsPlain run := by
  refine Numeral.exists_read_iff ?_
  intro c hc
  cases h c hc with
  | number h => exact h

theorem Lexical.exists_cut (h : Lexical text) (offset : Nat) :
    ∃ lexemes, Cut offset text lexemes := by
  induction h generalizing offset with
  | nil => exact ⟨[], .nil offset⟩
  | blank hc h ih =>
    obtain ⟨lexemes, hcut⟩ := ih (offset + 1)
    exact ⟨lexemes, .blank hc hcut⟩
  | symbol hc h ih =>
    obtain ⟨lexemes, hcut⟩ := ih (offset + 1)
    exact ⟨_, hcut.symbol hc⟩
  | @name first more rest hfirst hmore hends h ih =>
    obtain ⟨lexemes, hcut⟩ := ih (offset + (first :: more).length)
    exact ⟨_, .lexeme (.identifier hfirst hmore) hends hcut⟩
  | @run run rest hrun hplain hends h ih =>
    obtain ⟨value, hvalue⟩ := (exists_read_iff hrun).mpr hplain
    obtain ⟨lexemes, hcut⟩ := ih (offset + run.length)
    exact ⟨_, .lexeme (.number hrun hvalue) hends hcut⟩

theorem lexical_of_cut (h : Cut offset text lexemes) : Lexical text := by
  induction h with
  | nil offset => exact .nil
  | blank hc h ih => exact .blank hc ih
  | lexeme hspells hends h ih =>
    cases hspells with
    | symbol hc => exact .symbol hc ih
    | identifier hfirst hrest => exact .name hfirst hrest hends ih
    | number hlexeme hvalue =>
      exact .run hlexeme ((exists_read_iff hlexeme).mp ⟨_, hvalue⟩) hends ih

theorem exists_scan_iff_lexical (source : List Char) :
    (∃ tokens, scan source = .ok tokens) ↔ Lexical source := by
  constructor
  · intro h
    obtain ⟨tokens, hscan⟩ := h
    obtain ⟨lexemes, -, hcut⟩ := cut_of_scanFrom hscan
    exact lexical_of_cut hcut
  · intro h
    obtain ⟨lexemes, hcut⟩ := h.exists_cut 0
    exact ⟨_, scanFrom_of_cut hcut⟩

end Grammar

section Refusals

variable {offset : Nat} {text before more after : List Char} {first : Char}
  {lexemes : List Token} {fault : Fault}

/-- No lexeme that reaches up to the end of a text goes on into what comes next. -/
def Parts (stop : Nat) (lexemes : List Token) (next : List Char) : Prop :=
  ∀ c ∈ next.head?, ∀ token ∈ lexemes, token.span.stop = stop → ¬ Extends token.kind c

/-- A text in front of one that it does not run into is scanned to its own tokens. -/
theorem scanFrom_append (h : Cut offset text lexemes)
    (hparts : Parts (offset + text.length) lexemes more) :
    scanFrom offset (text ++ more) =
      (scanFrom (offset + text.length) more).map (lexemes ++ ·) := by
  induction h with
  | nil offset => cases hscan : scanFrom offset more <;> simp [hscan, Except.map]
  | @blank offset c rest lexemes hc h ih =>
    have hlength : offset + (c :: rest).length = offset + 1 + rest.length := by
      rw [List.length_cons]
      omega
    rw [hlength] at hparts ⊢
    rw [List.cons_append, scanFrom_blank hc, ih hparts]
  | @lexeme offset kind payload lexeme rest lexemes hspells hends h ih =>
    have hends' : ∀ c ∈ (rest ++ more).head?, ¬ Extends kind c := by
      intro c hc
      cases rest with
      | nil =>
        refine hparts c hc _ List.mem_cons_self ?_
        rw [List.append_nil]
      | cons d rest => exact hends c hc
    have hlater : Parts (offset + lexeme.length + rest.length) lexemes more := by
      intro c hc token htoken
      rw [Nat.add_assoc, ← List.length_append]
      exact hparts c hc token (List.mem_cons_of_mem _ htoken)
    rw [List.append_assoc, scanFrom_lexeme hspells hends', ih hlater, List.length_append,
      ← Nat.add_assoc]
    cases scanFrom (offset + lexeme.length + rest.length) more <;> rfl

/-- The scanner comes to a lexeme, with the text before it cut into tokens, and gives it no token
but a fault. -/
structure StopsAt (offset : Nat) (before : List Char) (lexemes : List Token) (first : Char)
    (more : List Char) (fault : Fault) : Prop where
  cut : Cut offset before lexemes
  parts : Parts (offset + before.length) lexemes (first :: more)
  goesOn : ∀ c ∈ more, continues first c
  refused : ofLexeme? ⟨offset + before.length, offset + before.length + (first :: more).length⟩
    first (first :: more) = .error fault

/-- Whatever comes after the lexeme and does not go on with it, the fault is the same. -/
theorem StopsAt.scanFrom_eq (h : StopsAt offset before lexemes first more fault)
    (hends : ∀ c ∈ after.head?, continues first c = false) :
    scanFrom offset (before ++ (first :: more ++ after)) = .error fault := by
  have htake : (more ++ after).takeWhile (continues first) = more := by
    rw [List.takeWhile_append_of_pos h.goesOn]
    cases after with
    | nil => simp
    | cons c after => simp [hends c (by simp)]
  have hparts : Parts (offset + before.length) lexemes (first :: more ++ after) := h.parts
  rw [scanFrom_append h.cut hparts, List.cons_append, scanFrom_cons, htake, h.refused]
  rfl

theorem StopsAt.blank {c : Char} (hc : Text.isBlank c)
    (h : StopsAt (offset + 1) before lexemes first more fault) :
    StopsAt offset (c :: before) lexemes first more fault := by
  have hlength : offset + (c :: before).length = offset + 1 + before.length := by
    rw [List.length_cons]
    omega
  exact ⟨.blank hc h.cut, hlength ▸ h.parts, h.goesOn, hlength ▸ h.refused⟩

theorem StopsAt.lexeme {kind : TokenKind} {payload : Payload} {lexeme : List Char}
    (hspells : Spells kind payload lexeme)
    (hends : ∀ c ∈ (before ++ (first :: more)).head?, ¬ Extends kind c)
    (h : StopsAt (offset + lexeme.length) before lexemes first more fault) :
    StopsAt offset (lexeme ++ before)
      (⟨kind, payload, ⟨offset, offset + lexeme.length⟩⟩ :: lexemes) first more fault := by
  have hlength : offset + (lexeme ++ before).length =
      offset + lexeme.length + before.length := by
    rw [List.length_append, Nat.add_assoc]
  refine ⟨.lexeme hspells ?_ h.cut, ?_, h.goesOn, hlength ▸ h.refused⟩
  · intro c hc
    cases before with
    | nil => cases hc
    | cons d before => exact hends c hc
  · intro c hc token htoken hstop
    rcases List.mem_cons.mp htoken with rfl | htoken
    · -- the new token reaches up to the end only if nothing comes between
      have hbefore : before = [] := by
        rw [hlength] at hstop
        change offset + lexeme.length = offset + lexeme.length + before.length at hstop
        exact List.length_eq_zero_iff.mp (by omega)
      subst hbefore
      exact hends c hc
    · exact h.parts c hc token htoken (hlength ▸ hstop)

/-- A text that the scanner refuses has a lexeme at which it stops. -/
theorem exists_stopsAt (h : scanFrom offset text = .error fault) :
    ∃ before lexemes first more after, text = before ++ (first :: more ++ after) ∧
      StopsAt offset before lexemes first more fault ∧
      ∀ c ∈ after.head?, continues first c = false := by
  fun_induction scanFrom offset text with
  | case1 offset => cases h
  | case2 offset first rest lexeme next =>
    rename_i ih
    obtain ⟨more, after, rfl, htake, hdrop, hmore, hstops⟩ := exists_lexeme_split first rest
    simp only [lexeme, next, htake, hdrop] at ih h
    rcases bind_eq_error.mp h with hrefused | ⟨token?, htoken, h⟩
    · have hparts : Parts offset [] (first :: more) := by
        intro c hc token htoken
        cases htoken
      exact ⟨[], [], first, more, after, rfl, ⟨.nil offset, hparts, hmore, hrefused⟩, hstops⟩
    · obtain hlater | ⟨later, -, h⟩ := bind_eq_error.mp h
      · obtain ⟨before, lexemes, bad, further, final, rfl, hstopsAt, hends⟩ := ih hlater
        rcases ofLexeme?_cases hmore htoken with
          ⟨-, hblank, rfl⟩ | ⟨kind, payload, -, hspells, hbegins⟩
        · exact ⟨first :: before, lexemes, bad, further, final, rfl, hstopsAt.blank hblank, hends⟩
        · refine ⟨first :: more ++ before, _, bad, further, final, by simp,
            hstopsAt.lexeme hspells ?_, hends⟩
          intro c hc hextends
          have hgoesOn := (hbegins.goesOn c).mpr hextends
          rw [hstops c] at hgoesOn
          · cases hgoesOn
          · cases before with
            | nil => exact hc
            | cons d before => exact hc
      · cases h

/-- What the scanner refuses: a run that is not plain, or a character that begins no lexeme. -/
theorem refused_cases {span : Span} (hmore : ∀ c ∈ more, continues first c)
    (h : ofLexeme? span first (first :: more) = .error fault) :
    (fault = .malformedNumber (String.ofList (first :: more)) span ∧
        (∀ c ∈ first :: more, Extends .number c) ∧ ¬ Numeral.IsPlain (first :: more)) ∨
      (fault = .invalidCharacter first span ∧ more = [] ∧ IsForeign first) := by
  unfold ofLexeme? at h
  dsimp only at h
  split at h
  · cases h
  · next hblank =>
    split at h
    · next hnumeral =>
      split at h
      · cases h
      · next hnone =>
        cases h
        have hrun : ∀ c ∈ first :: more, Extends .number c := by
          intro c hc
          rcases List.mem_cons.mp hc with rfl | hc
          · exact extends_number_iff.mpr hnumeral
          · exact ((begins_number hnumeral).goesOn c).mp (hmore c hc)
        refine Or.inl ⟨rfl, hrun, ?_⟩
        intro hplain
        obtain ⟨value, hvalue⟩ := (exists_read_iff hrun).mpr hplain
        rw [hnone] at hvalue
        cases hvalue
    · next hnumeral =>
      split at h
      · cases h
      · next hname =>
        split at h
        · cases h
        · next hsymbol =>
          cases h
          have hnone : more = [] := by
            rw [List.eq_nil_iff_forall_not_mem]
            intro c hc
            have hgoesOn := hmore c hc
            simp [continues, hnumeral, hname] at hgoesOn
          refine Or.inr ⟨rfl, hnone, ⟨by simpa using hblank, ?_, ?_, ?_⟩⟩
          · intro kind hkind
            rw [symbolKind?_eq_some.mpr hkind] at hsymbol
            cases hsymbol
          · rwa [← isNameStart_iff]
          · rwa [extends_number_iff]

/-- The places of a stretch in the text around it. -/
theorem stretch_eq (before lexeme after : List Char) :
    let source := before ++ (lexeme ++ after)
    let stop := before.length + lexeme.length
    source.take before.length = before ∧ source.take stop = before ++ lexeme ∧
      source.extract before.length stop = lexeme ∧ source[stop]? = after.head? := by
  refine ⟨List.take_left, ?_, ?_, ?_⟩
  · rw [List.take_length_add_append, List.take_left]
  · rw [List.extract_eq_take_drop, List.drop_left, Nat.add_sub_cancel_left, List.take_left]
  · rw [← List.head?_drop, List.drop_length_add_append, List.drop_left]

theorem IsForeign.continues_eq (h : IsForeign first) (c : Char) : continues first c = false := by
  have hnumeral : isNumeralChar first = false := by
    rw [← Bool.not_eq_true, ← extends_number_iff]
    exact h.notNumeral
  have hname : isNameStart first = false := by
    rw [← Bool.not_eq_true, isNameStart_iff]
    exact h.notLetter
  simp [continues, hnumeral, hname]

/-- A run at which the scanner stops is as long as it can be. -/
theorem StopsAt.isRun (h : StopsAt 0 before lexemes first more fault)
    (hrun : ∀ c ∈ first :: more, Extends .number c)
    (hends : ∀ c ∈ after.head?, ¬ Extends .number c) :
    IsRun (before ++ (first :: more ++ after)) (lexemes ++ [endOfInput before.length])
      before.length (before.length + (first :: more).length) := by
  obtain ⟨-, -, hextract, hnext⟩ := stretch_eq before (first :: more) after
  refine ⟨?_, ?_, ?_, ?_, ?_⟩
  · simp
  · simp
  · rwa [hextract]
  · intro c hc
    rw [hnext] at hc
    exact hends c hc
  · intro token htoken hkind hstop
    rcases List.mem_append.mp htoken with hlexeme | hlast
    · have hparts := h.parts first rfl token hlexeme (by rwa [Nat.zero_add])
      rw [hkind] at hparts
      exact hparts (hrun first List.mem_cons_self)
    · rw [List.mem_singleton.mp hlast] at hkind
      cases hkind

end Refusals

/-- A source is scanned exactly if it keeps to the lexical grammar. Otherwise the fault is at the
leftmost lexeme that breaks it: the text before that is scanned, the lexeme is a character that
begins none or a run of digits and points that is no number, and what comes after it does not change
the fault, unless it goes on with the run. -/
theorem scan_keeps_to_grammar (source : List Char) :
    ((∃ tokens, scan source = .ok tokens) ↔ Lexical source) ∧
    ∀ fault, scan source = .error fault →
      ∃ start stop tokens, fault.span? = some ⟨start, stop⟩ ∧
        scan (source.take start) = .ok tokens ∧
        ((∃ c, fault = .invalidCharacter c ⟨start, stop⟩ ∧ stop = start + 1 ∧
            source[start]? = some c ∧ IsForeign c ∧
            ∀ more, scan (source.take stop ++ more) = .error fault) ∨
          (fault = .malformedNumber (String.ofList (source.extract start stop)) ⟨start, stop⟩ ∧
            IsRun source tokens start stop ∧
            ¬ Numeral.IsPlain (source.extract start stop) ∧
            ∀ more, (∀ c ∈ more.head?, ¬ Extends .number c) →
              scan (source.take stop ++ more) = .error fault)) := by
  refine ⟨exists_scan_iff_lexical source, ?_⟩
  intro fault hscan
  obtain ⟨before, lexemes, first, more, after, rfl, hstops, hends⟩ := exists_stopsAt hscan
  obtain ⟨htake, htakeStop, hextract, -⟩ := stretch_eq before (first :: more) after
  have hbefore : scan before = .ok (lexemes ++ [endOfInput before.length]) := by
    have hread := scanFrom_of_cut hstops.cut
    rwa [Nat.zero_add] at hread
  have hagain : ∀ further, (∀ c ∈ further.head?, continues first c = false) →
      scan (before ++ (first :: more) ++ further) = .error fault := by
    intro further hfurther
    rw [List.append_assoc]
    exact hstops.scanFrom_eq hfurther
  have hrefused := hstops.refused
  rw [Nat.zero_add] at hrefused
  refine ⟨before.length, before.length + (first :: more).length,
    lexemes ++ [endOfInput before.length], ?_, ?_, ?_⟩
  · rcases refused_cases hstops.goesOn hrefused with ⟨rfl, -, -⟩ | ⟨rfl, -, -⟩ <;> rfl
  · rw [htake, hbefore]
  rw [htakeStop, hextract]
  rcases refused_cases hstops.goesOn hrefused with
    ⟨hfault, hrun, hplain⟩ | ⟨hfault, rfl, hforeign⟩
  · have hfirst : isNumeralChar first := extends_number_iff.mp (hrun first List.mem_cons_self)
    have hgoesOn : ∀ c, continues first c = false ↔ ¬ Extends .number c := by
      intro c
      rw [← Bool.not_eq_true, (begins_number hfirst).goesOn]
    refine Or.inr ⟨hfault, hstops.isRun hrun fun c hc => (hgoesOn c).mp (hends c hc), hplain, ?_⟩
    intro further hfurther
    exact hagain further fun c hc => (hgoesOn c).mpr (hfurther c hc)
  · refine Or.inl ⟨first, hfault, rfl, by simp, hforeign, ?_⟩
    intro further
    exact hagain further fun c _ => hforeign.continues_eq c

/-- The digit before the run belongs to a name. -/
example : scan ['x', '1', '.', '2', '.'] = .error (.malformedNumber ".2." ⟨2, 5⟩) := by
  cbv

end Abacus.Token
