import Abacus.Token.Scan

/-!
What the scanner makes of a source. The text is cut from the left into blanks and lexemes, each
lexeme ending where the next character would not make it longer, and the tokens that come out are
exactly those of such a cut. Where there is no cut the scanner reports a lexical fault.
-/
namespace Abacus

def TokenKind.symbol? : TokenKind → Option Char
  | .plus => some '+'
  | .minus => some '-'
  | .multiply => some '*'
  | .divide => some '/'
  | .power => some '^'
  | .leftParen => some '('
  | .rightParen => some ')'
  | .assign => some '='
  | .number | .identifier | .eof => none

namespace Token

/-- The characters that, coming after a lexeme of a kind, make it longer. -/
inductive Extends : TokenKind → Char → Prop
  | identifier {c : Char} (h : c.isAlphanum ∨ c = '_') : Extends .identifier c
  | number {c : Char} (h : c.isDigit ∨ c = '.') : Extends .number c

/-- The kinds of lexeme, each with the payload of its token. -/
inductive Spells : TokenKind → Payload → List Char → Prop
  | symbol {kind : TokenKind} {c : Char} (h : kind.symbol? = some c) :
      Spells kind (.text (String.ofList [c])) [c]
  | identifier {first : Char} {rest : List Char} (hfirst : first.isAlpha ∨ first = '_')
      (hrest : ∀ c ∈ rest, Extends .identifier c) :
      Spells .identifier (.text (String.ofList (first :: rest))) (first :: rest)
  | number {lexeme : List Char} {value : Float} (hlexeme : ∀ c ∈ lexeme, Extends .number c)
      (hvalue : Numeral.read lexeme = some value) : Spells .number (.number value) lexeme

/-- The tokens of a text that starts at an offset of the source, cut from the left. -/
inductive Cut : Nat → List Char → List Token → Prop
  | nil (offset : Nat) : Cut offset [] []
  | blank {offset : Nat} {c : Char} {rest : List Char} {tokens : List Token}
      (hc : Text.isBlank c) (h : Cut (offset + 1) rest tokens) : Cut offset (c :: rest) tokens
  | lexeme {offset : Nat} {kind : TokenKind} {payload : Payload} {lexeme rest : List Char}
      {tokens : List Token} (hspells : Spells kind payload lexeme)
      (hends : ∀ c ∈ rest.head?, ¬ Extends kind c)
      (h : Cut (offset + lexeme.length) rest tokens) :
      Cut offset (lexeme ++ rest)
        (⟨kind, payload, ⟨offset, offset + lexeme.length⟩⟩ :: tokens)

section Characters

variable {c : Char} {kind : TokenKind}

theorem toNat_of_isAlpha (h : c.isAlpha) : 65 ≤ c.toNat ∧ c.toNat ≤ 122 := by
  rcases Bool.or_eq_true_iff.mp h with hupper | hlower
  · have hrange : 'A'.val ≤ c.val ∧ c.val ≤ 'Z'.val := of_decide_eq_true hupper
    change 65 ≤ c.toNat ∧ c.toNat ≤ 90 at hrange
    omega
  · have hrange : 'a'.val ≤ c.val ∧ c.val ≤ 'z'.val := by
      simpa using Bool.and_eq_true_iff.mp hlower
    change 97 ≤ c.toNat ∧ c.toNat ≤ 122 at hrange
    omega

theorem extends_number_iff : Extends .number c ↔ isNumeralChar c := by
  constructor
  · intro h
    cases h with
    | number h => simpa [isNumeralChar] using h
  · intro h
    exact .number (by simpa [isNumeralChar] using h)

theorem extends_identifier_iff : Extends .identifier c ↔ isNameChar c := by
  constructor
  · intro h
    cases h with
    | identifier h => simpa [isNameChar] using h
  · intro h
    exact .identifier (by simpa [isNameChar] using h)

theorem isNameStart_iff : isNameStart c ↔ c.isAlpha ∨ c = '_' := by
  simp [isNameStart]

theorem isNameChar_of_isNameStart (h : isNameStart c) : isNameChar c := by
  rcases isNameStart_iff.mp h with halpha | rfl
  · simp [isNameChar, Char.isAlphanum, halpha]
  · rfl

theorem symbolKind?_eq_some : symbolKind? c = some kind ↔ kind.symbol? = some c := by
  constructor
  · intro h
    unfold symbolKind? at h
    split at h <;> cases h <;> rfl
  · intro h
    cases kind <;> cases h <;> rfl

theorem isNumeralChar_of_isNameStart (h : isNameStart c) : isNumeralChar c = false := by
  rcases isNameStart_iff.mp h with h | rfl
  · have halpha := toNat_of_isAlpha h
    have hdigit : c.isDigit = false := by
      rw [← Bool.not_eq_true]
      intro hdigit
      have hrange : 48 ≤ c.toNat ∧ c.toNat ≤ 57 := Char.isDigit_iff_toNat.mp hdigit
      omega
    have hpoint : c ≠ '.' := by
      rintro rfl
      simp at halpha
    simp [isNumeralChar, hdigit, hpoint]
  · rfl

/-- No lexeme holds a blank. -/
theorem Extends.isBlank_eq_false (h : Extends kind c) : Text.isBlank c = false := by
  cases h with
  | identifier h =>
    rcases h with h | rfl
    · rw [Char.isAlphanum, Bool.or_eq_true] at h
      rcases h with h | h
      · have := toNat_of_isAlpha h
        exact Text.isBlank_eq_false (by omega) (by omega)
      · exact Text.isBlank_of_isDigit h
    · rfl
  | number h =>
    rcases h with h | rfl
    · exact Text.isBlank_of_isDigit h
    · rfl

theorem not_extends_symbol {d : Char} (h : kind.symbol? = some c) : ¬ Extends kind d := by
  intro hextends
  cases hextends <;> cases h

theorem symbol_begins (h : kind.symbol? = some c) :
    Text.isBlank c = false ∧ isNumeralChar c = false ∧ isNameStart c = false := by
  cases kind <;> cases h <;> exact ⟨rfl, rfl, rfl⟩

end Characters

section Lexemes

variable {first : Char} {kind : TokenKind} {payload : Payload} {lexeme more : List Char}

/-- What a lexeme begins with makes up its class: which characters it goes on through, and which
token it gives. -/
structure Begins (first : Char) (kind : TokenKind) : Prop where
  notBlank : Text.isBlank first = false
  goesOn : ∀ c, continues first c ↔ Extends kind c

theorem begins_number (h : isNumeralChar first) : Begins first .number where
  notBlank := (extends_number_iff.mpr h).isBlank_eq_false
  goesOn c := by rw [continues, if_pos h, extends_number_iff]

theorem begins_identifier (h : isNameStart first) : Begins first .identifier where
  notBlank := (extends_identifier_iff.mpr (isNameChar_of_isNameStart h)).isBlank_eq_false
  goesOn c := by
    rw [continues, isNumeralChar_of_isNameStart h, h, extends_identifier_iff]
    simp

theorem begins_symbol (h : kind.symbol? = some first) : Begins first kind where
  notBlank := (symbol_begins h).1
  goesOn c := by
    obtain ⟨-, hnumeral, hname⟩ := symbol_begins h
    simp [continues, hnumeral, hname, not_extends_symbol h]

theorem continues_of_isBlank (h : Text.isBlank first) (c : Char) : continues first c = false := by
  have hnumeral : isNumeralChar first = false := by
    rw [← Bool.not_eq_true]
    intro hnumeral
    rw [(begins_number hnumeral).notBlank] at h
    cases h
  have hname : isNameStart first = false := by
    rw [← Bool.not_eq_true]
    intro hname
    rw [(begins_identifier hname).notBlank] at h
    cases h
  simp [continues, hnumeral, hname]

/-- A lexeme begins with a character of its class and goes on through characters of its class, and
it is given its token. -/
theorem Spells.exists_first (h : Spells kind payload lexeme) :
    ∃ first more, lexeme = first :: more ∧ Begins first kind ∧ (∀ c ∈ more, Extends kind c) ∧
      ∀ span, ofLexeme? span first lexeme = .ok (some ⟨kind, payload, span⟩) := by
  cases h with
  | @symbol _ c h =>
    obtain ⟨hblank, hnumeral, hname⟩ := symbol_begins h
    refine ⟨c, [], rfl, begins_symbol h, by simp, ?_⟩
    intro span
    simp [ofLexeme?, hblank, hnumeral, hname, symbolKind?_eq_some.mpr h]
  | @identifier first rest hfirst hrest =>
    have hname : isNameStart first := isNameStart_iff.mpr hfirst
    have hbegins := begins_identifier hname
    refine ⟨first, rest, rfl, hbegins, hrest, ?_⟩
    intro span
    simp [ofLexeme?, hbegins.notBlank, isNumeralChar_of_isNameStart hname, hname]
  | @number lexeme value hlexeme hvalue =>
    cases lexeme with
    | nil => cases hvalue
    | cons first more =>
      have hnumeral : isNumeralChar first :=
        extends_number_iff.mp (hlexeme first List.mem_cons_self)
      have hbegins := begins_number hnumeral
      refine ⟨first, more, rfl, hbegins, fun c hc => hlexeme c (List.mem_cons_of_mem first hc), ?_⟩
      intro span
      simp [ofLexeme?, hbegins.notBlank, hnumeral, hvalue]

/-- What a lexeme that goes on as its first character allows is given: no token if that is a blank,
and else the token that it spells. -/
theorem ofLexeme?_cases {span : Span} {token? : Option Token}
    (hmore : ∀ c ∈ more, continues first c)
    (h : ofLexeme? span first (first :: more) = .ok token?) :
    (token? = none ∧ Text.isBlank first ∧ more = []) ∨
      ∃ kind payload, token? = some ⟨kind, payload, span⟩ ∧
        Spells kind payload (first :: more) ∧ Begins first kind := by
  unfold ofLexeme? at h
  dsimp only at h
  split at h
  · next hblank =>
    cases h
    refine Or.inl ⟨rfl, hblank, ?_⟩
    rw [List.eq_nil_iff_forall_not_mem]
    intro c hc
    have hcontinues := hmore c hc
    rw [continues_of_isBlank hblank c] at hcontinues
    cases hcontinues
  · right
    split at h
    · next hnumeral =>
      have hbegins := begins_number hnumeral
      split at h
      · next value hvalue =>
        cases h
        refine ⟨.number, .number value, rfl, .number ?_ hvalue, hbegins⟩
        intro c hc
        rcases List.mem_cons.mp hc with rfl | hc
        · exact extends_number_iff.mpr hnumeral
        · exact (hbegins.goesOn c).mp (hmore c hc)
      · cases h
    · split at h
      · next hname =>
        have hbegins := begins_identifier hname
        cases h
        refine ⟨.identifier, _, rfl, .identifier (isNameStart_iff.mp hname) ?_, hbegins⟩
        intro c hc
        exact (hbegins.goesOn c).mp (hmore c hc)
      · split at h
        · next kind hkind =>
          have hsymbol := symbolKind?_eq_some.mp hkind
          have hbegins := begins_symbol hsymbol
          obtain rfl : more = [] := by
            rw [List.eq_nil_iff_forall_not_mem]
            intro c hc
            exact not_extends_symbol hsymbol ((hbegins.goesOn c).mp (hmore c hc))
          cases h
          exact ⟨kind, _, rfl, .symbol hsymbol, hbegins⟩
        · cases h

end Lexemes

section Cuts

theorem scanFrom_cons (offset : Nat) (first : Char) (rest : List Char) :
    let lexeme := first :: rest.takeWhile (continues first)
    let next := offset + lexeme.length
    scanFrom offset (first :: rest) =
      (ofLexeme? ⟨offset, next⟩ first lexeme).bind fun token? =>
        (scanFrom next (rest.dropWhile (continues first))).bind fun later =>
          .ok (token?.toList ++ later) := by
  rw [scanFrom]
  rfl

/-- The first lexeme of a text, and the text after it. -/
theorem takeWhile_dropWhile_of_ends {first : Char} {kind : TokenKind} {more rest : List Char}
    (hbegins : Begins first kind) (hmore : ∀ c ∈ more, Extends kind c)
    (hends : ∀ c ∈ rest.head?, ¬ Extends kind c) :
    (more ++ rest).takeWhile (continues first) = more ∧
      (more ++ rest).dropWhile (continues first) = rest := by
  have hall : ∀ c ∈ more, continues first c := fun c hc => (hbegins.goesOn c).mpr (hmore c hc)
  rw [List.takeWhile_append_of_pos hall, List.dropWhile_append_of_pos hall]
  cases rest with
  | nil => simp
  | cons c rest =>
    have hstops : continues first c = false := by
      rw [← Bool.not_eq_true, hbegins.goesOn]
      exact hends c (by simp)
    simp [hstops]

/-- A blank at the front of a text gives no token. -/
theorem scanFrom_blank {c : Char} (hc : Text.isBlank c) (offset : Nat) (rest : List Char) :
    scanFrom offset (c :: rest) = scanFrom (offset + 1) rest := by
  have hstops : ∀ d, continues c d = false := continues_of_isBlank hc
  have htake : rest.takeWhile (continues c) = [] := by cases rest <;> simp [hstops]
  have hdrop : rest.dropWhile (continues c) = rest := by cases rest <;> simp [hstops]
  have hnone : ∀ span, ofLexeme? span c [c] = .ok none := by simp [ofLexeme?, hc]
  rw [scanFrom_cons, htake, hdrop, hnone]
  change (scanFrom (offset + 1) rest).bind _ = _
  cases scanFrom (offset + 1) rest <;> rfl

/-- A lexeme that ends where it does gives its token, whatever comes before and after it. -/
theorem scanFrom_lexeme {kind : TokenKind} {payload : Payload} {lexeme rest : List Char}
    (hspells : Spells kind payload lexeme) (hends : ∀ c ∈ rest.head?, ¬ Extends kind c)
    (offset : Nat) :
    scanFrom offset (lexeme ++ rest) =
      (scanFrom (offset + lexeme.length) rest).map
        (⟨kind, payload, ⟨offset, offset + lexeme.length⟩⟩ :: ·) := by
  obtain ⟨first, more, rfl, hbegins, hmore, htoken⟩ := hspells.exists_first
  obtain ⟨htake, hdrop⟩ := takeWhile_dropWhile_of_ends hbegins hmore hends
  rw [List.cons_append, scanFrom_cons, htake, hdrop, htoken]
  rfl

/-- The scanner gives the tokens of a cut, and after them the end. -/
theorem scanFrom_of_cut {offset : Nat} {text : List Char} {lexemes : List Token}
    (h : Cut offset text lexemes) :
    scanFrom offset text = .ok (lexemes ++ [endOfInput (offset + text.length)]) := by
  induction h with
  | nil offset =>
    rw [scanFrom]
    rfl
  | @blank offset c rest lexemes hc h ih =>
    rw [scanFrom_blank hc, ih, List.length_cons, Nat.add_right_comm, Nat.add_assoc]
  | lexeme hspells hends h ih =>
    rw [scanFrom_lexeme hspells hends, ih, List.length_append, ← Nat.add_assoc]
    rfl

/-- What is scanned as one lexeme, and the text after it. -/
theorem exists_lexeme_split (first : Char) (rest : List Char) :
    ∃ more after, rest = more ++ after ∧ rest.takeWhile (continues first) = more ∧
      rest.dropWhile (continues first) = after ∧ (∀ c ∈ more, continues first c) ∧
      ∀ c ∈ after.head?, continues first c = false := by
  refine ⟨_, _, List.takeWhile_append_dropWhile.symm, rfl, rfl, ?_, ?_⟩
  · intro c hc
    exact List.all_eq_true.mp List.all_takeWhile c hc
  · intro c hc
    have hhead := List.head?_dropWhile_not (continues first) rest
    rwa [hc] at hhead

/-- What the scanner gives for a text are the tokens of a cut of it, and after them the end. -/
theorem cut_of_scanFrom {offset : Nat} {text : List Char} {tokens : List Token}
    (h : scanFrom offset text = .ok tokens) :
    ∃ lexemes, tokens = lexemes ++ [endOfInput (offset + text.length)] ∧
      Cut offset text lexemes := by
  fun_induction scanFrom offset text generalizing tokens with
  | case1 offset =>
    cases h
    exact ⟨[], rfl, .nil offset⟩
  | case2 offset first rest lexeme next =>
    rename_i ih
    obtain ⟨more, after, rfl, htake, hdrop, hmore, hstops⟩ := exists_lexeme_split first rest
    obtain ⟨token?, htoken, h⟩ := bind_eq_ok.mp h
    obtain ⟨later, hlater, h⟩ := bind_eq_ok.mp h
    obtain ⟨lexemes, rfl, hcut⟩ := ih hlater
    cases h
    simp only [lexeme, next, htake, hdrop] at htoken hcut ⊢
    rcases ofLexeme?_cases hmore htoken with
      ⟨rfl, hblank, rfl⟩ | ⟨kind, payload, rfl, hspells, hbegins⟩
    · refine ⟨lexemes, ?_, .blank hblank hcut⟩
      simp only [Option.toList_none, List.nil_append, List.length_cons, List.length_nil]
      rw [Nat.zero_add, Nat.add_right_comm, Nat.add_assoc]
    · refine ⟨⟨kind, payload, _⟩ :: lexemes, ?_, .lexeme hspells ?_ hcut⟩
      · simp only [Option.toList_some, List.cons_append, List.nil_append, List.length_cons,
          List.length_append]
        rw [Nat.add_assoc, Nat.add_right_comm]
      · intro c hc hextends
        have hgoesOn := (hbegins.goesOn c).mpr hextends
        rw [hstops c hc] at hgoesOn
        cases hgoesOn

theorem stage_of_ofLexeme? {span : Span} {first : Char} {lexeme : List Char} {fault : Fault}
    (h : ofLexeme? span first lexeme = .error fault) : fault.stage = .lexical := by
  unfold ofLexeme? at h
  dsimp only at h
  split at h
  · cases h
  · split at h
    · split at h <;> cases h
      rfl
    · split at h
      · cases h
      · split at h <;> cases h
        rfl

/-- The faults of the scanner are lexical. -/
theorem stage_of_scanFrom {offset : Nat} {text : List Char} {fault : Fault}
    (h : scanFrom offset text = .error fault) : fault.stage = .lexical := by
  fun_induction scanFrom offset text with
  | case1 => cases h
  | case2 offset first rest lexeme next =>
    rename_i ih
    rcases bind_eq_error.mp h with hlexeme | ⟨token?, -, h⟩
    · exact stage_of_ofLexeme? hlexeme
    · rcases bind_eq_error.mp h with hlater | ⟨later, -, h⟩
      · exact ih hlater
      · cases h

end Cuts

end Token
end Abacus
