import Abacus.Proofs.Ending
import Abacus.Proofs.Listing
import Abacus.Proofs.Sources

/-!
The listing of a source's program. The operands of the program are the numbers and names among the
tokens, in their order, so its listing can hold them unless a number is too large: a name is one
word, and a numeral of the source is read as a number or as infinity. A listing without infinities
is read as the program it shows, and running it tells what the source did.
-/
namespace Abacus

def Instruction.isOperand : Instruction → Bool
  | .push _ | .load _ => true
  | .apply _ | .negate => false

def Token.operand? (token : Token) : Option Instruction :=
  match token.kind with
  | .number => token.number?.map .push
  | .identifier => some (.load token.text)
  | _ => none

namespace Grammar

theorem Joins.operand?_eq_none {rank : Rank} {token : Token} {op : BinaryOp}
    (h : Joins rank token.kind op) : token.operand? = none := by
  generalize hkind : token.kind = kind at h
  cases h <;> simp [Token.operand?, hkind]

theorem Signs.operand?_eq_none {token : Token} {sign : Sign} (h : Signs token.kind sign) :
    token.operand? = none := by
  generalize hkind : token.kind = kind at h
  cases h <;> simp [Token.operand?, hkind]

/-- The operands in the program of a phrase are those among its tokens. -/
theorem Phrase.operands_compile {symbol : Symbol} {depth : Nat} {tokens : List Token} {e : Expr}
    (h : Phrase symbol depth tokens e) :
    e.compile.filter Instruction.isOperand = tokens.filterMap Token.operand? := by
  induction h with
  | number hkind hvalue => simp [Expr.compile, Expr.compileThen, Instruction.isOperand,
      Token.operand?, hkind, hvalue]
  | identifier hkind => simp [Expr.compile, Expr.compileThen, Instruction.isOperand,
      Token.operand?, hkind]
  | group hopening h hclosing ih => simp [ih, Token.operand?, hopening, hclosing]
  | operand h ih => exact ih
  | @operation rank op depth depth' token tokens tokens' left right hleft hop hright ihl ihr =>
    rw [Expr.compile_binary]
    simp [ihl, ihr, hop.operand?_eq_none, Instruction.isOperand]
  | @signed sign token depth tokens operand hsign h ih =>
    cases sign with
    | plus =>
      rw [Expr.compile_plus]
      simp [ih, hsign.operand?_eq_none]
    | minus =>
      rw [Expr.compile_minus]
      simp [ih, hsign.operand?_eq_none, Instruction.isOperand]
  | unsigned h ih => exact ih

end Grammar

namespace Instruction

theorem operand?_of_not_finite {x : Float} (h : Binary.isFinite x = false) :
    operand? (showNumber x) = none := by
  rcases showNumber_of_not_finite h with hword | hword | hword
  all_goals
    rw [hword]
    decide +kernel

/-- The text of an instruction is read as that instruction if its number is finite, and else not
at all. -/
theorem read_render_eq_ok {instruction found : Instruction} (h : instruction.NamesWord) :
    read instruction.render = .ok found ↔ instruction.WellFormed ∧ found = instruction := by
  constructor
  · intro hread
    by_cases hwell : instruction.WellFormed
    · rw [read_render hwell] at hread
      cases hread
      exact ⟨hwell, rfl⟩
    · rw [read_eq_ok, words_render h] at hread
      cases instruction with
      | push value =>
        have hvalue : Binary.isFinite value = false := by simpa [WellFormed] using hwell
        simp [spelling, mnemonic, ofWords, operand?_of_not_finite hvalue] at hread
      | load name => exact absurd h hwell
      | apply op => exact absurd trivial hwell
      | negate => exact absurd trivial hwell
  · rintro ⟨hwell, rfl⟩
    exact read_render hwell

end Instruction

namespace Program

/-- The listing of a program that loads words is read as that program if its numbers are finite,
and else not at all. -/
theorem read_render_eq_ok {program found : Program}
    (h : ∀ instruction ∈ program, instruction.NamesWord) :
    read ("\n".intercalate (program.map Instruction.render)) = .ok found ↔
      program.WellFormed ∧ found = program := by
  rw [read_eq_ok, listingLines_render h, List.forall₂_map_left_iff]
  induction program generalizing found with
  | nil => simp [WellFormed]
  | cons instruction rest ih =>
    have hrest := fun {found} =>
      @ih found fun other hother => h other (List.mem_cons_of_mem instruction hother)
    simp only [List.forall₂_cons_left_iff, Instruction.read_render_eq_ok (h _ List.mem_cons_self),
      hrest, WellFormed, List.forall_mem_cons]
    constructor
    · rintro ⟨_, _, ⟨hfirst, rfl⟩, ⟨hlater, rfl⟩, rfl⟩
      exact ⟨⟨hfirst, hlater⟩, rfl⟩
    · rintro ⟨⟨hfirst, hlater⟩, rfl⟩
      exact ⟨_, _, ⟨hfirst, rfl⟩, ⟨hlater, rfl⟩, rfl⟩

/-- What holds of every other instruction holds of a program if it does of the operands. -/
theorem forall_mem_iff_operands {P : Instruction → Prop}
    (h : ∀ instruction, instruction.isOperand = false → P instruction) (program : Program) :
    (∀ instruction ∈ program, P instruction) ↔
      ∀ instruction ∈ program.filter Instruction.isOperand, P instruction := by
  constructor
  · intro hall instruction hmember
    exact hall instruction (List.mem_of_mem_filter hmember)
  · intro hoperands instruction hmember
    cases hoperand : instruction.isOperand with
    | true => exact hoperands instruction (List.mem_filter.mpr ⟨hmember, hoperand⟩)
    | false => exact h instruction hoperand

theorem namesWord_iff_operands (program : Program) :
    (∀ instruction ∈ program, instruction.NamesWord) ↔
      ∀ instruction ∈ program.filter Instruction.isOperand, instruction.NamesWord :=
  program.forall_mem_iff_operands fun instruction _ => by cases instruction <;> trivial

theorem wellFormed_iff_operands (program : Program) : program.WellFormed ↔
    ∀ instruction ∈ program.filter Instruction.isOperand, instruction.WellFormed :=
  program.forall_mem_iff_operands fun instruction _ => by cases instruction <;> trivial

end Program

namespace Token

section Spellings

variable {kind : TokenKind} {payload : Payload} {lexeme : List Char}

theorem Spells.namesWord (h : Spells kind payload lexeme) (span : Span) :
    ∀ instruction ∈ Token.operand? ⟨kind, payload, span⟩, instruction.NamesWord := by
  have hblank := h.isBlank_eq_false
  intro instruction hinstruction
  cases h with
  | symbol hc => cases kind <;> cases hc <;> cases hinstruction
  | @identifier first rest hfirst hrest =>
    cases hinstruction
    rw [Instruction.NamesWord, Token.text, String.toList_ofList]
    exact ⟨by simp, hblank⟩
  | number hlexeme hvalue =>
    cases hinstruction
    trivial

/-- A listing can hold the operand of a lexeme unless that is the numeral of an infinite number. -/
theorem Spells.wellFormed_iff (h : Spells kind payload lexeme) (span : Span) :
    (∀ instruction ∈ Token.operand? ⟨kind, payload, span⟩, instruction.WellFormed) ↔
      (kind = .number → ∃ value, Numeral.read lexeme = some value ∧ Binary.isFinite value) := by
  have hnames := h.namesWord span
  cases h with
  | symbol hc => cases kind <;> cases hc <;> simp [Token.operand?]
  | identifier hfirst hrest =>
    refine iff_of_true ?_ (by simp)
    intro instruction hinstruction
    have hname := hnames instruction hinstruction
    cases hinstruction
    exact hname
  | number hlexeme hvalue => simp [Token.operand?, Token.number?, Instruction.WellFormed, hvalue]

end Spellings

/-- Every number literal of the source, the text at the place of a number among the tokens, is read
as a finite number. -/
def LiteralsFinite (source : List Char) (tokens : List Token) : Prop :=
  ∀ token ∈ tokens, token.kind = .number → ∃ value,
    Numeral.read (source.extract token.span.start token.span.stop) = some value ∧
      Binary.isFinite value

end Token

open Token Grammar

section Sentences

variable {source : List Char} {lexemes : List Token} {tree : Expr}

theorem namesWord_compile (hcut : Cut 0 source lexemes) (h : Sentence lexemes tree) :
    ∀ instruction ∈ tree.compile, instruction.NamesWord := by
  obtain ⟨depth, -, hphrase⟩ := h
  have hcovers := covers_of_cut hcut List.drop_zero
  rw [Program.namesWord_iff_operands, hphrase.operands_compile]
  intro instruction hinstruction
  obtain ⟨token, htoken, hoperand⟩ := List.mem_filterMap.mp hinstruction
  exact (hcovers.spells token htoken).namesWord token.span instruction hoperand

/-- A listing can hold the program of a source exactly if the literals of the source are finite. -/
theorem wellFormed_compile_iff (hcut : Cut 0 source lexemes) (h : Sentence lexemes tree) :
    tree.compile.WellFormed ↔ LiteralsFinite source lexemes := by
  obtain ⟨depth, -, hphrase⟩ := h
  have hcovers := covers_of_cut hcut List.drop_zero
  have htoken := fun token hmember => (hcovers.spells token hmember).wellFormed_iff token.span
  rw [Program.wellFormed_iff_operands, hphrase.operands_compile]
  simp only [List.mem_filterMap, forall_exists_index, and_imp]
  constructor
  · intro hall token hmember
    exact (htoken token hmember).mp fun instruction => hall instruction token hmember
  · intro hall instruction token hmember
    exact (htoken token hmember).mpr (hall token hmember) instruction

end Sentences

namespace Calculator

theorem program_execute (calculator : Calculator) (program : Program) :
    (calculator.execute program).program = program := by
  unfold execute
  dsimp only
  split <;> rfl

/-- The listing of the program of a source is read if and only if every number literal of the source
is finite. What is then read is the program itself, and running it gives the result, the trace and
the fault of the source. -/
theorem read_answer_listing (calculator : Calculator) {source : String} {tokens : List Token}
    {tree : Expr} (hscan : scan source.toList = .ok tokens)
    (hparse : Expr.parse tokens = .ok tree) :
    let answer := calculator.answer source
    let listing := "\n".intercalate (answer.program.map Instruction.render)
    ((∃ program, Program.read listing = .ok program) ↔ LiteralsFinite source.toList tokens) ∧
    ∀ program, Program.read listing = .ok program →
      program = answer.program ∧ (calculator.execute program).result = answer.result ∧
        (calculator.execute program).trace = answer.trace ∧
        (calculator.execute program).fault = answer.fault := by
  intro answer listing
  have hanswer : answer =
      { calculator.execute tree.compile with tokens := tokens, tree := some tree } :=
    answer_of_parse_ok hscan hparse
  have hprogram : answer.program = tree.compile := by
    rw [hanswer]
    exact calculator.program_execute tree.compile
  obtain ⟨lexemes, rfl, hcut, hsentence⟩ := exists_cut_of_parse hscan hparse
  have hread : ∀ program, Program.read listing = .ok program ↔
      tree.compile.WellFormed ∧ program = tree.compile := by
    intro program
    change Program.read ("\n".intercalate (answer.program.map Instruction.render)) = _ ↔ _
    rw [hprogram]
    exact Program.read_render_eq_ok (namesWord_compile hcut hsentence)
  have hliterals : LiteralsFinite source.toList
      (lexemes ++ [endOfInput source.toList.length]) ↔ tree.compile.WellFormed := by
    rw [wellFormed_compile_iff hcut hsentence]
    simp [LiteralsFinite, endOfInput, or_imp, forall_and]
  constructor
  · rw [hliterals]
    constructor
    · rintro ⟨program, hok⟩
      exact ((hread program).mp hok).1
    · intro hwell
      exact ⟨tree.compile, (hread tree.compile).mpr ⟨hwell, rfl⟩⟩
  · intro program hok
    obtain ⟨-, rfl⟩ := (hread program).mp hok
    rw [hanswer]
    exact ⟨(calculator.program_execute tree.compile).symm, rfl, rfl, rfl⟩

theorem read_answer_listing_of_sum :
    let calculator : Calculator := ⟨∅⟩
    let source := "2+x"
    let plus : Token := ⟨.plus, .text "+", ⟨1, 2⟩⟩
    let tokens : List Token := [⟨.number, .number 2, ⟨0, 1⟩⟩, plus,
      ⟨.identifier, .text "x", ⟨2, 3⟩⟩, endOfInput 3]
    let answer := calculator.answer source
    let listing := "\n".intercalate (answer.program.map Instruction.render)
    ∃ tree program, scan source.toList = .ok tokens ∧ Expr.parse tokens = .ok tree ∧
      LiteralsFinite source.toList tokens ∧ Program.read listing = .ok program ∧
      program = answer.program ∧ (calculator.execute program).fault = answer.fault := by
  intro calculator source plus tokens answer listing
  have hsource : source.toList = ['2', '+', 'x'] := by simp [source]
  have hread : Numeral.read ['2'] = some 2 := by decide +kernel
  have hfinite : LiteralsFinite source.toList tokens := by
    rw [hsource]
    simp only [LiteralsFinite, tokens, List.forall_mem_cons]
    exact ⟨fun _ => ⟨2, hread, by decide +kernel⟩, nofun, nofun, nofun, nofun⟩
  have hsymbol : TokenKind.plus.symbol? = some '+' := rfl
  have htwo : Spells .number (.number 2) ['2'] :=
    .number (by simpa using extends_number_iff.mpr rfl) hread
  have hname : Spells .identifier (.text "x") ['x'] := spells_letter rfl
  have hcut := (htwo.cut 0).append ((hname.cut 2).symbol hsymbol)
    (by simpa using separates_of_symbol hsymbol)
  have hleft : Phrase .atom 0 [⟨.number, .number 2, ⟨0, 1⟩⟩] (.number 2 ⟨0, 1⟩) := .number rfl rfl
  have hright : Phrase .atom 0 [⟨.identifier, .text "x", ⟨2, 3⟩⟩] (.identifier "x" ⟨2, 3⟩) :=
    .identifier rfl
  have hjoins : Joins .sum plus.kind .add := .add
  have hsum := Phrase.operation (hleft.of_atom .expression) hjoins (hright.of_atom .term)
  obtain ⟨hchars, hparse⟩ := parse_of_cut hcut ⟨0, Nat.zero_le _, hsum⟩
  have hscan : scan source.toList = .ok tokens := by
    rw [hsource]
    exact hchars
  obtain ⟨hlisting, hrun⟩ := calculator.read_answer_listing hscan hparse
  obtain ⟨program, hprogram⟩ := hlisting.mpr hfinite
  obtain ⟨hsame, -, -, hfault⟩ := hrun program hprogram
  exact ⟨_, program, hscan, hparse, hfinite, hprogram, hsame, hfault⟩

end Calculator
end Abacus
