import Abacus.Proofs.Moving

/-!
Sources put together from others. A source in parentheses is an atom, whatever stands around it:
no lexeme goes on through a parenthesis, its tokens are found at any offset, and its operators
cannot be drawn into a chain outside. So an operation on two sources in parentheses has the program
of one, that of the other, and then the operation, as long as the nesting limit leaves room.
-/
namespace Abacus

open Token Grammar

def Sign.instructions : Sign → Program
  | .plus => []
  | .minus => [.negate]

theorem Expr.compile_unary (sign : Sign) (operand : Expr) (span : Span) :
    (unary sign operand span).compile = operand.compile ++ sign.instructions := by
  cases sign with
  | plus => rw [compile_plus, Sign.instructions, List.append_nil]
  | minus => rw [compile_minus, Sign.instructions]

namespace Grammar

/-- Wherever the text stands in a source, its tokens are a phrase of the symbol, with room for the
nesting, and the tree of the phrase has the program. -/
def Yields (symbol : Symbol) (room : Nat) (text : List Char) (program : Program) : Prop :=
  ∀ offset, ∃ lexemes depth tree, Cut offset text lexemes ∧ Phrase symbol depth lexemes tree ∧
    depth ≤ room ∧ tree.compile = program

variable {symbol : Symbol} {rank : Rank} {room depth : Nat} {kind : TokenKind} {c : Char}
  {text text' : List Char} {program program' : Program}

theorem yields_of_cut {lexemes : List Token} {tree : Expr} (hcut : Cut 0 text lexemes)
    (h : Phrase symbol depth lexemes tree) (hdepth : depth ≤ room) :
    Yields symbol room text tree.compile := by
  intro offset
  have hmoved := hcut.moved offset
  rw [Nat.zero_add] at hmoved
  exact ⟨_, depth, tree.moved offset, hmoved, h.moved offset, hdepth, tree.compile_moved offset⟩

/-- The phrases of a symbol keep their nesting and program as phrases of another. -/
theorem Yields.of_phrase {symbol' : Symbol} (h : Yields symbol room text program)
    (hphrases : ∀ depth tokens e, Phrase symbol depth tokens e → Phrase symbol' depth tokens e) :
    Yields symbol' room text program := by
  intro offset
  obtain ⟨lexemes, depth, tree, hcut, hphrase, hdepth, hprogram⟩ := h offset
  exact ⟨lexemes, depth, tree, hcut, hphrases depth lexemes tree hphrase, hdepth, hprogram⟩

theorem Yields.of_atom (h : Yields .atom room text program) (symbol : Symbol) :
    Yields symbol room text program :=
  h.of_phrase fun _ _ _ hphrase => hphrase.of_atom symbol

/-- Parentheses take one level and leave no instruction. -/
theorem Yields.group (h : Yields .expression room text program) :
    Yields .atom (room + 1) ('(' :: (text ++ [')'])) program := by
  intro offset
  obtain ⟨lexemes, depth, tree, hcut, hphrase, hdepth, hprogram⟩ := h (offset + 1)
  have hopening : TokenKind.leftParen.symbol? = some '(' := rfl
  have hclosing : TokenKind.rightParen.symbol? = some ')' := rfl
  have hspells := (Spells.symbol hclosing).cut (offset + 1 + text.length)
  have hinner := hcut.append hspells (by simpa using separates_of_symbol hclosing)
  exact ⟨_, depth + 1, tree, hinner.symbol hopening, .group rfl hphrase rfl, by omega, hprogram⟩

theorem Yields.operation {op : BinaryOp} (h : Yields (.chain rank) room text program)
    (h' : Yields rank.operand room text' program') (hop : Joins rank kind op)
    (hc : kind.symbol? = some c) :
    Yields (.chain rank) room (text ++ c :: text') (program ++ program' ++ [.apply op]) := by
  intro offset
  obtain ⟨lexemes, depth, left, hcut, hleft, hdepth, rfl⟩ := h offset
  obtain ⟨lexemes', depth', right, hcut', hright, hdepth', rfl⟩ := h' (offset + text.length + 1)
  have hjoined := hcut.append (hcut'.symbol hc) (by simpa using separates_of_symbol hc)
  exact ⟨_, _, _, hjoined, .operation hleft hop hright, Nat.max_le.mpr ⟨hdepth, hdepth'⟩,
    Expr.compile_binary op left right _⟩

theorem Yields.signed {sign : Sign} (h : Yields .factor room text program)
    (hsign : Signs kind sign) (hc : kind.symbol? = some c) :
    Yields .factor (room + 1) (c :: text) (program ++ sign.instructions) := by
  intro offset
  obtain ⟨lexemes, depth, operand, hcut, hoperand, hdepth, rfl⟩ := h (offset + 1)
  exact ⟨_, _, _, hcut.symbol hc, .signed hsign hoperand, by omega,
    Expr.compile_unary sign operand _⟩

end Grammar

def Compiles (source : String) (program : Program) : Prop :=
  ∃ tokens tree, scan source.toList = .ok tokens ∧ Expr.parse tokens = .ok tree ∧
    tree.compile = program

/-- The source compiles to the program, and each of its tokens lies in at most so many signs and
parentheses. -/
def CompilesWithin (levels : Nat) (source : String) (program : Program) : Prop :=
  ∃ tokens tree depth, scan source.toList = .ok tokens ∧ Expr.parse tokens = .ok tree ∧
    tree.compile = program ∧ depth ≤ levels ∧
    Phrase .expression depth (tokens.takeWhile (·.kind != .eof)) tree

section Sources

variable {levels : Nat} {source source' : String} {program program' : Program}

theorem CompilesWithin.compiles (h : CompilesWithin levels source program) :
    Compiles source program := by
  obtain ⟨tokens, tree, -, hscan, hparse, hprogram, -⟩ := h
  exact ⟨tokens, tree, hscan, hparse, hprogram⟩

/-- Whatever compiles does so within the nesting limit. -/
theorem compilesWithin_maxNesting :
    CompilesWithin Expr.maxNesting source program ↔ Compiles source program := by
  constructor
  · intro h
    exact h.compiles
  · rintro ⟨tokens, tree, hscan, hparse, hprogram⟩
    obtain ⟨depth, hdepth, hphrase⟩ := Expr.sentence_of_read (Expr.parse_eq_ok.mp hparse)
    exact ⟨tokens, tree, depth, hscan, hparse, hprogram, hdepth, hphrase⟩

theorem CompilesWithin.yields (h : CompilesWithin levels source program) :
    Yields .expression levels source.toList program := by
  obtain ⟨tokens, tree, depth, hscan, -, rfl, hdepth, hphrase⟩ := h
  obtain ⟨lexemes, rfl, hcut⟩ := cut_of_scanFrom hscan
  rw [hcut.takeWhile_eq] at hphrase
  exact yields_of_cut hcut hphrase hdepth

theorem compilesWithin_of_yields (h : Yields .expression levels source.toList program)
    (hlevels : levels ≤ Expr.maxNesting) : CompilesWithin levels source program := by
  obtain ⟨lexemes, depth, tree, hcut, hphrase, hdepth, hprogram⟩ := h 0
  obtain ⟨hscan, hparse⟩ := parse_of_cut hcut ⟨depth, Nat.le_trans hdepth hlevels, hphrase⟩
  refine ⟨_, tree, depth, hscan, hparse, hprogram, hdepth, ?_⟩
  rwa [hcut.takeWhile_eq]

theorem compiles_of_yields (h : Yields .expression Expr.maxNesting source.toList program) :
    Compiles source program :=
  (compilesWithin_of_yields h (Nat.le_refl _)).compiles

/-- The token and the rank of an operator. -/
theorem BinaryOp.exists_joins (op : BinaryOp) :
    ∃ rank kind c, Joins rank kind op ∧ kind.symbol? = some c ∧ op.symbol.toList = [c] := by
  cases op with
  | add => exact ⟨_, _, '+', .add, rfl, by simp [symbol]⟩
  | subtract => exact ⟨_, _, '-', .subtract, rfl, by simp [symbol]⟩
  | multiply => exact ⟨_, _, '*', .multiply, rfl, by simp [symbol]⟩
  | divide => exact ⟨_, _, '/', .divide, rfl, by simp [symbol]⟩
  | power => exact ⟨_, _, '^', .power, rfl, by simp [symbol]⟩

theorem Sign.exists_signs (sign : Sign) :
    ∃ kind c, Signs kind sign ∧ kind.symbol? = some c ∧ sign.symbol.toList = [c] := by
  cases sign with
  | plus => exact ⟨_, '+', .plus, rfl, by simp [symbol]⟩
  | minus => exact ⟨_, '-', .minus, rfl, by simp [symbol]⟩

theorem CompilesWithin.operation (h : CompilesWithin levels source program)
    (h' : CompilesWithin levels source' program') (op : BinaryOp) :
    Yields .expression (levels + 1)
      ("(" ++ source ++ ")" ++ op.symbol ++ "(" ++ source' ++ ")").toList
      (program ++ program' ++ [.apply op]) := by
  obtain ⟨rank, kind, c, hop, hc, hsymbol⟩ := op.exists_joins
  have hleft := h.yields.group.of_atom (.chain rank)
  have hright := h'.yields.group.of_atom rank.operand
  have htext : ("(" ++ source ++ ")" ++ op.symbol ++ "(" ++ source' ++ ")").toList =
      '(' :: (source.toList ++ [')']) ++ c :: '(' :: (source'.toList ++ [')']) := by
    simp [hsymbol]
  rw [htext]
  have hchain := hleft.operation hright hop hc
  exact hchain.of_phrase fun _ _ _ hphrase => hphrase.expression_of_chain

theorem CompilesWithin.signed (h : CompilesWithin levels source program) (sign : Sign) :
    Yields .expression (levels + 2) (sign.symbol ++ "(" ++ source ++ ")").toList
      (program ++ sign.instructions) := by
  obtain ⟨kind, c, hsign, hc, hsymbol⟩ := sign.exists_signs
  have hoperand := h.yields.group.of_atom .factor
  have htext : (sign.symbol ++ "(" ++ source ++ ")").toList =
      c :: '(' :: (source.toList ++ [')']) := by
    simp [hsymbol]
  rw [htext]
  have hfactor := hoperand.signed hsign hc
  exact hfactor.of_phrase fun _ _ _ hphrase => hphrase.expression_of_factor

/-- Sources in parentheses compile like operands: an operation on two of them to their programs, one
after the other, and the operation; a minus sign in front of one to its program and a negation; a
plus sign in front of one to its program alone. Each source needs room for the levels around it. -/
theorem compiles_parenthesized :
    (∀ op : BinaryOp, CompilesWithin (Expr.maxNesting - 1) source program →
      CompilesWithin (Expr.maxNesting - 1) source' program' →
      Compiles ("(" ++ source ++ ")" ++ op.symbol ++ "(" ++ source' ++ ")")
        (program ++ program' ++ [.apply op])) ∧
    (CompilesWithin (Expr.maxNesting - 2) source program →
      Compiles ("-(" ++ source ++ ")") (program ++ [.negate]) ∧
      Compiles ("+(" ++ source ++ ")") program) := by
  refine ⟨?_, ?_⟩
  · intro op h h'
    exact compiles_of_yields (h.operation h' op)
  · intro h
    have hminus := compiles_of_yields (h.signed .minus)
    have hplus := compiles_of_yields (h.signed .plus)
    rw [Sign.instructions, List.append_nil] at hplus
    exact ⟨hminus, hplus⟩

theorem compiles_parenthesized_sum :
    let sum : Program := [.load "x", .load "x", .apply .add]
    CompilesWithin 254 "x+x" sum ∧ CompilesWithin 255 "x+x" sum ∧
      CompilesWithin 255 "x" [.load "x"] ∧
      Compiles "(x+x)^(x)" (sum ++ [.load "x", .apply .power]) ∧
      Compiles "-(x+x)" (sum ++ [.negate]) ∧ Compiles "+(x+x)" sum := by
  intro sum
  have hspells : Spells .identifier (.text "x") ['x'] := spells_letter rfl
  have hatom : ∀ room, Yields .atom room "x".toList [.load "x"] := fun room =>
    yields_of_cut (hspells.cut 0) (.identifier rfl) (Nat.zero_le room)
  have hterm : ∀ room, Yields Rank.sum.operand room "x".toList [.load "x"] := fun room =>
    (hatom room).of_atom .term
  have hsum : ∀ room, Yields .expression room "x+x".toList sum := fun room =>
    ((hatom room).of_atom .expression).operation (hterm room) .add rfl
  have hsum254 := compilesWithin_of_yields (hsum 254) (by decide)
  have hsum255 := compilesWithin_of_yields (hsum 255) (by decide)
  have hx255 := compilesWithin_of_yields ((hatom 255).of_atom .expression) (by decide)
  obtain ⟨hoperation, hsigned⟩ := @compiles_parenthesized "x+x" "x" sum [.load "x"]
  exact ⟨hsum254, hsum255, hx255, hoperation .power hsum255 hx255, hsigned hsum254⟩

end Sources

end Abacus
