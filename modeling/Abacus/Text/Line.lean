import Abacus.Text.Blank

/-!
Lines of a text, under two rules. Listings and messages are cut at line feeds alone. The place of
a character in a source, its line and column, counts every Unicode line end, with a carriage
return and the line feed after it as one.
-/
namespace Abacus.Text

def lines (cs : List Char) : List (List Char) := pieces (· == '\n') cs

/-- Lines joined by line feeds are found again. -/
theorem lines_intercalate {ls : List (List Char)} (hne : ls ≠ []) (h : ∀ l ∈ ls, '\n' ∉ l) :
    lines (['\n'].intercalate ls) = ls := by
  rw [lines, pieces_eq_splitOnP, ← List.splitOn_eq_splitOnP]
  exact List.splitOn_intercalate '\n' h hne

/-- Lines that are each ended by a line feed are found again, and nothing after the last. -/
theorem lines_ended {ls : List (List Char)} (h : ∀ l ∈ ls, '\n' ∉ l) :
    lines (ls.flatMap (· ++ ['\n'])) = ls ++ [[]] := by
  induction ls with
  | nil => rfl
  | cons l ls ih =>
    have hline : ∀ c ∈ l, (c == '\n') = false := by
      intro c hc
      rw [beq_eq_false_iff_ne]
      rintro rfl
      exact h l List.mem_cons_self hc
    have hlater := ih fun other hother => h other (List.mem_cons_of_mem l hother)
    rw [lines] at hlater
    rw [List.flatMap_cons, List.append_assoc, List.singleton_append, lines,
      pieces_append_cons _ (by rfl), hlater, pieces_eq_splitOnP, List.splitOnP_eq_singleton hline]
    rfl

/-- A position in a text as a reader counts it, line and column both from one. -/
structure Place where
  line : Nat
  column : Nat
deriving DecidableEq, Repr

/-- The characters that end a line: LF, VT, FF, CR, NEL, LINE SEPARATOR, PARAGRAPH SEPARATOR. -/
def isLineEnd (c : Char) : Bool :=
  (0x0A ≤ c.toNat && c.toNat ≤ 0x0D) || c.toNat == 0x85 || c.toNat == 0x2028 || c.toNat == 0x2029

/-- Whether a new line starts between `c` and the text after it. The two characters of a
carriage return with a line feed stay on one line, and no line starts at the end of the text. -/
def breaksAfter (c : Char) (rest : List Char) : Bool :=
  isLineEnd c && !rest.isEmpty && !(c == '\r' && rest.head? == some '\n')

def place : List Char → Nat → Place
  | _, 0 => ⟨1, 1⟩
  | [], offset + 1 => ⟨1, offset + 2⟩
  | c :: rest, offset + 1 =>
    let there := place rest offset
    if breaksAfter c rest then { there with line := there.line + 1 }
    else if there.line = 1 then { there with column := there.column + 1 }
    else there

end Abacus.Text
