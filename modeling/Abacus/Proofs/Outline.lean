import Abacus.Proofs.OperatorFirst
import Abacus.Text.Line

/-!
Outlines of trees. The line of a node shows the way to it from the root: the margins of the branches
above, then the arm of its own, then the form of the node and what it says by itself. The form says
how many operands have their lines below, so an outline can be read in one way only.
-/
namespace Abacus

inductive Branch where
  | left
  | right
  | operand
deriving DecidableEq, Repr

namespace Branch

def arm : Branch → String
  | .left => "├─ left: "
  | .right => "└─ right: "
  | .operand => "└─ operand: "

def margin : Branch → String
  | .left => "│  "
  | .right | .operand => "   "

def lead : List Branch → String
  | [] => ""
  | [last] => last.arm
  | branch :: path => branch.margin ++ lead path

theorem no_line_feed_lead (path : List Branch) : '\n' ∉ (lead path).toList := by
  induction path with
  | nil => simp [lead]
  | cons branch path ih =>
    cases path with
    | nil => cases branch <;> simp [lead, arm]
    | cons next path => cases branch <;> simpa [lead, margin] using ih

end Branch

namespace Expr

/-- A place under an operand, as the operation above it sees the place. -/
def through (branch : Branch) (place : List Branch × Expr) : List Branch × Expr :=
  (branch :: place.1, place.2)

def places : Expr → List (List Branch × Expr)
  | e@(.number ..) | e@(.identifier ..) => [([], e)]
  | e@(.binary _ left right _) =>
    ([], e) :: (left.places.map (through .left) ++ right.places.map (through .right))
  | e@(.unary _ operand _) => ([], e) :: operand.places.map (through .operand)

def title (e : Expr) : String := e.typeName ++ " " ++ e.label

def line (place : List Branch × Expr) : String := Branch.lead place.1 ++ place.2.title

theorem map_snd_places (e : Expr) : e.places.map Prod.snd = e.nodes := by
  have hsnd (branch : Branch) : Prod.snd ∘ through branch = Prod.snd := rfl
  induction e with
  | number | identifier => rfl
  | binary op left right span ihl ihr => simp [places, nodes, hsnd, ihl, ihr]
  | unary sign operand span ih => simp [places, nodes, hsnd, ih]

def linesBelow (indent : String) : Expr → List String
  | .number .. | .identifier .. => []
  | .binary _ left right _ =>
    left.outlineLines (indent ++ Branch.left.arm) (indent ++ Branch.left.margin) ++
      right.outlineLines (indent ++ Branch.right.arm) (indent ++ Branch.right.margin)
  | .unary _ operand _ =>
    operand.outlineLines (indent ++ Branch.operand.arm) (indent ++ Branch.operand.margin)

theorem outlineLines_eq (lead indent : String) (e : Expr) :
    e.outlineLines lead indent = (lead ++ e.title) :: e.linesBelow indent := by
  cases e <;> simp [outlineLines, linesBelow, title, String.append_assoc, Branch.arm, Branch.margin]

def leadFrom (lead indent : String) : List Branch → String
  | [] => lead
  | branch :: path => indent ++ Branch.lead (branch :: path)

def lineFrom (lead indent : String) (place : List Branch × Expr) : String :=
  leadFrom lead indent place.1 ++ place.2.title

theorem lineFrom_comp_through (lead indent : String) (branch : Branch) :
    lineFrom lead indent ∘ through branch =
      lineFrom (indent ++ branch.arm) (indent ++ branch.margin) := by
  funext ⟨path, node⟩
  cases path with
  | nil => rfl
  | cons next path =>
    simp [lineFrom, through, leadFrom, Branch.lead, String.append_assoc]

theorem outlineLines_eq_map_places (lead indent : String) (e : Expr) :
    e.outlineLines lead indent = e.places.map (lineFrom lead indent) := by
  induction e generalizing lead indent with
  | number | identifier => rw [outlineLines_eq]; rfl
  | binary op left right span ihl ihr =>
    rw [outlineLines_eq, linesBelow, ihl, ihr, places, List.map_cons, List.map_append,
      List.map_map, List.map_map, lineFrom_comp_through, lineFrom_comp_through]
    rfl
  | unary sign operand span ih =>
    rw [outlineLines_eq, linesBelow, ih, places, List.map_cons, List.map_map,
      lineFrom_comp_through]
    rfl

theorem outlineLines_root (e : Expr) : e.outlineLines "" "" = e.places.map line := by
  have hline : lineFrom "" "" = line := by
    funext ⟨path, node⟩
    cases path <;> simp [lineFrom, leadFrom, line, Branch.lead]
  rw [outlineLines_eq_map_places, hline]

/-- The nodes of a spellable tree are spellable. -/
theorem Spellable.of_mem_places {e : Expr} (he : e.Spellable) {place : List Branch × Expr}
    (hplace : place ∈ e.places) : place.2.Spellable := by
  induction e generalizing place with
  | number | identifier =>
    cases List.mem_singleton.mp hplace
    exact he
  | binary op left right span ihl ihr =>
    simp only [places, List.mem_cons, List.mem_append, List.mem_map] at hplace
    rcases hplace with rfl | ⟨under, hunder, rfl⟩ | ⟨under, hunder, rfl⟩
    · exact he
    · exact (ihl he.1 hunder : under.2.Spellable)
    · exact (ihr he.2 hunder : under.2.Spellable)
  | unary sign operand span ih =>
    simp only [places, List.mem_cons, List.mem_map] at hplace
    rcases hplace with rfl | ⟨under, hunder, rfl⟩
    · exact he
    · exact (ih he hunder : under.2.Spellable)

theorem no_line_feed_title {e : Expr} (he : e.Spellable) : '\n' ∉ e.title.toList := by
  have hleaf (hleaf : e.IsLeaf) : '\n' ∉ e.render.toList := fun hmem => by
    have hchar := isLeafChar_render hleaf he _ hmem
    cases hchar
  cases e with
  | number value span | identifier name span =>
    simpa [title, typeName, label, render] using hleaf trivial
  | binary op left right span => cases op <;> simp [title, typeName, label, BinaryOp.symbol]
  | unary sign operand span => cases sign <;> simp [title, typeName, label, Sign.symbol]

/-- The lines of an outline are those of the nodes, one after another. -/
theorem lines_outline {e : Expr} (he : e.Spellable) :
    Text.lines e.outline.toList = e.places.map (fun place => (line place).toList) ++ [[]] := by
  have hlines : ∀ l ∈ (e.outlineLines "" "").map String.toList, '\n' ∉ l := by
    intro l hl
    rw [outlineLines_root, List.map_map] at hl
    obtain ⟨place, hplace, rfl⟩ := List.mem_map.mp hl
    simpa [line, Branch.no_line_feed_lead] using no_line_feed_title (he.of_mem_places hplace)
  have hchars : e.outline.toList =
      ((e.outlineLines "" "").map String.toList).flatMap (· ++ ['\n']) := by
    simp [outline, String.toList_join, List.flatMap_map]
  rw [hchars, Text.lines_ended hlines, outlineLines_root, List.map_map]
  rfl

section Reading

variable {e e' : Expr} {lead indent : String} {rest rest' : List String}

/-- The form of a node ends at the first blank of its title. -/
theorem title_inj (h : e.title = e'.title) : e.typeName = e'.typeName ∧ e.label = e'.label := by
  have hform (e : Expr) : ∀ c ∈ e.typeName.toList, (c != ' ') = true := by
    cases e <;> simp [typeName]
  have hblank (later : List Char) : ∀ c ∈ (' ' :: later).head?, (c != ' ') = false := by simp
  have hchars (e : Expr) : e.title.toList = e.typeName.toList ++ ' ' :: e.label.toList := by
    simp [title]
  have hsame := congrArg String.toList h
  rw [hchars, hchars] at hsame
  obtain ⟨htype, hlabel⟩ :=
    Text.append_inj_of_ends (hform e) (hform e') (hblank _) (hblank _) hsame
  exact ⟨String.toList_inj.mp htype, String.toList_inj.mp (List.cons.inj hlabel).2⟩

theorem outlineLines_append_eq
    (h : e.outlineLines lead indent ++ rest = e'.outlineLines lead indent ++ rest') :
    e.typeName = e'.typeName ∧ e.label = e'.label ∧
      e.linesBelow indent ++ rest = e'.linesBelow indent ++ rest' := by
  rw [outlineLines_eq, outlineLines_eq, List.cons_append, List.cons_append, List.cons.injEq] at h
  obtain ⟨htype, hlabel⟩ := title_inj ((String.append_right_inj lead).mp h.1)
  exact ⟨htype, hlabel, h.2⟩

/-- Outlines that are the same together with what comes after them, with the same in front of
their lines, are those of trees that are the same but for their spans. -/
theorem outlineLines_append_inj (he : e.Spellable) (he' : e'.Spellable)
    (h : e.outlineLines lead indent ++ rest = e'.outlineLines lead indent ++ rest') :
    e.withoutSpans = e'.withoutSpans ∧ rest = rest' := by
  -- Nodes of one form have the same in front of the lines of their operands, so that these can be
  -- read with the leads that the first line leaves.
  induction e generalizing lead indent e' rest rest' with
  | number value span =>
    have hvalue : Binary.isFinite value := he
    obtain ⟨htype, hlabel, hbelow⟩ := outlineLines_append_eq h
    cases e' with
    | number value' span' =>
      rw [withoutSpans, withoutSpans, NumberStyle.write_inj .plain hvalue he' hlabel]
      exact ⟨rfl, hbelow⟩
    | identifier | binary | unary => simp [typeName] at htype
  | identifier name span =>
    obtain ⟨htype, hlabel, hbelow⟩ := outlineLines_append_eq h
    cases e' with
    | identifier name' span' =>
      have hname : name = name' := hlabel
      rw [withoutSpans, withoutSpans, hname]
      exact ⟨rfl, hbelow⟩
    | number | binary | unary => simp [typeName] at htype
  | binary op left right span ihl ihr =>
    obtain ⟨htype, hlabel, hbelow⟩ := outlineLines_append_eq h
    cases e' with
    | binary op' left' right' span' =>
      rw [linesBelow, linesBelow, List.append_assoc, List.append_assoc] at hbelow
      obtain ⟨hleft, hbelow⟩ := ihl he.1 he'.1 hbelow
      obtain ⟨hright, hrest⟩ := ihr he.2 he'.2 hbelow
      rw [withoutSpans, withoutSpans, BinaryOp.symbol_inj hlabel, hleft, hright]
      exact ⟨rfl, hrest⟩
    | number | identifier | unary => simp [typeName] at htype
  | unary sign operand span ih =>
    obtain ⟨htype, hlabel, hbelow⟩ := outlineLines_append_eq h
    cases e' with
    | unary sign' operand' span' =>
      have hoperand' : operand'.Spellable := he'
      obtain ⟨hoperand, hrest⟩ := ih he hoperand' hbelow
      rw [withoutSpans, withoutSpans, Sign.symbol_inj hlabel, hoperand]
      exact ⟨rfl, hrest⟩
    | number | identifier | binary => simp [typeName] at htype

theorem outline_inj (he : e.Spellable) (he' : e'.Spellable) (h : e.outline = e'.outline) :
    e.withoutSpans = e'.withoutSpans := by
  have hlines := lines_outline he
  rw [h, lines_outline he', List.append_cancel_right_eq] at hlines
  have hsame : (e'.places.map line).map String.toList = (e.places.map line).map String.toList := by
    rwa [List.map_map, List.map_map]
  rw [← outlineLines_root, ← outlineLines_root,
    List.map_inj_right fun _ _ => String.toList_inj.mp] at hsame
  have hends : e.outlineLines "" "" ++ [] = e'.outlineLines "" "" ++ [] := by rw [hsame]
  exact (outlineLines_append_inj he he' hends).1

end Reading

theorem outlineLines_withoutSpans (lead indent : String) (e : Expr) :
    e.withoutSpans.outlineLines lead indent = e.outlineLines lead indent := by
  induction e generalizing lead indent with
  | number | identifier => rfl
  | binary op left right span ihl ihr =>
    simp only [withoutSpans, outlineLines, ihl, ihr]
    rfl
  | unary sign operand span ih =>
    simp only [withoutSpans, outlineLines, ih]
    rfl

theorem outline_withoutSpans (e : Expr) : e.withoutSpans.outline = e.outline := by
  rw [outline, outlineLines_withoutSpans, outline]

/-- Trees of finite numbers and identifiers have the same text in operator-first form, and the
same outline, if and only if they are the same but for their spans. The outline has one line for
each node, in the order of the nodes, that shows the path to it, its form and its label. -/
theorem printed_unambiguously {e e' : Expr} (he : e.Spellable) (he' : e'.Spellable) :
    (e.render = e'.render ↔ e.withoutSpans = e'.withoutSpans) ∧
    (e.outline = e'.outline ↔ e.withoutSpans = e'.withoutSpans) ∧
    Text.lines e.outline.toList = e.places.map (fun place => (line place).toList) ++ [[]] ∧
    e.places.map Prod.snd = e.nodes := by
  refine ⟨⟨render_inj he he', fun h => ?_⟩, ⟨outline_inj he he', fun h => ?_⟩, lines_outline he,
    map_snd_places e⟩
  · rw [← render_withoutSpans e, h, render_withoutSpans]
  · rw [← outline_withoutSpans e, h, outline_withoutSpans]

/-- A minus with one operand and a minus with two. -/
theorem negation_printed_unlike_difference :
    (unary .minus (number 2 ⟨1, 2⟩) ⟨0, 2⟩).Spellable ∧
      (binary .subtract (number 2 ⟨0, 1⟩) (identifier "x" ⟨4, 5⟩) ⟨0, 5⟩).Spellable ∧
      (unary .minus (number 2 ⟨1, 2⟩) ⟨0, 2⟩).render ≠
        (binary .subtract (number 2 ⟨0, 1⟩) (identifier "x" ⟨4, 5⟩) ⟨0, 5⟩).render ∧
      (unary .minus (number 2 ⟨1, 2⟩) ⟨0, 2⟩).outline ≠
        (binary .subtract (number 2 ⟨0, 1⟩) (identifier "x" ⟨4, 5⟩) ⟨0, 5⟩).outline ∧
      Text.lines (unary .minus (number 2 ⟨1, 2⟩) ⟨0, 2⟩).outline.toList =
        ["UNARY_OP -".toList, "└─ operand: NUMBER 2".toList, []] := by
  have htwo : Binary.isFinite 2 := by decide
  have hnegation : (unary .minus (number 2 ⟨1, 2⟩) ⟨0, 2⟩).Spellable := htwo
  have hdifference :
      (binary .subtract (number 2 ⟨0, 1⟩) (identifier "x" ⟨4, 5⟩) ⟨0, 5⟩).Spellable :=
    ⟨htwo, CommandLine.Binding.isIdentifier_iff_isName.mpr rfl⟩
  obtain ⟨hrender, houtline, hlines, -⟩ := printed_unambiguously hnegation hdifference
  refine ⟨hnegation, hdifference, fun h => ?_, fun h => ?_, hlines.trans ?_⟩
  · cases hrender.mp h
  · cases houtline.mp h
  · decide +kernel

end Expr
end Abacus
