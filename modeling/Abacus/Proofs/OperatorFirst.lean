import Abacus.Expr.Render
import Abacus.Proofs.Balance
import Abacus.Proofs.SeededNames
import Abacus.Text.Boundary

/-!
Trees in operator-first form. The text of a number or name ends where a blank or parenthesis stands,
and an operation has its operands one after another between parentheses. So a text can be read in
one way only, although a minus may be a sign or an operator: whether a second operand follows shows
only after the first, which by then has been told apart from what comes after it.
-/
namespace Abacus

namespace Expr

def Spellable : Expr → Prop
  | .number value _ => Binary.isFinite value
  | .identifier name _ => Token.IsIdentifier name
  | .binary _ left right _ => left.Spellable ∧ right.Spellable
  | .unary _ operand _ => operand.Spellable

def IsLeaf : Expr → Prop
  | .number .. | .identifier .. => True
  | .binary .. | .unary .. => False

def isLeafChar (c : Char) : Bool := Token.isNameChar c || c == '.' || c == '-' || c == '+'

theorem isLeafChar_of_writes {c : Char} (h : NumberStyle.Writes c) : isLeafChar c := by
  rcases h with h | rfl | rfl | rfl | rfl
  · simp [isLeafChar, Token.isNameChar, Char.isAlphanum, h]
  all_goals rfl

/-- An identifier begins with a letter or underscore and goes on with these and digits. -/
theorem exists_of_isIdentifier {name : String} (h : Token.IsIdentifier name) :
    ∃ first rest, name.toList = first :: rest ∧ Token.isNameStart first ∧
      ∀ c ∈ name.toList, Token.isNameChar c := by
  have hname := CommandLine.Binding.isIdentifier_iff_isName.mp h
  cases hchars : name.toList with
  | nil =>
    rw [hchars] at hname
    cases hname
  | cons first rest =>
    rw [hchars] at hname
    obtain ⟨hfirst, hrest⟩ := (CommandLine.Binding.isName_cons first rest).mp hname
    exact ⟨first, rest, rfl, hfirst,
      List.forall_mem_cons.mpr ⟨Token.isNameChar_of_isNameStart hfirst, hrest⟩⟩

/-- No identifier is the text of a number, which begins with a digit or a sign. -/
theorem showNumber_ne_identifier {value : Float} {name : String} (hvalue : Binary.isFinite value)
    (hname : Token.IsIdentifier name) : showNumber value ≠ name := by
  rintro rfl
  obtain ⟨first, rest, hchars, hfirst, -⟩ := exists_of_isIdentifier hname
  obtain ⟨c, hc, hbegins⟩ := NumberStyle.head_write .plain hvalue
  rw [showNumber] at hchars
  rw [hchars, List.head?_cons, Option.mem_def, Option.some.injEq] at hc
  subst hc
  have hnumeral := Token.isNumeralChar_of_isNameStart hfirst
  rcases hbegins with hdigit | rfl
  · simp [Token.isNumeralChar, hdigit] at hnumeral
  · cases hfirst

section Reading

variable {e e' : Expr} {rest rest' : List Char}

theorem isLeafChar_render (hleaf : e.IsLeaf) (he : e.Spellable) :
    ∀ c ∈ e.render.toList, isLeafChar c := by
  intro c hc
  cases e with
  | number value span =>
    have hvalue : Binary.isFinite value := he
    exact isLeafChar_of_writes (NumberStyle.writes_write .plain hvalue c hc)
  | identifier name span =>
    obtain ⟨-, -, -, -, hchars⟩ := exists_of_isIdentifier he
    simp [isLeafChar, hchars c hc]
  | binary | unary => cases hleaf

theorem render_leaf_ne_nil (hleaf : e.IsLeaf) (he : e.Spellable) : e.render.toList ≠ [] := by
  cases e with
  | number value span =>
    have hvalue : Binary.isFinite value := he
    obtain ⟨c, hc, -⟩ := NumberStyle.head_write .plain hvalue
    exact List.ne_nil_of_mem (List.mem_of_mem_head? hc)
  | identifier name span =>
    obtain ⟨first, rest, hchars, -, -⟩ := exists_of_isIdentifier he
    rw [render, hchars]
    exact List.cons_ne_nil first rest
  | binary | unary => cases hleaf

theorem render_leaf_inj (hleaf : e.IsLeaf) (hleaf' : e'.IsLeaf) (he : e.Spellable)
    (he' : e'.Spellable) (h : e.render = e'.render) : e.withoutSpans = e'.withoutSpans := by
  cases e with
  | number value span =>
    have hvalue : Binary.isFinite value := he
    cases e' with
    | number value' span' =>
      have hsame := NumberStyle.write_inj .plain hvalue he' h
      rw [withoutSpans, withoutSpans, hsame]
    | identifier name span' => exact absurd h (showNumber_ne_identifier hvalue he')
    | binary | unary => cases hleaf'
  | identifier name span =>
    cases e' with
    | number value span' => exact absurd h.symm (showNumber_ne_identifier he' he)
    | identifier name' span' =>
      have hname : name = name' := h
      rw [withoutSpans, withoutSpans, hname]
    | binary | unary => cases hleaf'
  | binary | unary => cases hleaf

theorem toList_render_binary (op : BinaryOp) (left right : Expr) (span : Span)
    (rest : List Char) :
    (binary op left right span).render.toList ++ rest = '(' :: (op.symbol.toList ++
      ' ' :: (left.render.toList ++ ' ' :: (right.render.toList ++ ')' :: rest))) := by
  simp [render]

theorem toList_render_unary (sign : Sign) (operand : Expr) (span : Span) (rest : List Char) :
    (unary sign operand span).render.toList ++ rest =
      '(' :: (sign.symbol.toList ++ ' ' :: (operand.render.toList ++ ')' :: rest)) := by
  simp [render]

theorem exists_render_operation (hleaf : ¬ e.IsLeaf) (rest : List Char) :
    ∃ later, e.render.toList ++ rest = '(' :: later := by
  cases e with
  | number | identifier => exact absurd trivial hleaf
  | binary op left right span => exact ⟨_, toList_render_binary op left right span rest⟩
  | unary sign operand span => exact ⟨_, toList_render_unary sign operand span rest⟩

/-- A leaf in front of something that ends it. -/
theorem render_leaf_append_inj (hleaf : e.IsLeaf) (he : e.Spellable) (he' : e'.Spellable)
    (hrest : ∀ c ∈ rest.head?, isLeafChar c = false)
    (hrest' : ∀ c ∈ rest'.head?, isLeafChar c = false)
    (h : e.render.toList ++ rest = e'.render.toList ++ rest') :
    e.withoutSpans = e'.withoutSpans ∧ rest = rest' := by
  have hchars := isLeafChar_render hleaf he
  by_cases hleaf' : e'.IsLeaf
  · obtain ⟨htext, hafter⟩ :=
      Text.append_inj_of_ends hchars (isLeafChar_render hleaf' he') hrest hrest' h
    exact ⟨render_leaf_inj hleaf hleaf' he he' (String.toList_inj.mp htext), hafter⟩
  · obtain ⟨later, hlater⟩ := exists_render_operation hleaf' rest'
    obtain ⟨first, more, htext⟩ := List.exists_cons_of_ne_nil (render_leaf_ne_nil hleaf he)
    rw [hlater, htext, List.cons_append] at h
    have hfirst := hchars first (by rw [htext]; exact List.mem_cons_self)
    rw [(List.cons.inj h).1] at hfirst
    cases hfirst

/-- Texts of trees that are the same together with what comes after them, which begins with
something that ends a number or name, are those of trees that are the same but for their spans. -/
theorem render_append_inj (he : e.Spellable) (he' : e'.Spellable)
    (hrest : ∀ c ∈ rest.head?, isLeafChar c = false)
    (hrest' : ∀ c ∈ rest'.head?, isLeafChar c = false)
    (h : e.render.toList ++ rest = e'.render.toList ++ rest') :
    e.withoutSpans = e'.withoutSpans ∧ rest = rest' := by
  have hblank (later : List Char) : ∀ c ∈ (' ' :: later).head?, isLeafChar c = false := by
    rintro _ ⟨⟩
    rfl
  have hclosing (later : List Char) : ∀ c ∈ (')' :: later).head?, isLeafChar c = false := by
    rintro _ ⟨⟩
    rfl
  induction e generalizing e' rest rest' with
  | number | identifier => exact render_leaf_append_inj trivial he he' hrest hrest' h
  | binary op left right span ihl ihr =>
    cases e' with
    | number | identifier =>
      obtain ⟨hsame, hafter⟩ := render_leaf_append_inj (by trivial) he' he hrest' hrest h.symm
      exact ⟨hsame.symm, hafter.symm⟩
    | binary op' left' right' span' =>
      rw [toList_render_binary, toList_render_binary] at h
      obtain ⟨hop, h⟩ := List.append_inj (List.cons.inj h).2 (by simp only [BinaryOp.length_symbol])
      obtain ⟨hleft, h⟩ := ihl he.1 he'.1 (hblank _) (hblank _) (List.cons.inj h).2
      obtain ⟨hright, h⟩ := ihr he.2 he'.2 (hclosing _) (hclosing _) (List.cons.inj h).2
      rw [withoutSpans, withoutSpans, BinaryOp.symbol_inj (String.toList_inj.mp hop), hleft, hright]
      exact ⟨rfl, (List.cons.inj h).2⟩
    | unary sign operand span' =>
      -- after the first operand one text goes on and the other is closed
      have hoperand : operand.Spellable := he'
      rw [toList_render_binary, toList_render_unary] at h
      obtain ⟨-, h⟩ := List.append_inj (List.cons.inj h).2
        (by simp only [BinaryOp.length_symbol, Sign.length_symbol])
      obtain ⟨-, h⟩ := ihl he.1 hoperand (hblank _) (hclosing _) (List.cons.inj h).2
      cases (List.cons.inj h).1
  | unary sign operand span ih =>
    cases e' with
    | number | identifier =>
      obtain ⟨hsame, hafter⟩ := render_leaf_append_inj (by trivial) he' he hrest' hrest h.symm
      exact ⟨hsame.symm, hafter.symm⟩
    | binary op left right span' =>
      rw [toList_render_unary, toList_render_binary] at h
      obtain ⟨-, h⟩ := List.append_inj (List.cons.inj h).2
        (by simp only [BinaryOp.length_symbol, Sign.length_symbol])
      obtain ⟨-, h⟩ := ih he he'.1 (hclosing _) (hblank _) (List.cons.inj h).2
      cases (List.cons.inj h).1
    | unary sign' operand' span' =>
      have hoperand' : operand'.Spellable := he'
      rw [toList_render_unary, toList_render_unary] at h
      obtain ⟨hsign, h⟩ := List.append_inj (List.cons.inj h).2 (by simp only [Sign.length_symbol])
      obtain ⟨hsame, h⟩ := ih he hoperand' (hclosing _) (hclosing _) (List.cons.inj h).2
      rw [withoutSpans, withoutSpans, Sign.symbol_inj (String.toList_inj.mp hsign), hsame]
      exact ⟨rfl, (List.cons.inj h).2⟩

/-- Trees with the same text are the same but for their spans. -/
theorem render_inj (he : e.Spellable) (he' : e'.Spellable) (h : e.render = e'.render) :
    e.withoutSpans = e'.withoutSpans := by
  have hends : ∀ c ∈ ([] : List Char).head?, isLeafChar c = false := by simp
  exact (render_append_inj he he' hends hends (by rw [h])).1

end Reading

theorem render_withoutSpans (e : Expr) : e.withoutSpans.render = e.render := by
  induction e with
  | number | identifier => rfl
  | binary op left right span ihl ihr => rw [withoutSpans, render, ihl, ihr, render]
  | unary sign operand span ih => rw [withoutSpans, render, ih, render]

end Expr
end Abacus
