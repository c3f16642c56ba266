import Abacus.Proofs.Sources
import Mathlib.Data.List.Forall2

/-!
A tree beside the tokens it was read from. Walked in order, the tree shows the tokens one for one,
but for the parentheses and the end of the input. Each node takes up a part of them, from the token
where its span starts to the one where its span stops; so the spans of operands lie inside that of
their operation, on either side of its operator.
-/
namespace Abacus

inductive Mark where
  | number (value : Float) (span : Span)
  | identifier (name : String) (span : Span)
  | operator (op : BinaryOp)
  | sign (sign : Sign)

namespace Expr

def walk : Expr → List Mark
  | .number value span => [.number value span]
  | .identifier name span => [.identifier name span]
  | .binary op left right _ => left.walk ++ .operator op :: right.walk
  | .unary sign operand _ => .sign sign :: operand.walk

def children : Expr → List Expr
  | .number .. | .identifier .. => []
  | .binary _ left right _ => [left, right]
  | .unary _ operand _ => [operand]

/-- The nodes of a tree, each with the part of the tokens that its walk takes up. -/
def parts : Expr → List Token → List (Expr × List Token)
  | e@(.number ..), tokens | e@(.identifier ..), tokens => [(e, tokens)]
  | e@(.binary _ left right _), tokens =>
    (e, tokens) :: (left.parts (tokens.take left.walk.length) ++
      right.parts (tokens.drop (left.walk.length + 1)))
  | e@(.unary _ operand _), tokens => (e, tokens) :: operand.parts tokens.tail

theorem mem_parts_self (e : Expr) (tokens : List Token) : (e, tokens) ∈ e.parts tokens := by
  cases e <;> simp [parts]

theorem map_fst_parts (e : Expr) (tokens : List Token) :
    (e.parts tokens).map Prod.fst = e.nodes := by
  induction e generalizing tokens with
  | number => rfl
  | identifier => rfl
  | binary op left right span ihl ihr =>
    rw [parts, nodes, List.map_cons, List.map_append, ihl, ihr]
  | unary sign operand span ih => rw [parts, nodes, List.map_cons, ih]

end Expr

/-- A place of a walk shows a token: a leaf its value or name and its span, an operator or sign the
kind that stands for it. -/
inductive Mark.Shows : Mark → Token → Prop
  | number {token : Token} {value : Float} (hkind : token.kind = .number)
      (hvalue : token.number? = some value) : Shows (.number value token.span) token
  | identifier {token : Token} (hkind : token.kind = .identifier) :
      Shows (.identifier token.text token.span) token
  | operator {rank : Grammar.Rank} {op : BinaryOp} {token : Token}
      (h : Grammar.Joins rank token.kind op) : Shows (.operator op) token
  | sign {sign : Sign} {token : Token} (h : Grammar.Signs token.kind sign) :
      Shows (.sign sign) token

namespace Token

def isShown (token : Token) : Bool :=
  token.kind != .leftParen && token.kind != .rightParen && token.kind != .eof

/-- The spans of some tokens are in order, not empty, and none goes beyond the end. -/
structure InOrder (stop : Nat) (tokens : List Token) : Prop where
  inside : ∀ token ∈ tokens, token.span.start < token.span.stop ∧ token.span.stop ≤ stop
  ordered : tokens.Pairwise fun earlier later => earlier.span.stop ≤ later.span.start

variable {stop : Nat} {tokens tokens' : List Token} {token : Token}

theorem InOrder.sublist (h : InOrder stop tokens) (hsub : tokens'.Sublist tokens) :
    InOrder stop tokens' :=
  ⟨fun token htoken => h.inside token (hsub.subset htoken), h.ordered.sublist hsub⟩

theorem Covers.inOrder {source : List Char} {offset : Nat} (h : Covers source offset tokens) :
    InOrder source.length tokens :=
  ⟨fun token htoken => (h.inside token htoken).2, h.ordered⟩

end Token

/-- A node beside its part of the tokens. The walk of the node shows them one for one. Its span
reaches from the first to the last of them, and over the spans of its operands, which lie on either
side of the operator if there are two. -/
structure Expr.Placed (stop : Nat) (node : Expr) (own : List Token) : Prop where
  shown : List.Forall₂ Mark.Shows node.walk own
  nonempty : node.span.start < node.span.stop
  inside : node.span.stop ≤ stop
  first : own.head?.map (·.span.start) = some node.span.start
  last : own.getLast?.map (·.span.stop) = some node.span.stop
  nested : ∀ child ∈ node.children,
    node.span.start ≤ child.span.start ∧ child.span.stop ≤ node.span.stop
  parted : ∀ op left right span, node = .binary op left right span →
    ∃ token, own[left.walk.length]? = some token ∧ (Mark.operator op).Shows token ∧
      left.span.stop ≤ token.span.start ∧ token.span.stop ≤ right.span.start

namespace Expr

open Token Grammar

variable {stop : Nat} {left right operand : Expr} {token : Token}
  {own own' : List Token}

theorem Placed.exists_first (h : Placed stop left own) :
    ∃ token ∈ own, token.span.start = left.span.start := by
  obtain ⟨token, htoken, hstart⟩ := Option.map_eq_some_iff.mp h.first
  exact ⟨token, List.mem_of_mem_head? htoken, hstart⟩

theorem Placed.exists_last (h : Placed stop left own) :
    ∃ token ∈ own, token.span.stop = left.span.stop := by
  obtain ⟨token, htoken, hstop⟩ := Option.map_eq_some_iff.mp h.last
  exact ⟨token, List.mem_of_getLast? htoken, hstop⟩

/-- An operation between two nodes that are in place is in place. -/
theorem Placed.binary {rank : Rank} {op : BinaryOp} (hleft : Placed stop left own)
    (hright : Placed stop right own') (hop : Joins rank token.kind op)
    (h : InOrder stop (own ++ token :: own')) :
    Placed stop (left.join op right) (own ++ token :: own') := by
  obtain ⟨-, hlater, hcross⟩ := List.pairwise_append.mp h.ordered
  obtain ⟨first, hfirst, hstart⟩ := hright.exists_first
  obtain ⟨last, hlast, hstop⟩ := hleft.exists_last
  have hbefore : left.span.stop ≤ token.span.start := by
    rw [← hstop]
    exact hcross last hlast token List.mem_cons_self
  have hafter : token.span.stop ≤ right.span.start := by
    rw [← hstart]
    exact (List.pairwise_cons.mp hlater).1 first hfirst
  have htoken := (h.inside token (by simp)).1
  have hl := hleft.nonempty
  have hr := hright.nonempty
  refine ⟨?_, ?_, hright.inside, ?_, ?_, ?_, ?_⟩
  · exact List.rel_append hleft.shown (.cons (.operator hop) hright.shown)
  · change left.span.start < right.span.stop
    omega
  · obtain ⟨head, hhead, hstart⟩ := Option.map_eq_some_iff.mp hleft.first
    rw [List.head?_append, hhead]
    exact congrArg some hstart
  · obtain ⟨final, hfinal, hstop⟩ := Option.map_eq_some_iff.mp hright.last
    rw [List.getLast?_append, List.getLast?_cons, hfinal]
    exact congrArg some hstop
  · change ∀ child ∈ [left, right],
      left.span.start ≤ child.span.start ∧ child.span.stop ≤ right.span.stop
    simp only [List.forall_mem_cons]
    exact ⟨⟨Nat.le_refl _, by omega⟩, ⟨by omega, Nat.le_refl _⟩, nofun⟩
  · rintro _ _ _ _ ⟨⟩
    refine ⟨token, ?_, .operator hop, hbefore, hafter⟩
    rw [hleft.shown.length_eq, List.getElem?_append_right (Nat.le_refl _), Nat.sub_self]
    rfl

/-- A sign in front of a node that is in place is in place with it. -/
theorem Placed.signed {sign : Sign} (hoperand : Placed stop operand own)
    (hsign : Signs token.kind sign) (h : InOrder stop (token :: own)) :
    Placed stop (signed sign token operand) (token :: own) := by
  obtain ⟨first, hfirst, hstart⟩ := hoperand.exists_first
  have hafter : token.span.stop ≤ operand.span.start := by
    rw [← hstart]
    exact (List.pairwise_cons.mp h.ordered).1 first hfirst
  have htoken := (h.inside token List.mem_cons_self).1
  have hnonempty := hoperand.nonempty
  refine ⟨.cons (.sign hsign) hoperand.shown, ?_, hoperand.inside, rfl, ?_, ?_, nofun⟩
  · change token.span.start < operand.span.stop
    omega
  · obtain ⟨final, hfinal, hstop⟩ := Option.map_eq_some_iff.mp hoperand.last
    rw [List.getLast?_cons, hfinal]
    exact congrArg some hstop
  · change ∀ child ∈ [operand],
      token.span.start ≤ child.span.start ∧ child.span.stop ≤ operand.span.stop
    simp only [List.forall_mem_cons]
    exact ⟨⟨by omega, Nat.le_refl _⟩, nofun⟩

/-- A leaf is in place at its token. -/
theorem Placed.leaf {leaf : Expr} {mark : Mark} (h : InOrder stop [token])
    (hwalk : leaf.walk = [mark]) (hmark : mark.Shows token) (hspan : leaf.span = token.span)
    (hchildren : leaf.children = []) : Placed stop leaf [token] := by
  obtain ⟨hnonempty, hinside⟩ := h.inside token List.mem_cons_self
  refine ⟨?_, hspan ▸ hnonempty, hspan ▸ hinside, by rw [hspan]; rfl, by rw [hspan]; rfl, ?_, ?_⟩
  · rw [hwalk]
    exact .cons hmark .nil
  · simp [hchildren]
  · rintro op left right span rfl
    cases hchildren

end Expr

open Token Grammar

theorem Grammar.Joins.isShown {rank : Rank} {op : BinaryOp} {token : Token}
    (h : Joins rank token.kind op) : token.isShown := by
  unfold Token.isShown
  generalize token.kind = kind at h
  cases h <;> rfl

theorem Grammar.Signs.isShown {sign : Sign} {token : Token} (h : Signs token.kind sign) :
    token.isShown := by
  unfold Token.isShown
  generalize token.kind = kind at h
  cases h <;> rfl

/-- Every node of a phrase is in place among the tokens of the phrase that trees show. -/
theorem Grammar.Phrase.placed {symbol : Symbol} {depth stop : Nat} {tokens : List Token} {e : Expr}
    (h : Phrase symbol depth tokens e) (hinOrder : InOrder stop tokens) :
    ∀ part ∈ e.parts (tokens.filter Token.isShown), part.1.Placed stop part.2 := by
  induction h with
  | @number token value hkind hvalue =>
    have hshown : [token].filter Token.isShown = [token] := by simp [Token.isShown, hkind]
    rw [hshown, Expr.parts]
    simp only [List.forall_mem_singleton]
    exact .leaf hinOrder rfl (.number hkind hvalue) rfl rfl
  | @identifier token hkind =>
    have hshown : [token].filter Token.isShown = [token] := by simp [Token.isShown, hkind]
    rw [hshown, Expr.parts]
    simp only [List.forall_mem_singleton]
    exact .leaf hinOrder rfl (.identifier hkind) rfl rfl
  | @group opening closing depth tokens e hopening h hclosing ih =>
    have hshown : (opening :: (tokens ++ [closing])).filter Token.isShown =
        tokens.filter Token.isShown := by
      simp [Token.isShown, hopening, hclosing]
    rw [hshown]
    exact ih (hinOrder.sublist (by simp))
  | operand h ih => exact ih hinOrder
  | @operation rank op depth depth' token tokens tokens' left right hleft hop hright ihl ihr =>
    have hshown : (tokens ++ token :: tokens').filter Token.isShown =
        tokens.filter Token.isShown ++ token :: tokens'.filter Token.isShown := by
      rw [List.filter_append, List.filter_cons_of_pos hop.isShown]
    have hl := ihl (hinOrder.sublist (by simp))
    have hr := ihr (hinOrder.sublist (by simp))
    have hleftPlaced := hl _ (left.mem_parts_self _)
    have hrightPlaced := hr _ (right.mem_parts_self _)
    have hwhole : Expr.Placed stop (left.join op right)
        (tokens.filter Token.isShown ++ token :: tokens'.filter Token.isShown) :=
      hleftPlaced.binary hrightPlaced hop (hshown ▸ hinOrder.sublist List.filter_sublist)
    rw [hshown, Expr.parts, hleftPlaced.shown.length_eq, List.take_left,
      List.drop_length_add_append, List.forall_mem_cons, List.forall_mem_append]
    exact ⟨hwhole, hl, hr⟩
  | @signed sign token depth tokens operand hsign h ih =>
    have hshown : (token :: tokens).filter Token.isShown =
        token :: tokens.filter Token.isShown := List.filter_cons_of_pos hsign.isShown
    have hoperand := ih (hinOrder.sublist (by simp))
    have hwhole : Expr.Placed stop (Expr.signed sign token operand)
        (token :: tokens.filter Token.isShown) :=
      (hoperand _ (operand.mem_parts_self _)).signed hsign
        (hshown ▸ hinOrder.sublist List.filter_sublist)
    rw [hshown, Expr.parts, List.tail_cons, List.forall_mem_cons]
    exact ⟨hwhole, hoperand⟩
  | unsigned h ih => exact ih hinOrder

namespace Expr

/-- The tree of a source, walked in order, shows the tokens of the source one for one, but for the
parentheses and the end of the input, and every node of it is in place among them. -/
theorem placed_of_parse {source : String} {tokens : List Token} {tree : Expr}
    (hscan : scan source.toList = .ok tokens) (hparse : parse tokens = .ok tree) :
    let shown := tokens.filter Token.isShown
    List.Forall₂ Mark.Shows tree.walk shown ∧
    (tree.parts shown).map Prod.fst = tree.nodes ∧
    ∀ node own, (node, own) ∈ tree.parts shown → node.Placed source.toList.length own := by
  intro shown
  obtain ⟨lexemes, rfl, hcut, depth, -, hphrase⟩ := exists_cut_of_parse hscan hparse
  have hshown : shown = lexemes.filter Token.isShown := by
    simp [shown, List.filter_append, Token.isShown, endOfInput]
  have hinOrder := (covers_of_cut hcut List.drop_zero).inOrder
  have hplaced := hphrase.placed hinOrder
  rw [← hshown] at hplaced
  exact ⟨(hplaced _ (tree.mem_parts_self shown)).shown, tree.map_fst_parts shown,
    fun node own hmem => hplaced (node, own) hmem⟩

theorem placed_of_signed_sum :
    let source := "-(a+2)*b"
    let minus : Token := ⟨.minus, .text "-", ⟨0, 1⟩⟩
    let a : Token := ⟨.identifier, .text "a", ⟨2, 3⟩⟩
    let plus : Token := ⟨.plus, .text "+", ⟨3, 4⟩⟩
    let two : Token := ⟨.number, .number 2, ⟨4, 5⟩⟩
    let times : Token := ⟨.multiply, .text "*", ⟨6, 7⟩⟩
    let b : Token := ⟨.identifier, .text "b", ⟨7, 8⟩⟩
    let opening : Token := ⟨.leftParen, .text "(", ⟨1, 2⟩⟩
    let closing : Token := ⟨.rightParen, .text ")", ⟨5, 6⟩⟩
    let tokens := [minus, opening, a, plus, two, closing, times, b, endOfInput 8]
    let sum : Expr := .binary .add (.identifier "a" ⟨2, 3⟩) (.number 2 ⟨4, 5⟩) ⟨2, 5⟩
    let tree : Expr :=
      .binary .multiply (.unary .minus sum ⟨0, 5⟩) (.identifier "b" ⟨7, 8⟩) ⟨0, 8⟩
    scan source.toList = .ok tokens ∧ parse tokens = .ok tree ∧
      List.Forall₂ Mark.Shows tree.walk [minus, a, plus, two, times, b] ∧
      sum.Placed source.toList.length [a, plus, two] := by
  intro source minus a plus two times b opening closing tokens sum tree
  have hminus : TokenKind.minus.symbol? = some '-' := rfl
  have hopen : TokenKind.leftParen.symbol? = some '(' := rfl
  have hplus : TokenKind.plus.symbol? = some '+' := rfl
  have hclose : TokenKind.rightParen.symbol? = some ')' := rfl
  have htimes : TokenKind.multiply.symbol? = some '*' := rfl
  have ha : Spells .identifier (.text "a") ['a'] := spells_letter rfl
  have hb : Spells .identifier (.text "b") ['b'] := spells_letter rfl
  have htwo : Spells .number (.number 2) ['2'] :=
    .number (by simpa using extends_number_iff.mpr rfl) (by decide +kernel)
  have hsum := (ha.cut 2).append ((htwo.cut 4).symbol hplus)
    (by simpa using separates_of_symbol hplus)
  have hcut := ((hsum.append (((hb.cut 7).symbol htimes).symbol hclose)
    (by simpa using separates_of_symbol hclose)).symbol hopen).symbol hminus
  have haPhrase : Phrase .atom 0 [a] (.identifier "a" ⟨2, 3⟩) := .identifier rfl
  have hbPhrase : Phrase .atom 0 [b] (.identifier "b" ⟨7, 8⟩) := .identifier rfl
  have htwoPhrase : Phrase .atom 0 [two] (.number 2 ⟨4, 5⟩) := .number rfl rfl
  have hadds : Joins .sum plus.kind .add := .add
  have hnegates : Signs minus.kind .minus := .minus
  have hmultiplies : Joins .product times.kind .multiply := .multiply
  have hsumPhrase : Phrase .expression 0 [a, plus, two] sum :=
    .operation (haPhrase.of_atom .expression) hadds (htwoPhrase.of_atom .term)
  have hgroup : Phrase .atom 1 (opening :: ([a, plus, two] ++ [closing])) sum :=
    .group rfl hsumPhrase rfl
  have hfactor : Phrase .factor 2 (minus :: opening :: ([a, plus, two] ++ [closing]))
      (.unary .minus sum ⟨0, 5⟩) := .signed hnegates (hgroup.of_atom .factor)
  have hterm : Phrase (.chain .product) 2 (minus :: opening :: ([a, plus, two] ++ [closing]))
      (.unary .minus sum ⟨0, 5⟩) := .operand hfactor
  have hproduct : Phrase (.chain .product) 2 _ tree :=
    .operation hterm hmultiplies (hbPhrase.of_atom .factor)
  obtain ⟨hchars, hparse⟩ := parse_of_cut hcut ⟨2, by decide, hproduct.expression_of_chain⟩
  have hscan : scan source.toList = .ok tokens := by
    rw [show source.toList = ['-', '(', 'a', '+', '2', ')', '*', 'b'] by simp [source]]
    exact hchars
  obtain ⟨hshown, -, hplaced⟩ := placed_of_parse hscan hparse
  -- the sum comes after the product and the sign in front of the sum
  exact ⟨hscan, hparse, hshown, hplaced _ _ (.tail _ (.tail _ (.head _)))⟩

end Expr
end Abacus
