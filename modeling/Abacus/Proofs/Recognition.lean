import Abacus.Proofs.Grammar

/-!
The rules read exactly the phrases of the grammar. A rule with room for so many signs and open
parentheses takes a phrase nested no deeper from the front of its tokens, provided that the next
token does not make the phrase longer; and whatever it takes is such a phrase. Hence a token list
is read as a whole if and only if it is a sentence, and as the one tree that it spells.
-/
namespace Abacus

namespace Grammar

def Rank.op? : Rank → TokenKind → Option BinaryOp
  | .sum => BinaryOp.ofSum?
  | .product => BinaryOp.ofProduct?
  | .power => BinaryOp.ofPower?

theorem op?_eq_some {rank : Rank} {kind : TokenKind} {op : BinaryOp} :
    rank.op? kind = some op ↔ Joins rank kind op := by
  constructor
  · intro h
    cases rank <;> cases kind <;> cases h <;> constructor
  · intro h
    cases h <;> rfl

theorem ofKind?_eq_some {kind : TokenKind} {sign : Sign} :
    Sign.ofKind? kind = some sign ↔ Signs kind sign := by
  constructor
  · intro h
    cases kind <;> cases h <;> constructor
  · intro h
    cases h <;> rfl

theorem op?_eq_none {rank : Rank} {kind : TokenKind} (h : ¬ Extends (.chain rank) kind) :
    rank.op? kind = none := by
  rw [Option.eq_none_iff_forall_ne_some]
  intro op hop
  exact h (.chain (op?_eq_some.mp hop))

theorem ofKind?_eq_none {kind : TokenKind} (h : ∀ sign, ¬ Signs kind sign) :
    Sign.ofKind? kind = none := by
  rw [Option.eq_none_iff_forall_ne_some]
  intro sign hsign
  exact h sign (ofKind?_eq_some.mp hsign)

end Grammar

namespace Expr

open Grammar

section Chains

variable {rank : Rank} {operand : Rule} {left : Expr} {token : Token} {rest : List Token}

theorem readChain_of_endsBefore (h : EndsBefore (.chain rank) rest) :
    readChain rank.op? operand left rest = .ok (left, rest) := by
  cases rest with
  | nil => rw [readChain]
  | cons token rest =>
    rw [endsBefore_cons] at h
    simp only [readChain, op?_eq_none h]

theorem readChain_of_joins {op : BinaryOp} (h : Joins rank token.kind op) :
    readChain rank.op? operand left (token :: rest) =
      (operand.read rest).bind fun right =>
        readChain rank.op? operand (left.join op right.1) right.2 := by
  have hop : rank.op? token.kind = some op := op?_eq_some.mpr h
  rw [readChain]
  split
  · next hnone =>
    rw [hop] at hnone
    cases hnone
  · next found hfound =>
    rw [hop] at hfound
    cases hfound
    split
    · next fault hread => simp only [hread, Except.bind]
    · next right later hread => simp only [hread, Except.bind]

end Chains

/- The token that ends the input. -/
variable (stop : Token)

def inside : Nat → Option Level
  | 0 => none
  | room + 1 => some (Level.ofDepth stop room)

def rule (room : Nat) : Symbol → Rule
  | .expression => expression stop (inside stop room)
  | .term => term stop (inside stop room)
  | .factor => factor stop (inside stop room)
  | .power => power stop (inside stop room)
  | .atom => atom stop (inside stop room)

variable {stop} {room : Nat} {token : Token} {tokens rest : List Token}

theorem expression_ofDepth : (Level.ofDepth stop room).expression = rule stop room .expression := by
  cases room <;> rfl

theorem factor_ofDepth : (Level.ofDepth stop room).factor = rule stop room .factor := by
  cases room <;> rfl

theorem read_chain (rank : Rank) : (rule stop room (.chain rank)).read tokens =
    ((rule stop room rank.operand).read tokens).bind fun first =>
      readChain rank.op? (rule stop room rank.operand) first.1 first.2 := by
  cases rank <;> rfl

theorem read_number {value : Float} (hkind : token.kind = .number)
    (hvalue : token.number? = some value) :
    (rule stop room .atom).read (token :: rest) = .ok (.number value token.span, rest) := by
  simp only [rule, atom, readAtom, hkind, hvalue]

theorem read_identifier (hkind : token.kind = .identifier) :
    (rule stop room .atom).read (token :: rest) =
      .ok (.identifier token.text token.span, rest) := by
  simp only [rule, atom, readAtom, hkind]

/-- No atom begins with a token of another kind, nor with a number that has no value. -/
theorem atom_cases (token : Token) :
    (token.kind = .number ∧ ∃ value, token.number? = some value) ∨ token.kind = .identifier ∨
      token.kind = .leftParen ∨
      ∀ (stop : Token) (room : Nat) (rest : List Token),
        (rule stop room .atom).read (token :: rest) = .error (unexpected token) := by
  cases hkind : token.kind with
  | number =>
    cases hvalue : token.number? with
    | some value => simp
    | none => simp [rule, atom, readAtom, hkind, hvalue]
  | identifier => simp
  | leftParen => simp
  | _ => simp [rule, atom, readAtom, hkind]

theorem read_group (hkind : token.kind = .leftParen) :
    (rule stop (room + 1) .atom).read (token :: rest) =
      ((rule stop room .expression).read rest).bind (close stop) := by
  simp only [rule, atom, readAtom, hkind, inside, expression_ofDepth]

theorem read_group_tooDeep (hkind : token.kind = .leftParen) :
    (rule stop 0 .atom).read (token :: rest) = .error (tooDeep stop rest) := by
  simp only [rule, atom, readAtom, hkind, inside]

theorem close_eq_ok {inner e : Expr} :
    close stop (inner, tokens) = .ok (e, rest) ↔
      inner = e ∧ ∃ closing, closing.kind = .rightParen ∧ tokens = closing :: rest := by
  cases tokens with
  | nil => simp [close]
  | cons closing later =>
    by_cases hkind : closing.kind = .rightParen
    · simp only [close, hkind, if_true, Except.ok.injEq, Prod.mk.injEq, List.cons.injEq]
      grind
    · simp only [close, hkind, if_false, reduceCtorEq, List.cons.injEq]
      grind

theorem read_signed {sign : Sign} (hsign : Signs token.kind sign) :
    (rule stop (room + 1) .factor).read (token :: rest) =
      ((rule stop room .factor).read rest).bind fun operand =>
        .ok (signed sign token operand.1, operand.2) := by
  simp only [rule, factor, readFactor, ofKind?_eq_some.mpr hsign, inside, factor_ofDepth]
  cases (rule stop room .factor).read rest <;> rfl

theorem read_signed_tooDeep {sign : Sign} (hsign : Signs token.kind sign) :
    (rule stop 0 .factor).read (token :: rest) = .error (tooDeep stop rest) := by
  simp only [rule, factor, readFactor, ofKind?_eq_some.mpr hsign, inside]

theorem read_unsigned (h : ∀ first ∈ tokens.head?, ∀ sign, ¬ Signs first.kind sign) :
    (rule stop room .factor).read tokens = (rule stop room .power).read tokens := by
  cases tokens with
  | nil => rfl
  | cons token rest =>
    simp only [rule, factor, readFactor, ofKind?_eq_none (h token rfl)]

theorem factor_cases (tokens : List Token) :
    (∃ token rest sign, tokens = token :: rest ∧ Signs token.kind sign) ∨
      ∀ first ∈ tokens.head?, ∀ sign, ¬ Signs first.kind sign := by
  cases tokens with
  | nil => simp
  | cons token rest =>
    by_cases hsign : ∃ sign, Signs token.kind sign
    · obtain ⟨sign, hsign⟩ := hsign
      exact Or.inl ⟨token, rest, sign, rfl, hsign⟩
    · exact Or.inr (by simpa using hsign)

/-- An induction along the grammar. A symbol may rest on those it begins with, and at less room
on the symbols inside a sign or parenthesis. -/
theorem symbol_induction {motive : Nat → Symbol → Prop}
    (atom : ∀ room, (∀ inner, room = inner + 1 → motive inner .expression) → motive room .atom)
    (factor : ∀ room, (∀ inner, room = inner + 1 → motive inner .factor) → motive room .power →
      motive room .factor)
    (chain : ∀ room rank, motive room rank.operand → motive room (.chain rank)) (room : Nat)
    (symbol : Symbol) : motive room symbol := by
  induction room using Nat.strongRecOn generalizing symbol with
  | ind room ih =>
    have hatom := atom room (fun inner hroom => ih inner (by omega) .expression)
    have hpower : motive room .power := chain room .power hatom
    have hfactor := factor room (fun inner hroom => ih inner (by omega) .factor) hpower
    have hterm : motive room .term := chain room .product hfactor
    have hexpression : motive room .expression := chain room .sum hterm
    rcases symbol with (_ | _ | _) | _ | _ <;> assumption

/-- A reading that gives `e` and leaves `rest` has taken a phrase off the front of the tokens. -/
def Takes (symbol : Symbol) (room : Nat) (tokens : List Token) (e : Expr) (rest : List Token) :
    Prop :=
  ∃ front depth, tokens = front ++ rest ∧ Phrase symbol depth front e ∧ depth ≤ room ∧
    EndsBefore symbol rest

theorem endsBefore_chain {rank : Rank} (hoperand : EndsBefore rank.operand (token :: rest))
    (hop : rank.op? token.kind = none) : EndsBefore (.chain rank) (token :: rest) := by
  rw [endsBefore_cons] at hoperand ⊢
  intro h
  cases h with
  | chain h =>
    rw [op?_eq_some.mpr h] at hop
    cases hop
  | operand h => exact hoperand h

/-- The loop of a chain: what it has joined so far is a phrase at every turn. -/
theorem takes_of_readChain {rank : Rank} {left e : Expr} {front : List Token} {depth : Nat}
    (hoperand : ∀ {tokens e rest}, (rule stop room rank.operand).read tokens = .ok (e, rest) →
      Takes rank.operand room tokens e rest)
    (hleft : Phrase (.chain rank) depth front left) (hdepth : depth ≤ room)
    (hends : EndsBefore rank.operand tokens)
    (h : readChain rank.op? (rule stop room rank.operand) left tokens = .ok (e, rest)) :
    Takes (.chain rank) room (front ++ tokens) e rest := by
  fun_induction readChain rank.op? (rule stop room rank.operand) left tokens
    generalizing front depth with
  | case1 left =>
    cases h
    exact ⟨front, depth, rfl, hleft, hdepth, endsBefore_nil _⟩
  | case2 left token later hop =>
    cases h
    exact ⟨front, depth, rfl, hleft, hdepth, endsBefore_chain hends hop⟩
  | case3 => cases h
  | case4 left token later op hop right after hread _ ih =>
    obtain ⟨middle, depth', rfl, hright, hdepth', hends'⟩ := hoperand hread
    have hjoined := Phrase.operation hleft (op?_eq_some.mp hop) hright
    have htakes := ih hjoined (by omega) hends' h
    simpa using htakes

/-- A rule takes nothing but phrases of its symbol. -/
theorem takes_of_read {symbol : Symbol} {e : Expr}
    (h : (rule stop room symbol).read tokens = .ok (e, rest)) :
    Takes symbol room tokens e rest := by
  induction room, symbol using symbol_induction generalizing tokens e rest with
  | atom room ih =>
    cases tokens with
    | nil => cases h
    | cons token later =>
      rcases atom_cases token with ⟨hkind, value, hvalue⟩ | hkind | hkind | hrefused
      · rw [read_number hkind hvalue] at h
        cases h
        exact ⟨[token], 0, rfl, .number hkind hvalue, by omega, endsBefore_atom _⟩
      · rw [read_identifier hkind] at h
        cases h
        exact ⟨[token], 0, rfl, .identifier hkind, by omega, endsBefore_atom _⟩
      · cases room with
        | zero =>
          rw [read_group_tooDeep hkind] at h
          cases h
        | succ room =>
          rw [read_group hkind] at h
          obtain ⟨⟨inner, after⟩, hinner, hclose⟩ := bind_eq_ok.mp h
          obtain ⟨rfl, closing, hclosing, rfl⟩ := close_eq_ok.mp hclose
          obtain ⟨front, depth, rfl, hphrase, hdepth, -⟩ := ih room rfl hinner
          exact ⟨token :: (front ++ [closing]), depth + 1, by simp,
            .group hkind hphrase hclosing, by omega, endsBefore_atom _⟩
      · rw [hrefused] at h
        cases h
  | factor room ih ihpower =>
    rcases factor_cases tokens with ⟨token, later, sign, rfl, hsign⟩ | hunsigned
    · cases room with
      | zero =>
        rw [read_signed_tooDeep hsign] at h
        cases h
      | succ room =>
        rw [read_signed hsign] at h
        obtain ⟨⟨operand, after⟩, hoperand, hresult⟩ := bind_eq_ok.mp h
        cases hresult
        obtain ⟨front, depth, rfl, hphrase, hdepth, hends⟩ := ih room rfl hoperand
        exact ⟨token :: front, depth + 1, rfl, .signed hsign hphrase, by omega, hends⟩
    · rw [read_unsigned hunsigned] at h
      obtain ⟨front, depth, htokens, hphrase, hdepth, hends⟩ := ihpower h
      exact ⟨front, depth, htokens, .unsigned hphrase, hdepth, endsBefore_factor.mpr hends⟩
  | chain room rank ih =>
    rw [read_chain] at h
    obtain ⟨⟨left, later⟩, hleft, hchain⟩ := bind_eq_ok.mp h
    obtain ⟨front, depth, rfl, hphrase, hdepth, hends⟩ := ih hleft
    exact takes_of_readChain ih (.operand hphrase) hdepth hends hchain

/-- How a reading goes on after a phrase: a chain looks for the next operator. -/
def resume (stop : Token) (room : Nat) : Symbol → Expr → List Token → Reading
  | .chain rank, e, rest => readChain rank.op? (rule stop room rank.operand) e rest
  | .factor, e, rest | .atom, e, rest => .ok (e, rest)

theorem resume_of_endsBefore {symbol : Symbol} {e : Expr} (h : EndsBefore symbol rest) :
    resume stop room symbol e rest = .ok (e, rest) := by
  cases symbol with
  | chain rank => exact readChain_of_endsBefore h
  | factor => rfl
  | atom => rfl

/-- A rule takes every phrase of its symbol for which it has room. A chain may have gone on. -/
theorem read_phrase {symbol : Symbol} {depth : Nat} {front : List Token} {e : Expr}
    (h : Phrase symbol depth front e) (hdepth : depth ≤ room)
    (hends : EndsBefore symbol.final rest) :
    (rule stop room symbol).read (front ++ rest) = resume stop room symbol e rest := by
  induction h generalizing room rest with
  | number hkind hvalue => exact read_number hkind hvalue
  | identifier hkind => exact read_identifier hkind
  | @group opening closing depth tokens e hopening h hclosing ih =>
    obtain ⟨room, rfl⟩ : ∃ inner, room = inner + 1 := ⟨room - 1, by omega⟩
    have hroom : depth ≤ room := by omega
    have hclosed : EndsBefore .expression (closing :: rest) := by
      rw [endsBefore_cons, hclosing]
      intro hextends
      simpa using extends_expression hextends
    have hinner : (rule stop room .expression).read (tokens ++ closing :: rest) =
        .ok (e, closing :: rest) := by
      rw [ih hroom hclosed.final, resume_of_endsBefore hclosed]
    have hclose : close stop (e, closing :: rest) = .ok (e, rest) :=
      close_eq_ok.mpr ⟨rfl, closing, hclosing, rfl⟩
    rw [List.cons_append, List.append_assoc, List.singleton_append, read_group hopening, hinner]
    exact hclose
  | @operand rank depth tokens e h ih =>
    have hoperand : EndsBefore rank.operand rest := hends
    rw [read_chain, ih hdepth hoperand.final, resume_of_endsBefore hoperand]
    rfl
  | @operation rank op depth depth' token tokens tokens' left right hleft hop hright ihl ihr =>
    have hoperand : EndsBefore rank.operand rest := hends
    have hleftRoom : depth ≤ room := by omega
    have hrightRoom : depth' ≤ room := by omega
    have hoperator : EndsBefore rank.operand (token :: (tokens' ++ rest)) :=
      endsBefore_cons.mpr hop.not_extends_operand
    rw [List.append_assoc, List.cons_append, ihl hleftRoom hoperator]
    change readChain rank.op? (rule stop room rank.operand) left (token :: (tokens' ++ rest)) = _
    rw [readChain_of_joins hop, ihr hrightRoom hoperand.final, resume_of_endsBefore hoperand]
    rfl
  | @signed sign token depth tokens operand hsign h ih =>
    obtain ⟨room, rfl⟩ : ∃ inner, room = inner + 1 := ⟨room - 1, by omega⟩
    have hroom : depth ≤ room := by omega
    rw [List.cons_append, read_signed hsign, ih hroom hends]
    rfl
  | @unsigned depth tokens e h ih =>
    obtain ⟨first, later, rfl, hfirst⟩ := h.exists_head
    have hpower : EndsBefore .power rest := endsBefore_factor.mp hends
    rw [read_unsigned (by simpa using hfirst), ih hdepth hpower.final, resume_of_endsBefore hpower]
    rfl

theorem read_append {symbol : Symbol} {depth : Nat} {front : List Token} {e : Expr}
    (h : Phrase symbol depth front e) (hdepth : depth ≤ room) (hends : EndsBefore symbol rest) :
    (rule stop room symbol).read (front ++ rest) = .ok (e, rest) := by
  rw [read_phrase h hdepth hends.final, resume_of_endsBefore hends]

theorem read_sentence {e : Expr} (h : Sentence tokens e) :
    (rule stop maxNesting .expression).read tokens = .ok (e, []) := by
  obtain ⟨depth, hdepth, hphrase⟩ := h
  have hread : (rule stop maxNesting .expression).read (tokens ++ []) = .ok (e, []) :=
    read_append hphrase hdepth (endsBefore_nil _)
  rwa [List.append_nil] at hread

theorem sentence_of_read {e : Expr}
    (h : (rule stop maxNesting .expression).read tokens = .ok (e, [])) : Sentence tokens e := by
  obtain ⟨front, depth, rfl, hphrase, hdepth, -⟩ := takes_of_read h
  rw [List.append_nil]
  exact ⟨depth, hdepth, hphrase⟩

theorem sentence_unique {e e' : Expr} (h : Sentence tokens e)
    (h' : Sentence tokens e') : e = e' := by
  have hread : (rule (.endOfInput 0) maxNesting .expression).read tokens = .ok (e, []) :=
    read_sentence h
  rw [read_sentence h'] at hread
  cases hread
  rfl

theorem parse_eq_ok {e : Expr} : parse tokens = .ok e ↔
    (rule (splitEnd tokens).2 maxNesting .expression).read (splitEnd tokens).1 = .ok (e, []) := by
  simp only [parse, expression_ofDepth]
  split
  · next fault hread => simp [hread]
  · next tree hread => simp [hread]
  · next tree token later hread => simp [hread]

/-- The parser accepts exactly the sentences of the grammar, each as the tree that it spells, and
a token list spells at most one tree. Tokens after the first end of input play no part. -/
theorem parse_eq_ok_iff_sentence (tokens : List Token) :
    (∀ e, parse tokens = .ok e ↔ Sentence (tokens.takeWhile (·.kind != .eof)) e) ∧
    ∀ e e', Sentence (tokens.takeWhile (·.kind != .eof)) e →
      Sentence (tokens.takeWhile (·.kind != .eof)) e' → e = e' := by
  refine ⟨?_, fun e e' h h' => sentence_unique h h'⟩
  intro e
  rw [parse_eq_ok]
  exact ⟨sentence_of_read, read_sentence⟩

end Expr
end Abacus
