import Abacus.Proofs.Recognition

/-!
The signs and parentheses that lie open between two tokens. They are read off the tokens from the
left: where an operand is due, a sign or an opening parenthesis opens; after an operand, a power
goes on with the factor, any other token ends it and its signs with it, and a closing parenthesis
closes the innermost one. A phrase of the grammar opens no more than its nesting on the way and
leaves open what lay around it. A reading that fails for the limit does so at the first token that
opens one level too many.
-/
namespace Abacus

namespace Grammar

/-- The tokens that open a level of nesting, where an operand is due. -/
def opens : TokenKind → Bool
  | .plus | .minus | .leftParen => true
  | _ => false

/-- How a reader stands between two tokens: the signs and parentheses that are open, the innermost
first, and whether an operand is due. -/
structure Standing where
  opened : List Token
  due : Bool

/-- What stays open when a factor ends: its signs do not. -/
def endSigns (opened : List Token) : List Token := opened.dropWhile (·.kind != .leftParen)

def Standing.after (standing : Standing) (token : Token) : Standing :=
  if standing.due then
    if opens token.kind then ⟨token :: standing.opened, true⟩ else ⟨standing.opened, false⟩
  else
    match token.kind with
    | .power => ⟨standing.opened, true⟩
    | .rightParen => ⟨(endSigns standing.opened).tail, false⟩
    | _ => ⟨endSigns standing.opened, true⟩

def opened (tokens : List Token) : List Token :=
  (tokens.foldl Standing.after ⟨[], true⟩).opened

/-- Some tokens lead from one standing to another, and never open more levels than a limit. -/
inductive Leads (limit : Nat) : Standing → List Token → Standing → Prop
  | nil {standing : Standing} (h : standing.opened.length ≤ limit) :
      Leads limit standing [] standing
  | cons {standing final : Standing} {token : Token} {rest : List Token}
      (h : standing.opened.length ≤ limit) (hrest : Leads limit (standing.after token) rest final) :
      Leads limit standing (token :: rest) final

section Standings

variable {limit : Nat} {start middle final : Standing} {front rest : List Token}

theorem Leads.trans (h : Leads limit start front middle) (hrest : Leads limit middle rest final) :
    Leads limit start (front ++ rest) final := by
  induction h with
  | nil h => exact hrest
  | cons h hfront ih => exact .cons h (ih hrest)

theorem Leads.mono {limit' : Nat} (h : Leads limit start front final) (hlimit : limit ≤ limit') :
    Leads limit' start front final := by
  induction h with
  | nil h => exact .nil (Nat.le_trans h hlimit)
  | cons h hrest ih => exact .cons (Nat.le_trans h hlimit) ih

theorem Leads.length_le (h : Leads limit start front final) : final.opened.length ≤ limit := by
  induction h with
  | nil h => exact h
  | cons h hrest ih => exact ih

theorem Leads.foldl_eq (h : Leads limit start front final) :
    front.foldl Standing.after start = final := by
  induction h with
  | nil h => rfl
  | cons h hrest ih => exact ih

/-- On the way, no more levels are open than the limit allows. -/
theorem Leads.length_foldl_le (h : Leads limit start (front ++ rest) final) :
    (front.foldl Standing.after start).opened.length ≤ limit := by
  induction front generalizing start with
  | nil =>
    cases h with
    | nil h => exact h
    | cons h hrest => exact h
  | cons token front ih =>
    cases h with
    | cons h hrest => exact ih hrest

theorem leads_token {token : Token} (h : start.opened.length ≤ limit)
    (hafter : start.after token = final) (hfinal : final.opened.length ≤ limit) :
    Leads limit start [token] final := by
  subst hafter
  exact .cons h (.nil hfinal)

end Standings

section Tokens

variable {token : Token} {around signs : List Token} {rank : Rank}

theorem after_opener (h : opens token.kind) (around : List Token) :
    (⟨around, true⟩ : Standing).after token = ⟨token :: around, true⟩ := by
  simp [Standing.after, h]

theorem after_operand (h : opens token.kind = false) (around : List Token) :
    (⟨around, true⟩ : Standing).after token = ⟨around, false⟩ := by
  simp [Standing.after, h]

theorem Signs.opens_eq {sign : Sign} (h : Signs token.kind sign) : opens token.kind := by
  generalize token.kind = kind at h
  cases h <;> rfl

/-- A sum or a product does not begin inside a sign. -/
def Symbol.BeginsIn : Symbol → List Token → Prop
  | .expression, around | .term, around => endSigns around = around
  | _, _ => True

/-- The signs that may still be open at the end of a phrase. A chain of atoms ends with those open
that were so before it. -/
def Symbol.Leaves : Symbol → List Token → Prop
  | .power, signs | .atom, signs => signs = []
  | _, signs => ∀ sign ∈ signs, sign.kind ≠ .leftParen

theorem Symbol.BeginsIn.operand (h : (Symbol.chain rank).BeginsIn around) :
    rank.operand.BeginsIn around := by
  cases rank with
  | sum => exact h
  | product => trivial
  | power => trivial

theorem Symbol.Leaves.chain (h : rank.operand.Leaves signs) :
    (Symbol.chain rank).Leaves signs := by
  cases rank with
  | sum => exact h
  | product => exact h
  | power => exact h

theorem Symbol.Leaves.not_leftParen {symbol : Symbol} (h : symbol.Leaves signs) :
    ∀ sign ∈ signs, sign.kind ≠ .leftParen := by
  rcases symbol with (_ | _ | _) | _ | _
  · exact h
  · exact h
  · cases h
    simp
  · exact h
  · cases h
    simp

/-- The signs end, and nothing else does. -/
theorem endSigns_append (hsigns : ∀ sign ∈ signs, sign.kind ≠ .leftParen) (around : List Token) :
    endSigns (signs ++ around) = endSigns around := by
  rw [endSigns, List.dropWhile_append_of_pos (by simpa using hsigns)]
  rfl

theorem endSigns_cons (hopening : token.kind = .leftParen) (around : List Token) :
    endSigns (token :: around) = token :: around := by
  simp [endSigns, hopening]

/-- An operator of a rank makes an operand due, with that open which lies around the chain. -/
theorem Joins.after_eq {op : BinaryOp} (hop : Joins rank token.kind op)
    (haround : (Symbol.chain rank).BeginsIn around) (hsigns : (Symbol.chain rank).Leaves signs) :
    (⟨signs ++ around, false⟩ : Standing).after token = ⟨around, true⟩ := by
  have hends : endSigns (signs ++ around) = endSigns around :=
    endSigns_append hsigns.not_leftParen around
  generalize hkind : token.kind = kind at hop
  cases hop with
  | power =>
    rw [show signs = [] from hsigns]
    simp [Standing.after, hkind]
  | add | subtract | multiply | divide =>
    rw [show endSigns around = around from haround] at hends
    simp [Standing.after, hkind, hends]

/-- A closing parenthesis closes the innermost one, whatever signs are open inside it. -/
theorem after_closing {opening : Token} (hopening : opening.kind = .leftParen)
    (hclosing : token.kind = .rightParen) (hsigns : ∀ sign ∈ signs, sign.kind ≠ .leftParen) :
    (⟨signs ++ opening :: around, false⟩ : Standing).after token = ⟨around, false⟩ := by
  have hends : endSigns (signs ++ opening :: around) = opening :: around := by
    rw [endSigns_append hsigns, endSigns_cons hopening]
  simp [Standing.after, hclosing, hends]

end Tokens

section Phrases

variable {symbol : Symbol} {depth : Nat} {tokens around : List Token} {e : Expr}

theorem leads_operand {token : Token} (h : opens token.kind = false) :
    ∃ signs, Symbol.atom.Leaves signs ∧
      Leads (around.length + 0) ⟨around, true⟩ [token] ⟨signs ++ around, false⟩ :=
  ⟨[], rfl, leads_token (Nat.le_refl _) (after_operand h around) (Nat.le_refl _)⟩

/-- A phrase leaves open what lay around it, and signs of its own at most. On the way it opens no
more levels than its nesting. -/
theorem Phrase.leads (h : Phrase symbol depth tokens e) (haround : symbol.BeginsIn around) :
    ∃ signs, symbol.Leaves signs ∧
      Leads (around.length + depth) ⟨around, true⟩ tokens ⟨signs ++ around, false⟩ := by
  -- inside a sign or parenthesis, one token more lies around
  induction h generalizing around with
  | number hkind => exact leads_operand (by rw [hkind]; rfl)
  | identifier hkind => exact leads_operand (by rw [hkind]; rfl)
  | @group opening closing depth tokens e hopening h hclosing ih =>
    obtain ⟨signs, hsigns, hinner⟩ := ih (endSigns_cons hopening around)
    have hopened : (⟨around, true⟩ : Standing).after opening = ⟨opening :: around, true⟩ :=
      after_opener (by rw [hopening]; rfl) around
    have hclosed : (⟨signs ++ opening :: around, false⟩ : Standing).after closing =
        ⟨around, false⟩ := after_closing hopening hclosing hsigns.not_leftParen
    rw [List.length_cons, Nat.add_assoc, Nat.add_comm 1] at hinner
    have hlast := leads_token hinner.length_le hclosed (Nat.le_add_right _ _)
    refine ⟨[], rfl, .cons (Nat.le_add_right _ _) ?_⟩
    rw [hopened]
    exact hinner.trans hlast
  | @operand rank depth tokens e h ih =>
    obtain ⟨signs, hsigns, hleads⟩ := ih haround.operand
    exact ⟨signs, hsigns.chain, hleads⟩
  | @operation rank op depth depth' token tokens tokens' left right hleft hop hright ihl ihr =>
    obtain ⟨signs, hsigns, hleads⟩ := ihl haround
    obtain ⟨signs', hsigns', hleads'⟩ := ihr haround.operand
    have hfront := hleads.mono (Nat.add_le_add_left (Nat.le_max_left depth depth') around.length)
    have hback := hleads'.mono (Nat.add_le_add_left (Nat.le_max_right depth depth') around.length)
    refine ⟨signs', hsigns'.chain, hfront.trans (.cons hfront.length_le ?_)⟩
    rw [hop.after_eq haround hsigns]
    exact hback
  | @signed sign token depth tokens operand hsign h ih =>
    obtain ⟨signs, hsigns, hleads⟩ := @ih (token :: around) trivial
    rw [List.length_cons, Nat.add_assoc, Nat.add_comm 1] at hleads
    refine ⟨signs ++ [token], ?_, .cons (Nat.le_add_right _ _) ?_⟩
    · intro other hother
      rcases List.mem_append.mp hother with hother | hother
      · exact hsigns other hother
      · rw [List.mem_singleton.mp hother]
        generalize token.kind = kind at hsign
        cases hsign <;> simp
    · rw [after_opener hsign.opens_eq, List.append_assoc]
      exact hleads
  | unsigned h ih =>
    obtain ⟨signs, hsigns, hleads⟩ := ih trivial
    exact ⟨signs, hsigns.not_leftParen, hleads⟩

end Phrases

end Grammar

namespace Expr

open Grammar

/-- Among some tokens there is one that opens a level more than the limit, the first to do so. The
fault is shown at the token after it. -/
def Overflows (stop : Token) (limit : Nat) (start : Standing) (tokens : List Token)
    (fault : Fault) : Prop :=
  ∃ front opener rest around, tokens = front ++ opener :: rest ∧ fault = tooDeep stop rest ∧
    opens opener.kind ∧ Leads limit start front ⟨around, true⟩ ∧ around.length = limit

section Readings

variable {stop : Token} {room depth limit : Nat} {start middle : Standing}
  {front tokens around : List Token} {span : Span} {fault : Fault}

theorem Overflows.after (h : Overflows stop limit middle tokens fault)
    (hfront : Leads limit start front middle) :
    Overflows stop limit start (front ++ tokens) fault := by
  obtain ⟨before, opener, rest, around, rfl, hfault, hopens, hleads, hlength⟩ := h
  exact ⟨front ++ before, opener, rest, around, (List.append_assoc ..).symm, hfault, hopens,
    hfront.trans hleads, hlength⟩

theorem overflows_opener {opener : Token} (hopens : opens opener.kind) (rest : List Token) :
    Overflows stop around.length ⟨around, true⟩ (opener :: rest) (tooDeep stop rest) :=
  ⟨[], opener, rest, around, rfl, rfl, hopens, .nil (Nat.le_refl _), rfl⟩

/-- What overflows inside a sign or parenthesis, overflows around it. -/
theorem Overflows.inside {opener : Token} (hopens : opens opener.kind)
    (h : Overflows stop ((opener :: around).length + room) ⟨opener :: around, true⟩ tokens fault) :
    Overflows stop (around.length + (room + 1)) ⟨around, true⟩ (opener :: tokens) fault := by
  rw [List.length_cons, Nat.add_assoc, Nat.add_comm 1] at h
  have hopened : Leads (around.length + (room + 1)) ⟨around, true⟩ [opener]
      ⟨opener :: around, true⟩ :=
    leads_token (Nat.le_add_right _ _) (after_opener hopens around) (by simp)
  exact h.after hopened

/-- The loop of a chain overflows in one of its operands. -/
theorem overflows_of_readChain {rank : Rank} {left : Expr}
    (hoperand : ∀ {tokens}, (rule stop room rank.operand).read tokens =
        .error (.nestingTooDeep limit span) →
      Overflows stop (around.length + room) ⟨around, true⟩ tokens (.nestingTooDeep limit span))
    (hleft : Phrase (.chain rank) depth front left) (hdepth : depth ≤ room)
    (haround : (Symbol.chain rank).BeginsIn around)
    (h : readChain rank.op? (rule stop room rank.operand) left tokens =
      .error (.nestingTooDeep limit span)) :
    Overflows stop (around.length + room) ⟨around, true⟩ (front ++ tokens)
      (.nestingTooDeep limit span) := by
  fun_induction readChain rank.op? (rule stop room rank.operand) left tokens
    generalizing front depth with
  | case1 => cases h
  | case2 => cases h
  | case3 left token later op hop found hread =>
    cases h
    -- an operator leads back to where the chain began, so that every operand begins there
    obtain ⟨signs, hsigns, hleads⟩ := hleft.leads haround
    have hfront := hleads.mono (Nat.add_le_add_left hdepth around.length)
    have hoperator := leads_token hfront.length_le
      ((op?_eq_some.mp hop).after_eq haround hsigns) (Nat.le_add_right _ _)
    exact ((hoperand hread).after hoperator).after hfront
  | case4 left token later op hop right after hread _ ih =>
    obtain ⟨middle, depth', rfl, hright, hdepth', -⟩ := takes_of_read hread
    have hjoined := Phrase.operation hleft (op?_eq_some.mp hop) hright
    have hlater := ih hjoined (by omega) h
    simpa using hlater

/-- A rule that fails for the limit has as many levels open as it had room for. -/
theorem overflows_of_read {symbol : Symbol} (haround : symbol.BeginsIn around)
    (h : (rule stop room symbol).read tokens = .error (.nestingTooDeep limit span)) :
    Overflows stop (around.length + room) ⟨around, true⟩ tokens (.nestingTooDeep limit span) := by
  induction room, symbol using symbol_induction generalizing tokens around with
  | atom room ih =>
    cases tokens with
    | nil => cases h
    | cons token later =>
      rcases atom_cases token with ⟨hkind, value, hvalue⟩ | hkind | hkind | hrefused
      · rw [read_number hkind hvalue] at h
        cases h
      · rw [read_identifier hkind] at h
        cases h
      · have hopens : opens token.kind := by rw [hkind]; rfl
        cases room with
        | zero =>
          rw [read_group_tooDeep hkind] at h
          rw [← Except.error.inj h]
          exact overflows_opener hopens later
        | succ room =>
          rw [read_group hkind] at h
          rcases bind_eq_error.mp h with hinner | ⟨⟨inner, after⟩, -, hclose⟩
          · exact (ih room rfl (endSigns_cons hkind around) hinner).inside hopens
          · simp only [close] at hclose
            split at hclose
            · cases hclose
            · split at hclose <;> cases hclose
      · rw [hrefused] at h
        cases h
  | factor room ih ihpower =>
    rcases factor_cases tokens with ⟨token, later, sign, rfl, hsign⟩ | hunsigned
    · cases room with
      | zero =>
        rw [read_signed_tooDeep hsign] at h
        rw [← Except.error.inj h]
        exact overflows_opener hsign.opens_eq later
      | succ room =>
        rw [read_signed hsign] at h
        rcases bind_eq_error.mp h with hoperand | ⟨operand, -, hresult⟩
        · exact (ih room rfl trivial hoperand).inside hsign.opens_eq
        · cases hresult
    · rw [read_unsigned hunsigned] at h
      exact ihpower trivial h
  | chain room rank ih =>
    rw [read_chain] at h
    rcases bind_eq_error.mp h with hoperand | ⟨⟨left, later⟩, hleft, hchain⟩
    · exact ih haround.operand hoperand
    · obtain ⟨front, depth, rfl, hphrase, hdepth, -⟩ := takes_of_read hleft
      exact overflows_of_readChain (ih haround.operand) (.operand hphrase) hdepth haround hchain

/-- A parse that fails for the limit does so at the first token that opens one level too many. -/
theorem overflows_of_parse (h : parse tokens = .error (.nestingTooDeep limit span)) :
    Overflows (splitEnd tokens).2 maxNesting ⟨[], true⟩ (splitEnd tokens).1
      (.nestingTooDeep limit span) := by
  simp only [parse, expression_ofDepth] at h
  split at h
  · next met hread =>
    cases h
    have haround : Symbol.expression.BeginsIn [] := rfl
    have hoverflows := overflows_of_read haround hread
    rwa [List.length_nil, Nat.zero_add] at hoverflows
  · cases h
  · cases h

end Readings

end Expr
end Abacus
