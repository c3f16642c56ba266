import Abacus.Proofs.Prefix
import Abacus.Proofs.Recognition

/-!
Where a reading fails. A rule gives up at the first token that no continuation allows: what it
has taken so far begins a phrase, and with the token it begins none, whatever comes later. The
proof follows a failure outwards, from the rule that meets it to the rules that wait for that
one. The end of the input counts as a token here.
-/
namespace Abacus.Expr

open Grammar

/-- Why a rule gives up at the token `bad`, with `good` before it and these tokens after it. It
refuses the token at any room, or has too little room for it. -/
inductive Obstacle (stop : Token) (symbol : Symbol) (room : Nat) (good : List Token)
    (bad : Token) : List Token → Fault → Prop
  | refused {rest : List Token} {fault : Fault}
      (hfault : OperandDue good ∧ fault = unexpected bad ∨
        AwaitsClosing good ∧ fault = .mismatchedToken .rightParen bad.kind bad.span)
      (hread : ∀ room' ≥ room, ∀ later,
        (rule stop room' symbol).read (good ++ bad :: later) = .error fault) :
      Obstacle stop symbol room good bad rest fault
  | tooDeep {next : Token} {rest : List Token}
      (hdeeper : ∃ room', Begins symbol room' (good ++ [bad]))
      (hread : ∀ later, ∃ fault,
        (rule stop room symbol).read (good ++ bad :: later) = .error fault) :
      Obstacle stop symbol room good bad (next :: rest) (.nestingTooDeep maxNesting next.span)

def Stuck (stop : Token) (symbol : Symbol) (room : Nat) (tokens : List Token) (fault : Fault) :
    Prop :=
  ∃ good bad rest, tokens ++ [stop] = good ++ bad :: rest ∧ Begins symbol room good ∧
    Obstacle stop symbol room good bad rest fault

/-- A rule for `outer` that has taken `front` waits for what the rule for `symbol` makes of the
next tokens. It stands `levels` signs or parentheses further out. -/
structure Waits (stop : Token) (front tokens : List Token) (symbol outer : Symbol)
    (room levels : Nat) : Prop where
  begins : ∀ room' ≥ room, ∀ good, Begins symbol room' good →
    Begins outer (room' + levels) (front ++ good)
  fails : ∀ room' ≥ room, ∀ good fault, good.head? = (tokens ++ [stop]).head? →
    (rule stop room' symbol).read good = .error fault →
    (rule stop (room' + levels) outer).read (front ++ good) = .error fault
  due : ∀ good, OperandDue good → OperandDue (front ++ good)

section Contexts

variable {stop token : Token} {symbol outer : Symbol} {room levels depth : Nat}
  {front tokens : List Token} {fault : Fault}

/-- A rule that waits for one that is stuck is itself stuck, at the same token. -/
theorem Stuck.outwards (h : Stuck stop symbol room tokens fault)
    (hwaits : Waits stop front tokens symbol outer room levels) :
    Stuck stop outer (room + levels) (front ++ tokens) fault := by
  obtain ⟨good, bad, rest, htokens, hgood, hobstacle⟩ := h
  have hhead : ∀ later, (good ++ bad :: later).head? = (tokens ++ [stop]).head? := by
    intro later
    rw [htokens]
    cases good <;> rfl
  refine ⟨front ++ good, bad, rest, ?_, hwaits.begins room (Nat.le_refl room) good hgood, ?_⟩
  · rw [List.append_assoc, htokens, List.append_assoc]
  cases hobstacle with
  | refused hfault hread =>
    refine .refused ?_ ?_
    · rcases hfault with ⟨hdue, hfault⟩ | ⟨hawaits, hfault⟩
      · exact Or.inl ⟨hwaits.due good hdue, hfault⟩
      · exact Or.inr ⟨hawaits.append_left front, hfault⟩
    · intro room' hroom later
      obtain ⟨inner, rfl⟩ : ∃ inner, room' = inner + levels := ⟨room' - levels, by omega⟩
      have hinner : inner ≥ room := by omega
      rw [List.append_assoc]
      exact hwaits.fails inner hinner _ _ (hhead later) (hread inner hinner later)
  | tooDeep hdeeper hread =>
    refine .tooDeep ?_ ?_
    · obtain ⟨room', hbegins⟩ := hdeeper
      have hmax := hbegins.mono (Nat.le_max_right room room')
      rw [List.append_assoc]
      exact ⟨_, hwaits.begins _ (Nat.le_max_left room room') _ hmax⟩
    · intro later
      obtain ⟨fault, hfault⟩ := hread later
      rw [List.append_assoc]
      exact ⟨fault, hwaits.fails room (Nat.le_refl room) _ _ (hhead later) hfault⟩

theorem waits_operand (rank : Rank) :
    Waits stop [] tokens rank.operand (.chain rank) room 0 where
  begins _ _ _ h := begins_operand h
  fails room' _ good fault _ hread := by
    change (rule stop room' (.chain rank)).read good = .error fault
    rw [read_chain, hread]
    rfl
  due _ h := h

theorem waits_operation {rank : Rank} {op : BinaryOp} {left : Expr}
    (hleft : Phrase (.chain rank) depth front left) (hdepth : depth ≤ room)
    (hop : Joins rank token.kind op) :
    Waits stop (front ++ [token]) tokens rank.operand (.chain rank) room 0 where
  begins room' hroom good h := by
    rw [List.append_assoc, List.singleton_append]
    exact begins_operation hleft (by omega) hop h
  fails room' hroom good fault _ hread := by
    have hoperator : EndsBefore rank.operand (token :: good) :=
      endsBefore_cons.mpr hop.not_extends_operand
    have hleftRoom : depth ≤ room' := by omega
    rw [List.append_assoc, List.singleton_append]
    change (rule stop room' (.chain rank)).read (front ++ token :: good) = .error fault
    rw [read_phrase hleft hleftRoom hoperator]
    change readChain rank.op? (rule stop room' rank.operand) left (token :: good) = .error fault
    rw [readChain_of_joins hop, hread]
    rfl
  due good h := by
    rw [List.append_assoc, List.singleton_append]
    exact h.append_cons hop.not_endsPhrase front

theorem waits_signed {sign : Sign} (hsign : Signs token.kind sign) :
    Waits stop [token] tokens .factor .factor room 1 where
  begins _ _ _ h := begins_signed hsign h
  fails room' _ good fault _ hread := by
    rw [List.singleton_append, read_signed hsign, hread]
    rfl
  due _ h := h.append_cons hsign.not_endsPhrase []

theorem waits_unsigned
    (hunsigned : ∀ first ∈ (tokens ++ [stop]).head?, ∀ sign, ¬ Signs first.kind sign) :
    Waits stop [] tokens .power .factor room 0 where
  begins _ _ _ h := begins_unsigned h
  fails room' _ good fault hhead hread := by
    change (rule stop room' .factor).read good = .error fault
    rw [read_unsigned (by rwa [hhead]), hread]
  due _ h := h

theorem waits_group (hopening : token.kind = .leftParen) :
    Waits stop [token] tokens .expression .atom room 1 where
  begins _ _ _ h := begins_group hopening h
  fails room' _ good fault _ hread := by
    rw [List.singleton_append, read_group hopening, hread]
    rfl
  due _ h := h.append_cons (by rw [hopening]; exact id) []

end Contexts

section Failures

variable {stop : Token} {room depth : Nat} {tokens rest : List Token} {fault : Fault}

theorem close_of_ne {inner : Expr} {bad : Token} (h : bad.kind ≠ .rightParen)
    (later : List Token) : close stop (inner, bad :: later) =
      .error (.mismatchedToken .rightParen bad.kind bad.span) := by
  simp only [close, h, if_false]

theorem stuck_refused {bad : Token} (hnext : tokens ++ [stop] = bad :: rest)
    (hrefused : ∀ (stop : Token) (room : Nat) (later : List Token),
      (rule stop room .atom).read (bad :: later) = .error (unexpected bad)) :
    Stuck stop .atom room tokens (unexpected bad) :=
  ⟨[], bad, rest, hnext, begins_atom_nil room,
    .refused (Or.inl ⟨operandDue_nil, rfl⟩) fun room' _ later => hrefused stop room' later⟩

theorem stuck_tooDeep {symbol : Symbol} {token : Token} (hempty : Begins symbol 0 [])
    (hdeeper : Begins symbol 1 [token])
    (hread : ∀ later, (rule stop 0 symbol).read (token :: later) = .error (tooDeep stop later)) :
    Stuck stop symbol 0 (token :: rest) (tooDeep stop rest) := by
  refine ⟨[], token, rest ++ [stop], rfl, hempty, ?_⟩
  cases rest with
  | nil => exact .tooDeep ⟨1, hdeeper⟩ fun later => ⟨_, hread later⟩
  | cons next rest => exact .tooDeep ⟨1, hdeeper⟩ fun later => ⟨_, hread later⟩

theorem stuck_of_readChain {rank : Rank} {left : Expr} {front : List Token}
    (hoperand : ∀ {tokens fault}, (rule stop room rank.operand).read tokens = .error fault →
      Stuck stop rank.operand room tokens fault)
    (hleft : Phrase (.chain rank) depth front left) (hdepth : depth ≤ room)
    (h : readChain rank.op? (rule stop room rank.operand) left tokens = .error fault) :
    Stuck stop (.chain rank) room (front ++ tokens) fault := by
  fun_induction readChain rank.op? (rule stop room rank.operand) left tokens
    generalizing front depth with
  | case1 => cases h
  | case2 => cases h
  | case3 left token later op hop found hread =>
    cases h
    have hstuck := (hoperand hread).outwards
      (waits_operation hleft hdepth (op?_eq_some.mp hop))
    simpa using hstuck
  | case4 left token later op hop right after hread _ ih =>
    obtain ⟨middle, depth', rfl, hright, hdepth', -⟩ := takes_of_read hread
    have hjoined := Phrase.operation hleft (op?_eq_some.mp hop) hright
    have hstuck := ih hjoined (by omega) h
    simpa using hstuck

variable (hstop : stop.kind = .eof)
include hstop

theorem not_extends_next {after : List Token} {bad : Token}
    (hends : EndsBefore .expression after) (hnext : after ++ [stop] = bad :: rest) :
    ¬ Extends .expression bad.kind := by
  cases after with
  | nil =>
    obtain ⟨rfl, -⟩ := List.cons.inj hnext
    intro hextends
    simpa [hstop] using extends_expression hextends
  | cons first after =>
    obtain ⟨rfl, -⟩ := List.cons.inj hnext
    exact endsBefore_cons.mp hends

theorem exists_next_of_close {inner : Expr} {after : List Token}
    (h : close stop (inner, after) = .error fault) :
    ∃ bad rest, after ++ [stop] = bad :: rest ∧ bad.kind ≠ .rightParen ∧
      fault = .mismatchedToken .rightParen bad.kind bad.span := by
  cases after with
  | nil =>
    cases h
    exact ⟨stop, [], rfl, by rw [hstop]; decide, rfl⟩
  | cons bad after =>
    simp only [close] at h
    split at h
    · cases h
    · next hkind =>
      cases h
      exact ⟨bad, after ++ [stop], rfl, hkind, rfl⟩

theorem stuck_unclosed {opening : Token} {front after : List Token} {inner : Expr}
    (hopening : opening.kind = .leftParen) (hinner : Phrase .expression depth front inner)
    (hdepth : depth ≤ room) (hends : EndsBefore .expression after)
    (h : close stop (inner, after) = .error fault) :
    Stuck stop .atom (room + 1) (opening :: (front ++ after)) fault := by
  obtain ⟨bad, rest, hnext, hkind, rfl⟩ := exists_next_of_close hstop h
  refine ⟨opening :: front, bad, rest, ?_, begins_group hopening (hinner.begins hdepth), ?_⟩
  · rw [List.cons_append, List.append_assoc, hnext, List.cons_append]
  refine .refused (Or.inr ⟨awaitsClosing_group hopening hinner, rfl⟩) ?_
  intro room' hroom later
  obtain ⟨inside, rfl⟩ : ∃ inside, room' = inside + 1 := ⟨room' - 1, by omega⟩
  have hinside : depth ≤ inside := by omega
  have hbad : EndsBefore .expression (bad :: later) :=
    endsBefore_cons.mpr (not_extends_next hstop hends hnext)
  have hclose : close stop (inner, bad :: later) =
      .error (.mismatchedToken .rightParen bad.kind bad.span) := close_of_ne hkind later
  rw [List.cons_append, read_group hopening, read_append hinner hinside hbad]
  exact hclose

/-- A rule that fails does so at the first token that cannot stand where it does. -/
theorem stuck_of_read {symbol : Symbol} (h : (rule stop room symbol).read tokens = .error fault) :
    Stuck stop symbol room tokens fault := by
  induction room, symbol using symbol_induction generalizing tokens fault with
  | atom room ih =>
    cases tokens with
    | nil =>
      rcases atom_cases stop with ⟨hkind, -⟩ | hkind | hkind | hrefused
      · simp [hstop] at hkind
      · simp [hstop] at hkind
      · simp [hstop] at hkind
      · cases h
        exact stuck_refused rfl hrefused
    | cons token later =>
      rcases atom_cases token with ⟨hkind, value, hvalue⟩ | hkind | hkind | hrefused
      · rw [read_number hkind hvalue] at h
        cases h
      · rw [read_identifier hkind] at h
        cases h
      · cases room with
        | zero =>
          rw [read_group_tooDeep hkind] at h
          cases h
          exact stuck_tooDeep (begins_atom_nil 0)
            (begins_group hkind (begins_expression_nil 0)) fun _ => read_group_tooDeep hkind
        | succ room =>
          rw [read_group hkind] at h
          rcases bind_eq_error.mp h with hinner | ⟨⟨inner, after⟩, hinner, hclose⟩
          · exact (ih room rfl hinner).outwards (waits_group hkind)
          · obtain ⟨front, depth, rfl, hphrase, hdepth, hends⟩ := takes_of_read hinner
            exact stuck_unclosed hstop hkind hphrase hdepth hends hclose
      · rw [hrefused] at h
        cases h
        exact stuck_refused rfl hrefused
  | factor room ih ihpower =>
    rcases factor_cases tokens with ⟨token, later, sign, rfl, hsign⟩ | hunsigned
    · cases room with
      | zero =>
        rw [read_signed_tooDeep hsign] at h
        cases h
        exact stuck_tooDeep (begins_factor_nil 0)
          (begins_signed hsign (begins_factor_nil 0)) fun _ => read_signed_tooDeep hsign
      | succ room =>
        rw [read_signed hsign] at h
        rcases bind_eq_error.mp h with hoperand | ⟨operand, -, hresult⟩
        · exact (ih room rfl hoperand).outwards (waits_signed hsign)
        · cases hresult
    · rw [read_unsigned hunsigned] at h
      refine (ihpower h).outwards (waits_unsigned ?_)
      intro first hfirst sign hsign
      cases tokens with
      | nil =>
        cases hfirst
        rw [hstop] at hsign
        cases hsign
      | cons token later => exact hunsigned first hfirst sign hsign
  | chain room rank ih =>
    rw [read_chain] at h
    rcases bind_eq_error.mp h with hoperand | ⟨⟨left, later⟩, hleft, hchain⟩
    · exact (ih hoperand).outwards (waits_operand rank)
    · obtain ⟨front, depth, rfl, hphrase, hdepth, -⟩ := takes_of_read hleft
      exact stuck_of_readChain ih (.operand hphrase) hdepth hchain

end Failures

section Misfits

variable {stop bad : Token} {room depth : Nat} {tokens good rest : List Token} {fault : Fault}

/-- What a failed parse says about the token `bad`, with `good` before it and these tokens after
it: it fits at no depth, or only beyond the limit. -/
inductive Misfit (good : List Token) (bad : Token) : List Token → Fault → Prop
  | refused {rest : List Token} {fault : Fault}
      (hnever : ∀ limit, ¬ Begins .expression limit (good ++ [bad]))
      (hfault : AwaitsClosing good ∧ fault = .mismatchedToken .rightParen bad.kind bad.span ∨
        ¬ AwaitsClosing good ∧ fault = unexpected bad) :
      Misfit good bad rest fault
  | tooDeep {next : Token} {rest : List Token} (hlimit : ¬ Viable (good ++ [bad]))
      (hdeeper : ∃ limit, Begins .expression limit (good ++ [bad])) :
      Misfit good bad (next :: rest) (.nestingTooDeep maxNesting next.span)

theorem Misfit.not_viable (h : Misfit good bad rest fault) : ¬ Viable (good ++ [bad]) := by
  cases h with
  | refused hnever hfault =>
    rw [viable_iff_begins]
    exact hnever maxNesting
  | tooDeep hlimit hdeeper => exact hlimit

/-- A token that fits at some depth is refused for the limit, at the token after it. -/
theorem Misfit.tooDeep_of_begins (h : Misfit good bad rest fault) {limit : Nat}
    (hbegins : Begins .expression limit (good ++ [bad])) :
    ∃ next later, rest = next :: later ∧ fault = .nestingTooDeep maxNesting next.span := by
  cases h with
  | refused hnever hfault => exact absurd hbegins (hnever limit)
  | @tooDeep next later hlimit hdeeper => exact ⟨next, later, rfl, rfl⟩

theorem Misfit.fault_of_never (h : Misfit good bad rest fault)
    (hnever : ∀ limit, ¬ Begins .expression limit (good ++ [bad])) :
    (AwaitsClosing good → fault = .mismatchedToken .rightParen bad.kind bad.span) ∧
      (¬ AwaitsClosing good → fault = unexpected bad) := by
  cases h with
  | refused _ hfault =>
    rcases hfault with ⟨hawaits, hfault⟩ | ⟨hnone, hfault⟩
    · exact ⟨fun _ => hfault, fun hnone => absurd hawaits hnone⟩
    · exact ⟨fun hawaits => absurd hawaits hnone, fun _ => hfault⟩
  | tooDeep hlimit hdeeper =>
    obtain ⟨limit, hbegins⟩ := hdeeper
    exact absurd hbegins (hnever limit)

theorem not_begins_of_read {symbol : Symbol}
    (h : ∀ later, ∃ fault, (rule stop room symbol).read (good ++ bad :: later) = .error fault) :
    ¬ Begins symbol room (good ++ [bad]) := by
  intro hbegins
  obtain ⟨later, depth, e, hphrase, hdepth⟩ := hbegins
  obtain ⟨fault, hfault⟩ := h later
  have hread : (rule stop room symbol).read (good ++ [bad] ++ later ++ []) = .ok (e, []) :=
    read_append hphrase hdepth (endsBefore_nil symbol)
  rw [List.append_nil, List.append_assoc, List.singleton_append, hfault] at hread
  cases hread

theorem misfit_of_obstacle
    (h : Obstacle stop .expression maxNesting good bad rest fault) :
    Misfit good bad rest fault := by
  cases h with
  | refused hfault hread =>
    refine .refused ?_ ?_
    · intro limit hbegins
      have hmax := hbegins.mono (Nat.le_max_right maxNesting limit)
      exact not_begins_of_read
        (fun later => ⟨_, hread _ (Nat.le_max_left maxNesting limit) later⟩) hmax
    · rcases hfault with ⟨hdue, hfault⟩ | ⟨hawaits, hfault⟩
      · exact Or.inr ⟨hdue.not_awaitsClosing, hfault⟩
      · exact Or.inl ⟨hawaits, hfault⟩
  | tooDeep hdeeper hread =>
    refine .tooDeep ?_ hdeeper
    rw [viable_iff_begins]
    exact not_begins_of_read hread

/-- After a whole sentence, a token that does not make it longer fits at no depth. -/
theorem misfit_after_phrase {e : Expr} (h : Phrase .expression depth good e)
    (hends : ¬ Extends .expression bad.kind) : Misfit good bad rest (unexpected bad) := by
  refine .refused ?_ (Or.inr ⟨h.balanced.not_awaitsClosing, rfl⟩)
  intro limit hbegins
  obtain ⟨later, depth', e', hlonger, -⟩ := hbegins
  have hwhole : (rule bad (max depth depth') .expression).read (good ++ [bad] ++ later ++ []) =
      .ok (e', []) :=
    read_append hlonger (Nat.le_max_right _ _) (endsBefore_nil _)
  have hfront : (rule bad (max depth depth') .expression).read (good ++ bad :: later) =
      .ok (e, bad :: later) :=
    read_append h (Nat.le_max_left _ _) (endsBefore_cons.mpr hends)
  rw [List.append_nil, List.append_assoc, List.singleton_append, hfront] at hwhole
  cases hwhole

theorem kind_splitEnd (tokens : List Token) : (splitEnd tokens).2.kind = .eof := by
  simp only [splitEnd]
  cases h : tokens.find? (·.kind == .eof) with
  | none => rfl
  | some token => simpa using List.find?_some h

/-- A failed parse splits the tokens at one that does not fit, with all before it viable. -/
theorem exists_misfit (h : parse tokens = .error fault) :
    ∃ good bad rest, (splitEnd tokens).1 ++ [(splitEnd tokens).2] = good ++ bad :: rest ∧
      Viable good ∧ Misfit good bad rest fault := by
  simp only [parse, expression_ofDepth] at h
  split at h
  · next met hread =>
    cases h
    obtain ⟨good, bad, rest, htokens, hgood, hobstacle⟩ :=
      stuck_of_read (kind_splitEnd tokens) hread
    exact ⟨good, bad, rest, htokens, viable_iff_begins.mpr hgood, misfit_of_obstacle hobstacle⟩
  · cases h
  · next e bad rest hread =>
    cases h
    obtain ⟨good, depth, htokens, hphrase, hdepth, hends⟩ := takes_of_read hread
    refine ⟨good, bad, rest ++ [(splitEnd tokens).2], ?_, ?_, ?_⟩
    · rw [htokens, List.append_assoc, List.cons_append]
    · exact viable_iff_begins.mpr (hphrase.begins hdepth)
    · exact misfit_after_phrase hphrase (endsBefore_cons.mp hends)

/-- The token that does not fit is the last of all, or one of those before it. -/
theorem eq_or_exists_of_split {body : List Token} (h : body ++ [stop] = good ++ bad :: rest) :
    (body = good ∧ rest = []) ∨ ∃ later, body = good ++ bad :: later := by
  rcases List.eq_nil_or_concat rest with rfl | ⟨later, last, rfl⟩
  · exact Or.inl ⟨(List.append_singleton_inj.mp h).1, rfl⟩
  · rw [List.concat_eq_append, ← List.cons_append, ← List.append_assoc] at h
    exact Or.inr ⟨later, (List.append_singleton_inj.mp h).1⟩

theorem take_of_split {body : List Token} (h : body ++ [stop] = good ++ bad :: rest) :
    body.take good.length = good ∧
      (good.length < body.length → body.take (good.length + 1) = good ++ [bad]) := by
  rcases eq_or_exists_of_split h with ⟨rfl, -⟩ | ⟨later, rfl⟩
  · exact ⟨List.take_length, fun hlt => absurd hlt (Nat.lt_irrefl _)⟩
  · exact ⟨List.take_left, fun _ => by rw [List.take_length_add_append]; rfl⟩

theorem firstMisfit_of_split {body : List Token} (h : body ++ [stop] = good ++ bad :: rest)
    (hgood : Viable good) (hmisfit : Misfit good bad rest fault) :
    FirstMisfit body good.length := by
  rcases eq_or_exists_of_split h with ⟨rfl, -⟩ | ⟨later, rfl⟩
  · exact ⟨fun j _ => hgood.take (j + 1), Or.inr rfl⟩
  · refine ⟨?_, Or.inl ⟨by simp, ?_⟩⟩
    · intro j hj
      rw [List.take_append_of_le_length (by omega)]
      exact hgood.take (j + 1)
    · rw [List.take_length_add_append]
      exact hmisfit.not_viable

/-- The fault points at the first token that cannot stand where it does, where `stop` comes after
the others. If only the limit forbids that token, the fault says so at the one after it. Otherwise
it asks for a closing parenthesis exactly where one could come. -/
def ReportsMisfit (body : List Token) (stop : Token) (fault : Fault) : Prop :=
  ∃ i found, (body ++ [stop])[i]? = some found ∧ FirstMisfit body i ∧
    (∀ j, FirstMisfit body j → j = i) ∧
    (i < body.length ∧ (∃ limit, Begins .expression limit (body.take (i + 1))) →
      ∃ next, (body ++ [stop])[i + 1]? = some next ∧
        fault = .nestingTooDeep maxNesting next.span) ∧
    (¬ (i < body.length ∧ ∃ limit, Begins .expression limit (body.take (i + 1))) →
      (AwaitsClosing (body.take i) →
        fault = .mismatchedToken .rightParen found.kind found.span) ∧
      (¬ AwaitsClosing (body.take i) → fault = .unexpectedToken found.kind found.span))

theorem reportsMisfit_of_split {body : List Token} (h : body ++ [stop] = good ++ bad :: rest)
    (hgood : Viable good) (hmisfit : Misfit good bad rest fault) :
    ReportsMisfit body stop fault := by
  have hfirst : FirstMisfit body good.length := firstMisfit_of_split h hgood hmisfit
  obtain ⟨hbefore, hthrough⟩ := take_of_split h
  refine ⟨good.length, bad, by simp [h], hfirst, fun j hj => hj.unique hfirst, ?_, ?_⟩
  · intro hdeeper
    obtain ⟨hlength, limit, hbegins⟩ := hdeeper
    rw [hthrough hlength] at hbegins
    obtain ⟨next, later, rfl, hfault⟩ := hmisfit.tooDeep_of_begins hbegins
    exact ⟨next, by simp [h], hfault⟩
  · intro hnot
    rw [hbefore]
    refine hmisfit.fault_of_never ?_
    intro limit hbegins
    -- the end of the input is never refused for the limit, as no token comes after it
    have hlength : good.length < body.length := by
      obtain ⟨next, later, rfl, -⟩ := hmisfit.tooDeep_of_begins hbegins
      have htotal := congrArg List.length h
      simp only [List.length_append, List.length_cons, List.length_nil] at htotal
      omega
    rw [← hthrough hlength] at hbegins
    exact hnot ⟨hlength, limit, hbegins⟩

/-- A syntax error points at the first token that no continuation allows, the end of the input
included. -/
theorem reportsMisfit_of_parse {tokens : List Token} {fault : Fault}
    (h : parse tokens = .error fault) :
    ReportsMisfit (tokens.takeWhile (·.kind != .eof)) (splitEnd tokens).2 fault := by
  obtain ⟨good, bad, rest, htokens, hgood, hmisfit⟩ := exists_misfit h
  exact reportsMisfit_of_split htokens hgood hmisfit

set_option maxRecDepth 8000 in
/-- One parenthesis too many is refused at the token after it, here the end of the input. -/
theorem reportsMisfit_of_too_many_parentheses :
    let tokens := List.replicate 257 ⟨.leftParen, .text "(", ⟨0, 1⟩⟩
    parse tokens = .error (.nestingTooDeep 256 ⟨1, 1⟩) ∧
      ReportsMisfit (tokens.takeWhile (·.kind != .eof)) (splitEnd tokens).2
        (.nestingTooDeep 256 ⟨1, 1⟩) := by
  intro tokens
  have hparse : parse tokens = .error (.nestingTooDeep 256 ⟨1, 1⟩) := rfl
  exact ⟨hparse, reportsMisfit_of_parse hparse⟩

end Misfits

end Abacus.Expr
