import Abacus.Proofs.Discipline
import Abacus.Proofs.SyntaxFault

/-!
What comes of the call of a procedure. A procedure is called where an operand is due, with room for
so many more levels of nesting. It comes to an end there, with the outcome that the rule of its
symbol reads from the rest of the tokens, and keeps to the discipline until then. The proof goes
along the grammar, with less room inside a sign or parenthesis and fewer tokens after each operand
of a chain.
-/
namespace Abacus.Parser

open Abacus.Expr Grammar

/-- The procedure of a symbol may be called here: the tokens before the cursor leave `around` open
and an operand due, and those after it, up to `stop`, are the input that is left. -/
structure Enters (start : Parser) (stop : Token) (extra : List Token) (symbol : Symbol)
    (room : Nat) (front rest around : List Token) (history : History) : Prop where
  disciplined : history.Disciplined start
  between : history.now.Between front (rest ++ stop :: extra)
  body : ∀ token ∈ rest, token.kind ≠ .eof
  standing : front.foldl Standing.after ⟨[], true⟩ = ⟨around, true⟩
  depth : history.now.depth = around.length
  room : around.length + room = maxNesting
  begins : symbol.BeginsIn around

/-- Some work has come to the end that the reading of the rest foretells. -/
inductive Ends (start : Parser) (stop : Token) (extra front rest : List Token) (history : History)
    (reading : Reading) (result : Option (Except Fault Expr × History)) : Prop
  | ok {taken later : List Token} {e : Expr} {final : History}
      (hreading : reading = .ok (e, later)) (hresult : result = some (.ok e, final))
      (hrest : rest = taken ++ later) (hcontinues : history.Continues start final)
      (hbetween : final.now.Between (front ++ taken) (later ++ stop :: extra))
  | error {fault : Fault} {final : History} (hreading : reading = .error fault)
      (hresult : result = some (.error fault, final)) (hcontinues : history.Continues start final)

def Serves (start : Parser) (stop : Token) (extra : List Token) (callee : Symbol → Parsing Expr)
    (room : Nat) (symbol : Symbol) : Prop :=
  ∀ front rest around history, Enters start stop extra symbol room front rest around history →
    Ends start stop extra front rest history ((rule stop room symbol).read rest)
      (callee symbol history)

def readInside (stop : Token) (symbol : Symbol) (rest : List Token) : Nat → Reading
  | 0 => .error (tooDeep stop rest)
  | room + 1 => (rule stop room symbol).read rest

/-- How many calls may be under way in that of a symbol: five at each level of nesting. -/
def callHeight (room : Nat) : Symbol → Nat
  | .expression => 5 * room + 5
  | .term => 5 * room + 4
  | .factor => 5 * room + 3
  | .power => 5 * room + 2
  | .atom => 5 * room + 1

theorem callHeight_chain (room : Nat) (rank : Rank) :
    callHeight room (.chain rank) = callHeight room rank.operand + 1 := by
  cases rank <;> rfl

section Calls

variable {start : Parser} {stop token : Token} {extra front rest around taken : List Token}
  {symbol inner : Symbol} {room turns height : Nat} {history reached : History}
  {reading : Reading} {result : Option (Except Fault Expr × History)} {fault : Fault} {e : Expr}
  {callee : Symbol → Parsing Expr}

theorem stage_of_read (hstop : stop.kind = .eof)
    (h : (rule stop room symbol).read rest = .error fault) : fault.stage = .syntactic := by
  obtain ⟨good, bad, later, -, -, hobstacle⟩ := stuck_of_read hstop h
  cases hobstacle with
  | refused hfault => rcases hfault with ⟨-, rfl⟩ | ⟨-, rfl⟩ <;> rfl
  | tooDeep => rfl

theorem exists_phrase_of_read
    (h : (rule stop room symbol).read (taken ++ rest) = .ok (e, rest)) :
    ∃ depth, Phrase symbol depth taken e := by
  obtain ⟨front, depth, hsplit, hphrase, -⟩ := takes_of_read h
  rw [List.append_cancel_right hsplit]
  exact ⟨depth, hphrase⟩

/-- What ends after some steps ends after them as well as those before. -/
theorem Ends.after (h : Ends start stop extra (front ++ taken) rest reached reading result)
    (hcontinues : history.Continues start reached) :
    Ends start stop extra front (taken ++ rest) history reading result := by
  cases h with
  | ok hreading hresult hrest hlater hbetween =>
    rw [List.append_assoc] at hbetween
    refine .ok hreading hresult ?_ (hcontinues.trans hlater) hbetween
    rw [hrest, List.append_assoc]
  | error hreading hresult hlater => exact .error hreading hresult (hcontinues.trans hlater)

/-- A call is disciplined that leaves the count as it was, takes a token if it succeeds, and knows
its operators. -/
theorem Enters.disciplined_call {after : Parser} {outcome : Except Fault Expr}
    (h : Enters start stop extra symbol room front rest around history)
    (hrestored : after.depth = history.now.depth)
    (hmoved : ∀ e, outcome = .ok e → history.now.current < after.current)
    (hknown : ∀ symbol span, outcome ≠ .error (.unknownOperator symbol span)) :
    Call.Disciplined ⟨symbol, history.now, after, outcome⟩ := by
  constructor
  case counted => rw [h.between.take, opened, h.standing, h.depth]
  case bounded => exact h.disciplined.now.2.2
  case restored => exact hrestored
  case moved => exact hmoved
  case known => exact hknown

/-- A call ends as its procedure does, and is noted. -/
theorem Enters.ends_call (hstop : stop.kind = .eof)
    (h : Enters start stop extra symbol room front rest around history)
    (hends : Ends start stop extra front rest history ((rule stop room symbol).read rest)
      (procedure (call turns height) turns symbol history)) :
    Ends start stop extra front rest history ((rule stop room symbol).read rest)
      (call turns (height + 1) symbol history) := by
  cases hends with
  | @ok taken later e final hreading hresult hrest hcontinues hbetween =>
    have hmoved : history.now.current < final.now.current := by
      have hshorter := (rule stop room symbol).shorter hreading
      rw [hrest, List.length_append] at hshorter
      rw [hbetween.current, h.between.current, List.length_append]
      omega
    have hcall : Call.Disciplined ⟨symbol, history.now, final.now, .ok e⟩ :=
      h.disciplined_call hcontinues.depth (fun _ _ => hmoved) (by simp)
    refine .ok hreading (call_of_procedure hresult) hrest ?_ hbetween
    exact ⟨hcontinues.disciplined.note hcall, hcontinues.current, hcontinues.depth⟩
  | @error fault final hreading hresult hcontinues =>
    have hknown : ∀ symbol span, fault ≠ .unknownOperator symbol span := by
      rintro symbol span rfl
      cases stage_of_read hstop hreading
    have hcall : Call.Disciplined ⟨symbol, history.now, final.now, .error fault⟩ :=
      h.disciplined_call hcontinues.depth (by simp) (by simpa using hknown)
    refine .error hreading (call_of_procedure hresult) ?_
    exact ⟨hcontinues.disciplined.note hcall, hcontinues.current, hcontinues.depth⟩

theorem Enters.forward (hstop : stop.kind = .eof)
    (h : Enters start stop extra symbol room front (token :: rest) around history) :
    history.Continues start history.forward :=
  h.disciplined.forward hstop h.between (h.body token List.mem_cons_self)

theorem Enters.length_lt (h : Enters start stop extra symbol room front rest around history) :
    rest.length < start.tokens.length := by
  rw [← h.disciplined.now.1, h.between.tokens]
  simp only [List.length_append, List.length_cons]
  omega

/-- What stands inside a sign or parenthesis is entered one level deeper. -/
theorem Enters.inside (hstop : stop.kind = .eof)
    (h : Enters start stop extra symbol (room + 1) front (token :: rest) around history)
    (hopens : opens token.kind) (hbegins : inner.BeginsIn (token :: around)) :
    Enters start stop extra inner room (front ++ [token]) rest (token :: around)
      history.forward.deeper := by
  have hroom := h.room
  have hdepth : history.forward.deeper.now.depth = around.length + 1 :=
    congrArg (· + 1) h.depth
  have hnext := h.between.forward
  constructor
  case disciplined =>
    have hlimit : history.forward.now.depth + 1 ≤ maxNesting := by
      rw [(h.forward hstop).depth, h.depth]
      omega
    exact (h.forward hstop).disciplined.recount hlimit
  case between => exact ⟨hnext.tokens, hnext.current⟩
  case body => exact fun later hlater => h.body later (List.mem_cons_of_mem _ hlater)
  case standing =>
    rw [List.foldl_append, h.standing]
    exact after_opener hopens around
  case depth => exact hdepth
  case room =>
    rw [List.length_cons]
    omega
  case begins => exact hbegins

/-- What is counted for the inside is taken back after it, on success and on failure. -/
theorem Enters.ends_nested
    (h : Enters start stop extra symbol room front rest around history.deeper)
    (hends : Ends start stop extra front rest history.deeper reading
      (callee symbol history.deeper)) :
    Ends start stop extra front rest history reading (nested callee symbol history) := by
  have hdepth : history.now.depth + 1 ≤ maxNesting := h.disciplined.now.2.2
  have hlimit : history.now.depth ≤ maxNesting := Nat.le_of_succ_le hdepth
  cases hends with
  | ok hreading hresult hrest hcontinues hbetween =>
    refine .ok hreading (nested_of_call hdepth hresult hcontinues.depth) hrest ?_ ?_
    · exact ⟨hcontinues.disciplined.recount hlimit, hcontinues.current, rfl⟩
    · exact ⟨hbetween.tokens, hbetween.current⟩
  | error hreading hresult hcontinues =>
    refine .error hreading (nested_of_call hdepth hresult hcontinues.depth) ?_
    exact ⟨hcontinues.disciplined.recount hlimit, hcontinues.current, rfl⟩

/-- A sign or parenthesis is taken, and then what stands inside it, unless the limit is reached. -/
theorem Enters.ends_inside (hstop : stop.kind = .eof)
    (hinner : ∀ less, room = less + 1 → Serves start stop extra callee less inner)
    (h : Enters start stop extra symbol room front (token :: rest) around history)
    (hopens : opens token.kind) (hbegins : inner.BeginsIn (token :: around)) :
    Ends start stop extra front (token :: rest) history (readInside stop inner rest room)
      (nested callee inner history.forward) := by
  have hforward : history.Continues start history.forward := h.forward hstop
  cases room with
  | zero =>
    have hdepth : history.forward.now.depth ≥ maxNesting := by
      have hroom := h.room
      rw [hforward.depth, h.depth]
      omega
    exact .error rfl (nested_of_full h.between.forward.faces_next hdepth) hforward
  | succ room =>
    have hinside := h.inside hstop hopens hbegins
    exact (hinside.ends_nested (hinner room rfl _ _ _ _ hinside)).after hforward

end Calls

section Chains

variable {start : Parser} {stop token : Token} {extra front rest around taken tokens : List Token}
  {rank : Rank} {room depth turns : Nat} {history reached : History} {left : Expr}
  {op : BinaryOp} {callee : Symbol → Parsing Expr}

/-- The operand after an operator is entered with that open which lay around the chain. -/
theorem Enters.operand (hstop : stop.kind = .eof)
    (h : Enters start stop extra (.chain rank) room front (taken ++ token :: rest) around history)
    (hleft : Phrase (.chain rank) depth taken left) (hop : Joins rank token.kind op)
    (hcontinues : history.Continues start reached)
    (hbetween : reached.now.Between (front ++ taken) (token :: rest ++ stop :: extra)) :
    history.Continues start reached.forward ∧
      Enters start stop extra rank.operand room (front ++ (taken ++ [token])) rest around
        reached.forward := by
  have hkind : token.kind ≠ .eof := h.body token (by simp)
  have hforward : history.Continues start reached.forward :=
    hcontinues.trans (hcontinues.disciplined.forward hstop hbetween hkind)
  refine ⟨hforward, ?_⟩
  constructor
  case disciplined => exact hforward.disciplined
  case between =>
    rw [← List.append_assoc]
    exact hbetween.forward
  case body => exact fun later hlater => h.body later (by simp [hlater])
  case standing =>
    obtain ⟨signs, hsigns, hleads⟩ := hleft.leads h.begins
    rw [List.foldl_append, List.foldl_append, h.standing, hleads.foldl_eq]
    exact hop.after_eq h.begins hsigns
  case depth => rw [hforward.depth, h.depth]
  case room => exact h.room
  case begins => exact h.begins.operand

/-- The loop of a chain ends when the next token is none of its operators, or in an operand. What
it has taken so far is a phrase at every turn, and each turn takes a token. -/
theorem Enters.ends_extend (hstop : stop.kind = .eof) (hturns : tokens.length ≤ turns)
    (hoperand : Serves start stop extra callee room rank.operand)
    (h : Enters start stop extra (.chain rank) room front (taken ++ tokens) around history)
    (hleft : Phrase (.chain rank) depth taken left)
    (hcontinues : history.Continues start reached)
    (hbetween : reached.now.Between (front ++ taken) (tokens ++ stop :: extra)) :
    Ends start stop extra front (taken ++ tokens) history
      (readChain rank.op? (rule stop room rank.operand) left tokens)
      (extend callee rank (turns + 1) left reached) := by
  fun_induction readChain rank.op? (rule stop room rank.operand) left tokens
    generalizing taken depth reached turns with
  | case1 left =>
    have hkind : stop.kind ∉ operatorKinds rank := by
      rw [mem_operatorKinds, hstop]
      rintro ⟨op, hop⟩
      cases hop
    exact .ok rfl (extend_of_not_mem hbetween.faces hkind) rfl hcontinues hbetween
  | case2 left token later hnone =>
    have hkind : token.kind ∉ operatorKinds rank := by
      rw [mem_operatorKinds]
      rintro ⟨op, hop⟩
      rw [op?_eq_some.mpr hop] at hnone
      cases hnone
    exact .ok rfl (extend_of_not_mem hbetween.faces hkind) rfl hcontinues hbetween
  | case3 left token later op hop fault hread =>
    have hjoins : Joins rank token.kind op := op?_eq_some.mp hop
    obtain ⟨hforward, henters⟩ := h.operand hstop hleft hjoins hcontinues hbetween
    rw [extend_of_joins hbetween.faces hjoins (h.body token (by simp))]
    cases hoperand _ _ _ _ henters with
    | ok hreading => simp [hread] at hreading
    | error hreading hresult hlater =>
      rw [← hread, hreading]
      exact .error rfl (bind_of_error hresult) (hforward.trans hlater)
  | case4 left token later op hop right after hread hshorter ih =>
    rw [List.length_cons] at hturns
    obtain ⟨more, rfl⟩ : ∃ more, turns = more + 1 := ⟨turns - 1, by omega⟩
    have hmore : after.length ≤ more := by omega
    have hjoins : Joins rank token.kind op := op?_eq_some.mp hop
    obtain ⟨hforward, henters⟩ := h.operand hstop hleft hjoins hcontinues hbetween
    rw [extend_of_joins hbetween.faces hjoins (h.body token (by simp))]
    cases hoperand _ _ _ _ henters with
    | error hreading => simp [hread] at hreading
    | @ok middle rest e final hreading hresult hrest hlater hafter =>
      obtain ⟨rfl, rfl⟩ : right = e ∧ after = rest := by simpa [hread] using hreading
      subst hrest
      obtain ⟨depth', hright⟩ := exists_phrase_of_read hread
      have hsplit : taken ++ token :: (middle ++ after) = (taken ++ token :: middle) ++ after := by
        simp
      rw [bind_of_ok hresult, hsplit]
      rw [hsplit] at h
      refine ih hmore h (Phrase.operation hleft hjoins hright) (hforward.trans hlater) ?_
      simpa using hafter

theorem Enters.ends_chain (hstop : stop.kind = .eof) (hturns : start.tokens.length ≤ turns)
    (hoperand : Serves start stop extra callee room rank.operand)
    (h : Enters start stop extra (.chain rank) room front rest around history) :
    Ends start stop extra front rest history ((rule stop room (.chain rank)).read rest)
      (procedure callee turns (.chain rank) history) := by
  have hlength := h.length_lt
  rw [procedure_chain, read_chain]
  cases hoperand _ _ _ _ { h with begins := h.begins.operand } with
  | ok hreading hresult hrest hcontinues hbetween =>
    subst hrest
    rw [List.length_append] at hlength
    obtain ⟨depth, hphrase⟩ := exists_phrase_of_read hreading
    obtain ⟨more, rfl⟩ : ∃ more, turns = more + 1 := ⟨turns - 1, by omega⟩
    rw [hreading, bind_of_ok hresult]
    exact h.ends_extend hstop (by omega) hoperand (.operand hphrase) hcontinues hbetween
  | error hreading hresult hcontinues =>
    rw [hreading]
    exact .error rfl (bind_of_error hresult) hcontinues

end Chains

section Operands

variable {start : Parser} {stop token : Token} {extra front rest around taken : List Token}
  {symbol : Symbol} {room turns height : Nat} {history reached : History}
  {callee : Symbol → Parsing Expr}

theorem Enters.ends_signed {sign : Sign} (hstop : stop.kind = .eof)
    (hfactor : ∀ inner, room = inner + 1 → Serves start stop extra callee inner .factor)
    (h : Enters start stop extra .factor room front (token :: rest) around history)
    (hsign : Signs token.kind sign) :
    Ends start stop extra front (token :: rest) history
      ((rule stop room .factor).read (token :: rest)) (procedure callee turns .factor history) := by
  have hread : (rule stop room .factor).read (token :: rest) =
      (readInside stop .factor rest room).bind fun operand =>
        .ok (signed sign token operand.1, operand.2) := by
    cases room with
    | zero => exact read_signed_tooDeep hsign
    | succ room => exact read_signed hsign
  rw [hread, procedure_signed h.between.faces hsign (h.body token List.mem_cons_self)]
  cases h.ends_inside hstop hfactor hsign.opens_eq trivial with
  | ok hreading hresult hrest hcontinues hbetween =>
    rw [hreading, bind_of_ok hresult]
    exact .ok rfl rfl hrest hcontinues hbetween
  | error hreading hresult hcontinues =>
    rw [hreading]
    exact .error rfl (bind_of_error hresult) hcontinues

/-- After the expression in parentheses, the closing one is taken or missed. -/
theorem ends_close {e : Expr} (hstop : stop.kind = .eof)
    (hcontinues : history.Continues start reached)
    (hbetween : reached.now.Between (front ++ taken) (rest ++ stop :: extra)) :
    Ends start stop extra front (taken ++ rest) history (close stop (e, rest))
      ((consume .rightParen >>= fun _ => pure e : Parsing Expr) reached) := by
  cases rest with
  | nil =>
    have hkind : stop.kind ≠ .rightParen := by simp [hstop]
    exact .error rfl (bind_of_error (consume_of_ne hbetween.faces hkind)) hcontinues
  | cons closing later =>
    by_cases hkind : closing.kind = .rightParen
    · have hend : closing.kind ≠ .eof := by simp [hkind]
      have hforward := hcontinues.disciplined.forward hstop hbetween hend
      have hclose : close stop (e, closing :: later) = .ok (e, later) :=
        close_eq_ok.mpr ⟨rfl, closing, hkind, rfl⟩
      have hafter := hbetween.forward
      rw [List.append_assoc] at hafter
      rw [bind_of_ok (consume_of_eq hbetween.faces hkind hend)]
      exact .ok hclose rfl (by simp) (hcontinues.trans hforward) hafter
    · exact .error (close_of_ne hkind later)
        (bind_of_error (consume_of_ne hbetween.faces hkind)) hcontinues

theorem Enters.ends_group (hstop : stop.kind = .eof)
    (hexpression : ∀ inner, room = inner + 1 → Serves start stop extra callee inner .expression)
    (h : Enters start stop extra .atom room front (token :: rest) around history)
    (hkind : token.kind = .leftParen) :
    Ends start stop extra front (token :: rest) history
      ((rule stop room .atom).read (token :: rest)) (procedure callee turns .atom history) := by
  have hopens : opens token.kind := by rw [hkind]; rfl
  have hread : (rule stop room .atom).read (token :: rest) =
      (readInside stop .expression rest room).bind (close stop) := by
    cases room with
    | zero => exact read_group_tooDeep hkind
    | succ room => exact read_group hkind
  rw [hread, procedure_group h.between.faces hkind]
  cases h.ends_inside hstop hexpression hopens (endSigns_cons hkind around) with
  | ok hreading hresult hrest hcontinues hbetween =>
    rw [hreading, bind_of_ok hresult, hrest]
    exact ends_close hstop hcontinues hbetween
  | error hreading hresult hcontinues =>
    rw [hreading]
    exact .error rfl (bind_of_error hresult) hcontinues

theorem Enters.ends_atom (hstop : stop.kind = .eof)
    (hexpression : ∀ inner, room = inner + 1 → Serves start stop extra callee inner .expression)
    (h : Enters start stop extra .atom room front rest around history) :
    Ends start stop extra front rest history ((rule stop room .atom).read rest)
      (procedure callee turns .atom history) := by
  have hhere : history.Continues start history := h.disciplined.continues
  cases rest with
  | nil =>
    have hkind : stop.kind ∉ [TokenKind.number, .identifier, .leftParen] := by simp [hstop]
    exact .error rfl (procedure_refused h.between.faces hkind) hhere
  | cons token later =>
    have hfaces : history.now.Faces token := h.between.faces
    have hforward : history.Continues start history.forward := h.forward hstop
    cases hkind : token.kind with
    | number =>
      cases hvalue : token.number? with
      | some value =>
        exact .ok (read_number hkind hvalue) (procedure_number hfaces hkind hvalue)
          List.singleton_append.symm hforward h.between.forward
      | none =>
        refine .error ?_ (procedure_number_of_none hfaces hkind hvalue) hforward
        simp only [rule, atom, readAtom, hkind, hvalue]
    | identifier =>
      exact .ok (read_identifier hkind) (procedure_identifier hfaces hkind)
        List.singleton_append.symm hforward h.between.forward
    | leftParen => exact h.ends_group hstop hexpression hkind
    | _ =>
      refine .error ?_ (procedure_refused hfaces (by simp [hkind])) hhere
      simp only [rule, atom, readAtom, hkind]

theorem Enters.ends_factor (hstop : stop.kind = .eof)
    (hfactor : ∀ inner, room = inner + 1 → Serves start stop extra callee inner .factor)
    (hpower : Serves start stop extra callee room .power)
    (h : Enters start stop extra .factor room front rest around history) :
    Ends start stop extra front rest history ((rule stop room .factor).read rest)
      (procedure callee turns .factor history) := by
  rcases factor_cases rest with ⟨token, later, sign, rfl, hsign⟩ | hunsigned
  · exact h.ends_signed hstop hfactor hsign
  · have hnone : ∀ sign, ¬ Signs (rest.head?.getD stop).kind sign := by
      intro sign hsign
      cases rest with
      | nil =>
        rw [List.head?_nil, Option.getD_none, hstop] at hsign
        cases hsign
      | cons token later => exact hunsigned token rfl sign hsign
    rw [read_unsigned hunsigned, procedure_unsigned h.between.faces_next hnone]
    exact hpower _ _ _ _ { h with begins := trivial }

/-- With enough room for turns and calls, every call of a procedure ends with the outcome that the
rule of its symbol reads. -/
theorem serves (hstop : stop.kind = .eof) (hturns : start.tokens.length ≤ turns)
    (hheight : callHeight room symbol ≤ height) :
    Serves start stop extra (call turns height) room symbol := by
  induction room, symbol using symbol_induction generalizing height with
  | atom room ih =>
    simp only [callHeight] at hheight
    obtain ⟨height, rfl⟩ : ∃ less, height = less + 1 := ⟨height - 1, by omega⟩
    refine fun _ _ _ _ h => h.ends_call hstop (h.ends_atom hstop ?_)
    rintro inner rfl
    exact ih inner rfl (by simp only [callHeight]; omega)
  | factor room ih ihpower =>
    simp only [callHeight] at hheight
    obtain ⟨height, rfl⟩ : ∃ less, height = less + 1 := ⟨height - 1, by omega⟩
    refine fun _ _ _ _ h => h.ends_call hstop (h.ends_factor hstop ?_ ?_)
    · rintro inner rfl
      exact ih inner rfl (by simp only [callHeight]; omega)
    · exact ihpower (by simp only [callHeight]; omega)
  | chain room rank ih =>
    rw [callHeight_chain] at hheight
    obtain ⟨height, rfl⟩ : ∃ less, height = less + 1 := ⟨height - 1, by omega⟩
    exact fun _ _ _ _ h => h.ends_call hstop (h.ends_chain hstop hturns (ih (by omega)))

end Operands

end Abacus.Parser
