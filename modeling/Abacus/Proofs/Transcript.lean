import Abacus.Proofs.TypedInput

/-!
What a session prints. Its lines are answered one after the other, and a line sees of the lines
before it only how often each flag's command was among them: the options in force at a line are
the first ones with every flag flipped once for each of its commands.
-/
namespace Abacus

inductive Flag
  | tokens
  | tree
  | program
  | trace
  | json
deriving DecidableEq

namespace Flag

def name : Flag → String
  | tokens => "tokens"
  | tree => "ast"
  | program => "bytecode"
  | trace => "trace"
  | json => "json"

def command (flag : Flag) : String := ":" ++ flag.name

/-- Whether lines flip a flag: an odd number of them, once trimmed, is its command. -/
def flipped (flag : Flag) (lines : List String) : Bool :=
  lines.countP (Text.trim · = flag.command) % 2 = 1

theorem toList_command (flag : Flag) : flag.command.toList = ':' :: flag.name.toList := by
  rw [command, String.toList_append]
  rfl

theorem command_inj {flag other : Flag} (h : flag.command = other.command) : flag = other := by
  cases flag <;> cases other <;> first | rfl | (revert h; decide)

theorem flipped_cons (flag : Flag) (line : String) (later : List String) :
    flag.flipped (line :: later) =
      (decide (Text.trim line = flag.command) ^^ flag.flipped later) := by
  by_cases hline : Text.trim line = flag.command
  · simp only [flipped, List.countP_cons, hline, decide_true, if_true, Bool.true_xor]
    rw [← decide_not, decide_eq_decide]
    omega
  · simp [flipped, hline]

end Flag

namespace Options

def isOn (options : Options) : Flag → Bool
  | .tokens => options.tokens
  | .tree => options.tree
  | .program => options.program
  | .trace => options.trace
  | .json => options.json

def ofFlags (on : Flag → Bool) : Options :=
  ⟨on .tokens, on .tree, on .program, on .trace, on .json⟩

@[simp] theorem ofFlags_isOn (options : Options) : ofFlags options.isOn = options := rfl

@[simp] theorem isOn_ofFlags (on : Flag → Bool) : (ofFlags on).isOn = on := by
  funext flag
  cases flag <;> rfl

def inForce (options : Options) (lines : List String) : Options :=
  ofFlags fun flag => options.isOn flag ^^ flag.flipped lines

@[simp] theorem inForce_nil (options : Options) : options.inForce [] = options := by
  simp [inForce, Flag.flipped]

theorem inForce_cons (options : Options) (line : String) (later : List String) :
    options.inForce (line :: later) = (options.inForce [line]).inForce later := by
  have hnone : ∀ flag : Flag, flag.flipped [] = false := fun _ => rfl
  simp only [inForce, isOn_ofFlags, Flag.flipped_cons, hnone, Bool.xor_false, Bool.xor_assoc]

/-- A line that is no flag's command leaves the options as they were. -/
theorem inForce_of_ne {line : String} (h : ∀ flag : Flag, Text.trim line ≠ flag.command)
    (options : Options) : options.inForce [line] = options := by
  simp [inForce, Flag.flipped, h]

/-- A flag's command flips the flag and leaves the others. -/
theorem inForce_of_eq {line : String} {flag : Flag} (h : Text.trim line = flag.command)
    (options : Options) :
    options.inForce [line] = ofFlags fun other => options.isOn other ^^ decide (flag = other) := by
  have hother : ∀ other : Flag, other.flipped [line] = decide (flag = other) := by
    intro other
    rw [Flag.flipped_cons, h]
    simpa [Flag.flipped] using ⟨Flag.command_inj, fun heq => congrArg Flag.command heq⟩
  simp only [inForce, hother]

end Options

namespace Session

def isFarewell (line : String) : Bool := Text.trim line = "exit" || Text.trim line = "quit"

def IsSource (line : String) : Prop :=
  Text.trim line ≠ "" ∧ isFarewell line = false ∧ (Text.trim line).toList.head? ≠ some ':'

def outputs (calculator : Calculator) (options : Options) (lines : List String) : List Output :=
  lines.mapIdx fun index line => (turn ⟨calculator, options.inForce (lines.take index)⟩ line).output

theorem turn_of_farewell (session : Session) {line : String} (h : isFarewell line) :
    session.turn line = ⟨.line "Goodbye!", none⟩ := by
  rw [isFarewell, Bool.or_eq_true, decide_eq_true_eq, decide_eq_true_eq] at h
  rcases h with h | h
  all_goals
    rw [turn, h]
    rfl

/-- A source is answered as it is outside of a session. -/
theorem turn_of_isSource (session : Session) {line : String} (h : IsSource line) :
    session.turn line =
      session.stay (session.calculator.respond session.options (Text.trim line) none).output := by
  obtain ⟨hblank, hfarewell, hcolon⟩ := h
  rw [isFarewell] at hfarewell
  rw [turn]
  split
  · next hchars => exact absurd (String.toList_eq_nil_iff.mp hchars) hblank
  · next name hchars => exact absurd (congrArg List.head? hchars) hcolon
  · rw [if_neg (Bool.eq_false_iff.mp hfarewell)]

/-- A command is the name of a flag, which it flips, or it leaves the session as it was. -/
theorem next_command (session : Session) (name : String) :
    (∃ flag : Flag, name = flag.name ∧ (session.command name).next =
      some { session with
        options := .ofFlags fun other => session.options.isOn other ^^ decide (flag = other) }) ∨
    ((∀ flag : Flag, name ≠ flag.name) ∧ (session.command name).next = some session) := by
  have hflip : ∀ flag : Flag, (session.command flag.name).next =
      some { session with
        options := .ofFlags fun other => session.options.isOn other ^^ decide (flag = other) } := by
    intro flag
    cases flag <;> simp [command, toggle, Flag.name, Options.ofFlags, Options.isOn]
  by_cases hname : ∃ flag : Flag, name = flag.name
  · obtain ⟨flag, rfl⟩ := hname
    exact .inl ⟨flag, rfl, hflip flag⟩
  · have hne : ∀ flag : Flag, name ≠ flag.name := fun flag h => hname ⟨flag, h⟩
    refine .inr ⟨hne, ?_⟩
    rw [command.eq_def]
    dsimp only
    split
    · exact absurd rfl (hne .tokens)
    · exact absurd rfl (hne .tree)
    · exact absurd rfl (hne .program)
    · exact absurd rfl (hne .trace)
    · exact absurd rfl (hne .json)
    · rfl
    · rfl
    · rfl

/-- A line that is no farewell passes on the options in force after it, and nothing else. -/
theorem next_turn (calculator : Calculator) (options : Options) {line : String}
    (h : isFarewell line = false) :
    (turn ⟨calculator, options⟩ line).next = some ⟨calculator, options.inForce [line]⟩ := by
  rw [isFarewell] at h
  rw [turn]
  split
  · next hchars =>
    rw [Options.inForce_of_ne]
    · rfl
    · intro flag hflag
      rw [hflag, Flag.toList_command] at hchars
      cases hchars
  · next name hchars =>
    have hline : Text.trim line = ":" ++ String.ofList name := by
      rw [← String.toList_inj, hchars, String.toList_append]
      simp
    obtain ⟨flag, hname, hnext⟩ | ⟨hname, hnext⟩ :=
      next_command ⟨calculator, options⟩ (String.ofList name)
    · rw [hnext, Options.inForce_of_eq (hline.trans (congrArg (":" ++ ·) hname))]
    · rw [hnext, Options.inForce_of_ne]
      intro flag hflag
      have hchars' := congrArg String.toList (hline.symm.trans hflag)
      rw [Flag.toList_command, ← hline, hchars, List.cons.injEq] at hchars'
      exact hname flag (String.toList_inj.mp (by simpa using hchars'.2))
  · next hcolon =>
    rw [if_neg (Bool.eq_false_iff.mp h), Options.inForce_of_ne]
    · rfl
    · intro flag hflag
      exact hcolon flag.name.toList (hflag ▸ flag.toList_command)

/-- What a line prints, then what the lines after it print in the session it leaves. -/
theorem outputs_cons (calculator : Calculator) (options : Options) (line : String)
    (later : List String) :
    outputs calculator options (line :: later) =
      (turn ⟨calculator, options⟩ line).output ::
        outputs calculator (options.inForce [line]) later := by
  rw [outputs, List.mapIdx_cons, outputs, List.take_zero, Options.inForce_nil]
  simp only [List.take_succ_cons, ← Options.inForce_cons]

def ending (lines : List String) : Output := .line (if lines.any isFarewell then "Goodbye!" else "")

def prompted (shown : List Output) (last : Output) : Output :=
  shown.foldr (fun output later => prompt ++ output ++ later) (prompt ++ last)

theorem stdout_prompted (shown : List Output) (last : Output) :
    (prompted shown last).stdout =
      String.join (shown.map ("> " ++ ·.stdout)) ++ "> " ++ last.stdout := by
  induction shown with
  | nil => simp [prompted, prompt, Output.stdout_append]
  | cons output later ih =>
    rw [prompted] at ih
    rw [prompted, List.foldr_cons, Output.stdout_append, Output.stdout_append, ih, List.map_cons,
      String.join_cons, prompt]
    simp only [String.append_assoc]

theorem stderr_prompted (shown : List Output) (last : Output) :
    (prompted shown last).stderr = shown.flatMap (·.stderr) ++ last.stderr := by
  induction shown with
  | nil => rfl
  | cons output later ih =>
    rw [prompted] at ih
    rw [prompted, List.foldr_cons, Output.stderr_append, ih, List.flatMap_cons, List.append_assoc]
    rfl

/-- A session answers its lines one by one, up to the first farewell. -/
theorem converse_map_some (calculator : Calculator) (options : Options) (lines : List String) :
    converse ⟨calculator, options⟩ (lines.map some) =
      prompted (outputs calculator options (lines.takeWhile (!isFarewell ·))) (ending lines) := by
  -- Each line passes on the options in force after it, so the induction is for all options at once.
  induction lines generalizing options with
  | nil => rfl
  | cons line later ih =>
    rw [List.map_cons, converse, turnOf]
    by_cases hline : isFarewell line
    · rw [turn_of_farewell _ hline, ending, List.any_cons, hline,
        List.takeWhile_cons_of_neg (by simpa using hline)]
      rfl
    · rw [Bool.not_eq_true] at hline
      have hending : ending (line :: later) = ending later := by
        rw [ending, List.any_cons, hline, Bool.false_or, ending]
      rw [next_turn calculator options hline, List.takeWhile_cons_of_pos (by simpa using hline),
        outputs_cons, hending]
      dsimp only
      rw [ih, prompted, prompted, List.foldr_cons]

/-- What a session prints when text is typed into it: its banner, then for each line up to the
first farewell the prompt and what the line prints under the options in force at it, then the
prompt and the farewell, or a line end when the input is over. The messages are those of the lines
in their order. A source prints what it prints outside of a session, and a line that is no flag's
command changes nothing. -/
theorem transcript_typed (calculator : Calculator) (options : Options) (text : String) :
    let lines := typedLines text
    let shown := outputs calculator options (lines.takeWhile (!isFarewell ·))
    let printed := transcript ⟨calculator, options⟩ (inputLines text.toUTF8)
    printed.stdout = banner.stdout ++ String.join (shown.map ("> " ++ ·.stdout)) ++ "> " ++
      (if lines.any isFarewell then "Goodbye!\n" else "\n") ∧
    printed.stderr = shown.flatMap (·.stderr) ∧
    ∀ (earlier : List String) (line : String),
      let session : Session := ⟨calculator, options.inForce earlier⟩
      (IsSource line → (session.turn line).output =
        (calculator.respond (options.inForce earlier) (Text.trim line) none).output) ∧
      (isFarewell line = false → (∀ flag : Flag, Text.trim line ≠ flag.command) →
        (session.turn line).next = some session) := by
  intro lines shown printed
  have hprinted : printed = banner ++ prompted shown (ending lines) := by
    rw [← converse_map_some, ← inputLines_toUTF8]
    rfl
  refine ⟨?_, ?_, fun earlier line => ⟨fun hline => ?_, fun hline hflag => ?_⟩⟩
  · have hending : (ending lines).stdout =
        if lines.any isFarewell then "Goodbye!\n" else "\n" := by
      rw [ending]
      split <;> rfl
    rw [hprinted, Output.stdout_append, stdout_prompted, hending]
    simp only [String.append_assoc]
  · rw [hprinted, Output.stderr_append, stderr_prompted]
    exact List.append_nil _
  · rw [turn_of_isSource _ hline]
    rfl
  · rw [next_turn calculator _ hline, Options.inForce_of_ne hflag]

end Session
end Abacus
