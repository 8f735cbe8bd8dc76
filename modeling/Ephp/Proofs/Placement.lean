import Ephp.Proofs.Collect
import Ephp.Proofs.Written

/-!
# Where a match is written

A match is written when a level is left or the source ends, and the next header replaces it if it is
still held then.  What happens to it does not depend on what it is, so that its place in the output
is described by what becomes of all the matches that could be held instead.
-/

namespace Ephp
namespace Match

/-- The lines of the match, indented. -/
def block (collected : Match) (level : Int) : List Text :=
  collected.lines.map (Text.indentation level ++ ·)

variable {collected : Match}

@[simp]
theorem add_nil : collected.add [] = collected := by
  simp [add]

theorem add_add (first second : List Arm) :
    (collected.add first).add second = collected.add (first ++ second) := by
  simp [add]

theorem lines_eq_of_ne_nil (written : collected.lines ≠ []) : collected.isOpen = true ∧
    ∃ opening, ∀ arms, (collected.add arms).lines =
      opening :: (collected.arms ++ arms).map armLine ++ ["\x7d;".toList] := by
  unfold lines at written
  split at written
  · rename_i complete
    obtain ⟨isOpen, some_arm⟩ := Bool.and_eq_true_iff.mp complete
    split at written
    · rename_i opening found
      refine ⟨isOpen, opening, fun arms => ?_⟩
      have still : ((collected.add arms).isOpen && !(collected.add arms).arms.isEmpty) = true := by
        have nonempty : collected.arms ≠ [] := by simpa using some_arm
        exact Bool.and_eq_true_iff.mpr ⟨isOpen, by simp [add, nonempty]⟩
      have same : (collected.add arms).opening? = some opening := found
      rw [lines, if_pos still, same]
      rfl
    · exact absurd rfl written
  · exact absurd rfl written

theorem isOpen_of_lines_ne_nil (written : collected.lines ≠ []) : collected.isOpen = true :=
  (lines_eq_of_ne_nil written).1

theorem lines_add_ne_nil (written : collected.lines ≠ []) (arms : List Arm) :
    (collected.add arms).lines ≠ [] := by
  obtain ⟨_, opening, lines⟩ := lines_eq_of_ne_nil written
  simp [lines arms]

theorem length_block_add (written : collected.lines ≠ []) (arms : List Arm) (level : Int) :
    ((collected.add arms).block level).length = collected.arms.length + arms.length + 2 := by
  obtain ⟨_, opening, lines⟩ := lines_eq_of_ne_nil written
  simp [block, lines arms]
  omega

end Match

namespace State

/-- The state with another match being collected. -/
def holding (collected : Match) (state : State) : State :=
  { state with collected := collected }

/-- Whether a line at an indentation leaves a level. -/
def leaves (indent : Int) (state : State) : Bool :=
  state.levels.head?.any (indent < ·)

theorem dedent_of_not_leaves {indent : Int} {state : State} (stays : state.leaves indent = false) :
    state.dedent indent = state := by
  refine dedent_eq_self fun level top => ?_
  rw [leaves, Option.mem_def.mp top] at stays
  simpa using stays

/-- Where a level is left, the match is written in front of everything else, and nothing remains of
it. -/
theorem dedent_holding {indent : Int} {state : State} (left : state.leaves indent = true) :
    ∃ level bare, ∀ collected : Match, collected.lines ≠ [] →
      (state.holding collected).dedent indent =
        State.behind (state.lines ++ collected.block level) bare := by
  obtain ⟨level, top, deeper⟩ := (Option.any_eq_true _ _).mp left
  obtain ⟨below, open_eq⟩ : ∃ below, state.levels = level :: below := by
    cases open_eq : state.levels with
    | nil => simp [open_eq] at top
    | cons first below => exact ⟨below, by simpa [open_eq] using top⟩
  let popped : State := { state.pop below with collected := .absent, lines := [] }
  let closed : State :=
    if state.blocks.head? = some .doLoop ∧ state.doPending = true then popped
    else popped.close state.blocks.head? level
  refine ⟨below.head?.getD 0, closed.dedent indent, fun collected written => ?_⟩
  have flushed : ((state.holding collected).pop below).flushMatch =
      popped.behind (state.lines ++ collected.block (below.head?.getD 0)) := by
    cases found : collected.lines with
    | nil => exact absurd found written
    | cons first rest =>
        simp [flushMatch, holding, pop, found, popped, behind, emitAll, Match.block]
  have closed_eq : (state.holding collected).closeTop id level below =
      closed.behind (state.lines ++ collected.block (below.head?.getD 0)) := by
    rw [closeTop_eq, flushed, close_behind]
    exact (apply_ite (State.behind _) _ _ _).symm
  have held : (state.holding collected).levels = level :: below := open_eq
  rw [dedent_of_lt held (by simpa using deeper), closed_eq, dedent_behind]

end State

namespace Conversion

open Statement

/-! ## What becomes of a match -/

/-- Whichever match is held, it is still held after the step, perhaps with more arms. -/
def Holds (step : Conversion Unit) (state after : State) (arms : List Arm) : Prop :=
  ∀ collected : Match, collected.lines ≠ [] →
    step (state.holding collected) = .ok () (after.holding (collected.add arms))

/-- Whichever match is held, nothing remains of it after the step. -/
def Drops (step : Conversion Unit) (state after : State) : Prop :=
  ∀ collected : Match, collected.lines ≠ [] → step (state.holding collected) = .ok () after

/-- Whichever match is held, the step writes it, perhaps with more arms, in one and the same place.
Nothing else that the step does depends on the match. -/
def Writes (step : Conversion Unit) (state : State) : Prop :=
  ∃ above level arms bare, ∀ collected : Match, collected.lines ≠ [] →
    step (state.holding collected) =
      .ok () (State.behind (above ++ (collected.add arms).block level) bare)

section Sequence

variable {first next : Conversion Unit} {state middle after : State} {arms : List Arm}

theorem Holds.holds {others : List Arm} (one : Holds first state middle arms)
    (rest : Holds next middle after others) :
    Holds (first >>= fun _ => next) state after (arms ++ others) := by
  intro collected written
  rw [bind_apply, one collected written, ← Match.add_add]
  exact rest _ (Match.lines_add_ne_nil written arms)

theorem Holds.drops (one : Holds first state middle arms) (rest : Drops next middle after) :
    Drops (first >>= fun _ => next) state after := by
  intro collected written
  rw [bind_apply, one collected written]
  exact rest _ (Match.lines_add_ne_nil written arms)

theorem Holds.writes (one : Holds first state middle arms) (rest : Writes next middle) :
    Writes (first >>= fun _ => next) state := by
  obtain ⟨above, level, others, bare, rest⟩ := rest
  refine ⟨above, level, arms ++ others, bare, fun collected written => ?_⟩
  rw [bind_apply, one collected written, ← Match.add_add]
  exact rest _ (Match.lines_add_ne_nil written arms)

theorem Drops.drops (one : Drops first state middle) (rest : next middle = .ok () after) :
    Drops (first >>= fun _ => next) state after := by
  intro collected written
  rw [bind_apply, one collected written]
  exact rest

/-- After a match is written, the conversion goes on as if there had not been one. -/
theorem Writes.writes (one : Writes first state)
    (keeps : ∀ above, Keeps (Image (State.behind above)) next)
    {collected : Match} (written : collected.lines ≠ [])
    (done : (first >>= fun _ => next) (state.holding collected) = .ok () after) :
    Writes (first >>= fun _ => next) state := by
  obtain ⟨above, level, arms, bare, one⟩ := one
  rw [bind_apply, one collected written] at done
  obtain ⟨plain, rest, _⟩ := (keeps _).exists_of_image done
  refine ⟨above, level, arms, plain, fun other other_written => ?_⟩
  rw [bind_apply, one other other_written]
  exact (keeps _).image_eq_ok rest

end Sequence

/-! ## The three fates exclude each other -/

/-- Some match is complete. -/
theorem exists_lines_ne_nil : ∃ collected : Match, collected.lines ≠ [] :=
  ⟨⟨some ['x'], some .returned, none, [⟨[['y']], ['z']⟩]⟩, by decide +kernel⟩

/-- A step that leaves as many lines for all matches does not write them. -/
theorem not_writes_of_lines {step : Conversion Unit} {state : State} {lines : List Text}
    (same : ∀ collected : Match, collected.lines ≠ [] →
      ∃ after, step (state.holding collected) = .ok () after ∧ after.lines = lines) :
    ¬Writes step state := by
  rintro ⟨above, level, arms, bare, writes⟩
  obtain ⟨collected, written⟩ := exists_lines_ne_nil
  have lines_eq (more : List Arm) :
      above ++ ((collected.add more).add arms).block level ++ bare.lines = lines := by
    have more_written := Match.lines_add_ne_nil written more
    obtain ⟨after, done, rfl⟩ := same _ more_written
    rw [writes _ more_written] at done
    cases done
    rfl
  -- A match with one more arm is one line longer.
  have longer := congrArg List.length ((lines_eq [⟨[], []⟩]).trans (lines_eq []).symm)
  simp only [Match.add_add, List.length_append, Match.length_block_add written] at longer
  simp at longer

theorem Holds.not_writes {step : Conversion Unit} {state after : State} {arms : List Arm}
    (holds : Holds step state after arms) : ¬Writes step state :=
  not_writes_of_lines fun collected written => ⟨_, holds collected written, rfl⟩

theorem Drops.not_writes {step : Conversion Unit} {state after : State}
    (drops : Drops step state after) : ¬Writes step state :=
  not_writes_of_lines fun collected written => ⟨_, drops collected written, rfl⟩

/-! ## Lines that hold, drop or write a match -/

/-- The match that a line starts. -/
def startedBy? (line : Text) : Option Match :=
  if line.isRemark then none else (read? line.strip).bind (·.started?)

/-- Whether a line has the form of an arm. -/
def isArmLine (line : Text) : Bool :=
  !line.isRemark && (read? line.strip).any (·.isArm)

theorem startedBy?_eq_some {line : Text} {collected : Match}
    (header : startedBy? line = some collected) : line.isRemark = false ∧
      ∃ statement, read? line.strip = some statement ∧ statement.started? = some collected := by
  unfold startedBy? at header
  split at header
  · simp at header
  · rename_i spoken
    exact ⟨by simpa using spoken, Option.bind_eq_some_iff.mp header⟩

theorem parallel_holding (collected : Match) : Parallel (Image (State.holding collected)) where
  names_eq same := by rw [same]; rfl
  emit indent text same := by rw [same]; rfl
  openBlock block level same := by rw [same]; rfl
  named names same := by rw [same]; rfl
  acquire level resource same := by rw [same]; rfl
  levels_eq same := by rw [same]; rfl
  doPending_eq same := by rw [same]; rfl
  casePending_eq same := by rw [same]; rfl
  pop below same := by rw [same]; rfl
  setDoPending pending same := by rw [same]; rfl
  setCasePending pending same := by rw [same]; rfl
  setSwitchPending pending same := by rw [same]; rfl

/-- A step that looks at no match holds it. -/
theorem holds_of_keeps {step : Conversion Unit} {state after : State} {collected : Match}
    (keeps : ∀ collected, Keeps (Image (State.holding collected)) step)
    (done : step (state.holding collected) = .ok () after) :
    ∃ plain, Holds step state plain [] := by
  obtain ⟨plain, plain_done, _⟩ := (keeps collected).exists_of_image done
  refine ⟨plain, fun other _ => ?_⟩
  rw [Match.add_nil]
  exact (keeps other).image_eq_ok plain_done

theorem keeps_convertLine_of_isRemark {line : Text} (remark : line.isRemark = true)
    (collected : Match) : Keeps (Image (State.holding collected)) (convertLine line) := by
  rintro _ state rfl
  exact agree_convertLine (fun _ => rfl) (by simp [remark])

/-- The line is performed behind the blocks that it leaves. -/
theorem convertLine_dedent {line : Text} (spoken : line.isRemark = false) (state : State) :
    convertLine line (state.dedent line.indentOf) = convertLine line state := by
  rw [convertLine_of_isRemark_eq_false spoken, convertBody_eq, convertBody_eq,
    State.dedent_dedent (Int.le_refl _)]

section Line

variable {line : Text} {state after : State} {collected : Match}

/-- A line that leaves a level writes the match. -/
theorem writes_of_leaves (spoken : line.isRemark = false)
    (left : state.leaves line.indentOf = true) (written : collected.lines ≠ [])
    (done : convertLine line (state.holding collected) = .ok () after) :
    Writes (convertLine line) state := by
  obtain ⟨level, bare, dedented⟩ := State.dedent_holding left
  rw [← convertLine_dedent spoken, dedented collected written] at done
  obtain ⟨plain, plain_done, _⟩ := ((synchronous_behind _).convertLine line).exists_of_image done
  refine ⟨state.lines, level, [], plain, fun other other_written => ?_⟩
  rw [← convertLine_dedent spoken, dedented other other_written, Match.add_nil]
  exact ((synchronous_behind _).convertLine line).image_eq_ok plain_done

/-- The header of a match that leaves no level drops the match before it. -/
theorem drops_of_startedBy? {started : Match} (header : startedBy? line = some started)
    (stays : state.leaves line.indentOf = false) :
    ∃ after, Drops (convertLine line) state after := by
  obtain ⟨spoken, statement, found, header⟩ := startedBy?_eq_some header
  obtain ⟨update, starts⟩ := convertLine_of_started? spoken found header
  refine ⟨{ state with names := update state.names, collected := started }, fun other _ => ?_⟩
  have same : (state.holding other).dedent line.indentOf = state.holding other :=
    State.dedent_of_not_leaves stays
  rw [starts, same]
  rfl

/-- An arm that leaves no level is added to the match. -/
theorem holds_of_isArmLine (arm_line : isArmLine line = true)
    (stays : state.leaves line.indentOf = false) (written : collected.lines ≠ [])
    (done : convertLine line (state.holding collected) = .ok () after) :
    ∃ arm, Holds (convertLine line) state state [arm] := by
  obtain ⟨spoken, arm_found⟩ := Bool.and_eq_true_iff.mp arm_line
  obtain ⟨statement, found, is_arm⟩ := (Option.any_eq_true _ _).mp arm_found
  obtain ⟨write, adds⟩ := convertLine_of_isArm (by simpa using spoken) found is_arm
  have same (other : Match) : (state.holding other).dedent line.indentOf = state.holding other :=
    State.dedent_of_not_leaves stays
  have isOpen {other : Match} (other_written : other.lines ≠ []) :
      ((state.holding other).dedent line.indentOf).collected.isOpen = true := by
    rw [same]
    exact Match.isOpen_of_lines_ne_nil other_written
  obtain ⟨arm, wrote, _⟩ := (adds _ _ (isOpen written)).mp done
  refine ⟨arm, fun other other_written => (adds _ _ (isOpen other_written)).mpr ⟨arm, wrote, ?_⟩⟩
  rw [same]
  rfl

/-- Any other line that leaves no level does not look at the match. -/
theorem holds_of_stays (other : startedBy? line = none) (regular : isArmLine line = false)
    (stays : line.isRemark = false → state.leaves line.indentOf = false)
    (done : convertLine line (state.holding collected) = .ok () after) :
    ∃ plain, Holds (convertLine line) state plain [] := by
  cases spoken : line.isRemark with
  | true => exact holds_of_keeps (keeps_convertLine_of_isRemark spoken) done
  | false =>
      have same (held : Match) : (state.holding held).dedent line.indentOf = state.holding held :=
        State.dedent_of_not_leaves (stays spoken)
      -- Without its dedent the line is one step that keeps every match.
      have step_eq : ∃ step : Conversion Unit,
          (∀ held, Keeps (Image (State.holding held)) step) ∧
            ∀ held, convertLine line (state.holding held) = step (state.holding held) := by
        rw [convertLine_of_isRemark_eq_false spoken]
        cases found : read? line.strip with
        | none =>
            refine ⟨convertUnknown line.indentOf line.strip, fun held =>
              ((parallel_holding held).pending line.strip).convertUnknown _, fun held => ?_⟩
            rw [convertBody_eq, found, same]
        | some statement =>
            have is_arm : statement.isArm = false := by
              simpa [isArmLine, spoken, found] using regular
            have header : statement.started? = none := by
              simpa [startedBy?, spoken, found] using other
            refine ⟨statement.perform line.indentOf, fun held =>
              (parallel_holding held).perform _ found is_arm header, fun held => ?_⟩
            have applies :
                statement.applies ((state.holding held).dedent line.indentOf) = true := by
              cases statement <;> first | rfl | cases is_arm
            rw [convertBody_of_applies found applies, same]
      obtain ⟨step, keeps, step_eq⟩ := step_eq
      rw [step_eq] at done
      obtain ⟨plain, holds⟩ := holds_of_keeps keeps done
      exact ⟨plain, fun held written => (step_eq held).trans (holds held written)⟩

end Line

/-! ## The place of a match -/

/-- Convert lines and leave the levels that the line behind them leaves, up to the lines that it
writes itself. -/
def reach (lines : List Text) (later : Text) : Conversion Unit := do
  convertLines lines
  modify (·.dedent later.indentOf)

theorem reach_cons (line : Text) (lines : List Text) (later : Text) :
    reach (line :: lines) later = convertLine line >>= fun _ => reach lines later := by
  rw [reach, convertLines_cons, bind_assoc]
  rfl

theorem keeps_reach (above : List Text) (lines : List Text) (later : Text) :
    Keeps (Image (State.behind above)) (reach lines later) :=
  ((synchronous_behind above).convertLines lines).bind fun _ =>
    .modify fun same => (synchronous_behind above).dedent _ same

/-- One of the lines leaves a level, and none of the lines in front of it starts a match. -/
def LeavesFirst (lines : List Text) (state : State) : Prop :=
  ∃ before line after reached, lines = before ++ line :: after ∧
    (∀ other ∈ before, startedBy? other = none) ∧ convertLines before state = .ok () reached ∧
      line.isRemark = false ∧ reached.leaves line.indentOf = true

theorem leavesFirst_cons {line : Text} {lines : List Text} {state : State} :
    LeavesFirst (line :: lines) state ↔
      (line.isRemark = false ∧ state.leaves line.indentOf = true) ∨
        startedBy? line = none ∧
          ∃ middle, convertLine line state = .ok () middle ∧ LeavesFirst lines middle := by
  constructor
  · rintro ⟨before, leaving, after, reached, split, plain, done, spoken, left⟩
    cases before with
    | nil =>
        obtain ⟨rfl, rfl⟩ := List.cons.inj split
        cases done
        exact .inl ⟨spoken, left⟩
    | cons first before =>
        obtain ⟨rfl, rfl⟩ := List.cons.inj split
        obtain ⟨first_plain, plain⟩ := List.forall_mem_cons.mp plain
        obtain ⟨middle, one, rest⟩ := convertLines_cons_eq_ok.mp done
        exact .inr ⟨first_plain, middle, one, before, leaving, after, reached, rfl, plain, rest,
          spoken, left⟩
  · rintro (⟨spoken, left⟩ | ⟨first_plain, middle, one, before, leaving, after, reached, rfl, plain,
      rest, spoken, left⟩)
    · exact ⟨[], line, lines, state, rfl, by simp, rfl, spoken, left⟩
    · exact ⟨line :: before, leaving, after, reached, rfl,
        List.forall_mem_cons.mpr ⟨first_plain, plain⟩,
        convertLines_cons_eq_ok.mpr ⟨middle, one, rest⟩, spoken, left⟩

theorem not_leavesFirst_nil (state : State) : ¬LeavesFirst [] state := by
  rintro ⟨before, line, after, _, split, _⟩
  simp at split

/-- Up to the lines of a later line a match is written, held or dropped, and it is written if a
level is left before another match is started. -/
theorem fate_of_reach {lines : List Text} {later : Text} {state reached : State}
    {collected : Match} (spoken : later.isRemark = false) (written : collected.lines ≠ [])
    (done : convertLines lines (state.holding collected) = .ok () reached) :
    LeavesFirst (lines ++ [later]) (state.holding collected) ∧ Writes (reach lines later) state ∨
      ¬LeavesFirst (lines ++ [later]) (state.holding collected) ∧
        ((∃ after arms, Holds (reach lines later) state after arms) ∨
          ∃ after, Drops (reach lines later) state after) := by
  induction lines generalizing state collected with
  | nil =>
      rw [List.nil_append, leavesFirst_cons]
      cases left : state.leaves later.indentOf with
      | true =>
          obtain ⟨level, bare, dedented⟩ := State.dedent_holding left
          refine .inl ⟨.inl ⟨spoken, left⟩, state.lines, level, [], bare, ?_⟩
          intro other other_written
          rw [Match.add_nil, ← dedented other other_written]
          rfl
      | false =>
          refine .inr ⟨?_, .inl ⟨state, [], fun other _ => ?_⟩⟩
          · rintro (⟨_, leaving⟩ | ⟨_, middle, _, none_left⟩)
            · exact Bool.false_ne_true (left.symm.trans leaving)
            · exact not_leavesFirst_nil middle none_left
          · have same : (state.holding other).dedent later.indentOf = state.holding other :=
              State.dedent_of_not_leaves left
            rw [Match.add_nil]
            exact congrArg (EStateM.Result.ok ()) same
  | cons line lines ih =>
      obtain ⟨middle, one, rest⟩ := convertLines_cons_eq_ok.mp done
      have arrives : reach lines later middle = .ok () (reached.dedent later.indentOf) :=
        bind_eq_ok.mpr ⟨(), reached, rest, rfl⟩
      rw [List.cons_append, leavesFirst_cons, reach_cons]
      by_cases leaving : line.isRemark = false ∧ state.leaves line.indentOf = true
      · have writes := writes_of_leaves leaving.1 leaving.2 written one
        exact .inl ⟨.inl leaving, writes.writes (keeps_reach · lines later) written
          (bind_eq_ok.mpr ⟨(), middle, one, arrives⟩)⟩
      have stays (spoken : line.isRemark = false) : state.leaves line.indentOf = false := by
        simpa [spoken] using leaving
      cases header : startedBy? line with
      | some started =>
          obtain ⟨after, drops⟩ :=
            drops_of_startedBy? header (stays (startedBy?_eq_some header).1)
          rw [drops collected written] at one
          cases one
          refine .inr ⟨?_, .inr ⟨_, drops.drops arrives⟩⟩
          rintro (left | ⟨plain, _⟩)
          · exact leaving left
          · simp at plain
      | none =>
          obtain ⟨plain, arms, holds⟩ :
              ∃ plain arms, Holds (convertLine line) state plain arms := by
            cases arm_line : isArmLine line with
            | true =>
                have spoken : line.isRemark = false := by
                  simpa using (Bool.and_eq_true_iff.mp arm_line).1
                obtain ⟨arm, holds⟩ := holds_of_isArmLine arm_line (stays spoken) written one
                exact ⟨state, [arm], holds⟩
            | false =>
                obtain ⟨plain, holds⟩ := holds_of_stays header arm_line stays one
                exact ⟨plain, [], holds⟩
          have step := holds collected written
          rw [step] at one
          cases one
          rcases ih (Match.lines_add_ne_nil written arms) rest with
            ⟨leaves, writes⟩ | ⟨remains, fate⟩
          · exact .inl ⟨.inr ⟨rfl, _, step, leaves⟩, holds.writes writes⟩
          · refine .inr ⟨?_, ?_⟩
            · rintro (left | ⟨_, middle, one, leaves⟩)
              · exact leaving left
              · rw [step] at one
                cases one
                exact remains leaves
            · rcases fate with ⟨after, others, rest⟩ | ⟨after, rest⟩
              · exact .inl ⟨after, _, holds.holds rest⟩
              · exact .inr ⟨after, holds.drops rest⟩

/-- A match is written in front of the lines of a later line exactly if up to there a level is left
before another match is started. -/
theorem writes_reach_iff {lines : List Text} {later : Text} {state reached : State}
    {collected : Match} (spoken : later.isRemark = false) (written : collected.lines ≠ [])
    (done : convertLines lines (state.holding collected) = .ok () reached) :
    Writes (reach lines later) state ↔
      LeavesFirst (lines ++ [later]) (state.holding collected) := by
  rcases fate_of_reach spoken written done with
    ⟨leaves, writes⟩ | ⟨remains, ⟨_, _, holds⟩ | ⟨_, drops⟩⟩
  · exact iff_of_true writes leaves
  · exact iff_of_false holds.not_writes remains
  · exact iff_of_false drops.not_writes remains

/-! ## A header with its arms -/

theorem lines_add_ne_nil_of_startedBy? {header : Text} {started : Match} {arms : List Arm}
    (starts : startedBy? header = some started) (nonempty : arms ≠ []) :
    (started.add arms).lines ≠ [] := by
  obtain ⟨_, statement, found, starts⟩ := startedBy?_eq_some starts
  have complete : ((started.add arms).isOpen && !(started.add arms).arms.isEmpty) = true := by
    have isOpen : started.isOpen = true := isOpen_of_started? found starts
    exact Bool.and_eq_true_iff.mpr ⟨isOpen, by simp [Match.add, nonempty]⟩
  obtain ⟨opening, used⟩ : ∃ opening, (started.add arms).opening? = some opening := by
    cases statement with
    | matchAssign target subject =>
        cases starts
        exact ⟨_, rfl⟩
    | matchReturn subject =>
        cases starts
        exact ⟨_, rfl⟩
    | _ => cases starts
  rw [Match.lines, if_pos complete, used]
  simp

/-- Arms that are indented further than the innermost level are all added to an open match. -/
theorem collected_of_arms {indent : Int} {arms : List Text} {state after : State}
    (deeper : ∀ line ∈ arms, line.isRemark = true ∨ isArmLine line = true ∧ indent < line.indentOf)
    (done : convertLines arms state = .ok () after)
    (inside : ∀ level ∈ state.levels.head?, level ≤ indent)
    (isOpen : state.collected.isOpen = true) :
    ∃ added, after.collected = state.collected.add added ∧
      added.length = arms.countP isArmLine := by
  induction arms generalizing state with
  | nil =>
      cases done
      exact ⟨[], Match.add_nil.symm, rfl⟩
  | cons line arms ih =>
      obtain ⟨first, deeper⟩ := List.forall_mem_cons.mp deeper
      obtain ⟨middle, one, rest⟩ := convertLines_cons_eq_ok.mp done
      rcases first with remark | ⟨arm_line, further⟩
      · rcases convertLine_eq_ok one with ⟨_, text, _, rfl⟩ | ⟨spoken, _⟩
        · obtain ⟨added, collected, count⟩ := ih deeper rest inside isOpen
          refine ⟨added, collected, ?_⟩
          rw [List.countP_cons_of_neg (by simp [isArmLine, remark]), count]
        · simp [remark] at spoken
      · obtain ⟨spoken, arm_found⟩ := Bool.and_eq_true_iff.mp arm_line
        obtain ⟨statement, found, is_arm⟩ := (Option.any_eq_true _ _).mp arm_found
        obtain ⟨write, adds⟩ := convertLine_of_isArm (by simpa using spoken) found is_arm
        have same : state.dedent line.indentOf = state :=
          State.dedent_eq_self fun level top => by
            have := inside level top
            omega
        obtain ⟨arm, _, rfl⟩ := (adds _ _ (by rw [same]; exact isOpen)).mp one
        rw [same] at rest
        obtain ⟨added, collected, count⟩ := ih deeper rest inside isOpen
        refine ⟨arm :: added, collected.trans (Match.add_add [arm] added), ?_⟩
        rw [List.countP_cons_of_pos arm_line, List.length_cons, count]

/-- A header and its arms are collected as one match. -/
theorem collected_of_header {header : Text} {arms : List Text} {started : Match}
    {state after : State} (starts : startedBy? header = some started)
    (deeper : ∀ line ∈ arms, line.isRemark = true ∨
      isArmLine line = true ∧ header.indentOf < line.indentOf)
    (done : convertLines (header :: arms) state = .ok () after) :
    ∃ added, after.collected = started.add added ∧ added.length = arms.countP isArmLine := by
  obtain ⟨middle, one, rest⟩ := convertLines_cons_eq_ok.mp done
  obtain ⟨spoken, statement, found, header_found⟩ := startedBy?_eq_some starts
  obtain ⟨update, begins⟩ := convertLine_of_started? spoken found header_found
  rw [begins] at one
  cases one
  have isOpen : started.isOpen = true := isOpen_of_started? found header_found
  exact collected_of_arms deeper rest (fun level top => State.dedent_levels_head_le top) isOpen

/-- In a source that is converted, a header of a match and the arms behind it are collected.  The
match is written in front of the lines of a later statement exactly if up to there a level is left
before another match is started; otherwise it is still held there, or it is lost. -/
theorem writes_iff_leavesFirst {source text : Text} {final : State}
    {front arms between back : List Text} {header later : Text} {started : Match}
    (lines : source.lines = front ++ header :: arms ++ (between ++ later :: back))
    (starts : startedBy? header = some started)
    (deeper : ∀ line ∈ arms, line.isRemark = true ∨
      isArmLine line = true ∧ header.indentOf < line.indentOf)
    (some_arm : ∃ line ∈ arms, isArmLine line = true) (spoken : later.isRemark = false)
    (done : convert source State.initial = .ok text final) :
    ∃ state reached added,
      convertLines (front ++ header :: arms) State.initial.reset = .ok () state ∧
        (state.collected = started.add added ∧ added.length = arms.countP isArmLine ∧
          state.collected.lines ≠ []) ∧
        (reach between later state = .ok () reached ∧ List.IsPrefix reached.lines final.lines ∧
          text = Text.join ['\n'] final.lines) ∧
        (Writes (reach between later) state ↔ LeavesFirst (between ++ [later]) state) ∧
        (¬LeavesFirst (between ++ [later]) state →
          (∃ after arms, Holds (reach between later) state after arms) ∨
            ∃ after, Drops (reach between later) state after) := by
  obtain ⟨after, all_done, rfl, rfl⟩ := convert_eq_ok.mp done
  rw [lines] at all_done
  obtain ⟨state, front_done, rest⟩ := convertLines_append_eq_ok.mp all_done
  obtain ⟨_, _, arms_done⟩ := convertLines_append_eq_ok.mp front_done
  obtain ⟨middle, between_done, rest⟩ := convertLines_append_eq_ok.mp rest
  obtain ⟨added, collected, count⟩ := collected_of_header starts deeper arms_done
  have nonempty : added ≠ [] := by
    have positive := List.countP_pos_iff.mpr some_arm
    exact List.ne_nil_of_length_pos (by omega)
  have written : state.collected.lines ≠ [] := by
    rw [collected]
    exact lines_add_ne_nil_of_startedBy? starts nonempty
  -- The later line first leaves levels, and its own lines come behind that.
  have resumes : convertLines (later :: back) (middle.dedent later.indentOf) = .ok () after := by
    rw [convertLines_cons, bind_apply, convertLine_dedent spoken, ← bind_apply, ← convertLines_cons]
    exact rest
  refine ⟨state, middle.dedent later.indentOf, added, front_done, ⟨collected, count, written⟩,
    ⟨bind_eq_ok.mpr ⟨(), middle, between_done, rfl⟩, ?_, rfl⟩,
    writes_reach_iff spoken written between_done, fun remains => ?_⟩
  · exact (lines_isPrefix_of_convertLines resumes).trans (State.lines_isPrefix_closeAll after)
  · rcases fate_of_reach spoken written between_done with ⟨leaves, _⟩ | ⟨_, fate⟩
    · exact absurd leaves remains
    · exact fate

/-- A match at the end of a function. -/
def finalMatch : Text :=
  ("func f(x) int:\n    v = match x:\n        case 1: 2\n        # or\n" ++
    "        default: 3\nprint(1)").toList

theorem writes_iff_leavesFirst_finalMatch :
    ∃ state, convertLines (finalMatch.lines.take 5) State.initial.reset = .ok () state ∧
      state.collected.arms.length = 2 ∧ Writes (reach [] "print(1)".toList) state := by
  have lines : finalMatch.lines = ["func f(x) int:".toList] ++ "    v = match x:".toList ::
      ["        case 1: 2".toList, "        # or".toList, "        default: 3".toList] ++
        ([] ++ "print(1)".toList :: []) := by decide +kernel
  have starts : startedBy? "    v = match x:".toList =
      some ⟨some ['x'], some .assigned, some ['v'], []⟩ := by decide +kernel
  have returned : (convert finalMatch).returns State.initial = true := by decide +kernel
  have collects : (convertLines (finalMatch.lines.take 5)).passes (fun _ after =>
      after.leaves 0 && after.collected.arms.length == 2) State.initial.reset = true := by
    decide +kernel
  obtain ⟨text, final, done⟩ := returns_iff.mp returned
  obtain ⟨_, state, run, test⟩ := passes_iff.mp collects
  obtain ⟨left, count⟩ := Bool.and_eq_true_iff.mp test
  obtain ⟨other, _, _, other_run, _, _, writes, _⟩ :=
    writes_iff_leavesFirst lines starts (by decide +kernel) (by decide +kernel) (by decide +kernel)
      done
  obtain rfl : state = other := by
    rw [lines, List.take_left' (by rfl), other_run] at run
    cases run
    rfl
  exact ⟨state, run, beq_iff_eq.mp count,
    writes.mpr (leavesFirst_cons.mpr (.inl ⟨by decide +kernel, left⟩))⟩

/-- A match that is followed by a statement at its own indentation. -/
def followedMatch : Text :=
  "v = match x:\n    case 1: 2\nprint(v)".toList

/-- The match is written behind the statement that follows it. -/
theorem not_writes_followedMatch :
    (∃ state, convertLines (followedMatch.lines.take 2) State.initial.reset = .ok () state ∧
      state.collected.arms.length = 1 ∧ ¬Writes (reach [] "print(v)".toList) state) ∧
    ∃ final, convert followedMatch State.initial = .ok (Text.join ['\n'] (banner ++
      ["echo $v;".toList, "$v = match ($x) \x7b".toList, "    1 => 2,".toList,
        "\x7d;".toList])) final := by
  have collects : (convertLines (followedMatch.lines.take 2)).passes (fun _ after =>
      !after.leaves 0 && after.collected.arms.length == 1 && !after.collected.lines.isEmpty)
        State.initial.reset = true := by decide +kernel
  have converts : (convert followedMatch).passes (fun text _ => text == Text.join ['\n'] (banner ++
      ["echo $v;".toList, "$v = match ($x) \x7b".toList, "    1 => 2,".toList,
        "\x7d;".toList])) State.initial = true := by decide +kernel
  constructor
  · obtain ⟨_, state, run, test⟩ := passes_iff.mp collects
    simp only [Bool.and_eq_true, Bool.not_eq_true', beq_iff_eq, List.isEmpty_eq_false_iff] at test
    obtain ⟨⟨stays, count⟩, written⟩ := test
    refine ⟨state, run, count, fun writes => ?_⟩
    have leaves : LeavesFirst ([] ++ ["print(v)".toList]) state :=
      (writes_reach_iff (by decide +kernel) written (convertLines_nil state)).mp writes
    rcases leavesFirst_cons.mp leaves with ⟨_, left⟩ | ⟨_, middle, _, none_left⟩
    · exact Bool.false_ne_true (stays.symm.trans left)
    · exact not_leavesFirst_nil middle none_left
  · obtain ⟨text, final, done, same⟩ := passes_iff.mp converts
    exact ⟨final, beq_iff_eq.mp same ▸ done⟩

end Conversion
end Ephp
