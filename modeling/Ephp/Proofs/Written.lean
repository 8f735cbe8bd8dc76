import Ephp.Proofs.Dedent
import Ephp.Proofs.Lockstep

/-!
# Lines that are written already

A conversion only adds to the lines that it has written, and it never looks at them.  With other
lines in front it does the same.  So leaving blocks in two stages writes the lines of the one stage
and then the lines of the other, and together these are the lines of leaving the blocks at once.
-/

namespace Ephp
namespace State

/-- The state with lines put in front of those that it has written. -/
def behind (above : List Text) (state : State) : State :=
  { state with lines := above ++ state.lines }

variable (above : List Text) (state : State)

/-- The lines that are written stand in front of none. -/
theorem behind_lines : ({ state with lines := [] } : State).behind state.lines = state := by
  simp [behind]

theorem emit_behind (indent : Int) (text : Text) :
    (state.behind above).emit indent text = (state.emit indent text).behind above := by
  simp [behind, emit, writeLine]

theorem flushMatch_behind : (state.behind above).flushMatch = state.flushMatch.behind above := by
  cases found : state.collected.lines with
  | nil => simp [flushMatch, behind, found]
  | cons first rest => simp [flushMatch, behind, emitAll, found]

end State

namespace Conversion

theorem parallel_behind (above : List Text) : Parallel (Image (State.behind above)) where
  names_eq same := by rw [same]; rfl
  emit indent text same := by rw [Image, same, State.emit_behind]
  openBlock block level same := by rw [same]; rfl
  named names same := by rw [same]; rfl
  acquire level resource same := by rw [same]; rfl
  levels_eq same := by rw [same]; rfl
  doPending_eq same := by rw [same]; rfl
  casePending_eq same := by rw [same]; rfl
  pop below same := by rw [same]; rfl
  setDoPending pending same := by rw [same]; rfl
  setCasePending pending same := by rw [same]; rfl
  setSwitchPending pending same := by rw [same]; rfl

theorem synchronous_behind (above : List Text) : Synchronous (Image (State.behind above)) where
  toParallel := parallel_behind above
  blocks_eq same := by rw [same]; rfl
  isOpen_eq same := by rw [same]; rfl
  writeLine text same := by
    rw [same]
    simp [Image, State.behind, State.writeLine]
  startMatch subject use target := .modify fun same => by rw [same]; rfl
  addArm values result := .modify fun same => by rw [same]; rfl
  flushMatch same := by rw [Image, same, State.flushMatch_behind]
  close block level same :=
    (parallel_behind above).toFlagged.close same (by rw [same]; rfl) (by rw [same]; rfl) block level

end Conversion

namespace State

open Conversion (synchronous_behind)

variable (above : List Text) (state : State)

theorem close_behind (block : Option Block) (level : Int) :
    (state.behind above).close block level = (state.close block level).behind above :=
  (synchronous_behind above).close block level rfl

theorem dedent_behind (indent : Int) :
    (state.behind above).dedent indent = (state.dedent indent).behind above :=
  (synchronous_behind above).dedent indent rfl

theorem closeAll_behind : (state.behind above).closeAll = state.closeAll.behind above :=
  (synchronous_behind above).closeAll rfl

/-- The lines that a dedent adds. -/
def dedentLines (indent : Int) (state : State) : List Text :=
  (dedent indent { state with lines := [] }).lines

theorem dedent_lines (indent : Int) :
    (state.dedent indent).lines = state.lines ++ state.dedentLines indent := by
  have split := dedent_behind state.lines { state with lines := [] } indent
  rw [behind_lines] at split
  rw [split]
  rfl

/-- Of two dedents only the further one counts. -/
theorem dedent_min (indent next : Int) :
    (state.dedent indent).dedent next = state.dedent (min next indent) := by
  rcases Int.le_total next indent with further | inside
  · rw [Int.min_eq_left further, dedent_dedent further]
  · rw [Int.min_eq_right inside]
    exact dedent_eq_self fun level top => Int.le_trans (dedent_levels_head_le top) inside

theorem dedentLines_min (indent next : Int) :
    state.dedentLines (min next indent) =
      state.dedentLines indent ++ (state.dedent indent).dedentLines next := by
  have stages := congrArg lines (dedent_min state indent next)
  rw [dedent_lines, dedent_lines, dedent_lines, List.append_assoc] at stages
  exact (List.append_cancel_left stages).symm

/-- A dedent takes off the longest run of levels at the top that are deeper than it. -/
theorem exists_levels_left (indent : Int) :
    ∃ left, state.levels = left ++ (state.dedent indent).levels ∧
      (∀ level ∈ left, indent < level) ∧
        ∀ level ∈ (state.dedent indent).levels.head?, level ≤ indent := by
  refine ⟨state.levels.takeWhile (indent < ·), ?_, fun level mem => ?_,
    fun level top => dedent_levels_head_le top⟩
  · rw [dedent_levels, List.takeWhile_append_dropWhile]
  · simpa using List.all_eq_true.mp List.all_takeWhile level mem

/-- A dedent in two stages is a dedent to the smaller of the two indentations, whatever the state:
it leads to the same state and adds the same lines.  So nothing is left to do for a second dedent to
the same indentation.  A dedent takes the longest run of deeper levels off the top. -/
theorem dedent_in_stages (indent next : Int) :
    ((state.dedent indent).dedent next = state.dedent (min next indent) ∧
      state.dedentLines (min next indent) =
        state.dedentLines indent ++ (state.dedent indent).dedentLines next) ∧
    ((state.dedent indent).dedent indent = state.dedent indent ∧
      (state.dedent indent).dedentLines indent = []) ∧
    (state.dedent indent).lines = state.lines ++ state.dedentLines indent ∧
    ∃ left, state.levels = left ++ (state.dedent indent).levels ∧
      (∀ level ∈ left, indent < level) ∧
        ∀ level ∈ (state.dedent indent).levels.head?, level ≤ indent := by
  have again := dedent_min state indent indent
  have nothing := dedentLines_min state indent indent
  rw [Int.min_self] at again nothing
  exact ⟨⟨dedent_min state indent next, dedentLines_min state indent next⟩,
    ⟨again, List.self_eq_append_right.mp nothing⟩, dedent_lines state indent,
    exists_levels_left state indent⟩

/-- The end of the source only adds lines. -/
theorem lines_isPrefix_closeAll : List.IsPrefix state.lines state.flushMatch.closeAll.lines := by
  have split := behind_lines state
  rw [← split, flushMatch_behind, closeAll_behind, split]
  exact List.prefix_append _ _

end State

namespace Conversion

/-- Lines that are written stay. -/
theorem lines_isPrefix_of_convertLines {lines : List Text} {state after : State}
    (done : convertLines lines state = .ok () after) : List.IsPrefix state.lines after.lines := by
  have split := State.behind_lines state
  rw [← split] at done
  have keeps := (synchronous_behind state.lines).convertLines lines
  obtain ⟨plain, _, rfl⟩ := keeps.exists_of_image done
  exact List.prefix_append _ _

end Conversion
end Ephp
