import Ephp.Proofs.DoLoop
import Ephp.Proofs.Enclosure

/-!
# The shape of the stacks

Between two lines there is a level for every block, and each level is at least four columns further
in than those around it.  Below all of them is the outermost level, until the condition of a do loop
is read where no other level is open; this takes the outermost level away for good.
-/

namespace Ephp
namespace State

/-- Every level is at least four columns further in than those around it. -/
def Spaced (state : State) : Prop :=
  state.levels.Pairwise fun inner outer => outer + 4 ≤ inner

namespace Spaced

variable {state : State}

theorem descending (spaced : state.Spaced) : state.Descending :=
  spaced.imp fun apart => by omega

theorem dedent (spaced : state.Spaced) (indent : Int) : (state.dedent indent).Spaced := by
  rw [Spaced, dedent_levels]
  exact spaced.sublist (List.dropWhile_sublist _)

/-- A level that a line opens is four columns further in than the line, which has left all levels
that are deeper than itself. -/
theorem cons_dedent (spaced : state.Spaced) (indent : Int) {after : State}
    (levels : after.levels = (indent + 4) :: (state.dedent indent).levels) : after.Spaced := by
  rw [Spaced, levels, List.pairwise_cons]
  refine ⟨fun level mem => ?_, spaced.dedent indent⟩
  have := spaced.descending.le_of_mem_dedent mem
  omega

theorem convertLine (spaced : state.Spaced) {line : Text} {after : State}
    (done : Conversion.convertLine line state = .ok () after) : after.Spaced := by
  rcases moves_of_convertLine done with ⟨_, text, rfl⟩ | ⟨_, moves⟩
  · exact spaced
  · cases moves with
    | stays levels _ _ _ =>
        rw [Spaced, levels]
        exact spaced.dedent line.indentOf
    | opens levels _ _ _ _ _ _ => exact spaced.cons_dedent line.indentOf levels
    | loops levels _ _ _ => exact spaced.cons_dedent line.indentOf levels
    | ends open_eq levels _ _ _ _ =>
        have left := spaced.dedent line.indentOf
        rw [Spaced, open_eq] at left
        rw [Spaced, levels]
        exact left.of_cons

theorem convertLines (spaced : state.Spaced) {lines : List Text} {after : State}
    (done : Conversion.convertLines lines state = .ok () after) : after.Spaced :=
  Conversion.convertLines_induct (fun _ _ _ _ spaced done => spaced.convertLine done) spaced done

end Spaced

/-- There is a level for every block, at least four columns in, and below them the levels `base`. -/
def Paired (base : List Int) (state : State) : Prop :=
  ∃ uppers, state.levels = uppers ++ base ∧ uppers.length = state.blocks.length ∧
    ∀ level ∈ uppers, 4 ≤ level

/-- The line is the condition that a do loop waits for, and it is read where only the levels `base`
are open. -/
structure EndsAt (base : List Int) (line : Text) (state : State) : Prop where
  spoken : line.isRemark = false
  condition : Outline.isCondition line.strip = true
  waits : state.doPending = true
  levels : (state.dedent line.indentOf).levels = base

namespace Paired

variable {base : List Int} {state after : State}

theorem congr (paired : state.Paired base) (levels : after.levels = state.levels)
    (blocks : after.blocks = state.blocks) : after.Paired base := by
  rwa [Paired, levels, blocks]

theorem cons (paired : state.Paired base) {level : Int} {block : Block} (deep : 4 ≤ level)
    (levels : after.levels = level :: state.levels)
    (blocks : after.blocks = block :: state.blocks) : after.Paired base := by
  obtain ⟨uppers, open_eq, same, all_deep⟩ := paired
  refine ⟨level :: uppers, ?_, ?_, List.forall_mem_cons.mpr ⟨deep, all_deep⟩⟩
  · rw [levels, open_eq, List.cons_append]
  · rw [blocks, List.length_cons, List.length_cons, same]

/-- A level that is taken away is the innermost one of those with a block, or there are no such
levels. -/
theorem tail (paired : state.Paired base) {level : Int} {below : List Int}
    (open_eq : state.levels = level :: below) (levels : after.levels = below)
    (blocks : after.blocks = state.blocks.tail) :
    after.Paired base ∨ state.levels = base ∧ base = level :: below ∧ after.Paired below := by
  obtain ⟨uppers, split, same, deep⟩ := paired
  rw [open_eq] at split
  cases uppers with
  | nil =>
      have bare : state.blocks = [] := List.eq_nil_of_length_eq_zero same.symm
      refine .inr ⟨open_eq.trans split, split.symm, [], ?_, ?_, by simp⟩
      · rw [levels, List.nil_append]
      · rw [blocks, bare]
        rfl
  | cons first uppers =>
      obtain ⟨rfl, rfl⟩ := List.cons.inj split
      refine .inl ⟨uppers, levels, ?_, (List.forall_mem_cons.mp deep).2⟩
      rw [blocks, List.length_tail, ← same, List.length_cons, Nat.add_sub_cancel]

theorem dedent (paired : state.Paired base) (low : ∀ level ∈ base, level ≤ 0) {indent : Int}
    (nonneg : 0 ≤ indent) : (state.dedent indent).Paired base := by
  refine dedent_induct (fun state level below open_eq deeper paired => ?_) paired
  refine (paired.tail open_eq (closeTop_levels state level below)
    (closeTop_blocks state level below)).resolve_right ?_
  rintro ⟨_, rfl, _⟩
  have := low level List.mem_cons_self
  omega

/-- A line keeps the levels below those of the blocks, unless it is the condition of a do loop and
no other levels are open. -/
theorem convertLine (paired : state.Paired base) (low : ∀ level ∈ base, level ≤ 0) {line : Text}
    (done : Conversion.convertLine line state = .ok () after) :
    after.Paired base ∨ base ≠ [] ∧ EndsAt base line state ∧ after.Paired base.tail := by
  have nonneg := line.indentOf_nonneg
  rcases moves_of_convertLine done with ⟨_, text, rfl⟩ | ⟨spoken, moves⟩
  · exact .inl paired
  · have left := paired.dedent low nonneg
    cases moves with
    | stays levels blocks _ _ => exact .inl (left.congr levels blocks)
    | opens levels blocks _ _ _ _ _ => exact .inl (left.cons (by omega) levels blocks)
    | loops levels blocks _ _ => exact .inl (left.cons (by omega) levels blocks)
    | ends open_eq levels blocks waited _ found =>
        refine (left.tail open_eq levels blocks).imp_right ?_
        rintro ⟨bare, rfl, rest⟩
        refine ⟨by simp, ⟨spoken, ?_, by simpa using waited, bare⟩, rest⟩
        rw [Outline.isCondition, found]

end Paired

/-- An outermost level that is lost stays lost. -/
theorem Paired.convertLines_of_nil {state after : State} (paired : state.Paired [])
    {lines : List Text} (done : Conversion.convertLines lines state = .ok () after) :
    after.Paired [] := by
  refine Conversion.convertLines_induct (fun line _ _ _ paired one => ?_) paired done
  exact (paired.convertLine (by simp) one).resolve_right (by simp)

theorem Paired.zero_mem {state : State} (paired : state.Paired [0]) : 0 ∈ state.levels := by
  obtain ⟨uppers, open_eq, _⟩ := paired
  simp [open_eq]

theorem Paired.zero_not_mem {state : State} (paired : state.Paired []) : 0 ∉ state.levels := by
  obtain ⟨uppers, open_eq, _, deep⟩ := paired
  intro mem
  rw [open_eq, List.append_nil] at mem
  have := deep 0 mem
  omega

/-- At the end of an input every block is closed, if the outermost level is open. -/
theorem Paired.blocks_closeAll {state : State} (paired : state.Paired [0]) :
    state.closeAll.blocks = [] := by
  obtain ⟨uppers, open_eq, same, _⟩ := paired
  rw [closeAll_blocks, open_eq, List.length_append, List.length_singleton, Nat.add_sub_cancel, same,
    List.drop_length]

end State

namespace Conversion

open State

/-- The outermost level is still open behind lines, or it was lost at one of them. -/
theorem exists_endsAt {lines : List Text} {state after : State} (paired : state.Paired [0])
    (done : convertLines lines state = .ok () after) :
    after.Paired [0] ∨ after.Paired [] ∧ ∃ front line back middle, lines = front ++ line :: back ∧
      convertLines front state = .ok () middle ∧ EndsAt [0] line middle := by
  induction lines generalizing state with
  | nil =>
      cases done
      exact .inl paired
  | cons line lines ih =>
      obtain ⟨middle, one, rest⟩ := convertLines_cons_eq_ok.mp done
      rcases paired.convertLine (by simp) one with whole | ⟨_, ends, lost⟩
      · refine (ih whole rest).imp_right ?_
        rintro ⟨lost, front, inner, back, reached, rfl, fronted, ends⟩
        exact ⟨lost, line :: front, inner, back, reached, rfl,
          convertLines_cons_eq_ok.mpr ⟨middle, one, fronted⟩, ends⟩
      · exact .inr ⟨lost.convertLines_of_nil rest, [], line, lines, state, rfl, rfl, ends⟩

/-- Lines without do loops leave the outermost level open. -/
theorem paired_of_loopless {lines : List Text} {state after : State} (paired : state.Paired [0])
    (idle : state.doPending = false) (loopless : ∀ line ∈ lines, line.strip ≠ "do:".toList)
    (done : convertLines lines state = .ok () after) : after.Paired [0] := by
  refine (exists_endsAt paired done).resolve_right ?_
  rintro ⟨_, front, line, back, middle, rfl, fronted, ends⟩
  have still : middle.doPending = false :=
    idle_of_convertLines idle (fun line mem => loopless line (List.mem_append_left _ mem)) fronted
  simpa [still] using ends.waits

/-- A condition of a do loop that is read where only the outermost level is open leaves none. -/
theorem paired_nil_of_endsAt {line : Text} {state after : State}
    (paired : state.Paired [0] ∨ state.Paired []) (ends : EndsAt [0] line state)
    (done : convertLine line state = .ok () after) : after.Paired [] := by
  rcases paired with paired | paired
  · obtain ⟨level, open_eq, _⟩ := ends_of_convertLine ends.spoken ends.condition ends.waits done
    have bare : after.levels = [] := (List.cons.inj (open_eq.symm.trans ends.levels)).2
    rcases paired.convertLine (by simp) done with whole | ⟨_, _, lost⟩
    · simpa [bare] using whole.zero_mem
    · exact lost
  · exact (paired.convertLine (by simp) done).resolve_right (by simp)

/-- Between two lines, whatever the source, neighbouring levels are at least four columns apart, and
there is a level of at least four columns for every block.  Below them is the outermost level, or
else none; the outermost level is missing exactly if one of the lines so far was the condition of a
waiting do loop and was read where no other level was open. -/
theorem stacks_between_lines {lines : List Text} {prior reached : State}
    (done : convertLines lines prior.reset = .ok () reached) :
    reached.Spaced ∧ (reached.Paired [0] ∨ reached.Paired []) ∧
      (reached.Paired [] ↔ ∃ front line back middle, lines = front ++ line :: back ∧
        convertLines front prior.reset = .ok () middle ∧ EndsAt [0] line middle) := by
  have spaced : prior.reset.Spaced := List.pairwise_singleton _ _
  have start : prior.reset.Paired [0] := ⟨[], rfl, rfl, by simp⟩
  have shape := exists_endsAt start done
  refine ⟨spaced.convertLines done, shape.imp_right And.left, fun lost => ?_, ?_⟩
  · refine (shape.resolve_left fun whole => ?_).2
    exact lost.zero_not_mem whole.zero_mem
  · rintro ⟨front, line, back, middle, rfl, fronted, ends⟩
    obtain ⟨other, same, rest⟩ := convertLines_append_eq_ok.mp done
    obtain rfl : middle = other := by simpa [fronted] using same
    obtain ⟨behind, one, rest⟩ := convertLines_cons_eq_ok.mp rest
    have paired := (exists_endsAt start fronted).imp_right And.left
    exact (paired_nil_of_endsAt paired ends one).convertLines_of_nil rest

/-- A do loop outside of all blocks, and a block behind it. -/
def outermostLoop : List Text :=
  ["do:".toList, "    a()".toList, "while b".toList, "if c:".toList]

theorem stacks_between_lines_outermostLoop :
    ∃ reached, convertLines outermostLoop State.initial.reset = .ok () reached ∧
      reached.levels = [4] ∧ reached.Spaced ∧ reached.Paired [] ∧
      ∃ front line back middle, outermostLoop = front ++ line :: back ∧
        convertLines front State.initial.reset = .ok () middle ∧ EndsAt [0] line middle := by
  have passed : (convertLines outermostLoop).passes (fun _ reached => reached.levels == [4])
      State.initial.reset = true := by decide +kernel
  obtain ⟨_, reached, done, levels⟩ := passes_iff.mp passed
  rw [beq_iff_eq] at levels
  obtain ⟨spaced, shape, lost_iff⟩ := stacks_between_lines done
  have lost : reached.Paired [] := shape.resolve_left fun whole => by
    simpa [levels] using whole.zero_mem
  exact ⟨reached, done, levels, spaced, lost, lost_iff.mp lost⟩

end Conversion
end Ephp
