import Ephp.Proofs.Dedent
import Ephp.Proofs.Outcome

/-!
# Levels and blocks

A line that is no remark first leaves the levels deeper than itself.  Then it leaves the two stacks
as they are, or opens one level, or, as the condition that a do loop waits for, closes one.
-/

namespace Ephp
namespace State

open Statement

/-- What a line does to the stacks and to a waiting do loop, once the blocks that it leaves are
closed. -/
inductive Moves (indent : Int) (body : Text) (state after : State) : Prop where
  | stays (levels : after.levels = state.levels) (blocks : after.blocks = state.blocks)
      (waiting : after.doPending = state.doPending)
      (single : openedBy? body = none ∨ ¬Apart body state)
  | opens {block : Block} (levels : after.levels = (indent + 4) :: state.levels)
      (blocks : after.blocks = block :: state.blocks) (waiting : after.doPending = state.doPending)
      (kind : openedBy? body = some block) (loop : block ≠ .doLoop)
      (settled : block = .whileLoop → state.doPending = false) (apart : Apart body state)
  | loops (levels : after.levels = (indent + 4) :: state.levels)
      (blocks : after.blocks = .doLoop :: state.blocks) (waiting : after.doPending = true)
      (found : read? body = some .doLoop)
  | ends {level : Int} {below : List Int} {condition : Text}
      (open_eq : state.levels = level :: below) (levels : after.levels = below)
      (blocks : after.blocks = state.blocks.tail)
      (waited : state.doPending = true) (waiting : after.doPending = false)
      (found : read? body = some (.whileLoop condition))

theorem moves_of_outcome {indent : Int} {body : Text} {state after : State}
    (outcome : Outcome indent body state after) : Moves indent body state after := by
  cases outcome with
  | wrote names single apart made => exact .stays rfl rfl rfl (.inl single)
  | opened names kind owner loop settled apart made =>
      exact .opens rfl rfl rfl kind loop settled apart
  | acquired names found made =>
      exact .opens rfl rfl rfl (openedBy?_of_read? found rfl) (by simp) (by simp)
        (.of_read? found rfl state)
  | looped found => exact .loops rfl rfl rfl found
  | ended found waits open_eq made => exact .ends open_eq rfl rfl waits rfl found
  | switched found made =>
      exact .opens rfl rfl rfl (openedBy?_of_read? found rfl) (by simp) (by simp)
        (.of_read? found rfl state)
  | @labelled statement text found label made =>
      have single : openedBy? body = none := by
        cases statement <;> simp [isLabel] at label <;> rw [openedBy?_of_read? found rfl] <;> rfl
      cases state.casePending with
      | true => exact .stays rfl rfl rfl (.inl single)
      | false => exact .stays rfl rfl rfl (.inl single)
  | @started statement collected names found header =>
      have single : openedBy? body = none := by
        cases statement <;> simp [started?] at header <;> rw [openedBy?_of_read? found rfl] <;> rfl
      exact .stays rfl rfl rfl (.inl single)
  | armed arm found is_arm isOpen made_values made_result =>
      refine .stays rfl rfl rfl (.inr fun apart => ?_)
      simp [apart _ found is_arm] at isOpen

/-- A remark is copied, and any other line moves the stacks. -/
theorem moves_of_convertLine {line : Text} {state after : State}
    (done : Conversion.convertLine line state = .ok () after) :
    (line.isRemark = true ∧ ∃ text, after = state.writeLine text) ∨
      (line.isRemark = false ∧
        Moves line.indentOf line.strip (state.dedent line.indentOf) after) := by
  rcases Conversion.convertLine_eq_ok done with ⟨remark, text, _, same⟩ | ⟨spoken, outcome⟩
  · exact .inl ⟨remark, text, same⟩
  · exact .inr ⟨spoken, moves_of_outcome outcome⟩

/-- A dedent removes as many blocks as levels. -/
theorem dedent_blocks (indent : Int) (state : State) :
    (state.dedent indent).blocks =
      state.blocks.drop (state.levels.takeWhile (indent < ·)).length := by
  generalize open_eq : state.levels = levels
  induction levels generalizing state with
  | nil => rw [dedent_eq_self (by simp [open_eq])]; rfl
  | cons level below ih =>
      by_cases deeper : indent < level
      · rw [dedent_of_lt open_eq deeper, ih _ (closeTop_levels state level below), closeTop_blocks,
          List.takeWhile_cons_of_pos (by simpa using deeper), List.length_cons, List.drop_tail]
      · rw [dedent_eq_self (by simp [open_eq]; omega),
          List.takeWhile_cons_of_neg (by simpa using deeper)]
        rfl

/-- A dedent leaves the levels open that are not deeper than the indentation. -/
theorem mem_dedent_levels {indent level : Int} {state : State} (inside : level ≤ indent)
    (mem : level ∈ state.levels) : level ∈ (state.dedent indent).levels := by
  rw [dedent_levels]
  have split : state.levels.takeWhile (indent < ·) ++ state.levels.dropWhile (indent < ·) =
      state.levels := List.takeWhile_append_dropWhile
  refine (List.mem_append.mp (split ▸ mem)).resolve_left fun deeper => ?_
  have := List.all_eq_true.mp List.all_takeWhile level deeper
  simp only [decide_eq_true_eq] at this
  omega

/-! ## The outermost level -/

/-- The outermost level is zero, and all others are deeper. -/
def Rooted (state : State) : Prop :=
  ∃ uppers, state.levels = uppers ++ [0] ∧ ∀ level ∈ uppers, 0 < level

namespace Rooted

variable {state : State}

theorem levels_ne_nil (rooted : state.Rooted) : state.levels ≠ [] := by
  obtain ⟨uppers, open_eq, _⟩ := rooted
  simp [open_eq]

theorem dedent (rooted : state.Rooted) {indent : Int} (nonneg : 0 ≤ indent) :
    (state.dedent indent).Rooted := by
  obtain ⟨uppers, open_eq, positive⟩ := rooted
  refine ⟨uppers.dropWhile (indent < ·), ?_, fun level mem => ?_⟩
  · rw [dedent_levels, open_eq, List.dropWhile_append]
    split
    · rename_i empty
      simp [List.isEmpty_iff.mp empty, nonneg]
    · rfl
  · exact positive level ((List.dropWhile_sublist _).subset mem)

theorem cons (rooted : state.Rooted) {after : State} {level : Int} (positive : 0 < level)
    (open_eq : after.levels = level :: state.levels) : after.Rooted := by
  obtain ⟨uppers, below_eq, deeper⟩ := rooted
  exact ⟨level :: uppers, by simp [open_eq, below_eq],
    List.forall_mem_cons.mpr ⟨positive, deeper⟩⟩

/-- The outermost level is still open if a level above it was open and one level is closed. -/
theorem tail (rooted : state.Rooted) {after : State} {top level : Int}
    (open_eq : state.levels = top :: after.levels) (positive : 0 < level)
    (mem : level ∈ state.levels) : after.Rooted := by
  obtain ⟨uppers, split, deeper⟩ := rooted
  cases uppers with
  | nil =>
      rw [split, List.nil_append, List.mem_singleton] at mem
      omega
  | cons first uppers =>
      obtain ⟨_, rest⟩ := List.cons.inj (open_eq.symm.trans split)
      exact ⟨uppers, rest, (List.forall_mem_cons.mp deeper).2⟩

/-- A line closes the outermost level only if it is the condition that a do loop waits for. -/
theorem convertLine {line : Text} {after : State} (rooted : state.Rooted)
    (done : Conversion.convertLine line state = .ok () after) :
    after.Rooted ∨ state.doPending = true ∧ after.doPending = false := by
  have nonneg := line.indentOf_nonneg
  rcases moves_of_convertLine done with ⟨_, text, rfl⟩ | ⟨_, moves⟩
  · exact .inl rooted
  · have left := rooted.dedent nonneg
    cases moves with
    | stays levels _ _ _ =>
        obtain ⟨uppers, open_eq, positive⟩ := left
        exact .inl ⟨uppers, levels.trans open_eq, positive⟩
    | opens levels _ _ _ _ _ _ => exact .inl (left.cons (by omega) levels)
    | loops levels _ _ _ => exact .inl (left.cons (by omega) levels)
    | ends _ _ _ waited waiting _ => exact .inr ⟨by simpa using waited, waiting⟩

end Rooted

/-! ## Lines that neither open nor end a do loop -/

/-- Whether a line neither opens a do loop nor can be the condition of one. -/
def isOrdinary (body : Text) : Bool :=
  match read? body with
  | some .doLoop | some (.whileLoop _) => false
  | _ => true

/-- A line that is a remark, or that is indented at least as far as `bound` and neither opens nor
ends a do loop. -/
def Within (bound : Int) (line : Text) : Prop :=
  line.isRemark = true ∨ bound ≤ line.indentOf ∧ isOrdinary line.strip = true

/-- An ordinary line opens at most one level. -/
theorem stacks_of_isOrdinary {indent : Int} {body : Text} {state after : State}
    (ordinary : isOrdinary body = true) (moves : Moves indent body state after) :
    after.doPending = state.doPending ∧
      (after.levels = state.levels ∧ after.blocks = state.blocks ∨
        ∃ block, after.levels = (indent + 4) :: state.levels ∧
          after.blocks = block :: state.blocks) := by
  cases moves with
  | stays levels blocks waiting _ => exact ⟨waiting, .inl ⟨levels, blocks⟩⟩
  | opens levels blocks waiting _ _ _ _ => exact ⟨waiting, .inr ⟨_, levels, blocks⟩⟩
  | loops _ _ _ found => simp [isOrdinary, found] at ordinary
  | ends _ _ _ _ _ found => simp [isOrdinary, found] at ordinary

/-- The two stacks stand on given ones, with only levels deeper than `bound` above them. -/
def Stands (bound : Int) (levels : List Int) (blocks : List Block) (state : State) : Prop :=
  ∃ newLevels newBlocks, state.levels = newLevels ++ levels ∧ state.blocks = newBlocks ++ blocks ∧
    newLevels.length = newBlocks.length ∧ ∀ level ∈ newLevels, bound < level

theorem Stands.dedent {bound indent : Int} {levels : List Int} {blocks : List Block} {state : State}
    (stands : Stands bound levels blocks state) (top : ∀ level ∈ levels.head?, level ≤ bound)
    (further : bound ≤ indent) : Stands bound levels blocks (state.dedent indent) := by
  refine dedent_induct (fun state level below open_eq deeper stands => ?_) stands
  obtain ⟨newLevels, newBlocks, levels_eq, blocks_eq, same, all_deeper⟩ := stands
  cases newLevels with
  | nil =>
      obtain rfl : levels = level :: below := by simpa [open_eq] using levels_eq.symm
      have := top level (by simp)
      omega
  | cons first newLevels =>
      cases newBlocks with
      | nil => simp at same
      | cons block newBlocks =>
          obtain ⟨rfl, rfl⟩ : level = first ∧ below = newLevels ++ levels := by
            simpa [open_eq] using levels_eq
          exact ⟨newLevels, newBlocks, closeTop_levels _ _ _, by simp [blocks_eq],
            by simpa using same, fun level mem => all_deeper level (by simp [mem])⟩

section Within

variable {bound : Int} {line : Text} {state after : State} (within : Within bound line)
  (done : Conversion.convertLine line state = .ok () after)
include within done

theorem waiting_of_within : after.doPending = state.doPending := by
  rcases moves_of_convertLine done with ⟨_, text, rfl⟩ | ⟨spoken, moves⟩
  · rfl
  · obtain ⟨_, ordinary⟩ := within.resolve_left (by simp [spoken])
    rw [(stacks_of_isOrdinary ordinary moves).1, dedent_doPending]

theorem Rooted.convertLine_of_within (rooted : state.Rooted) : after.Rooted := by
  refine (rooted.convertLine done).resolve_right fun ⟨waited, idle⟩ => ?_
  have := waiting_of_within within done
  simp [waited, idle] at this

/-- A level that is not deeper than a line stays open. -/
theorem mem_levels_of_within {level : Int} (inside : level ≤ bound) (mem : level ∈ state.levels) :
    level ∈ after.levels := by
  rcases moves_of_convertLine done with ⟨_, text, rfl⟩ | ⟨spoken, moves⟩
  · exact mem
  · obtain ⟨further, ordinary⟩ := within.resolve_left (by simp [spoken])
    have left : level ∈ (state.dedent line.indentOf).levels := mem_dedent_levels (by omega) mem
    rcases (stacks_of_isOrdinary ordinary moves).2 with ⟨levels, _⟩ | ⟨block, levels, _⟩
    · rw [levels]
      exact left
    · rw [levels]
      exact List.mem_cons_of_mem _ left

theorem positive_of_within (positive : ∀ level ∈ state.levels, 0 < level) :
    ∀ level ∈ after.levels, 0 < level := by
  rcases moves_of_convertLine done with ⟨_, text, rfl⟩ | ⟨spoken, moves⟩
  · exact positive
  · obtain ⟨_, ordinary⟩ := within.resolve_left (by simp [spoken])
    have left : ∀ level ∈ (state.dedent line.indentOf).levels, 0 < level := by
      intro level mem
      rw [dedent_levels] at mem
      exact positive level ((List.dropWhile_sublist _).subset mem)
    have nonneg := line.indentOf_nonneg
    rcases (stacks_of_isOrdinary ordinary moves).2 with ⟨levels, _⟩ | ⟨block, levels, _⟩
    · rw [levels]
      exact left
    · rw [levels]
      exact List.forall_mem_cons.mpr ⟨by omega, left⟩

theorem Stands.convertLine {levels : List Int} {blocks : List Block}
    (stands : Stands bound levels blocks state) (top : ∀ level ∈ levels.head?, level ≤ bound) :
    Stands bound levels blocks after := by
  rcases moves_of_convertLine done with ⟨_, text, rfl⟩ | ⟨spoken, moves⟩
  · exact stands
  · obtain ⟨further, ordinary⟩ := within.resolve_left (by simp [spoken])
    obtain ⟨newLevels, newBlocks, levels_eq, blocks_eq, same, deeper⟩ :
        Stands bound levels blocks (state.dedent line.indentOf) := stands.dedent top further
    rcases (stacks_of_isOrdinary ordinary moves).2 with ⟨levels_after, blocks_after⟩ |
      ⟨block, levels_after, blocks_after⟩
    · exact ⟨newLevels, newBlocks, levels_after.trans levels_eq, blocks_after.trans blocks_eq, same,
        deeper⟩
    · refine ⟨(line.indentOf + 4) :: newLevels, block :: newBlocks, ?_, ?_, by simp [same], ?_⟩
      · rw [levels_after, levels_eq, List.cons_append]
      · rw [blocks_after, blocks_eq, List.cons_append]
      · exact List.forall_mem_cons.mpr ⟨by omega, deeper⟩

end Within

end State
end Ephp
