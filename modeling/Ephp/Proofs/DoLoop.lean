import Ephp.Proofs.Balance
import Ephp.Proofs.Collect
import Mathlib.Data.List.TakeWhile

/-!
# Do loops in nested sources

The condition of a do loop closes one level more than it should: the level of the loop is left
without its end as soon as the condition is read, and then the level around the loop is closed in
its place.  The output is balanced all the same if this level is the outermost one, if it happens
once, and if no block is open at the end, where one level is always kept.
-/

namespace Ephp

/-- Where a line of a nested source stands. -/
inductive Place where
  /-- In a block, or outside of all blocks. -/
  | block
  /-- Directly in a switch. -/
  | labels
  /-- Below the header of a match. -/
  | arms
deriving DecidableEq, Repr

namespace Place

open Statement

/-- Whether a line, other than a do loop and its condition, may stand at a place. -/
def admits (place : Place) (body : Text) : Bool :=
  match place with
  | .block => State.isOrdinary body && !(read? body).any fun statement =>
      statement.isArm || statement.isLabel
  | .labels => (read? body).any (·.isLabel)
  | .arms => (read? body).any (·.isArm)

/-- The place below a line, if there can be lines below it. -/
def below? : Place → Text → Option Place
  | .block, body =>
    if (read? body).any (·.started?.isSome) then some .arms
    else (openedBy? body).map fun block => if block = .switch then .labels else .block
  | .labels, _ => some .block
  | .arms, _ => none

theorem isOrdinary_of_admits {place : Place} {body : Text} (admitted : place.admits body = true) :
    State.isOrdinary body = true := by
  cases place with
  | block => exact (Bool.and_eq_true_iff.mp admitted).1
  | labels =>
      cases found : read? body with
      | none => simp [admits, found] at admitted
      | some statement => cases statement <;> simp_all [admits, isLabel, State.isOrdinary]
  | arms =>
      cases found : read? body with
      | none => simp [admits, found] at admitted
      | some statement => cases statement <;> simp_all [admits, isArm, State.isOrdinary]

theorem apart_of_admits {body : Text} (admitted : block.admits body = true) (state : State) :
    Apart body state := by
  intro statement found is_arm
  simp [admits, found, is_arm] at admitted

/-- Below a line in a block stand the arms of a match or the lines of the block that it opens. -/
theorem below?_block_eq_some {body : Text} {inner : Place}
    (below : block.below? body = some inner) :
    inner = .arms ∧ (∃ statement, read? body = some statement ∧ statement.started?.isSome = true) ∨
      ∃ kind, openedBy? body = some kind := by
  rw [below?] at below
  split at below
  · rename_i header
    obtain ⟨statement, found, header⟩ := (Option.any_eq_true _ _).mp header
    exact .inl ⟨(Option.some.inj below).symm, statement, found, header⟩
  · obtain ⟨kind, opened, _⟩ := Option.map_eq_some_iff.mp below
    exact .inr ⟨kind, opened⟩

end Place

/-- The lines of a nested source, with the do loops marked out. -/
inductive Outline where
  | nil
  /-- A blank line or a comment. -/
  | remark (line : Text) (rest : Outline)
  /-- A line, the lines below it and those that follow. -/
  | node (line : Text) (body rest : Outline)
  /-- A do loop with its condition and the lines that follow. -/
  | loop (opening : Text) (body : Outline) (closing : Text) (rest : Outline)
deriving DecidableEq, Repr

namespace Outline

open Statement

def lines : Outline → List Text
  | nil => []
  | remark line rest => line :: rest.lines
  | node line body rest => line :: (body.lines ++ rest.lines)
  | loop opening body closing rest => opening :: (body.lines ++ closing :: rest.lines)

/-- Whether a line has the form of the condition of a do loop. -/
def isCondition (body : Text) : Bool :=
  match read? body with
  | some (.whileLoop _) => true
  | _ => false

theorem exists_of_isCondition {body : Text} (condition : isCondition body = true) :
    ∃ field, read? body = some (.whileLoop field) := by
  unfold isCondition at condition
  split at condition
  · exact ⟨_, by assumption⟩
  · simp at condition

/-- The outline is of a source with properly nested blocks, four columns for each level, in which
every do loop has its condition and other loops with a condition do not occur. -/
def Nested : Place → Int → Outline → Prop
  | _, _, nil => True
  | place, indent, remark line rest => line.isRemark = true ∧ rest.Nested place indent
  | place, indent, node line body rest =>
    (line.isRemark = false ∧ line.indentOf = indent ∧ place.admits line.strip = true) ∧
      (match place.below? line.strip with
        | some inner => body.Nested inner (indent + 4)
        | none => body = nil) ∧
      rest.Nested place indent
  | place, indent, loop opening body closing rest =>
    place = .block ∧ (opening.indentOf = indent ∧ opening.strip = "do:".toList) ∧
      body.Nested .block (indent + 4) ∧
      (closing.isRemark = false ∧ closing.indentOf = indent ∧ isCondition closing.strip = true) ∧
      rest.Nested place indent

instance decidableNested :
    (place : Place) → (indent : Int) → (outline : Outline) → Decidable (outline.Nested place indent)
  | _, _, nil => isTrue trivial
  | place, indent, remark _ rest =>
    have := decidableNested place indent rest
    inferInstanceAs (Decidable (_ ∧ _))
  | place, indent, node line body rest =>
    have : Decidable (match place.below? line.strip with
        | some inner => body.Nested inner (indent + 4)
        | none => body = nil) :=
      match place.below? line.strip with
      | some inner => decidableNested inner (indent + 4) body
      | none => inferInstanceAs (Decidable (body = nil))
    have := decidableNested place indent rest
    inferInstanceAs (Decidable (_ ∧ _ ∧ _))
  | place, indent, loop _ body _ rest =>
    have := decidableNested .block (indent + 4) body
    have := decidableNested place indent rest
    inferInstanceAs (Decidable (_ ∧ _ ∧ _ ∧ _ ∧ _))

/-- The number of do loops. -/
def loops : Outline → Nat
  | nil => 0
  | remark _ rest => rest.loops
  | node _ body rest => body.loops + rest.loops
  | loop _ body _ rest => body.loops + 1 + rest.loops

/-- The number of do loops outside of all blocks. -/
def topLoops : Outline → Nat
  | nil => 0
  | remark _ rest => rest.topLoops
  | node _ _ rest => rest.topLoops
  | loop _ _ _ rest => 1 + rest.topLoops

/-- The number of do loops without do loops in them. -/
def tips : Outline → Nat
  | nil => 0
  | remark _ rest => rest.tips
  | node _ body rest => body.tips + rest.tips
  | loop _ body _ rest => max 1 body.tips + rest.tips

/-- Whether the last line outside of all blocks opens a block; `before` tells it of what comes
before the outline. -/
def endsInBlock : Bool → Outline → Bool
  | before, nil => before
  | before, remark _ rest => rest.endsInBlock before
  | _, node line _ rest => rest.endsInBlock (openedBy? line.strip).isSome
  | _, loop _ _ _ rest => rest.endsInBlock false

theorem tips_eq_zero_iff (outline : Outline) : outline.tips = 0 ↔ outline.loops = 0 := by
  induction outline with
  | nil => exact Iff.rfl
  | remark line rest rest_ih => exact rest_ih
  | node line body rest body_ih rest_ih =>
      simp only [tips, loops]
      omega
  | loop opening body closing rest body_ih rest_ih =>
      simp only [tips, loops]
      omega

variable {place : Place} {indent : Int}

/-- The lines below a line are nested four columns further in. -/
theorem exists_nested_body {line : Text} {body rest : Outline}
    (nested : (node line body rest).Nested place indent) :
    ∃ inner, body.Nested inner (indent + 4) := by
  obtain ⟨_, inner, _⟩ := nested
  split at inner
  · exact ⟨_, inner⟩
  · subst inner
    exact ⟨.block, trivial⟩

/-- The lines of an outline without do loops are ordinary and indented far enough. -/
theorem within_of_loops_eq_zero {outline : Outline} (nested : outline.Nested place indent)
    (loopless : outline.loops = 0) : ∀ line ∈ outline.lines, State.Within indent line := by
  induction outline generalizing place indent with
  | nil => simp [lines]
  | remark line rest rest_ih =>
      exact List.forall_mem_cons.mpr ⟨.inl nested.1, rest_ih nested.2 loopless⟩
  | node line body rest body_ih rest_ih =>
      obtain ⟨inner, body_nested⟩ := exists_nested_body nested
      obtain ⟨⟨spoken, same, admitted⟩, _, rest_nested⟩ := nested
      obtain ⟨body_loopless, rest_loopless⟩ := Nat.add_eq_zero_iff.mp loopless
      have first : State.Within indent line := .inr ⟨by omega, Place.isOrdinary_of_admits admitted⟩
      refine List.forall_mem_cons.mpr ⟨first, fun line mem => ?_⟩
      rcases List.mem_append.mp mem with mem | mem
      · exact (body_ih body_nested body_loopless line mem).imp id fun ⟨further, ordinary⟩ =>
          ⟨by omega, ordinary⟩
      · exact rest_ih rest_nested rest_loopless line mem
  | loop opening body closing rest body_ih rest_ih =>
      simp [loops] at loopless

/-- There are no do loops among the arms of a match. -/
theorem loops_eq_zero_of_arms {outline : Outline} (nested : outline.Nested .arms indent) :
    outline.loops = 0 := by
  induction outline with
  | nil => rfl
  | remark line rest rest_ih => exact rest_ih nested.2
  | node line body rest body_ih rest_ih =>
      obtain ⟨_, inner, rest_nested⟩ := nested
      obtain rfl : body = nil := inner
      simp [loops, rest_ih rest_nested]
  | loop opening body closing rest body_ih rest_ih => exact absurd nested.1 (by decide)

/-- The lines below the header of a match are remarks and arms. -/
theorem isArm_of_arms {outline : Outline} (nested : outline.Nested .arms indent) :
    ∀ line ∈ outline.lines, line.isRemark = true ∨ line.isRemark = false ∧
      ∃ statement, read? line.strip = some statement ∧ statement.isArm = true := by
  induction outline with
  | nil => simp [lines]
  | remark line rest rest_ih => exact List.forall_mem_cons.mpr ⟨.inl nested.1, rest_ih nested.2⟩
  | node line body rest body_ih rest_ih =>
      obtain ⟨⟨spoken, _, admitted⟩, inner, rest_nested⟩ := nested
      obtain rfl : body = nil := inner
      exact List.forall_mem_cons.mpr
        ⟨.inr ⟨spoken, (Option.any_eq_true _ _).mp admitted⟩, rest_ih rest_nested⟩
  | loop opening body closing rest body_ih rest_ih => exact absurd nested.1 (by decide)

theorem topLoops_le_loops (outline : Outline) : outline.topLoops ≤ outline.loops := by
  induction outline with
  | nil => exact Nat.le_refl 0
  | remark line rest rest_ih => exact rest_ih
  | node line body rest body_ih rest_ih => exact Nat.le_trans rest_ih (Nat.le_add_left _ _)
  | loop opening body closing rest body_ih rest_ih =>
      simp only [topLoops, loops]
      omega

theorem read?_doLoop : read? "do:".toList = some .doLoop := by decide +kernel

theorem opensLoop_of_isOrdinary {line : Text} (ordinary : State.isOrdinary line.strip = true) :
    Conversion.opensLoop line = false := by
  rw [Conversion.opensLoop, beq_eq_false_iff_ne]
  intro same
  rw [State.isOrdinary, same, read?_doLoop] at ordinary
  cases ordinary

theorem strip_ne_of_isCondition {line : Text} (condition : isCondition line.strip = true) :
    line.strip ≠ "do:".toList := by
  intro same
  rw [isCondition, same, read?_doLoop] at condition
  cases condition

theorem countP_opensLoop {outline : Outline} (nested : outline.Nested place indent) :
    outline.lines.countP Conversion.opensLoop = outline.loops := by
  induction outline generalizing place indent with
  | nil => rfl
  | remark line rest rest_ih =>
      have other : Conversion.opensLoop line = false := by
        rw [Conversion.opensLoop, beq_eq_false_iff_ne]
        intro same
        have := nested.1
        simp [Text.isRemark, same] at this
      simp [lines, loops, other, rest_ih nested.2]
  | node line body rest body_ih rest_ih =>
      obtain ⟨inner, body_nested⟩ := exists_nested_body nested
      obtain ⟨⟨_, _, admitted⟩, _, rest_nested⟩ := nested
      have other := opensLoop_of_isOrdinary (Place.isOrdinary_of_admits admitted)
      simp [lines, loops, List.countP_append, other, body_ih body_nested, rest_ih rest_nested]
  | loop opening body closing rest body_ih rest_ih =>
      obtain ⟨_, ⟨_, opens⟩, body_nested, ⟨_, _, condition⟩, rest_nested⟩ := nested
      have first : Conversion.opensLoop opening = true := by simp [Conversion.opensLoop, opens]
      have last : Conversion.opensLoop closing = false :=
        beq_eq_false_iff_ne.mpr (strip_ne_of_isCondition condition)
      simp only [lines, loops, List.countP_cons, List.countP_append, first, last,
        body_ih body_nested, rest_ih rest_nested]
      simp
      omega

/-- A line is converted, then the lines below it and then those that follow. -/
theorem exists_of_convertLines_node {line : Text} {body rest : Outline} {state after : State}
    (done : Conversion.convertLines (node line body rest).lines state = .ok () after) :
    ∃ middle last, Conversion.convertLine line state = .ok () middle ∧
      Conversion.convertLines body.lines middle = .ok () last ∧
        Conversion.convertLines rest.lines last = .ok () after := by
  obtain ⟨middle, one, others⟩ := Conversion.convertLines_cons_eq_ok.mp done
  obtain ⟨last, body_done, rest_done⟩ := Conversion.convertLines_append_eq_ok.mp others
  exact ⟨middle, last, one, body_done, rest_done⟩

theorem exists_of_convertLines_loop {opening closing : Text} {body rest : Outline}
    {state after : State}
    (done : Conversion.convertLines (loop opening body closing rest).lines state = .ok () after) :
    ∃ inside behind left, Conversion.convertLine opening state = .ok () inside ∧
      Conversion.convertLines body.lines inside = .ok () behind ∧
        Conversion.convertLine closing behind = .ok () left ∧
          Conversion.convertLines rest.lines left = .ok () after := by
  obtain ⟨inside, one, others⟩ := Conversion.convertLines_cons_eq_ok.mp done
  obtain ⟨behind, body_done, others⟩ := Conversion.convertLines_append_eq_ok.mp others
  obtain ⟨left, closed, rest_done⟩ := Conversion.convertLines_cons_eq_ok.mp others
  exact ⟨inside, behind, left, one, body_done, closed, rest_done⟩

end Outline

namespace State

open Statement Text

/-- A line that opens a do loop opens its level and waits for the condition. -/
theorem loops_of_convertLine {line : Text} {state after : State} (opens : line.strip = "do:".toList)
    (done : Conversion.convertLine line state = .ok () after) :
    after.levels = (line.indentOf + 4) :: (state.dedent line.indentOf).levels ∧
      after.blocks = .doLoop :: (state.dedent line.indentOf).blocks ∧ after.doPending = true := by
  have found : read? line.strip = some .doLoop := opens ▸ Outline.read?_doLoop
  have kind : openedBy? line.strip = some .doLoop := openedBy?_of_read? found rfl
  rcases moves_of_convertLine done with ⟨remark, _⟩ | ⟨_, moves⟩
  · simp [isRemark, opens] at remark
  · cases moves with
    | stays _ _ _ single =>
        rcases single with single | joined
        · simp [kind] at single
        · exact absurd (.of_read? found rfl _) joined
    | opens _ _ _ other loop _ _ => exact absurd (Option.some.inj (other.symm.trans kind)) loop
    | loops levels blocks waiting _ => exact ⟨levels, blocks, waiting⟩
    | ends _ _ _ _ _ other => simp [found] at other

/-- The condition of a waiting do loop closes the level that is open when it is read. -/
theorem ends_of_convertLine {line : Text} {state after : State} (spoken : line.isRemark = false)
    (condition : Outline.isCondition line.strip = true) (waits : state.doPending = true)
    (done : Conversion.convertLine line state = .ok () after) :
    ∃ level, (state.dedent line.indentOf).levels = level :: after.levels ∧
      after.doPending = false := by
  obtain ⟨field, found⟩ := Outline.exists_of_isCondition condition
  have kind : openedBy? line.strip = some .whileLoop := openedBy?_of_read? found rfl
  rcases moves_of_convertLine done with ⟨remark, _⟩ | ⟨_, moves⟩
  · simp [spoken] at remark
  · cases moves with
    | stays _ _ _ single =>
        rcases single with single | joined
        · simp [kind] at single
        · exact absurd (.of_read? found rfl _) joined
    | opens _ _ _ other _ settled _ =>
        have idle := settled (Option.some.inj (other.symm.trans kind))
        simp [waits] at idle
    | loops _ _ _ other => simp [found] at other
    | ends open_eq levels _ _ waiting _ => exact ⟨_, levels ▸ open_eq, waiting⟩

theorem abandoned_add_count_le (indent : Int) (state : State) :
    state.abandoned indent + (state.dedent indent).blocks.count .doLoop ≤
      state.blocks.count .doLoop := by
  have split : state.blocks.count .doLoop =
      (state.blocks.take (state.levels.takeWhile (indent < ·)).length).count .doLoop +
        (state.blocks.drop (state.levels.takeWhile (indent < ·)).length).count .doLoop := by
    rw [← List.count_append, List.take_append_drop]
  rw [dedent_blocks, abandoned]
  split <;> omega

namespace Sound

variable {lost : Nat} {state : State}

theorem unique {other : Nat} (sound : Sound lost state) (sound_other : Sound other state) :
    lost = other := by
  obtain ⟨depth, nested, total⟩ := sound.depth
  obtain ⟨depth_other, nested_other, total_other⟩ := sound_other.depth
  rw [nested, Option.some.injEq] at nested_other
  omega

/-- Only do loops lose braces, each of them at most one. -/
theorem convertLine_le {line : Text} {after : State} (sound : Sound lost state)
    (braceless : Braceless line) (done : Conversion.convertLine line state = .ok () after) :
    ∃ total, Sound total after ∧ total + after.blocks.count .doLoop ≤
      lost + state.blocks.count .doLoop + if Conversion.opensLoop line then 1 else 0 := by
  have next := sound.convertLine braceless done
  refine ⟨_, next, ?_⟩
  rcases moves_of_convertLine done with ⟨remark, text, rfl⟩ | ⟨spoken, moves⟩
  · rw [if_pos remark]
    exact Nat.le_add_right _ _
  · rw [if_neg (by simp [spoken])]
    have lost_le := abandoned_add_count_le line.indentOf state
    cases moves with
    | stays _ blocks _ _ =>
        rw [blocks]
        omega
    | opens _ blocks _ _ loop _ _ =>
        rw [blocks, List.count_cons_of_ne loop]
        omega
    | loops _ blocks _ found =>
        have opens : Conversion.opensLoop line = true :=
          beq_iff_eq.mpr (eq_of_read?_eq_doLoop found (getLast?_strip_ne rfl))
        rw [blocks, List.count_cons_self, if_pos opens]
        omega
    | ends _ _ blocks _ _ _ =>
        have shorter := (List.tail_sublist (state.dedent line.indentOf).blocks).count_le .doLoop
        rw [blocks]
        omega

theorem convertLines_le {lines : List Text} {after : State} (sound : Sound lost state)
    (braceless : ∀ line ∈ lines, Braceless line)
    (done : Conversion.convertLines lines state = .ok () after) :
    ∃ total, Sound total after ∧ total + after.blocks.count .doLoop ≤
      lost + state.blocks.count .doLoop + lines.countP Conversion.opensLoop := by
  induction lines generalizing lost state with
  | nil =>
      cases done
      exact ⟨lost, sound, by simp⟩
  | cons line lines ih =>
      obtain ⟨first, others⟩ := List.forall_mem_cons.mp braceless
      obtain ⟨middle, one, rest⟩ := Conversion.convertLines_cons_eq_ok.mp done
      obtain ⟨part, part_sound, part_le⟩ := sound.convertLine_le first one
      obtain ⟨total, total_sound, total_le⟩ := ih part_sound others rest
      refine ⟨total, total_sound, ?_⟩
      rw [List.countP_cons]
      omega

end Sound

/-- A waiting do loop that has only deeper levels above it is lost by a line at its indentation. -/
theorem abandoned_pos {indent : Int} {levels : List Int} {blocks : List Block} {state : State}
    (stands : Stands (indent + 4) ((indent + 4) :: levels) (.doLoop :: blocks) state)
    (waits : state.doPending = true) : 0 < state.abandoned indent := by
  obtain ⟨newLevels, newBlocks, levels_eq, blocks_eq, same, deeper⟩ := stands
  rw [abandoned, if_pos waits, List.count_pos_iff]
  have all_deeper : ∀ level ∈ newLevels ++ [indent + 4], decide (indent < level) = true := by
    intro level mem
    rcases List.mem_append.mp mem with mem | mem
    · have := deeper level mem
      simp only [decide_eq_true_eq]
      omega
    · rw [List.mem_singleton.mp mem]
      simp only [decide_eq_true_eq]
      omega
  have enough : (newBlocks ++ [Block.doLoop]).length ≤
      (state.levels.takeWhile (indent < ·)).length := by
    rw [levels_eq, List.append_cons newLevels, List.takeWhile_append_of_pos all_deeper]
    simp [same]
  rw [blocks_eq, List.append_cons newBlocks, List.take_append, List.take_of_length_le enough]
  simp

/-- Ordinary lines in a do loop leave its level open, and the loop waits behind them. -/
theorem loop_of_within {indent : Int} {opening : Text} {body : List Text}
    {state inside behind : State} (same : opening.indentOf = indent)
    (opens : opening.strip = "do:".toList) (ordinary : ∀ line ∈ body, Within (indent + 4) line)
    (one : Conversion.convertLine opening state = .ok () inside)
    (done : Conversion.convertLines body inside = .ok () behind) :
    Stands (indent + 4) ((indent + 4) :: (state.dedent indent).levels)
      (.doLoop :: (state.dedent indent).blocks) behind ∧ behind.doPending = true := by
  subst same
  obtain ⟨levels, blocks, waits⟩ := loops_of_convertLine opens one
  constructor
  · refine Conversion.convertLines_induct (fun line mem _ _ stands done => ?_)
      ⟨[], [], levels, blocks, rfl, by simp⟩ done
    exact stands.convertLine (ordinary line mem) done (by simp)
  · exact Conversion.convertLines_induct (fun line mem _ _ waits done =>
      (waiting_of_within (ordinary line mem) done).trans waits) waits done

/-- Every do loop without do loops in it loses a brace. -/
theorem Sound.tips_le {place : Place} {indent : Int} {outline : Outline} {lost : Nat}
    {state after : State} (nested : outline.Nested place indent)
    (braceless : ∀ line ∈ outline.lines, Braceless line) (sound : Sound lost state)
    (done : Conversion.convertLines outline.lines state = .ok () after) :
    ∃ total, Sound total after ∧ lost + outline.tips ≤ total := by
  induction outline generalizing place indent lost state after with
  | nil =>
      cases done
      exact ⟨lost, sound, Nat.le_refl _⟩
  | remark line rest rest_ih =>
      obtain ⟨first, others⟩ := List.forall_mem_cons.mp braceless
      obtain ⟨middle, one, rest_done⟩ := Conversion.convertLines_cons_eq_ok.mp done
      obtain ⟨total, total_sound, total_le⟩ :=
        rest_ih nested.2 others (sound.convertLine first one) rest_done
      exact ⟨total, total_sound, by simp only [Outline.tips]; omega⟩
  | node line body rest body_ih rest_ih =>
      obtain ⟨inner, body_nested⟩ := Outline.exists_nested_body nested
      obtain ⟨first, others⟩ := List.forall_mem_cons.mp braceless
      obtain ⟨body_braceless, rest_braceless⟩ := List.forall_mem_append.mp others
      obtain ⟨middle, last, one, body_done, rest_done⟩ := Outline.exists_of_convertLines_node done
      obtain ⟨part, part_sound, part_le⟩ :=
        body_ih body_nested body_braceless (sound.convertLine first one) body_done
      obtain ⟨total, total_sound, total_le⟩ :=
        rest_ih nested.2.2 rest_braceless part_sound rest_done
      exact ⟨total, total_sound, by simp only [Outline.tips]; omega⟩
  | loop opening body closing rest body_ih rest_ih =>
      obtain ⟨_, ⟨opening_indent, opens⟩, body_nested, ⟨spoken, closing_indent, condition⟩,
        rest_nested⟩ := nested
      obtain ⟨first, others⟩ := List.forall_mem_cons.mp braceless
      obtain ⟨body_braceless, others⟩ := List.forall_mem_append.mp others
      obtain ⟨last, rest_braceless⟩ := List.forall_mem_cons.mp others
      obtain ⟨inside, behind, left, one, body_done, closed, rest_done⟩ :=
        Outline.exists_of_convertLines_loop done
      have start := sound.convertLine first one
      obtain ⟨part, part_sound, part_le⟩ := body_ih body_nested body_braceless start body_done
      have ended := part_sound.convertLine last closed
      rw [if_neg (by simp [spoken]), closing_indent] at ended
      have lost_le : lost + max 1 body.tips ≤ part + behind.abandoned indent := by
        by_cases loopless : body.loops = 0
        · -- The body leaves the level of the loop alone, and the condition loses it.
          have ordinary := Outline.within_of_loops_eq_zero body_nested loopless
          obtain ⟨stands, waits⟩ := loop_of_within opening_indent opens ordinary one body_done
          have := abandoned_pos stands waits
          have := body.tips_eq_zero_iff
          omega
        · have := body.tips_eq_zero_iff
          omega
      obtain ⟨total, total_sound, total_le⟩ := rest_ih rest_nested rest_braceless ended rest_done
      exact ⟨total, total_sound, by simp only [Outline.tips]; omega⟩

/-! ## Do loops in blocks -/

section Loopless

variable {place : Place} {indent : Int} {outline : Outline} {state after : State}
  (nested : outline.Nested place indent) (loopless : outline.loops = 0)
  (done : Conversion.convertLines outline.lines state = .ok () after)
include nested loopless done

theorem rooted_of_loopless (rooted : state.Rooted) :
    after.Rooted ∧ after.doPending = state.doPending := by
  have ordinary := Outline.within_of_loops_eq_zero nested loopless
  have step : ∀ line ∈ outline.lines, ∀ {middle next : State},
      middle.Rooted ∧ middle.doPending = state.doPending →
        Conversion.convertLine line middle = .ok () next →
          next.Rooted ∧ next.doPending = state.doPending := by
    rintro line mem middle next ⟨rooted, same⟩ done
    exact ⟨rooted.convertLine_of_within (ordinary line mem) done,
      (waiting_of_within (ordinary line mem) done).trans same⟩
  exact Conversion.convertLines_induct step ⟨rooted, rfl⟩ done

theorem mem_levels_of_loopless {level : Int} (inside : level ≤ indent)
    (mem : level ∈ state.levels) : level ∈ after.levels := by
  have ordinary := Outline.within_of_loops_eq_zero nested loopless
  exact Conversion.convertLines_induct (fun line line_mem _ _ mem done =>
    mem_levels_of_within (ordinary line line_mem) done inside mem) mem done

end Loopless

/-- A do loop in a block costs a level of the block, and not the outermost one.  The loops around it
then find that none waits any more. -/
theorem rooted_of_tips_eq_one {place : Place} {indent level : Int} {outline : Outline}
    {state after : State} (nested : outline.Nested place indent) (single : outline.tips = 1)
    (positive : 0 < level) (inside : level ≤ indent) (mem : level ∈ state.levels)
    (rooted : state.Rooted) (done : Conversion.convertLines outline.lines state = .ok () after) :
    after.Rooted ∧ after.doPending = false := by
  induction outline generalizing place indent state after with
  | nil => simp [Outline.tips] at single
  | remark line rest rest_ih =>
      obtain ⟨middle, one, rest_done⟩ := Conversion.convertLines_cons_eq_ok.mp done
      have within : Within indent line := .inl nested.1
      exact rest_ih nested.2 single inside (mem_levels_of_within within one inside mem)
        (rooted.convertLine_of_within within one) rest_done
  | node line body rest body_ih rest_ih =>
      obtain ⟨inner, body_nested⟩ := Outline.exists_nested_body nested
      obtain ⟨⟨spoken, same, admitted⟩, _, rest_nested⟩ := nested
      obtain ⟨middle, last, one, body_done, rest_done⟩ := Outline.exists_of_convertLines_node done
      have within : Within indent line := .inr ⟨by omega, Place.isOrdinary_of_admits admitted⟩
      have middle_mem := mem_levels_of_within within one inside mem
      have middle_rooted := rooted.convertLine_of_within within one
      have total : body.tips + rest.tips = 1 := single
      have body_tips := body.tips_eq_zero_iff
      have rest_tips := rest.tips_eq_zero_iff
      by_cases loopless : body.loops = 0
      · exact rest_ih rest_nested (by omega) inside
          (mem_levels_of_loopless body_nested loopless body_done (by omega) middle_mem)
          (rooted_of_loopless body_nested loopless body_done middle_rooted).1 rest_done
      · obtain ⟨last_rooted, idle⟩ :=
          body_ih body_nested (by omega) (by omega) middle_mem middle_rooted body_done
        obtain ⟨after_rooted, waiting⟩ :=
          rooted_of_loopless rest_nested (by omega) rest_done last_rooted
        exact ⟨after_rooted, waiting.trans idle⟩
  | loop opening body closing rest body_ih rest_ih =>
      obtain ⟨_, ⟨opening_indent, opens⟩, body_nested, ⟨spoken, closing_indent, condition⟩,
        rest_nested⟩ := nested
      obtain ⟨inner, behind, left, one, body_done, closed, rest_done⟩ :=
        Outline.exists_of_convertLines_loop done
      obtain ⟨levels, _, waits⟩ := loops_of_convertLine opens one
      have inner_rooted : inner.Rooted := (rooted.convertLine one).resolve_right (by simp [waits])
      have inner_mem : level ∈ inner.levels := by
        rw [levels, opening_indent]
        exact List.mem_cons_of_mem _ (mem_dedent_levels inside mem)
      have total : max 1 body.tips + rest.tips = 1 := single
      obtain ⟨left_rooted, idle⟩ : left.Rooted ∧ left.doPending = false := by
        by_cases loopless : body.loops = 0
        · obtain ⟨behind_rooted, waiting⟩ :=
            rooted_of_loopless body_nested loopless body_done inner_rooted
          have behind_mem :=
            mem_levels_of_loopless body_nested loopless body_done (by omega) inner_mem
          obtain ⟨top, open_eq, idle⟩ :=
            ends_of_convertLine spoken condition (waiting.trans waits) closed
          rw [closing_indent] at open_eq
          exact ⟨(behind_rooted.dedent (by omega)).tail open_eq positive
            (mem_dedent_levels inside behind_mem), idle⟩
        · have := body.tips_eq_zero_iff
          obtain ⟨behind_rooted, idle⟩ := body_ih body_nested (by omega) (by omega) inner_mem
            inner_rooted body_done
          exact ⟨(behind_rooted.convertLine closed).resolve_right (by simp [idle]),
            Conversion.idle_of_convertLine idle (Outline.strip_ne_of_isCondition condition) closed⟩
      obtain ⟨after_rooted, waiting⟩ := rooted_of_loopless rest_nested
        (rest.tips_eq_zero_iff.mp (by omega)) rest_done left_rooted
      exact ⟨after_rooted, waiting.trans idle⟩

/-- A line of a block opens a level exactly if it is the header of one. -/
theorem levels_of_admits {line : Text} {state after : State} (spoken : line.isRemark = false)
    (admitted : Place.block.admits line.strip = true)
    (done : Conversion.convertLine line state = .ok () after) :
    after.levels = ((openedBy? line.strip).map fun _ => line.indentOf + 4).toList ++
      (state.dedent line.indentOf).levels := by
  have ordinary := Place.isOrdinary_of_admits admitted
  rcases moves_of_convertLine done with ⟨remark, _⟩ | ⟨_, moves⟩
  · simp [spoken] at remark
  · cases moves with
    | stays levels _ _ single =>
        rw [single.resolve_right (absurd (Place.apart_of_admits admitted _)), levels]
        rfl
    | opens levels _ _ kind _ _ _ =>
        rw [kind, levels]
        rfl
    | loops _ _ _ found => simp [isOrdinary, found] at ordinary
    | ends _ _ _ _ _ found => simp [isOrdinary, found] at ordinary

/-- The outermost level stays open unless the only do loop stands outside of all blocks. -/
theorem rooted_of_nested {outline : Outline} {state after : State}
    (nested : outline.Nested .block 0) (single : outline.tips = 1)
    (other : ¬(outline.loops = 1 ∧ outline.topLoops = 1)) (rooted : state.Rooted)
    (done : Conversion.convertLines outline.lines state = .ok () after) : after.Rooted := by
  induction outline generalizing state with
  | nil => simp [Outline.tips] at single
  | remark line rest rest_ih =>
      obtain ⟨middle, one, rest_done⟩ := Conversion.convertLines_cons_eq_ok.mp done
      have within : Within 0 line := .inl nested.1
      exact rest_ih nested.2 single other (rooted.convertLine_of_within within one) rest_done
  | node line body rest body_ih rest_ih =>
      obtain ⟨_, body_nested⟩ := Outline.exists_nested_body nested
      obtain ⟨⟨spoken, same, admitted⟩, inner, rest_nested⟩ := nested
      obtain ⟨middle, last, one, body_done, rest_done⟩ := Outline.exists_of_convertLines_node done
      have within : Within 0 line := .inr ⟨by omega, Place.isOrdinary_of_admits admitted⟩
      have middle_rooted := rooted.convertLine_of_within within one
      simp only [Outline.tips, Outline.loops, Outline.topLoops] at single other
      have body_tips := body.tips_eq_zero_iff
      have rest_tips := rest.tips_eq_zero_iff
      by_cases loopless : body.loops = 0
      · refine rest_ih rest_nested (by omega) (by omega) ?_ rest_done
        exact (rooted_of_loopless body_nested loopless body_done middle_rooted).1
      · -- The do loop is in the block of this line, whose level is open.
        have last_rooted : last.Rooted := by
          split at inner
          · rename_i place below
            rcases Place.below?_block_eq_some below with ⟨rfl, _⟩ | ⟨kind, opened⟩
            · exact absurd (Outline.loops_eq_zero_of_arms inner) loopless
            · have levels := levels_of_admits spoken admitted one
              rw [opened, same] at levels
              exact (rooted_of_tips_eq_one inner (by omega) (by decide : (0 : Int) < 4) (by simp)
                (by simp [levels]) middle_rooted body_done).1
          · subst inner
            exact absurd rfl loopless
        exact (rooted_of_loopless rest_nested (by omega) rest_done last_rooted).1
  | loop opening body closing rest body_ih rest_ih =>
      obtain ⟨_, ⟨opening_indent, opens⟩, body_nested, ⟨spoken, closing_indent, condition⟩,
        rest_nested⟩ := nested
      obtain ⟨inside, behind, left, one, body_done, closed, rest_done⟩ :=
        Outline.exists_of_convertLines_loop done
      obtain ⟨levels, _, waits⟩ := loops_of_convertLine opens one
      simp only [Outline.tips, Outline.loops, Outline.topLoops] at single other
      have body_tips := body.tips_eq_zero_iff
      have rest_tips := rest.tips_eq_zero_iff
      have rest_top := rest.topLoops_le_loops
      have inside_rooted := (rooted.convertLine one).resolve_right (by simp [waits])
      -- The do loop without do loops in it is in the body of this one.
      obtain ⟨behind_rooted, idle⟩ := rooted_of_tips_eq_one body_nested (by omega)
        (by decide : (0 : Int) < 4) (by simp) (by simp [levels, opening_indent]) inside_rooted
        body_done
      have left_rooted := (behind_rooted.convertLine closed).resolve_right (by simp [idle])
      exact (rooted_of_loopless rest_nested (by omega) rest_done left_rooted).1

/-! ## A do loop outside of all blocks -/

/-- The arms of an open match open no level where none is open. -/
theorem levels_eq_nil_of_arms {indent : Int} {outline : Outline} {state after : State}
    (nested : outline.Nested .arms indent) (bare : state.levels = [])
    (isOpen : state.collected.isOpen = true)
    (done : Conversion.convertLines outline.lines state = .ok () after) : after.levels = [] := by
  have arms := Outline.isArm_of_arms nested
  have step : ∀ line ∈ outline.lines, ∀ {middle next : State},
      middle.levels = [] ∧ middle.collected.isOpen = true →
        Conversion.convertLine line middle = .ok () next →
          next.levels = [] ∧ next.collected.isOpen = true := by
    rintro line mem middle next ⟨bare, isOpen⟩ done
    have same : middle.dedent line.indentOf = middle := dedent_eq_self (by simp [bare])
    rcases arms line mem with remark | ⟨spoken, statement, found, is_arm⟩
    · rcases moves_of_convertLine done with ⟨_, text, rfl⟩ | ⟨spoken, _⟩
      · exact ⟨bare, isOpen⟩
      · simp [remark] at spoken
    · obtain ⟨write, adds⟩ := Conversion.convertLine_of_isArm spoken found is_arm
      obtain ⟨arm, _, rfl⟩ := (adds middle next (by rw [same]; exact isOpen)).mp done
      rw [same]
      exact ⟨bare, isOpen⟩
  exact (Conversion.convertLines_induct step ⟨bare, isOpen⟩ done).1

/-- A line outside of all blocks and the lines below it leave a level open exactly if the line opens
a block. -/
theorem levels_of_node {line : Text} {body : Outline} {state middle after : State}
    (spoken : line.isRemark = false) (same : line.indentOf = 0)
    (admitted : Place.block.admits line.strip = true)
    (inner : match Place.block.below? line.strip with
      | some inner => body.Nested inner 4
      | none => body = .nil)
    (loopless : body.loops = 0) (positive : ∀ level ∈ state.levels, 0 < level)
    (one : Conversion.convertLine line state = .ok () middle)
    (done : Conversion.convertLines body.lines middle = .ok () after) :
    (∀ level ∈ after.levels, 0 < level) ∧
      (after.levels = [] ↔ (openedBy? line.strip).isSome = false) := by
  have left : (state.dedent 0).levels = [] := by
    rw [dedent_levels, List.dropWhile_eq_nil_iff]
    simpa using positive
  have levels := levels_of_admits spoken admitted one
  rw [same, left, List.append_nil] at levels
  have middle_positive : ∀ level ∈ middle.levels, 0 < level := by
    rw [levels]
    cases openedBy? line.strip <;> simp
  split at inner
  · rename_i place below
    have ordinary := Outline.within_of_loops_eq_zero inner loopless
    refine ⟨Conversion.convertLines_induct (fun line mem _ _ positive done =>
      positive_of_within (ordinary line mem) done positive) middle_positive done, ?_⟩
    cases opened : openedBy? line.strip with
    | some kind =>
        have mem : 4 ∈ after.levels := mem_levels_of_loopless inner loopless done
          (by decide : (4 : Int) ≤ 4) (by simp [levels, opened])
        simp [List.ne_nil_of_mem mem]
    | none =>
        -- Only the header of a match has lines below it and opens no block.
        obtain ⟨rfl, statement, found, header⟩ :=
          (Place.below?_block_eq_some below).resolve_right (by simp [opened])
        obtain ⟨collected, header⟩ := Option.isSome_iff_exists.mp header
        obtain ⟨update, started⟩ := Conversion.convertLine_of_started? spoken found header
        rw [started state] at one
        cases one
        have bare := levels_eq_nil_of_arms inner (by rw [levels, opened]; rfl)
          (isOpen_of_started? found header) done
        simp [bare]
  · subst inner
    cases done
    refine ⟨middle_positive, ?_⟩
    rw [levels]
    cases openedBy? line.strip <;> simp

/-- Where the outermost level is gone, a level is open at the end exactly if the last line outside
of all blocks opens a block. -/
theorem levels_eq_nil_iff_of_loopless {outline : Outline} {before : Bool} {state after : State}
    (nested : outline.Nested .block 0) (loopless : outline.loops = 0)
    (positive : ∀ level ∈ state.levels, 0 < level) (start : state.levels = [] ↔ before = false)
    (done : Conversion.convertLines outline.lines state = .ok () after) :
    after.levels = [] ↔ outline.endsInBlock before = false := by
  induction outline generalizing before state with
  | nil =>
      cases done
      exact start
  | remark line rest rest_ih =>
      obtain ⟨middle, one, rest_done⟩ := Conversion.convertLines_cons_eq_ok.mp done
      rcases moves_of_convertLine one with ⟨_, text, rfl⟩ | ⟨spoken, _⟩
      · refine rest_ih nested.2 loopless ?_ ?_ rest_done
        · exact positive
        · exact start
      · simp [nested.1] at spoken
  | node line body rest body_ih rest_ih =>
      obtain ⟨⟨spoken, same, admitted⟩, inner, rest_nested⟩ := nested
      obtain ⟨body_loopless, rest_loopless⟩ := Nat.add_eq_zero_iff.mp loopless
      obtain ⟨middle, last, one, body_done, rest_done⟩ := Outline.exists_of_convertLines_node done
      obtain ⟨last_positive, last_levels⟩ :=
        levels_of_node spoken same admitted inner body_loopless positive one body_done
      exact rest_ih rest_nested rest_loopless last_positive last_levels rest_done
  | loop opening body closing rest body_ih rest_ih => simp [Outline.loops] at loopless

/-- The outermost level is closed by the condition of the only do loop, if this stands outside of
all blocks. -/
theorem levels_eq_nil_iff_of_nested {outline : Outline} (before : Bool) {state after : State}
    (nested : outline.Nested .block 0) (single : outline.loops = 1) (top : outline.topLoops = 1)
    (rooted : state.Rooted)
    (done : Conversion.convertLines outline.lines state = .ok () after) :
    after.levels = [] ↔ outline.endsInBlock before = false := by
  induction outline generalizing before state with
  | nil => simp [Outline.loops] at single
  | remark line rest rest_ih =>
      obtain ⟨middle, one, rest_done⟩ := Conversion.convertLines_cons_eq_ok.mp done
      have within : Within 0 line := .inl nested.1
      exact rest_ih before nested.2 single top (rooted.convertLine_of_within within one) rest_done
  | node line body rest body_ih rest_ih =>
      obtain ⟨inner, body_nested⟩ := Outline.exists_nested_body nested
      obtain ⟨⟨spoken, same, admitted⟩, _, rest_nested⟩ := nested
      obtain ⟨middle, last, one, body_done, rest_done⟩ := Outline.exists_of_convertLines_node done
      have within : Within 0 line := .inr ⟨by omega, Place.isOrdinary_of_admits admitted⟩
      have middle_rooted := rooted.convertLine_of_within within one
      simp only [Outline.loops, Outline.topLoops] at single top
      have rest_top := rest.topLoops_le_loops
      refine rest_ih _ rest_nested (by omega) top ?_ rest_done
      exact (rooted_of_loopless body_nested (by omega) body_done middle_rooted).1
  | loop opening body closing rest body_ih rest_ih =>
      obtain ⟨_, ⟨opening_indent, opens⟩, body_nested, ⟨spoken, closing_indent, condition⟩,
        rest_nested⟩ := nested
      obtain ⟨inside, behind, left, one, body_done, closed, rest_done⟩ :=
        Outline.exists_of_convertLines_loop done
      obtain ⟨_, _, waits⟩ := loops_of_convertLine opens one
      simp only [Outline.loops] at single
      have inside_rooted := (rooted.convertLine one).resolve_right (by simp [waits])
      obtain ⟨behind_rooted, waiting⟩ :=
        rooted_of_loopless body_nested (by omega) body_done inside_rooted
      obtain ⟨level, open_eq, _⟩ :=
        ends_of_convertLine spoken condition (waiting.trans waits) closed
      have bare : left.levels = [] := by
        obtain ⟨uppers, split, positive⟩ := behind_rooted
        have outermost : (behind.dedent 0).levels = [0] := by
          rw [dedent_levels, split, List.dropWhile_append_of_pos (by simpa using positive)]
          rfl
        rw [closing_indent, outermost] at open_eq
        exact (List.cons.inj open_eq).2.symm
      have start : left.levels = [] ↔ false = false := by simp [bare]
      rw [Outline.endsInBlock]
      exact levels_eq_nil_iff_of_loopless rest_nested (by omega) (by simp [bare]) start rest_done

/-- The braces of the output are balanced if there is no do loop, or if the only one stands outside
of all blocks and no block is open at the end. -/
theorem balanced_iff_of_convertLines {outline : Outline} {after : State}
    (nested : outline.Nested .block 0) (braceless : ∀ line ∈ outline.lines, Braceless line)
    (done : Conversion.convertLines outline.lines State.initial.reset = .ok () after) :
    Balanced (join ['\n'] after.flushMatch.closeAll.lines) ↔
      outline.loops = 0 ∨
        outline.loops = 1 ∧ outline.topLoops = 1 ∧ outline.endsInBlock false = false := by
  obtain ⟨lost, sound, lower⟩ := Sound.tips_le nested braceless .reset_initial done
  obtain ⟨other, sound_other, upper⟩ := Sound.reset_initial.convertLines_le braceless done
  obtain rfl := sound.unique sound_other
  rw [Outline.countP_opensLoop nested] at upper
  have start : State.initial.reset.Rooted := ⟨[], rfl, by simp⟩
  have none_open : State.initial.reset.blocks.count .doLoop = 0 := rfl
  have last_of_rooted (rooted : after.Rooted) : after.levels.getLast?.toList.length = 1 := by
    obtain ⟨uppers, split, _⟩ := rooted
    simp [split]
  have tips := outline.tips_eq_zero_iff
  rw [sound.balanced_iff]
  by_cases loopless : outline.loops = 0
  · have last := last_of_rooted (rooted_of_loopless nested loopless done start).1
    omega
  by_cases top : outline.loops = 1 ∧ outline.topLoops = 1
  · have levels := levels_eq_nil_iff_of_nested false nested top.1 top.2 start done
    have last : after.levels.getLast?.toList.length = 0 ↔ after.levels = [] := by simp
    rw [← levels, ← last]
    omega
  · -- Either two braces are lost, or one is and the outermost level is still open.
    have last (single : outline.tips = 1) :=
      last_of_rooted (rooted_of_nested nested single top start done)
    omega

end State

namespace Conversion

/-- A nested source without braces and format texts is converted into an output with balanced braces
exactly if it has no do loop, or if it has one, which stands outside of all blocks, and the last
line outside of all blocks opens none. -/
theorem balanced_iff_of_nested {source : Text} {outline : Outline}
    (lines : source.lines = outline.lines) (nested : outline.Nested .block 0)
    (braceless : source.Braceless) (formatless : source.Formatless) :
    (∃ text final, convert source State.initial = .ok text final ∧ text.Balanced) ↔
      outline.loops = 0 ∨
        outline.loops = 1 ∧ outline.topLoops = 1 ∧ outline.endsInBlock false = false := by
  have each : ∀ line ∈ outline.lines, line.Braceless := fun line mem =>
    braceless.of_isInfix (Text.infix_of_mem_lines (lines ▸ mem))
  constructor
  · rintro ⟨text, final, converted, balanced⟩
    obtain ⟨after, done, rfl, rfl⟩ := convert_eq_ok.mp converted
    rw [lines] at done
    exact (State.balanced_iff_of_convertLines nested each done).mp balanced
  · intro single
    have once : source.lines.countP opensLoop ≤ 1 := by
      rw [lines, Outline.countP_opensLoop nested]
      omega
    obtain ⟨text, final, converted⟩ :=
      returns_iff.mp (returns_convert formatless once State.initial)
    obtain ⟨after, done, rfl, rfl⟩ := convert_eq_ok.mp converted
    rw [lines] at done
    exact ⟨_, _, converted, (State.balanced_iff_of_convertLines nested each done).mpr single⟩

/-- A do loop between other blocks, outside of all of them. -/
def outerLoop : Outline :=
  .node "if a:".toList (.node "    b()".toList .nil .nil) <|
    .loop "do:".toList
      (.node "    if c:".toList (.node "        a = 1".toList .nil (.remark [] .nil))
        (.node "    d()".toList .nil .nil))
      "while a".toList (.node "print(a)".toList .nil .nil)

theorem balanced_iff_of_nested_outerLoop :
    ∃ text final, convert (Text.join ['\n'] outerLoop.lines) State.initial = .ok text final ∧
      text.Balanced := by
  have lines : (Text.join ['\n'] outerLoop.lines).lines = outerLoop.lines := by decide +kernel
  have nested : outerLoop.Nested .block 0 := by decide +kernel
  exact (balanced_iff_of_nested lines nested (by decide +kernel) (by decide +kernel)).mpr
    (by decide +kernel)

/-- A do loop in a function. -/
def enclosedLoop : Outline :=
  .node "func f(a) int:".toList
    (.loop "    do:".toList (.node "        a = 1".toList .nil .nil) "    while a".toList
      (.node "    return a".toList .nil .nil))
    .nil

/-- The condition of the do loop closes the function in place of the loop. -/
theorem not_balanced_enclosedLoop :
    enclosedLoop.Nested .block 0 ∧
      ∃ text final, convert (Text.join ['\n'] enclosedLoop.lines) State.initial = .ok text final ∧
        ¬text.Balanced := by
  have lines : (Text.join ['\n'] enclosedLoop.lines).lines = enclosedLoop.lines := by
    decide +kernel
  have nested : enclosedLoop.Nested .block 0 := by decide +kernel
  have braceless : ∀ line ∈ enclosedLoop.lines, line.Braceless := by decide +kernel
  have returned : (convert (Text.join ['\n'] enclosedLoop.lines)).returns State.initial = true := by
    decide +kernel
  obtain ⟨text, final, converted⟩ := returns_iff.mp returned
  obtain ⟨after, done, rfl, rfl⟩ := convert_eq_ok.mp converted
  rw [lines] at done
  refine ⟨nested, _, _, converted, fun balanced => ?_⟩
  exact absurd ((State.balanced_iff_of_convertLines nested braceless done).mp balanced)
    (by decide +kernel)

end Conversion
end Ephp
