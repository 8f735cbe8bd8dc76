import Ephp.Proofs.Braces
import Ephp.Proofs.Return

/-!
# Balance of braces

Between two lines of a source without braces, the braces that are open in the output are those of
the open levels and those of do loops that were left before their condition came.  A source without
do loops has none of the latter, and so its output is balanced.
-/

namespace Ephp

open Text

/-- The texts of a match have no braces. -/
structure Match.Braceless (collected : Match) : Prop where
  subject : ∀ subject ∈ collected.subject, Text.Braceless subject
  target : ∀ target ∈ collected.target, Text.Braceless target
  values : ∀ arm ∈ collected.arms, ∀ value ∈ arm.values, Text.Braceless value
  result : ∀ arm ∈ collected.arms, Text.Braceless arm.result

namespace Match

theorem absent_braceless : absent.Braceless :=
  ⟨by simp [absent], by simp [absent], by simp [absent], by simp [absent]⟩

variable {collected : Match}

theorem braceless_writeSubject {subject : Text} (braceless : Text.Braceless subject) :
    Text.Braceless (writeSubject subject) := by
  unfold writeSubject
  split
  · exact braceless
  · exact (by decide : Text.Braceless ['$']).append braceless

theorem nest_opening? (braceless : collected.Braceless) {opening : Text}
    (found : collected.opening? = some opening) (depth : Nat) :
    nest depth opening = some (depth + 1) := by
  have subject : Text.Braceless (writeSubject (collected.subject.getD [])) := by
    apply braceless_writeSubject
    cases found : collected.subject with
    | none => exact (by decide : Text.Braceless [])
    | some subject => exact braceless.subject subject found
  have matched : nest depth ("match (".toList ++ writeSubject (collected.subject.getD []) ++
      ") \x7b".toList) = some (depth + 1) := by
    rw [List.append_assoc, nest_append_of_braceless (by decide), nest_append_of_braceless subject]
    rfl
  unfold opening? at found
  split at found
  · cases found
    have target : Text.Braceless (collected.target.getD "None".toList) := by
      cases found : collected.target with
      | none => exact (by decide : Text.Braceless "None".toList)
      | some target => exact braceless.target target found
    have front : Text.Braceless (['$'] ++ collected.target.getD "None".toList ++ " = ".toList) :=
      ((by decide : Text.Braceless ['$']).append target).append (by decide)
    exact (nest_append_of_braceless front depth _).trans matched
  · cases found
    exact (nest_append_of_braceless (by decide) depth _).trans matched
  · simp at found

theorem braceless_armLine (braceless : collected.Braceless) {arm : Arm}
    (mem : arm ∈ collected.arms) : Text.Braceless (armLine arm) := by
  have source : Text.Braceless (arm.values.flatten ++ arm.result) := by
    refine Text.Braceless.append ⟨?_, ?_⟩ (braceless.result arm mem)
    · simpa using fun value value_mem => (braceless.values arm mem value value_mem).1
    · simpa using fun value value_mem => (braceless.values arm mem value value_mem).2
  refine source.of_madeFrom ?_
  have values : MadeFrom (arm.values.flatten ++ arm.result) (join ", ".toList arm.values) := by
    refine .join (.of_plain (by decide)) fun value value_mem => .of_subset fun char char_mem => ?_
    exact List.mem_append_left _ (List.mem_flatten.mpr ⟨value, value_mem, char_mem⟩)
  have result : MadeFrom (arm.values.flatten ++ arm.result) arm.result :=
    .of_subset (List.subset_append_right _ _)
  exact (((MadeFrom.of_plain (by decide)).append values).append (.of_plain (by decide))).append
    result |>.append (.of_plain (by decide))

/-- A match is written with one opening brace in its first line and one closing brace in its
last. -/
theorem nest_lines (braceless : collected.Braceless) (indent : Int) (depth : Nat) :
    nest depth (collected.lines.map (indentation indent ++ ·)).flatten = some depth := by
  have spaces := braceless_indentation indent
  have arms (arms : List Arm) (mem : ∀ arm ∈ arms, arm ∈ collected.arms) (depth : Nat)
      (rest : Text) :
      nest depth (((arms.map armLine).map (indentation indent ++ ·)).flatten ++ rest) =
        nest depth rest := by
    refine nest_append_of_braceless ⟨?_, ?_⟩ depth rest
    · simpa using fun arm arm_mem =>
        ⟨spaces.1, (braceless_armLine braceless (mem arm arm_mem)).1⟩
    · simpa using fun arm arm_mem =>
        ⟨spaces.2, (braceless_armLine braceless (mem arm arm_mem)).2⟩
  unfold lines
  split
  · split
    · rename_i opening found
      simp only [List.cons_append, List.map_cons, List.map_append, List.flatten_cons,
        List.flatten_append, List.map_nil, List.flatten_nil, List.append_nil]
      rw [List.append_assoc, nest_append_of_braceless spaces, nest_append,
        nest_opening? braceless found, Option.bind_some, arms _ (fun _ mem => mem),
        nest_append_of_braceless spaces]
      rfl
    · rfl
  · rfl

end Match

namespace State

theorem lookup_acquire (state : State) (level key : Int) (resource : Resource) :
    (state.acquire level resource).resources.lookup key =
      if key = level then some resource else state.resources.lookup key := by
  change ((level, resource) :: _).lookup key = _
  rw [List.lookup_cons]
  split
  · rename_i same
    rw [if_pos (by simpa using same)]
  · rename_i other
    have distinct : key ≠ level := by simpa using other
    rw [if_neg distinct, Resource.lookup_filter fun _ => by simpa using distinct]

/-- The outermost level is zero, and there is one more level than there are blocks. -/
def Grounded (state : State) : Prop :=
  state.levels.length = state.blocks.length + 1 ∧ state.levels.getLast? = some 0

/-- The open braces are those of the levels but one and `lost` others.  The last level can be gone
only if there are others, and a do loop that waits is among the blocks or among the others. -/
structure Sound (lost : Nat) (state : State) : Prop where
  depth : ∃ depth, nest 0 state.lines.flatten = some depth ∧ depth + 1 = lost + state.levels.length
  base : state.Grounded ∨ state.levels.length = state.blocks.length ∧ 0 < lost
  pending : state.doPending = true → .doLoop ∈ state.blocks ∨ 0 < lost
  owners : ∀ level, (level, Block.resource) ∈ state.levels.zip state.blocks →
    (state.resources.lookup level).isSome
  handles : ∀ level resource, state.resources.lookup level = some resource →
    Braceless resource.handle
  collected : state.collected.Braceless

namespace Sound

variable {lost : Nat} {state : State}

/-- Writing a line that is level in itself keeps the balance. -/
theorem writeLine (sound : Sound lost state) {text : Text}
    (level : ∀ depth, nest depth text = some depth) : Sound lost (state.writeLine text) := by
  obtain ⟨depth, nested, total⟩ := sound.depth
  refine ⟨⟨depth, ?_, total⟩, sound.base, sound.pending, sound.owners, sound.handles,
    sound.collected⟩
  simp [State.writeLine, nest_append, nested, level]

theorem emit (sound : Sound lost state) (indent : Int) {text : Text} (braceless : Braceless text) :
    Sound lost (state.emit indent text) :=
  sound.writeLine (nest_of_braceless ((braceless_indentation indent).append braceless))

theorem flushMatch (sound : Sound lost state) : Sound lost state.flushMatch := by
  unfold State.flushMatch
  split
  · exact sound
  · rename_i lines _
    obtain ⟨depth, nested, total⟩ := sound.depth
    refine ⟨⟨depth, ?_, total⟩, sound.base, sound.pending, sound.owners, sound.handles,
      Match.absent_braceless⟩
    simp only [emitAll, List.flatten_append, nest_append, nested, Option.bind_some]
    exact Match.nest_lines sound.collected _ depth

/-- Opening a block whose header ends with a brace keeps the balance. -/
theorem openBlock (sound : Sound lost state) (indent level : Int) {block : Block} {header : Text}
    (owner : block ≠ .resource) (braceless : Braceless header) :
    Sound lost ((state.emit indent (header ++ " \x7b".toList)).openBlock block level) := by
  obtain ⟨depth, nested, total⟩ := sound.depth
  refine ⟨⟨depth + 1, ?_, ?_⟩, ?_, ?_, ?_, sound.handles, sound.collected⟩
  · simp only [State.openBlock, emit_lines, List.flatten_append, List.flatten_cons,
      List.flatten_nil, List.append_nil, nest_append, nested, Option.bind_some,
      nest_of_braceless (braceless_indentation indent), nest_of_braceless braceless]
    rfl
  · simp only [State.openBlock, emit_levels, List.length_cons]
    omega
  · rcases sound.base with ⟨longer, last⟩ | ⟨same, others⟩
    · exact .inl ⟨by simp [State.openBlock, longer],
        by simp [State.openBlock, List.getLast?_cons, last]⟩
    · exact .inr ⟨by simp [State.openBlock, same], others⟩
  · intro waits
    exact (sound.pending waits).imp (List.mem_cons_of_mem block) id
  · intro key mem
    rcases List.mem_cons.mp mem with same | mem
    · exact absurd (Prod.mk.inj same).2.symm owner
    · exact sound.owners key mem

/-- A level that is taken away leaves its brace among the others. -/
theorem pop (sound : Sound lost state) {level : Int} {below : List Int}
    (open_eq : state.levels = level :: below) : Sound (lost + 1) (state.pop below) := by
  obtain ⟨depth, nested, total⟩ := sound.depth
  refine ⟨⟨depth, nested, ?_⟩, ?_, fun _ => .inr (Nat.succ_pos lost), ?_, sound.handles,
    sound.collected⟩
  · rw [open_eq, List.length_cons] at total
    change depth + 1 = lost + 1 + below.length
    omega
  · rcases sound.base with ⟨longer, last⟩ | ⟨same, others⟩
    · rw [open_eq, List.length_cons] at longer
      cases below with
      | nil =>
          have empty : state.blocks.length = 0 := by simpa using longer
          exact .inr ⟨by simp [State.pop, empty], Nat.succ_pos lost⟩
      | cons next below =>
          rw [open_eq] at last
          exact .inl ⟨by simp [State.pop] at longer ⊢; omega, by simpa [State.pop] using last⟩
    · rw [open_eq, List.length_cons] at same
      exact .inr ⟨by simp [State.pop]; omega, Nat.succ_pos lost⟩
  · intro key mem
    apply sound.owners key
    rw [open_eq]
    cases blocks_eq : state.blocks with
    | nil => simp [State.pop, blocks_eq] at mem
    | cons block blocks =>
        simp only [State.pop, blocks_eq, List.tail_cons] at mem
        exact List.mem_cons_of_mem _ mem

/-- Lines with one closing brace take back one of the other braces. -/
theorem regain {after : State} {new : List Text} (sound : Sound (lost + 1) state)
    (lines : after.lines = state.lines ++ new)
    (closing : ∀ depth, nest (depth + 1) new.flatten = some depth)
    (frame : after.levels = state.levels ∧ after.blocks = state.blocks ∧
      after.resources = state.resources ∧ after.collected = state.collected)
    (base : state.Grounded ∨ state.levels.length = state.blocks.length ∧ 0 < lost)
    (pending : after.doPending = true → .doLoop ∈ state.blocks ∨ 0 < lost) : Sound lost after := by
  obtain ⟨same_levels, same_blocks, same_resources, same_collected⟩ := frame
  obtain ⟨depth, nested, total⟩ := sound.depth
  have positive : 0 < lost + state.levels.length := by
    rcases base with ⟨longer, _⟩ | ⟨_, others⟩ <;> omega
  obtain ⟨outer, rfl⟩ : ∃ outer, depth = outer + 1 := ⟨depth - 1, by omega⟩
  refine ⟨⟨outer, ?_, ?_⟩, ?_, ?_, ?_, ?_, ?_⟩
  · rw [lines, List.flatten_append, nest_append, nested, Option.bind_some, closing]
  · rw [same_levels]
    omega
  · simpa [Grounded, same_levels, same_blocks] using base
  · simpa [same_blocks] using pending
  · simpa [same_levels, same_blocks, same_resources] using sound.owners
  · simpa [same_resources] using sound.handles
  · simpa [same_collected] using sound.collected

end Sound

theorem nest_indentation_append (indent : Int) (depth : Nat) (text : Text) :
    nest depth (indentation indent ++ text) = nest depth text :=
  nest_append_of_braceless (braceless_indentation indent) depth text

theorem nest_closing {resource : Resource} (braceless : Braceless resource.handle) (depth : Nat) :
    nest (depth + 1) resource.closing.flatten = some depth := by
  have handle : Braceless ('$' :: resource.handle) :=
    (by decide : Braceless ['$']).append braceless
  have test (depth : Nat) : nest depth ("if (isset(".toList ++ ('$' :: resource.handle) ++
      ") && is_resource(".toList ++ ('$' :: resource.handle) ++ ")) \x7b".toList) =
        some (depth + 1) := by
    have front : Braceless ("if (isset(".toList ++ ('$' :: resource.handle) ++
        ") && is_resource(".toList ++ ('$' :: resource.handle)) :=
      (((by decide : Braceless "if (isset(".toList).append handle).append (by decide)).append handle
    rw [nest_append_of_braceless front]
    rfl
  have release : Braceless ("fclose(".toList ++ ('$' :: resource.handle) ++ ");".toList) :=
    ((by decide : Braceless "fclose(".toList).append handle).append (by decide)
  have leave (depth : Nat) : nest (depth + 1) "\x7d finally \x7b".toList = some (depth + 1) := rfl
  simp only [Resource.closing, List.flatten_cons, List.flatten_nil, List.append_nil, nest_append,
    nest_of_braceless (braceless_indentation _), Option.bind_some, leave]
  simp only [← nest_append, test, nest_of_braceless release, Option.bind_some]
  rfl

/-- Closing a block writes lines with one closing brace. -/
theorem exists_close_lines {state : State} {block : Option Block} {level : Int}
    (owned : block = some .resource → (state.resources.lookup level).isSome)
    (handles : ∀ level resource, state.resources.lookup level = some resource →
      Braceless resource.handle) :
    ∃ new, (state.close block level).lines = state.lines ++ new ∧
      ∀ depth, nest (depth + 1) new.flatten = some depth := by
  have single (depth : Nat) :
      nest (depth + 1) [indentation level ++ ['}']].flatten = some depth := by
    rw [List.flatten_singleton, nest_indentation_append]
    rfl
  unfold close
  split
  · rename_i owner
    obtain ⟨resource, found⟩ := Option.isSome_iff_exists.mp (owned owner)
    rw [found]
    exact ⟨resource.closing, by simp only [release_eq], nest_closing (handles level resource found)⟩
  · split
    · refine ⟨_, rfl, fun depth => ?_⟩
      rw [List.flatten_singleton, nest_indentation_append]
      rfl
    · split
      · refine ⟨[indentation level ++ "break;".toList] ++ [indentation level ++ ['}']],
          by simp only [emit_lines, List.append_assoc], fun depth => ?_⟩
        have leave : Braceless (indentation level ++ "break;".toList) :=
          (braceless_indentation level).append (by decide)
        rw [List.flatten_append, List.flatten_singleton, nest_append_of_braceless leave, single]
      · split
        · exact ⟨_, rfl, single⟩
        · exact ⟨_, rfl, single⟩

/-- The number of do loops among the levels deeper than an indentation that wait for their
condition. -/
def abandoned (indent : Int) (state : State) : Nat :=
  if state.doPending then
    (state.blocks.take (state.levels.takeWhile (indent < ·)).length).count .doLoop
  else 0

theorem abandoned_of_lt {indent level : Int} {below : List Int} {state : State}
    (open_eq : state.levels = level :: below) (deeper : indent < level) :
    state.abandoned indent =
      (if state.blocks.head? = some .doLoop ∧ state.doPending = true then 1 else 0) +
        (state.closeTop id level below).abandoned indent := by
  have deeper_levels : (level :: below).takeWhile (indent < ·) =
      level :: below.takeWhile (indent < ·) := List.takeWhile_cons_of_pos (by simpa using deeper)
  simp only [abandoned, closeTop_doPending, closeTop_levels, closeTop_blocks, open_eq,
    deeper_levels, List.length_cons]
  cases state.doPending with
  | false => simp
  | true =>
      cases blocks_eq : state.blocks with
      | nil => simp
      | cons block blocks =>
          by_cases loop : block = .doLoop
          · simp [loop, Nat.add_comm 1]
          · simp [loop]

namespace Sound

variable {lost : Nat} {state : State}

theorem base_of_pop (sound : Sound lost state) {level : Int} {below : List Int}
    (open_eq : state.levels = level :: below) (inner : state.Grounded → below ≠ []) :
    (state.pop below).Grounded ∨
      (state.pop below).levels.length = (state.pop below).blocks.length ∧ 0 < lost := by
  rcases sound.base with grounded | ⟨same, others⟩
  · left
    obtain ⟨longer, last⟩ := grounded
    have some_below := inner ⟨longer, last⟩
    rw [open_eq] at longer last
    have longer_below : 0 < below.length := List.length_pos_of_ne_nil some_below
    rw [List.getLast?_cons_of_ne_nil some_below] at last
    simp only [List.length_cons] at longer
    exact ⟨by simp [State.pop]; omega, by simpa [State.pop] using last⟩
  · right
    rw [open_eq, List.length_cons] at same
    exact ⟨by simp [State.pop]; omega, others⟩

/-- Closing a level with its brace. -/
theorem close (sound : Sound lost state) {level : Int} {below : List Int}
    (open_eq : state.levels = level :: below) (inner : state.Grounded → below ≠ [])
    (settled : ¬(state.blocks.head? = some .doLoop ∧ state.doPending = true)) :
    Sound lost ((state.pop below).flushMatch.close state.blocks.head? level) := by
  have popped := (sound.pop open_eq).flushMatch
  have owned : state.blocks.head? = some .resource →
      ((state.pop below).flushMatch.resources.lookup level).isSome := by
    intro owner
    obtain ⟨others, blocks_eq⟩ := List.head?_eq_some_iff.mp owner
    rw [flushMatch_resources]
    exact sound.owners level (by simp [open_eq, blocks_eq])
  obtain ⟨new, lines, closing⟩ := exists_close_lines owned popped.handles
  refine popped.regain lines closing (by simp) ?_ ?_
  · simpa [Grounded] using sound.base_of_pop open_eq inner
  · intro waits
    simp only [close_doPending, flushMatch_doPending] at waits
    refine (sound.pending waits).imp (fun mem => ?_) id
    cases blocks_eq : state.blocks with
    | nil => simp [blocks_eq] at mem
    | cons block blocks =>
        have other : block ≠ .doLoop := fun same => settled ⟨by simp [blocks_eq, same], waits⟩
        rw [blocks_eq, List.mem_cons] at mem
        simpa [State.pop, blocks_eq] using mem.resolve_left (Ne.symm other)

theorem closeTop (sound : Sound lost state) {level : Int} {below : List Int}
    (open_eq : state.levels = level :: below) (inner : state.Grounded → below ≠ []) :
    Sound (lost + if state.blocks.head? = some .doLoop ∧ state.doPending = true then 1 else 0)
      (state.closeTop id level below) := by
  rw [closeTop_eq]
  split
  · exact (sound.pop open_eq).flushMatch
  · rename_i settled
    exact sound.close open_eq inner settled

/-- A dedent loses the braces of the do loops that wait for their condition. -/
theorem dedent {indent : Int} (outer : 0 ≤ indent) (sound : Sound lost state) :
    Sound (lost + state.abandoned indent) (state.dedent indent) := by
  generalize open_eq : state.levels = levels
  induction levels generalizing state lost with
  | nil =>
      have same : state.dedent indent = state := dedent_eq_self (by simp [open_eq])
      simpa [abandoned, open_eq, same] using sound
  | cons level below ih =>
      by_cases deeper : indent < level
      · have inner : state.Grounded → below ≠ [] := by
          rintro ⟨_, last⟩ rfl
          simp only [open_eq, List.getLast?_singleton, Option.some.injEq] at last
          omega
        have rest := ih (sound.closeTop open_eq inner) (closeTop_levels state level below)
        rw [dedent_of_lt open_eq deeper]
        rw [abandoned_of_lt open_eq deeper, ← Nat.add_assoc]
        exact rest
      · have same : state.dedent indent = state := dedent_eq_self (by simp [open_eq]; omega)
        have stays : state.abandoned indent = 0 := by simp [abandoned, open_eq, deeper]
        simpa [same, stays] using sound

/-- The names do not count. -/
theorem withNames (sound : Sound lost state) (names : Names) :
    Sound lost { state with names := names } :=
  ⟨sound.depth, sound.base, sound.pending, sound.owners, sound.handles, sound.collected⟩

theorem collecting (sound : Sound lost state) {collected : Match}
    (braceless : collected.Braceless) : Sound lost { state with collected := collected } :=
  ⟨sound.depth, sound.base, sound.pending, sound.owners, sound.handles, braceless⟩

/-- A block that owns a resource, with the resource remembered. -/
theorem acquire (sound : Sound lost state) (indent level : Int) {resource : Resource}
    (handle : Braceless resource.handle) :
    Sound lost (((state.emit indent "try \x7b".toList).openBlock .resource level).acquire level
      resource) := by
  -- Without the resource it is a block like any other.
  have opened := sound.openBlock indent level (by decide : Block.unnamed ≠ .resource)
    (by decide : Braceless "try".toList)
  refine ⟨opened.depth, opened.base, ?_, ?_, ?_, opened.collected⟩
  · intro waits
    exact (sound.pending waits).imp (List.mem_cons_of_mem _) id
  · intro key mem
    rw [lookup_acquire]
    split
    · rfl
    · rename_i other
      rcases List.mem_cons.mp mem with same | mem
      · exact absurd (Prod.mk.inj same).1 other
      · exact sound.owners key mem
  · intro key found
    rw [lookup_acquire]
    split
    · intro same
      exact Option.some.inj same ▸ handle
    · exact sound.handles key found

/-- The condition of a do loop ends the innermost level with its brace. -/
theorem endLoop (sound : Sound lost state) {level : Int} {below : List Int} {written : Text}
    (open_eq : state.levels = level :: below) (waits : state.doPending = true)
    (braceless : Braceless written) :
    Sound lost { (state.pop below).emit (level - 4) ("\x7d while (".toList ++ written ++
      ");".toList) with doPending := false } := by
  refine (sound.pop open_eq).regain rfl ?_ ⟨rfl, rfl, rfl, rfl⟩ ?_ (by simp)
  · intro depth
    have rest : Braceless (" while (".toList ++ written ++ ");".toList) :=
      ((by decide : Braceless " while (".toList).append braceless).append (by decide)
    rw [List.flatten_singleton, nest_indentation_append]
    exact nest_of_braceless rest depth
  · rcases (sound.pop open_eq).base with grounded | ⟨same, _⟩
    · exact .inl grounded
    · refine .inr ⟨same, ?_⟩
      rcases sound.pending waits with mem | others
      · rcases sound.base with ⟨longer, _⟩ | ⟨_, others⟩
        · have := List.length_pos_of_mem mem
          simp only [open_eq, List.length_cons] at longer
          simp only [State.pop, List.length_tail] at same
          omega
        · exact others
      · exact others

/-- A statement keeps the balance. -/
theorem outcome {indent : Int} {body : Text} {after : State} (sound : Sound lost state)
    (braceless : Braceless body) (done : Statement.Outcome indent body state after) :
    Sound lost after := by
  cases done with
  | wrote names single _ made =>
      exact (sound.withNames names).emit indent (braceless.of_madeFrom made)
  | opened names kind owner _ _ _ made =>
      exact (sound.withNames names).openBlock indent _ owner (braceless.of_madeFrom made)
  | acquired names found made =>
      have handle := Statement.madeFrom_field found (List.mem_cons_of_mem _ List.mem_cons_self)
      exact ((sound.withNames names).emit indent (braceless.of_madeFrom made)).acquire indent _
        (braceless.of_madeFrom handle)
  | looped found =>
      have opened := sound.openBlock indent (indent + 4) (by decide : Block.doLoop ≠ .resource)
        (by decide : Braceless "do".toList)
      exact ⟨opened.depth, opened.base, fun _ => .inl List.mem_cons_self, opened.owners,
        opened.handles, opened.collected⟩
  | ended found waits open_eq made => exact sound.endLoop open_eq waits (braceless.of_madeFrom made)
  | switched found made =>
      have opened := sound.openBlock indent (indent + 4) (by decide : Block.switch ≠ .resource)
        (braceless.of_madeFrom made)
      exact ⟨opened.depth, opened.base, opened.pending, opened.owners, opened.handles,
        opened.collected⟩
  | labelled found label made =>
      have left : Sound lost
          (if state.casePending then state.emit (indent - 4) "break;".toList else state) := by
        split
        · exact sound.emit (indent - 4) (by decide)
        · exact sound
      have written := left.emit indent (braceless.of_madeFrom made)
      exact ⟨written.depth, written.base, written.pending, written.owners, written.handles,
        written.collected⟩
  | started names found header =>
      refine (sound.withNames names).collecting ?_
      have field {field : Text} (mem : field ∈ Statement.fields _) : Braceless field :=
        braceless.of_madeFrom (Statement.madeFrom_field found mem)
      rename_i statement collected
      cases statement with
      | matchAssign target subject =>
          cases header
          exact ⟨by simpa using field (by simp [Statement.fields]),
            by simpa using field (by simp [Statement.fields]), by simp, by simp⟩
      | matchReturn subject =>
          cases header
          exact ⟨by simpa using field (by simp [Statement.fields]), by simp, by simp, by simp⟩
      | _ => simp [Statement.started?] at header
  | armed arm found is_arm isOpen made_values made_result =>
      obtain ⟨subject, target, values, result⟩ := sound.collected
      refine sound.collecting ⟨subject, target, ?_, ?_⟩
      · intro other mem
        rcases List.mem_append.mp mem with mem | mem
        · exact values other mem
        · rw [List.mem_singleton.mp mem]
          exact fun value value_mem => braceless.of_madeFrom (made_values value value_mem)
      · intro other mem
        rcases List.mem_append.mp mem with mem | mem
        · exact result other mem
        · rw [List.mem_singleton.mp mem]
          exact braceless.of_madeFrom made_result

theorem endDoLoop (sound : Sound lost state) {level next : Int} {below : List Int}
    (open_eq : state.levels = level :: next :: below) :
    Sound lost (State.endDoLoop level (state.pop (next :: below)).flushMatch) := by
  refine (sound.pop open_eq).flushMatch.regain rfl ?_ ⟨rfl, rfl, rfl, rfl⟩ ?_
    (by simp [State.endDoLoop])
  · intro depth
    rw [List.flatten_singleton, nest_indentation_append]
    rfl
  · simpa [Grounded] using sound.base_of_pop open_eq (by simp)

/-- The end of the source closes what is open, with the do loops that wait. -/
theorem closeAllFrom {levels : List Int} (sound : Sound lost state)
    (open_eq : state.levels = levels) : Sound lost (State.closeAllFrom levels state) := by
  induction levels generalizing state with
  | nil => exact sound
  | cons level below ih =>
      cases below with
      | nil => exact sound
      | cons next below =>
          rw [State.closeAllFrom]
          refine ih ?_ (closeTop_endDoLoop_levels state level (next :: below))
          simp only [State.closeTop, flushMatch_doPending]
          split
          · exact sound.endDoLoop open_eq
          · rename_i settled
            exact sound.close open_eq (by simp) settled

theorem closeAll (sound : Sound lost state) : Sound lost state.closeAll :=
  sound.closeAllFrom rfl

/-- The start of a source. -/
theorem reset_initial : Sound 0 State.initial.reset where
  depth := ⟨0, by decide, rfl⟩
  base := .inl ⟨rfl, rfl⟩
  pending := by simp [State.reset, State.initial]
  owners := by simp [State.reset, State.initial]
  handles := by simp [State.reset, State.initial]
  collected := Match.absent_braceless

/-- A line keeps the balance, up to the do loops that it leaves. -/
theorem convertLine {line : Text} {after : State} (sound : Sound lost state)
    (braceless : Braceless line) (done : Conversion.convertLine line state = .ok () after) :
    Sound (lost + if line.isRemark then 0 else state.abandoned line.indentOf) after := by
  rcases Conversion.convertLine_eq_ok done with ⟨remark, text, made, rfl⟩ | ⟨spoken, outcome⟩
  · rw [if_pos remark]
    exact sound.writeLine (nest_of_braceless (braceless.of_madeFrom made))
  · rw [if_neg (by simp [spoken])]
    exact (sound.dedent line.indentOf_nonneg).outcome (braceless.of_isInfix (strip_isInfix line))
      outcome

/-- What the end of a source makes of the balance. -/
theorem balanced_iff (sound : Sound lost state) :
    Balanced (join ['\n'] state.flushMatch.closeAll.lines) ↔
      lost + state.levels.getLast?.toList.length = 1 := by
  obtain ⟨depth, nested, total⟩ := sound.flushMatch.closeAll.depth
  rw [closeAll_levels, flushMatch_levels] at total
  rw [Text.balanced_iff, nest_join (by decide), nested, Option.some.injEq]
  omega

end Sound

theorem sound_of_convertLines {lines : List Text} {state after : State} (sound : Sound 0 state)
    (idle : state.doPending = false) (braceless : ∀ line ∈ lines, Braceless line)
    (loopless : ∀ line ∈ lines, line.strip ≠ "do:".toList)
    (done : Conversion.convertLines lines state = .ok () after) : Sound 0 after := by
  have step (line : Text) (mem : line ∈ lines) {state after : State}
      (kept : Sound 0 state ∧ state.doPending = false)
      (one : Conversion.convertLine line state = .ok () after) :
      Sound 0 after ∧ after.doPending = false := by
    obtain ⟨sound, idle⟩ := kept
    have next := sound.convertLine (braceless line mem) one
    rw [abandoned, idle] at next
    exact ⟨by simpa using next, Conversion.idle_of_convertLine idle (loopless line mem) one⟩
  exact (Conversion.convertLines_induct step ⟨sound, idle⟩ done).1

end State

namespace Conversion

/-- A source without braces and without do loops becomes a balanced output, and all its blocks are
closed in the end. -/
theorem balanced_of_loopless {source text : Text} {final : State} (braceless : source.Braceless)
    (loopless : ∀ line ∈ source.lines, line.strip ≠ "do:".toList)
    (done : convert source State.initial = .ok text final) :
    text.Balanced ∧ final.levels = [0] ∧ final.blocks = [] := by
  obtain ⟨after, lines, rfl, rfl⟩ := convert_eq_ok.mp done
  have sound : State.Sound 0 after :=
    State.sound_of_convertLines .reset_initial rfl
      (fun line mem => braceless.of_isInfix (infix_of_mem_lines mem)) loopless lines
  obtain ⟨longer, last⟩ : after.Grounded := by simpa using sound.base
  refine ⟨sound.balanced_iff.mpr (by simp [last]), ?_, ?_⟩
  · rw [State.closeAll_levels, State.flushMatch_levels, last]
    rfl
  · rw [State.closeAll_blocks, State.flushMatch_levels, State.flushMatch_blocks, longer,
      Nat.add_sub_cancel, List.drop_length]

/-- A source that is indented irregularly and has blocks of many kinds. -/
def irregular : Text :=
  ("func f(a) int:\n  if a:\n     with open(a) as b:\n   pass\n\twhile x:\nv = match a:\n" ++
    "     case 1 or 2: 3\nswitch a:\n      case 3:\n  print(a)").toList

theorem balanced_of_loopless_irregular :
    ∃ text final, convert irregular State.initial = .ok text final ∧
      text.Balanced ∧ final.levels = [0] ∧ final.blocks = [] := by
  have returned : (convert irregular).returns State.initial = true := by decide +kernel
  obtain ⟨text, final, done⟩ := returns_iff.mp returned
  exact ⟨text, final, done,
    balanced_of_loopless (by decide +kernel) (by decide +kernel) done⟩

end Conversion
end Ephp
