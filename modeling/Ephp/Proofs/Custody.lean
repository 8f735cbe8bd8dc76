import Ephp.Proofs.Shape

/-!
# Resources and their blocks

A resource is remembered by the level of its block, and it is still remembered when the block is
closed.  A line remembers a resource only at a level that it opens, and no open level is that deep,
so that a block finds the resource of its own header when it ends.  Without do loops every header of
a block with a resource is followed by exactly one release, and inner blocks come first.
-/

namespace Ephp

/-- The variable that holds the resource of a header. -/
def Statement.handle? : Statement → Option Text
  | .resource _ handle => some handle
  | _ => none

/-- The resource that a line acquires as the header of a block. -/
def acquiredBy? (line : Text) : Option Resource :=
  if line.isRemark then none
  else ((Statement.read? line.strip).bind (·.handle?)).map (⟨line.indentOf, ·⟩)

section Acquired

open Statement

variable {line : Text}

theorem acquiredBy?_of_isRemark (remark : line.isRemark = true) : acquiredBy? line = none :=
  if_pos remark

theorem acquiredBy?_of_read? {statement : Statement} (spoken : line.isRemark = false)
    (found : read? line.strip = some statement) :
    acquiredBy? line = statement.handle?.map (⟨line.indentOf, ·⟩) := by
  rw [acquiredBy?, if_neg (by simp [spoken]), found, Option.bind_some]

theorem base_of_acquiredBy? {resource : Resource} (acquired : acquiredBy? line = some resource) :
    resource.base = line.indentOf := by
  unfold acquiredBy? at acquired
  split at acquired
  · simp at acquired
  · obtain ⟨handle, _, rfl⟩ := Option.map_eq_some_iff.mp acquired
    rfl

/-- A line that acquires a resource opens a block that owns one. -/
theorem acquiredBy?_eq_none (other : openedBy? line.strip ≠ some .resource) :
    acquiredBy? line = none := by
  rw [acquiredBy?, ite_eq_left_iff, Option.map_eq_none_iff, Option.bind_eq_none_iff]
  intro _ statement found
  cases statement with
  | resource acquired handle => exact absurd (openedBy?_of_read? found rfl) other
  | _ => rfl

end Acquired

namespace State

open Statement

/-- What a line does to the stacks and to the resources, once the blocks that it leaves are
closed. -/
inductive Disposes (line : Text) (state after : State) : Prop where
  | stays (levels : after.levels = state.levels) (blocks : after.blocks = state.blocks)
      (resources : after.resources = state.resources) (other : acquiredBy? line = none)
  | opens {block : Block} (levels : after.levels = (line.indentOf + 4) :: state.levels)
      (blocks : after.blocks = block :: state.blocks)
      (resources : after.resources = state.resources) (owner : block ≠ .resource)
      (other : acquiredBy? line = none)
  | acquires {resource : Resource} (levels : after.levels = (line.indentOf + 4) :: state.levels)
      (blocks : after.blocks = .resource :: state.blocks)
      (lookup : ∀ key, after.resources.lookup key =
        if key = line.indentOf + 4 then some resource else state.resources.lookup key)
      (acquired : acquiredBy? line = some resource)
  | ends {level : Int} (levels : state.levels = level :: after.levels)
      (blocks : after.blocks = state.blocks.tail)
      (resources : after.resources = state.resources) (waited : state.doPending = true)
      (other : acquiredBy? line = none)

theorem disposes_of_outcome {line : Text} {state after : State} (spoken : line.isRemark = false)
    (outcome : Outcome line.indentOf line.strip state after) : Disposes line state after := by
  cases outcome with
  | wrote names single apart made =>
      exact .stays rfl rfl rfl (acquiredBy?_eq_none (by simp [single]))
  | opened names kind owner loop settled apart made =>
      exact .opens rfl rfl rfl owner (acquiredBy?_eq_none (by simpa [kind] using owner))
  | acquired names found made =>
      refine .acquires rfl rfl (fun key => lookup_acquire _ _ key _) ?_
      rw [acquiredBy?_of_read? spoken found]
      rfl
  | looped found => exact .opens rfl rfl rfl (by simp) (acquiredBy?_of_read? spoken found)
  | ended found waits open_eq made =>
      exact .ends open_eq rfl rfl waits (acquiredBy?_of_read? spoken found)
  | switched found made => exact .opens rfl rfl rfl (by simp) (acquiredBy?_of_read? spoken found)
  | @labelled statement text found label made =>
      have other : acquiredBy? line = none := by
        rw [acquiredBy?_of_read? spoken found]
        cases statement <;> simp [isLabel] at label <;> rfl
      cases state.casePending with
      | true => exact .stays rfl rfl rfl other
      | false => exact .stays rfl rfl rfl other
  | @started statement collected names found header =>
      refine .stays rfl rfl rfl ?_
      rw [acquiredBy?_of_read? spoken found]
      cases statement <;> simp [started?] at header <;> rfl
  | @armed statement arm found is_arm isOpen made_values made_result =>
      refine .stays rfl rfl rfl ?_
      rw [acquiredBy?_of_read? spoken found]
      cases statement <;> simp [isArm] at is_arm <;> rfl

/-- A line writes at most two lines itself. -/
theorem lines_of_outcome {line : Text} {state after : State}
    (outcome : Outcome line.indentOf line.strip state after) :
    ∃ texts, texts.length ≤ 2 ∧ after.lines = state.lines ++ texts := by
  cases outcome with
  | wrote names single apart made => exact ⟨[_], by simp, rfl⟩
  | opened names kind owner loop settled apart made => exact ⟨[_], by simp, rfl⟩
  | acquired names found made => exact ⟨[_] ++ [_], by simp, List.append_assoc _ _ _⟩
  | looped found => exact ⟨[_], by simp, rfl⟩
  | ended found waits open_eq made => exact ⟨[_], by simp, rfl⟩
  | switched found made => exact ⟨[_], by simp, rfl⟩
  | labelled found label made =>
      cases state.casePending with
      | true => exact ⟨[_] ++ [_], by simp, List.append_assoc _ _ _⟩
      | false => exact ⟨[_], by simp, rfl⟩
  | started names found header => exact ⟨[], by simp, by simp⟩
  | armed arm found is_arm isOpen made_values made_result => exact ⟨[], by simp, by simp⟩

theorem disposes_of_convertLine {line : Text} {state after : State}
    (done : Conversion.convertLine line state = .ok () after) :
    Disposes line (state.before line) after ∧
      ∃ texts, texts.length ≤ 2 ∧ after.lines = (state.before line).lines ++ texts := by
  rcases Conversion.convertLine_eq_ok done with ⟨remark, text, _, rfl⟩ | ⟨spoken, outcome⟩
  · rw [before, if_pos remark]
    exact ⟨.stays rfl rfl rfl (acquiredBy?_of_isRemark remark), [text], by simp, rfl⟩
  · rw [before, if_neg (by simp [spoken])]
    exact ⟨disposes_of_outcome spoken outcome, lines_of_outcome outcome⟩

end State

/-! ## Passages of an output -/

/-- What can be written at the end of a block that owns no resource. -/
def Block.endings : List Text :=
  [['}'], "\x7d;".toList, "break;".toList, "\x7d while (false);".toList]

/-- The texts are what a line writes itself, behind the blocks that it leaves. -/
structure IsOwn (line : Text) (texts : List Text) : Prop where
  short : texts.length ≤ 2
  written : ∃ state after, Conversion.convertLine line state = .ok () after ∧
    after.lines = (state.before line).lines ++ texts

/-- A part of an output, by where it comes from. -/
inductive Passage where
  /-- What a line of the source writes itself. -/
  | spoken (line : Text) (texts : List Text) (own : IsOwn line texts)
  /-- A match that was collected. -/
  | collected (indent : Int) (held : Match)
  /-- A line at the end of a block that owns no resource. -/
  | ended (indent : Int) (text : Text) (known : text ∈ Block.endings)
  /-- The end of a block that owns a resource. -/
  | released (resource : Resource)

namespace Passage

def lines : Passage → List Text
  | spoken _ texts _ => texts
  | collected indent held => held.lines.map (Text.indentation indent ++ ·)
  | ended indent text _ => [Text.indentation indent ++ text]
  | released resource => resource.closing

/-- The line of the source that a passage comes from. -/
def line? : Passage → Option Text
  | spoken line _ _ => some line
  | _ => none

/-- The resource that a passage releases. -/
def released? : Passage → Option Resource
  | released resource => some resource
  | _ => none

/-- The resources that are acquired and not released, innermost first, behind a passage; only the
innermost one can be released. -/
def settle? (owed : List Resource) : Passage → Option (List Resource)
  | spoken line _ _ => some ((acquiredBy? line).toList ++ owed)
  | released resource => if owed.head? = some resource then some owed.tail else none
  | _ => some owed

/-- Passages that come from no line release resources in the order in which they are owed. -/
theorem foldlM_settle? {passages : List Passage} (silent : passages.filterMap line? = [])
    (owed : List Resource) :
    passages.foldlM settle? (passages.filterMap released? ++ owed) = some owed := by
  induction passages with
  | nil => rfl
  | cons passage passages ih =>
      rw [List.filterMap_cons] at silent
      cases passage with
      | spoken line texts own => simp [line?] at silent
      | collected indent held => exact ih silent
      | ended indent text known => exact ih silent
      | released resource =>
          have first : (released resource :: passages).filterMap released? =
              resource :: passages.filterMap released? := rfl
          rw [first, List.cons_append, List.foldlM_cons, settle?, List.head?_cons, if_pos rfl]
          exact ih silent

/-- Where all that is acquired is released in the end, it is released as often as it is acquired. -/
theorem perm_of_foldlM_settle? {passages : List Passage} {owed due : List Resource}
    (settled : passages.foldlM settle? owed = some due) :
    (passages.filterMap released? ++ due).Perm
      (owed ++ (passages.filterMap line?).filterMap acquiredBy?) := by
  induction passages generalizing owed with
  | nil =>
      cases settled
      exact .of_eq (List.append_nil _).symm
  | cons passage passages ih =>
      rw [List.foldlM_cons] at settled
      cases passage with
      | spoken line texts own =>
          have split : ((spoken line texts own :: passages).filterMap line?).filterMap acquiredBy? =
              (acquiredBy? line).toList ++ (passages.filterMap line?).filterMap acquiredBy? := by
            cases acquired : acquiredBy? line <;> simp [line?, acquired]
          rw [split, ← List.append_assoc]
          exact (ih settled).trans (List.perm_append_comm.append_right _)
      | collected indent held => exact ih settled
      | ended indent text known => exact ih settled
      | released resource =>
          by_cases innermost : owed.head? = some resource
          · obtain ⟨rest, rfl⟩ := List.head?_eq_some_iff.mp innermost
            rw [settle?, if_pos innermost] at settled
            exact (ih settled).cons resource
          · rw [settle?, if_neg innermost] at settled
            simp at settled

end Passage

namespace State

/-- What the second state has written after the first one are ends of blocks and matches, and they
release the given resources in this order. -/
def Frees (resources : List Resource) (state after : State) : Prop :=
  ∃ passages : List Passage, after.lines = state.lines ++ passages.flatMap Passage.lines ∧
    passages.filterMap Passage.line? = [] ∧ passages.filterMap Passage.released? = resources

namespace Frees

variable {first second : List Resource} {state middle after : State}

theorem nil (same : after.lines = state.lines) : Frees [] state after :=
  ⟨[], by simp [same], rfl, rfl⟩

theorem trans (one : Frees first state middle) (rest : Frees second middle after) :
    Frees (first ++ second) state after := by
  obtain ⟨passages, lines, silent, released⟩ := one
  obtain ⟨others, more, still, freed⟩ := rest
  refine ⟨passages ++ others, ?_, ?_, ?_⟩
  · rw [more, lines, List.flatMap_append, List.append_assoc]
  · rw [List.filterMap_append, silent, still, List.nil_append]
  · rw [List.filterMap_append, released, freed]

theorem emit (state : State) (indent : Int) {text : Text} (known : text ∈ Block.endings) :
    Frees [] state (state.emit indent text) :=
  ⟨[.ended indent text known], rfl, rfl, rfl⟩

theorem flushMatch (state : State) : Frees [] state state.flushMatch := by
  refine ⟨[.collected (state.levels.head?.getD 0) state.collected], ?_, rfl, rfl⟩
  unfold State.flushMatch
  cases found : state.collected.lines with
  | nil => simp [Passage.lines, found]
  | cons first rest => simp [Passage.lines, found, emitAll]

theorem close (state : State) {block : Option Block} (kind : block ≠ some .resource) (level : Int) :
    Frees [] state (state.close block level) := by
  have brace (state : State) : Frees [] state (state.emit level ['}']) :=
    emit state level (by decide)
  rw [State.close, if_neg kind]
  split
  · exact emit state level (by decide)
  · split
    · exact (emit state level (by decide)).trans (brace _)
    · split
      · exact brace state
      · exact brace state

end Frees

/-- What the second state has written after the first one are passages that come from the given
lines, in this order.  They acquire and release resources, the innermost one first, and turn those
that were `owed` into those that are `due`. -/
def Settles (lines : List Text) (owed due : List Resource) (state after : State) : Prop :=
  ∃ passages : List Passage, after.lines = state.lines ++ passages.flatMap Passage.lines ∧
    passages.filterMap Passage.line? = lines ∧ passages.foldlM Passage.settle? owed = some due

theorem Settles.trans {lines others : List Text} {owed due last : List Resource}
    {state middle after : State} (one : Settles lines owed due state middle)
    (rest : Settles others due last middle after) :
    Settles (lines ++ others) owed last state after := by
  obtain ⟨passages, written, spoken, settled⟩ := one
  obtain ⟨further, more, others_spoken, others_settled⟩ := rest
  refine ⟨passages ++ further, ?_, ?_, ?_⟩
  · rw [more, written, List.flatMap_append, List.append_assoc]
  · rw [List.filterMap_append, spoken, others_spoken]
  · rw [List.foldlM_append, settled]
    exact others_settled

theorem Frees.settles {resources : List Resource} {state after : State}
    (freed : Frees resources state after) (owed : List Resource) :
    Settles [] (resources ++ owed) owed state after := by
  obtain ⟨passages, written, silent, rfl⟩ := freed
  exact ⟨passages, written, silent, Passage.foldlM_settle? silent owed⟩

/-- What is done to a do loop that is left without its condition changes neither the stacks nor the
resources, and releases none. -/
structure Gentle (abandon : State → State) : Prop where
  levels : ∀ state, (abandon state).levels = state.levels
  blocks : ∀ state, (abandon state).blocks = state.blocks
  resources : ∀ state, (abandon state).resources = state.resources
  frees : ∀ state, Frees [] state (abandon state)

theorem gentle_id : Gentle id :=
  ⟨fun _ => rfl, fun _ => rfl, fun _ => rfl, fun _ => .nil rfl⟩

theorem gentle_endDoLoop (level : Int) : Gentle (endDoLoop level) :=
  ⟨fun _ => rfl, fun _ => rfl, fun _ => rfl, fun state => .emit state (level - 4) (by decide)⟩

namespace Gentle

variable {abandon : State → State} (gentle : Gentle abandon) (state : State) (level : Int)
  (below : List Int)
include gentle

theorem closeTop_frame :
    (state.closeTop abandon level below).levels = below ∧
      (state.closeTop abandon level below).blocks = state.blocks.tail ∧
        (state.closeTop abandon level below).resources = state.resources := by
  simp only [closeTop]
  split
  · simp [gentle.levels, gentle.blocks, gentle.resources, pop]
  · simp [pop]

theorem closeTop_frees (kind : state.blocks.head? ≠ some .resource) :
    Frees [] state (state.closeTop abandon level below) := by
  have flushed : Frees [] state (state.pop below).flushMatch := Frees.flushMatch (state.pop below)
  by_cases loop : state.blocks.head? = some .doLoop ∧ (state.pop below).flushMatch.doPending = true
  · rw [closeTop, if_pos loop]
    exact flushed.trans (gentle.frees _)
  · rw [closeTop, if_neg loop]
    exact flushed.trans (Frees.close _ kind level)

end Gentle

/-- The end of a block that owns a resource is the release of the resource that is remembered for
its level, behind the match that is collected. -/
theorem closeTop_lines_of_resource (abandon : State → State) {state : State} {level : Int}
    (below : List Int) {resource : Resource} (top : state.blocks.head? = some .resource)
    (found : state.resources.lookup level = some resource) :
    (state.closeTop abandon level below).lines =
      (state.pop below).flushMatch.lines ++ resource.closing := by
  have still : (state.pop below).flushMatch.resources.lookup level = some resource := by
    rw [flushMatch_resources]
    exact found
  rw [closeTop, if_neg (by simp [top]), State.close, if_pos top, still]
  exact congrArg State.lines (release_eq _ resource)

/-! ## Blocks and their headers -/

/-- The blocks are paired, innermost first, with their levels and with the lines that opened them.
Where a block owns a resource, this is the resource that its header acquired, four columns to the
left of the level, and it is the one remembered for the level. -/
inductive Owned (resources : List (Int × Resource)) :
    List Int → List Block → List Text → Prop where
  | base (levels : List Int) : Owned resources levels [] []
  | owner {level : Int} {levels : List Int} {blocks : List Block} {header : Text}
      {headers : List Text} {resource : Resource} (acquired : acquiredBy? header = some resource)
      (placed : resource.base = level - 4) (found : resources.lookup level = some resource)
      (rest : Owned resources levels blocks headers) :
      Owned resources (level :: levels) (.resource :: blocks) (header :: headers)
  | other {level : Int} {levels : List Int} {block : Block} {blocks : List Block} {header : Text}
      {headers : List Text} (kind : block ≠ .resource) (unowned : acquiredBy? header = none)
      (rest : Owned resources levels blocks headers) :
      Owned resources (level :: levels) (block :: blocks) (header :: headers)

namespace Owned

variable {resources : List (Int × Resource)} {levels : List Int} {blocks : List Block}
  {headers : List Text}

theorem length_eq (owned : Owned resources levels blocks headers) :
    headers.length = blocks.length := by
  induction owned with
  | base levels => rfl
  | owner _ _ _ _ ih => rw [List.length_cons, List.length_cons, ih]
  | other _ _ _ ih => rw [List.length_cons, List.length_cons, ih]

theorem tail (owned : Owned resources levels blocks headers) :
    Owned resources levels.tail blocks.tail headers.tail := by
  cases owned with
  | base levels => exact .base levels.tail
  | owner _ _ _ rest => exact rest
  | other _ _ rest => exact rest

/-- Resources that are remembered for other levels make no difference. -/
theorem congr {others : List (Int × Resource)} (owned : Owned resources levels blocks headers)
    (same : ∀ level ∈ levels, others.lookup level = resources.lookup level) :
    Owned others levels blocks headers := by
  induction owned with
  | base levels => exact .base levels
  | owner acquired placed found rest ih =>
      obtain ⟨first, same⟩ := List.forall_mem_cons.mp same
      exact .owner acquired placed (first.trans found) (ih same)
  | other kind unowned rest ih => exact .other kind unowned (ih (List.forall_mem_cons.mp same).2)

end Owned

/-- Levels are closed from the top, one after another. -/
inductive Descends (abandon : Int → State → State) : State → State → Prop where
  | refl (state : State) : Descends abandon state state
  | step {state after : State} {level : Int} {below : List Int}
      (open_eq : state.levels = level :: below)
      (rest : Descends abandon (state.closeTop (abandon level) level below) after) :
      Descends abandon state after

theorem descends_dedent (indent : Int) (state : State) :
    Descends (fun _ => id) state (state.dedent indent) := by
  generalize open_eq : state.levels = levels
  induction levels generalizing state with
  | nil =>
      rw [dedent_eq_self (by simp [open_eq])]
      exact .refl state
  | cons level below ih =>
      by_cases deeper : indent < level
      · rw [dedent_of_lt open_eq deeper]
        exact .step open_eq (ih _ (closeTop_levels state level below))
      · rw [dedent_eq_self (by simp [open_eq]; omega)]
        exact .refl state

theorem descends_closeAllFrom {levels : List Int} {state : State}
    (open_eq : state.levels = levels) :
    Descends endDoLoop state (closeAllFrom levels state) := by
  induction levels generalizing state with
  | nil => exact .refl state
  | cons level below ih =>
      cases below with
      | nil => exact .refl state
      | cons next below =>
          exact .step open_eq (ih (closeTop_endDoLoop_levels state level (next :: below)))

/-- Levels are closed from the top, one after another, and the blocks at them are those that the
given lines opened.  The end of a block that owns a resource is, behind a match that is written, the
release of the resource that its own header acquired, at the column of the header. -/
inductive Unwinds (abandon : Int → State → State) : List Text → State → State → Prop where
  | refl (state : State) : Unwinds abandon [] state state
  | owner {state after : State} {level : Int} {below : List Int} {header : Text}
      {headers : List Text} {resource : Resource} (open_eq : state.levels = level :: below)
      (top : state.blocks.head? = some .resource) (acquired : acquiredBy? header = some resource)
      (placed : resource.base = level - 4)
      (closed : (state.closeTop (abandon level) level below).lines =
        (state.pop below).flushMatch.lines ++ resource.closing)
      (rest : Unwinds abandon headers (state.closeTop (abandon level) level below) after) :
      Unwinds abandon (header :: headers) state after
  | other {state after : State} {level : Int} {below : List Int} {block : Block} {header : Text}
      {headers : List Text} (open_eq : state.levels = level :: below)
      (top : state.blocks.head? = some block) (kind : block ≠ .resource)
      (unowned : acquiredBy? header = none)
      (rest : Unwinds abandon headers (state.closeTop (abandon level) level below) after) :
      Unwinds abandon (header :: headers) state after
  | bare {state after : State} {level : Int} {below : List Int} {headers : List Text}
      (open_eq : state.levels = level :: below) (top : state.blocks.head? = none)
      (rest : Unwinds abandon headers (state.closeTop (abandon level) level below) after) :
      Unwinds abandon headers state after

section Ladder

variable {abandon : Int → State → State} (gentle : ∀ level, Gentle (abandon level))
  {headers : List Text} {state after : State}
include gentle

theorem Unwinds.frees (run : Unwinds abandon headers state after) :
    Frees (headers.filterMap acquiredBy?) state after := by
  induction run with
  | refl state => exact .nil rfl
  | @owner state after level below header headers resource open_eq top acquired placed closed rest
      ih =>
      have flushed : Frees [] state (state.pop below).flushMatch :=
        Frees.flushMatch (state.pop below)
      have released : Frees [resource] (state.pop below).flushMatch
          (state.closeTop (abandon level) level below) :=
        ⟨[.released resource], by simp [closed, Passage.lines], rfl, rfl⟩
      rw [List.filterMap_cons, acquired]
      exact (flushed.trans released).trans ih
  | @other state after level below block header headers open_eq top kind unowned rest ih =>
      have freed := (gentle level).closeTop_frees state level below (by simpa [top] using kind)
      rw [List.filterMap_cons, unowned]
      exact freed.trans ih
  | @bare state after level below headers open_eq top rest ih =>
      exact ((gentle level).closeTop_frees state level below (by simp [top])).trans ih

/-- The blocks that are closed on the way from a state to another one are those whose headers are
first in the list. -/
theorem Owned.unwinds (owned : Owned state.resources state.levels state.blocks headers)
    (run : Descends abandon state after) :
    ∃ left kept, headers = left ++ kept ∧ Unwinds abandon left state after ∧
      Owned state.resources after.levels after.blocks kept := by
  induction run generalizing headers with
  | refl state => exact ⟨[], headers, rfl, .refl state, owned⟩
  | @step state after level below open_eq rest ih =>
      obtain ⟨levels, blocks, resources⟩ := (gentle level).closeTop_frame state level below
      have inner := owned.tail
      rw [open_eq, List.tail_cons] at inner
      rw [resources, levels, blocks] at ih
      obtain ⟨left, kept, split, unwinds, still⟩ := ih inner
      rw [open_eq] at owned
      generalize blocks_eq : state.blocks = open_blocks at owned
      cases owned with
      | base => exact ⟨left, kept, split, .bare open_eq (by simp [blocks_eq]) unwinds, still⟩
      | @owner _ _ _ header _ resource acquired placed found _ =>
          have top : state.blocks.head? = some .resource := by rw [blocks_eq, List.head?_cons]
          have closed := closeTop_lines_of_resource (abandon level) below top found
          exact ⟨header :: left, kept, congrArg (header :: ·) split,
            .owner open_eq top acquired placed closed unwinds, still⟩
      | @other _ _ _ _ header _ kind unowned _ =>
          have top := congrArg List.head? blocks_eq
          exact ⟨header :: left, kept, congrArg (header :: ·) split,
            .other open_eq top kind unowned unwinds, still⟩

/-- The headers of the blocks that are closed, and of those that are left, by their number. -/
theorem Owned.unwinds_take (owned : Owned state.resources state.levels state.blocks headers)
    (run : Descends abandon state after) :
    Unwinds abandon (headers.take (state.blocks.length - after.blocks.length)) state after ∧
      Owned state.resources after.levels after.blocks
        (headers.drop (state.blocks.length - after.blocks.length)) := by
  obtain ⟨left, kept, rfl, unwinds, still⟩ := owned.unwinds gentle run
  have closed : left.length = state.blocks.length - after.blocks.length := by
    rw [← owned.length_eq, ← still.length_eq, List.length_append, Nat.add_sub_cancel]
  rw [List.take_left' closed, List.drop_left' closed]
  exact ⟨unwinds, still⟩

end Ladder

end State

namespace Conversion

open State

/-- The lines that opened the blocks of a state, innermost first, behind a further line: those of
the blocks that stay open all the time, and the line itself if it opens a block. -/
def track (line : Text) (state after : State) (headers : List Text) : List Text :=
  let kept := headers.drop (state.blocks.length - (state.before line).blocks.length)
  if (state.before line).blocks.length < after.blocks.length then line :: kept
  else kept.drop ((state.before line).blocks.length - after.blocks.length)

/-- The lines that opened the blocks that are open behind some lines, innermost first, if those of
the blocks before them are given. -/
def openers : List Text → State → List Text → List Text
  | [], _, headers => headers
  | line :: lines, state, headers =>
    match convertLine line state with
    | .ok _ after => openers lines after (track line state after headers)
    | .error _ _ => headers

theorem openers_cons {line : Text} {state after : State}
    (done : convertLine line state = .ok () after) (lines headers : List Text) :
    openers (line :: lines) state headers =
      openers lines after (track line state after headers) := by
  rw [openers, done]

section Line

variable {line : Text} {state after : State} {headers : List Text}

theorem before_resources (line : Text) (state : State) :
    (state.before line).resources = state.resources := by
  unfold State.before
  split
  · rfl
  · rw [dedent_resources]

theorem before_doPending (line : Text) (state : State) :
    (state.before line).doPending = state.doPending := by
  unfold State.before
  split
  · rfl
  · rw [dedent_doPending]

theorem descends_before (line : Text) (state : State) :
    Descends (fun _ => id) state (state.before line) := by
  unfold State.before
  split
  · exact .refl state
  · exact descends_dedent line.indentOf state

theorem unwinds_before (owned : Owned state.resources state.levels state.blocks headers)
    (line : Text) :
    Unwinds (fun _ => id)
        (headers.take (state.blocks.length - (state.before line).blocks.length)) state
        (state.before line) ∧
      Owned state.resources (state.before line).levels (state.before line).blocks
        (headers.drop (state.blocks.length - (state.before line).blocks.length)) :=
  owned.unwinds_take (fun _ => gentle_id) (descends_before line state)

/-- A line remembers a resource only for a level that is not open. -/
theorem lookup_of_convertLine (descending : state.Descending)
    (done : convertLine line state = .ok () after) :
    ∀ level ∈ (state.before line).levels,
      after.resources.lookup level = state.resources.lookup level := by
  intro level mem
  have same := before_resources line state
  cases (disposes_of_convertLine done).1 with
  | stays _ _ resources _ => rw [resources, same]
  | opens _ _ resources _ _ => rw [resources, same]
  | ends _ _ resources _ _ => rw [resources, same]
  | acquires _ _ lookup acquired =>
      have spoken : line.isRemark = false := by
        by_contra remark
        simp [acquiredBy?_of_isRemark (by simpa using remark)] at acquired
      rw [State.before, if_neg (by simp [spoken])] at mem
      have within := descending.le_of_mem_dedent mem
      rw [lookup, if_neg (by omega), same]

/-- The pairing of blocks with their headers is kept by a line. -/
theorem owned_of_convertLine (owned : Owned state.resources state.levels state.blocks headers)
    (descending : state.Descending) (done : convertLine line state = .ok () after) :
    Owned after.resources after.levels after.blocks (track line state after headers) := by
  obtain ⟨_, left⟩ := unwinds_before owned line
  have same := left.congr (lookup_of_convertLine descending done)
  unfold track
  extract_lets kept
  cases (disposes_of_convertLine done).1 with
  | stays levels blocks _ _ =>
      rw [if_neg (by simp [blocks]), levels, blocks, Nat.sub_self]
      exact same
  | opens levels blocks _ owner other =>
      rw [if_pos (by simp [blocks]), levels, blocks]
      exact .other owner other same
  | acquires levels blocks lookup acquired =>
      rw [if_pos (by simp [blocks]), levels, blocks]
      refine .owner acquired ?_ (by rw [lookup, if_pos rfl]) same
      rw [base_of_acquiredBy? acquired]
      omega
  | ends levels blocks _ _ _ =>
      have inner := same.tail
      rw [levels, List.tail_cons, ← blocks] at inner
      have dropped : kept.drop (kept.length - (kept.length - 1)) = kept.tail := by
        cases kept <;> simp
      rw [if_neg (by simp [blocks]), blocks, List.length_tail, ← same.length_eq, dropped, ← blocks]
      exact inner

/-- Where no do loop waits, a line takes away no header but those of the blocks that it leaves. -/
theorem filterMap_track (idle : state.doPending = false)
    (done : convertLine line state = .ok () after) (headers : List Text) :
    (track line state after headers).filterMap acquiredBy? =
      (acquiredBy? line).toList ++
        (headers.drop (state.blocks.length - (state.before line).blocks.length)).filterMap
          acquiredBy? := by
  unfold track
  extract_lets kept
  cases (disposes_of_convertLine done).1 with
  | stays _ blocks _ other =>
      rw [if_neg (by simp [blocks]), blocks, Nat.sub_self, other]
      rfl
  | opens _ blocks _ _ other =>
      rw [if_pos (by simp [blocks]), List.filterMap_cons, other]
      rfl
  | acquires _ blocks _ acquired =>
      rw [if_pos (by simp [blocks]), List.filterMap_cons, acquired]
      rfl
  | ends _ _ _ waited _ => simp [before_doPending, idle] at waited

/-- Where no do loop waits, a line releases the resources of the blocks that it leaves, and it
acquires its own. -/
theorem settles_of_convertLine (owned : Owned state.resources state.levels state.blocks headers)
    (idle : state.doPending = false) (done : convertLine line state = .ok () after) :
    Settles [line] (headers.filterMap acquiredBy?)
      ((track line state after headers).filterMap acquiredBy?) state after := by
  obtain ⟨unwinds, _⟩ := unwinds_before owned line
  have freed := (unwinds.frees fun _ => gentle_id).settles
    ((headers.drop (state.blocks.length - (state.before line).blocks.length)).filterMap acquiredBy?)
  rw [← List.filterMap_append, List.take_append_drop] at freed
  obtain ⟨_, texts, short, written⟩ := disposes_of_convertLine done
  refine freed.trans ⟨[.spoken line texts ⟨short, state, after, done, written⟩], ?_, rfl, ?_⟩
  · rw [List.flatMap_singleton]
    exact written
  · rw [filterMap_track idle done]
    rfl

end Line

section Lines

variable {lines headers : List Text} {state after : State}
  (owned : Owned state.resources state.levels state.blocks headers)
  (descending : state.Descending) (done : convertLines lines state = .ok () after)
include owned descending done

theorem owned_of_convertLines :
    Owned after.resources after.levels after.blocks (openers lines state headers) := by
  induction lines generalizing state headers with
  | nil =>
      cases done
      exact owned
  | cons line lines ih =>
      obtain ⟨middle, one, rest⟩ := convertLines_cons_eq_ok.mp done
      rw [openers_cons one]
      exact ih (owned_of_convertLine owned descending one) (descending.convertLine one) rest

theorem settles_of_convertLines (idle : state.doPending = false)
    (loopless : ∀ line ∈ lines, line.strip ≠ "do:".toList) :
    Settles lines (headers.filterMap acquiredBy?)
      ((openers lines state headers).filterMap acquiredBy?) state after := by
  induction lines generalizing state headers with
  | nil =>
      cases done
      exact (Frees.nil rfl).settles _
  | cons line lines ih =>
      obtain ⟨middle, one, rest⟩ := convertLines_cons_eq_ok.mp done
      obtain ⟨other, loopless⟩ := List.forall_mem_cons.mp loopless
      rw [openers_cons one]
      exact (settles_of_convertLine owned idle one).trans
        (ih (owned_of_convertLine owned descending one) (descending.convertLine one) rest
          (idle_of_convertLine idle other one) loopless)

end Lines

/-- The resources of open blocks, if the blocks were opened by the lines `headers`: each is the one
that its own header acquired, no line touches it as long as the block is open, and it is the one
that is released at the end of the block, be it left by a line or by the end of the input. -/
structure Custody (headers : List Text) (state : State) : Prop where
  owned : Owned state.resources state.levels state.blocks headers
  kept : ∀ line after, convertLine line state = .ok () after →
    ∀ level ∈ (state.before line).levels,
      after.resources.lookup level = state.resources.lookup level
  left : ∀ line, Unwinds (fun _ => id)
    (headers.take (state.blocks.length - (state.before line).blocks.length)) state
    (state.before line)
  ended : Unwinds endDoLoop
    (headers.take (state.blocks.length - state.flushMatch.closeAll.blocks.length)) state.flushMatch
    state.flushMatch.closeAll

theorem custody_of_owned {headers : List Text} {state : State}
    (owned : Owned state.resources state.levels state.blocks headers)
    (descending : state.Descending) : Custody headers state where
  owned := owned
  kept _ _ done := lookup_of_convertLine descending done
  left line := (unwinds_before owned line).1
  ended := by
    have flushed : Owned state.flushMatch.resources state.flushMatch.levels state.flushMatch.blocks
        headers := by
      rwa [flushMatch_resources, flushMatch_levels, flushMatch_blocks]
    have unwinds := (flushed.unwinds_take gentle_endDoLoop (descends_closeAllFrom rfl)).1
    rwa [flushMatch_blocks] at unwinds

/-- At the end of an input whose outermost level is open, all resources are released. -/
theorem Custody.settles {headers : List Text} {state : State} (custody : Custody headers state)
    (paired : state.Paired [0]) :
    Settles [] (headers.filterMap acquiredBy?) [] state state.flushMatch.closeAll := by
  have bare : state.flushMatch.closeAll.blocks = [] :=
    (paired.congr (flushMatch_levels state) (flushMatch_blocks state)).blocks_closeAll
  have ended := custody.ended
  rw [bare, List.length_nil, Nat.sub_zero, ← custody.owned.length_eq, List.take_length] at ended
  have freed := (Frees.flushMatch state).trans (ended.frees gentle_endDoLoop)
  have settled := freed.settles []
  rwa [List.nil_append, List.append_nil] at settled

/-- Between two lines, whatever the source, every open block with a resource has the one that its
own header acquired, and releases it when it ends.  If a source without do loops is converted, each
resource that one of its lines acquires is released once, the innermost one first. -/
theorem custody_between_lines (source : Text) (prior : State) :
    (∀ front back reached, source.lines = front ++ back →
      convertLines front prior.reset = .ok () reached →
        Custody (openers front prior.reset []) reached) ∧
      ((∀ line ∈ source.lines, line.strip ≠ "do:".toList) →
        ∀ text final, convert source prior = .ok text final →
          ∃ passages : List Passage, final.lines = banner ++ passages.flatMap Passage.lines ∧
            passages.filterMap Passage.line? = source.lines ∧
            passages.foldlM Passage.settle? [] = some [] ∧
            (passages.filterMap Passage.released?).Perm (source.lines.filterMap acquiredBy?)) := by
  have start : Owned prior.reset.resources prior.reset.levels prior.reset.blocks [] := .base [0]
  have descending : prior.reset.Descending := List.pairwise_singleton _ _
  constructor
  · intro front back reached _ done
    exact custody_of_owned (owned_of_convertLines start descending done)
      (descending.convertLines done)
  · intro loopless text final done
    obtain ⟨reached, passed, rfl, _⟩ := convert_eq_ok.mp done
    have paired : reached.Paired [0] :=
      paired_of_loopless ⟨[], rfl, rfl, by simp⟩ rfl loopless passed
    have custody := custody_of_owned (owned_of_convertLines start descending passed)
      (descending.convertLines passed)
    obtain ⟨passages, written, spoken, settled⟩ :=
      (settles_of_convertLines start descending passed rfl loopless).trans (custody.settles paired)
    rw [List.append_nil] at spoken
    have matched := Passage.perm_of_foldlM_settle? settled
    rw [List.append_nil, spoken] at matched
    exact ⟨passages, written, spoken, settled, matched⟩

/-- Resources in and behind a do loop, in the block of another resource. -/
def loopedReaders : Text :=
  Text.join ['\n'] ["with a as f:".toList, "    do:".toList, "        with b as g:".toList,
    "            c".toList, "        while d".toList, "    with e as g:".toList]

/-- Two resources at one column, in the block of another one. -/
def nestedReaders : Text :=
  Text.join ['\n'] ["with a as f:".toList, "    with b as g:".toList, "        c".toList,
    "    with d as g:".toList, "        e".toList, "h".toList]

theorem custody_between_lines_readers :
    (∃ reached, convertLines loopedReaders.lines State.initial.reset = .ok () reached ∧
      reached.levels = [8, 4, 0] ∧
        Custody ["    with e as g:".toList, "with a as f:".toList] reached) ∧
    ∃ text final, convert nestedReaders State.initial = .ok text final ∧
      ∃ passages : List Passage, final.lines = banner ++ passages.flatMap Passage.lines ∧
        passages.filterMap Passage.line? = nestedReaders.lines ∧
        passages.foldlM Passage.settle? [] = some [] ∧
        (passages.filterMap Passage.released?).Perm
          [⟨0, ['f']⟩, ⟨4, ['g']⟩, ⟨4, ['g']⟩] := by
  constructor
  · have passed : (convertLines loopedReaders.lines).passes
        (fun _ reached => reached.levels == [8, 4, 0]) State.initial.reset = true := by
      decide +kernel
    obtain ⟨_, reached, done, levels⟩ := passes_iff.mp passed
    have headers : openers loopedReaders.lines State.initial.reset [] =
        ["    with e as g:".toList, "with a as f:".toList] := by decide +kernel
    have custody := (custody_between_lines loopedReaders State.initial).1 loopedReaders.lines []
      reached (List.append_nil _).symm done
    rw [headers] at custody
    exact ⟨reached, done, beq_iff_eq.mp levels, custody⟩
  · have loopless : ∀ line ∈ nestedReaders.lines, line.strip ≠ "do:".toList := by decide +kernel
    have returned : (convert nestedReaders).returns State.initial = true := by decide +kernel
    obtain ⟨text, final, done⟩ := returns_iff.mp returned
    have acquired : nestedReaders.lines.filterMap acquiredBy? =
        [⟨0, ['f']⟩, ⟨4, ['g']⟩, ⟨4, ['g']⟩] := by decide +kernel
    have settled := (custody_between_lines nestedReaders State.initial).2 loopless text final done
    rw [acquired] at settled
    exact ⟨text, final, done, settled⟩

end Conversion
end Ephp
