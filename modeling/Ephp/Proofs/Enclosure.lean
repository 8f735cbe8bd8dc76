import Ephp.Proofs.Lockstep
import Ephp.Proofs.Return

/-!
# Lines inside of a block

A block stands on the stacks with a level four columns to the right of its header.  Lines that are
indented at least that far leave the block where it is: they do what they would do if neither the
block nor anything around it were there.  A line that is deeper than the header but does not reach
the level ends the block before it is performed.
-/

namespace Ephp
namespace State

/-! ## Levels that increase inwards -/

/-- Every level is deeper than those around it. -/
def Descending (state : State) : Prop :=
  state.levels.Pairwise (· > ·)

namespace Descending

variable {state : State}

theorem dedent (descending : state.Descending) (indent : Int) :
    (state.dedent indent).Descending := by
  rw [Descending, dedent_levels]
  exact descending.sublist (List.dropWhile_sublist _)

/-- A line leaves all levels that are deeper than itself. -/
theorem le_of_mem_dedent (descending : state.Descending) {indent level : Int}
    (mem : level ∈ (state.dedent indent).levels) : level ≤ indent := by
  have ordered := descending.dedent indent
  rw [Descending] at ordered
  cases open_eq : (state.dedent indent).levels with
  | nil => simp [open_eq] at mem
  | cons top below =>
      have within : top ≤ indent := by
        apply @dedent_levels_head_le indent top state
        simp [open_eq]
      rw [open_eq] at mem ordered
      rcases List.mem_cons.mp mem with rfl | mem
      · exact within
      · have := List.rel_of_pairwise_cons ordered mem
        omega

theorem cons_dedent (descending : state.Descending) (indent : Int) {after : State}
    (levels : after.levels = (indent + 4) :: (state.dedent indent).levels) : after.Descending := by
  rw [Descending, levels, List.pairwise_cons]
  refine ⟨fun level mem => ?_, descending.dedent indent⟩
  have := descending.le_of_mem_dedent mem
  omega

theorem convertLine (descending : state.Descending) {line : Text} {after : State}
    (done : Conversion.convertLine line state = .ok () after) : after.Descending := by
  rcases moves_of_convertLine done with ⟨_, text, rfl⟩ | ⟨_, moves⟩
  · exact descending
  · cases moves with
    | stays levels _ _ _ =>
        rw [Descending, levels]
        exact descending.dedent line.indentOf
    | opens levels _ _ _ _ _ _ => exact descending.cons_dedent line.indentOf levels
    | loops levels _ _ _ => exact descending.cons_dedent line.indentOf levels
    | ends open_eq levels _ _ _ _ =>
        have ordered := descending.dedent line.indentOf
        rw [Descending, open_eq] at ordered
        rw [Descending, levels]
        exact ordered.of_cons

theorem convertLines (descending : state.Descending) {lines : List Text} {after : State}
    (done : Conversion.convertLines lines state = .ok () after) : after.Descending :=
  Conversion.convertLines_induct (fun _ _ _ _ descending done => descending.convertLine done)
    descending done

end Descending

/-! ## Levels that are left -/

/-- Leave the blocks that a line leaves; a remark leaves none. -/
def before (line : Text) (state : State) : State :=
  if line.isRemark then state else state.dedent line.indentOf

theorem before_levels_subset (line : Text) (state : State) :
    (state.before line).levels ⊆ state.levels := by
  unfold before
  split
  · exact fun level mem => mem
  · rw [dedent_levels]
    exact (List.dropWhile_sublist _).subset

theorem Descending.not_mem_before {level : Int} {line : Text} {state : State}
    (descending : state.Descending) (spoken : line.isRemark = false)
    (short : line.indentOf < level) : level ∉ (state.before line).levels := by
  rw [before, if_neg (by simp [spoken])]
  intro mem
  have := descending.le_of_mem_dedent mem
  omega

/-- A line opens no other level than the one four columns further in. -/
theorem not_mem_levels_of_convertLine {level : Int} {line : Text} {state after : State}
    (other : line.isRemark = false → line.indentOf + 4 ≠ level)
    (left : level ∉ (state.before line).levels)
    (done : Conversion.convertLine line state = .ok () after) : level ∉ after.levels := by
  rcases moves_of_convertLine done with ⟨remark, text, rfl⟩ | ⟨spoken, moves⟩
  · rwa [before, if_pos remark] at left
  · rw [before, if_neg (by simp [spoken])] at left
    have distinct := (other spoken).symm
    cases moves with
    | stays levels _ _ _ => rwa [levels]
    | opens levels _ _ _ _ _ _ =>
        rw [levels, List.mem_cons, not_or]
        exact ⟨distinct, left⟩
    | loops levels _ _ _ =>
        rw [levels, List.mem_cons, not_or]
        exact ⟨distinct, left⟩
    | ends open_eq levels _ _ _ _ =>
        rw [levels]
        rw [open_eq] at left
        exact fun mem => left (List.mem_cons_of_mem _ mem)

/-- A level that some line does not reach is not open any more behind the lines, if none of them can
open it again. -/
theorem not_mem_levels_of_convertLines {level : Int} {lines : List Text} {state after : State}
    (others : ∀ line ∈ lines, line.isRemark = false → line.indentOf + 4 ≠ level)
    (descending : state.Descending)
    (left : level ∉ state.levels ∨
      ∃ line ∈ lines, line.isRemark = false ∧ line.indentOf < level)
    (done : Conversion.convertLines lines state = .ok () after) : level ∉ after.levels := by
  induction lines generalizing state with
  | nil =>
      cases done
      simpa using left
  | cons line lines ih =>
      obtain ⟨middle, one, rest⟩ := Conversion.convertLines_cons_eq_ok.mp done
      obtain ⟨other, others⟩ := List.forall_mem_cons.mp others
      refine ih others (descending.convertLine one) ?_ rest
      rcases left with gone | ⟨inner, mem, spoken, short⟩
      · refine .inl (not_mem_levels_of_convertLine other (fun mem => gone ?_) one)
        exact before_levels_subset line state mem
      rcases List.mem_cons.mp mem with rfl | mem
      · have absent := descending.not_mem_before spoken short
        exact .inl (not_mem_levels_of_convertLine other absent one)
      · exact .inr ⟨inner, mem, spoken, short⟩

/-! ## Stacks below -/

/-- The state with more levels and blocks below those that are open. -/
def atop (levels : List Int) (blocks : List Block) (state : State) : State :=
  { state with levels := state.levels ++ levels, blocks := state.blocks ++ blocks }

theorem flushMatch_atop {state : State} (filled : state.levels ≠ []) (levels : List Int)
    (blocks : List Block) :
    (state.atop levels blocks).flushMatch = state.flushMatch.atop levels blocks := by
  obtain ⟨level, below, open_eq⟩ := List.exists_cons_of_ne_nil filled
  cases found : state.collected.lines with
  | nil => simp [flushMatch, atop, found]
  | cons first rest => simp [flushMatch, atop, emitAll, found, open_eq]

/-- The first state is the second one atop of more levels and blocks.  The second state has `base`
as its outermost level and above it a level for every block. -/
structure Over (base : Int) (below : List Int) (blocks : List Block) (left right : State) :
    Prop where
  same : left = right.atop below blocks
  anchored : ∃ uppers, right.levels = uppers ++ [base] ∧ uppers.length = right.blocks.length

end State

namespace Conversion

open State Statement

variable {base : Int} {below : List Int} {blocks : List Block}

theorem flagged_over : Flagged (Over base below blocks) where
  names_eq piled := by rw [piled.same]; rfl
  emit indent text piled := ⟨by rw [piled.same]; rfl, piled.anchored⟩
  openBlock block level piled := by
    obtain ⟨rfl, uppers, open_eq, same⟩ := piled
    exact ⟨rfl, level :: uppers, by simp [State.openBlock, open_eq],
      by simp [State.openBlock, same]⟩
  named names piled := ⟨by rw [piled.same]; rfl, piled.anchored⟩
  acquire level resource piled := ⟨by rw [piled.same]; rfl, piled.anchored⟩
  casePending_eq piled := by rw [piled.same]; rfl
  setDoPending pending piled := ⟨by rw [piled.same]; rfl, piled.anchored⟩
  setCasePending pending piled := ⟨by rw [piled.same]; rfl, piled.anchored⟩
  setSwitchPending pending piled := ⟨by rw [piled.same]; rfl, piled.anchored⟩

theorem collecting_over (body : Text) :
    Compositional.Collecting body fun step => Keeps (Over base below blocks) step where
  toPending := flagged_over.pending body
  startMatch subject use target := .modify fun piled => ⟨by rw [piled.same]; rfl, piled.anchored⟩
  addArm values result := .modify fun piled => ⟨by rw [piled.same]; rfl, piled.anchored⟩

end Conversion

namespace State.Over

variable {base : Int} {below : List Int} {blocks : List Block} {left right : State}

theorem flushMatch (piled : Over base below blocks left right) :
    Over base below blocks left.flushMatch right.flushMatch := by
  obtain ⟨rfl, uppers, open_eq, same⟩ := piled
  refine ⟨flushMatch_atop (by simp [open_eq]) below blocks, uppers, ?_, ?_⟩
  · rw [flushMatch_levels, open_eq]
  · rw [flushMatch_blocks, same]

/-- The innermost block is closed alike, if it is not the outermost level of the second state. -/
theorem closeTop (piled : Over base below blocks left right) {level : Int} {uppers : List Int}
    (open_eq : right.levels = level :: (uppers ++ [base])) :
    Over base below blocks (left.closeTop id level (uppers ++ base :: below))
      (right.closeTop id level (uppers ++ [base])) := by
  obtain ⟨rfl, others, split, same⟩ := piled
  obtain rfl : others = level :: uppers := by
    rw [open_eq, ← List.cons_append] at split
    exact (List.append_cancel_right split).symm
  obtain ⟨block, inner, blocks_eq⟩ : ∃ block inner, right.blocks = block :: inner := by
    cases blocks_eq : right.blocks with
    | nil => simp [blocks_eq] at same
    | cons block inner => exact ⟨block, inner, rfl⟩
  have popped : Over base below blocks
      ((right.atop below blocks).pop (uppers ++ base :: below)).flushMatch
      (right.pop (uppers ++ [base])).flushMatch := by
    apply Over.flushMatch
    refine ⟨by simp [pop, atop, blocks_eq], uppers, rfl, ?_⟩
    simpa [pop, blocks_eq] using same
  have head : (right.atop below blocks).blocks.head? = right.blocks.head? := by
    simp [atop, blocks_eq]
  have waiting : (right.atop below blocks).doPending = right.doPending := rfl
  rw [closeTop_eq, closeTop_eq, head, waiting]
  split
  · exact popped
  · exact Conversion.flagged_over.close popped (by rw [popped.same]; rfl)
      (by rw [popped.same]; rfl) _ level

/-- A line that reaches the outermost level of the second state leaves the same blocks in both. -/
theorem dedent (piled : Over base below blocks left right) {indent : Int} (inside : base ≤ indent) :
    Over base below blocks (left.dedent indent) (right.dedent indent) := by
  obtain ⟨uppers, open_eq, -⟩ := piled.anchored
  induction uppers generalizing left right with
  | nil =>
      have left_eq : left.levels = base :: below := by rw [piled.same, atop, open_eq]; rfl
      rw [dedent_eq_self (by simp [left_eq, inside]), dedent_eq_self (by simp [open_eq, inside])]
      exact piled
  | cons level uppers ih =>
      have left_eq : left.levels = level :: (uppers ++ base :: below) := by
        rw [piled.same, atop, open_eq]
        simp
      by_cases deeper : indent < level
      · rw [dedent_of_lt left_eq deeper, dedent_of_lt open_eq deeper]
        exact ih (piled.closeTop open_eq) (closeTop_levels right level _)
      · rw [dedent_eq_self (by simp [left_eq]; omega), dedent_eq_self (by simp [open_eq]; omega)]
        exact piled

end State.Over

namespace Conversion

open State Statement

variable {base : Int} {below : List Int} {blocks : List Block}

theorem perform_whileLoop_of_idle {indent : Int} {condition : Text} {state : State}
    (idle : state.doPending = false) :
    (Statement.whileLoop condition).perform indent state = (do
      let written ← expand condition.strip
      openBlock .whileLoop indent ("while (".toList ++ written ++ [')']) : Conversion Unit)
        state := by
  change (if state.doPending = true then _ else _ : Conversion Unit) state = _
  rw [if_neg (by simp [idle])]

/-- A line that reaches the outermost level of the second state does the same in both, if it has
nothing to do with a do loop. -/
theorem agree_convertLine_over {left right : State} (piled : Over base below blocks left right)
    (idle : left.doPending = false) {line : Text}
    (inside : line.isRemark = false → base ≤ line.indentOf) :
    Agree (Over base below blocks) (convertLine line left) (convertLine line right) := by
  refine agree_convertLine (fun text => ⟨by rw [piled.same]; rfl, piled.anchored⟩) fun spoken => ?_
  have dedented := piled.dedent (inside spoken)
  refine agree_convertBody dedented (by rw [dedented.same]; rfl)
    ((collecting_over _).convertUnknown _) fun statement found => ?_
  by_cases loop : ∃ condition, statement = .whileLoop condition
  · obtain ⟨condition, rfl⟩ := loop
    have left_idle : (left.dedent line.indentOf).doPending = false := by rw [dedent_doPending, idle]
    have right_idle : (right.dedent line.indentOf).doPending = false := by
      rw [← left_idle, dedented.same]
      rfl
    rw [perform_whileLoop_of_idle left_idle, perform_whileLoop_of_idle right_idle]
    exact (collecting_over _).openLoop _ found dedented
  · exact (collecting_over _).perform _ found (fun condition same => loop ⟨condition, same⟩)
      dedented

/-- The lines inside of a block do what they do where only its level is open. -/
theorem exists_over_of_convertLines {lines : List Text} {left right after : State}
    (piled : Over base below blocks left right) (idle : left.doPending = false)
    (loopless : ∀ line ∈ lines, line.strip ≠ "do:".toList)
    (inside : ∀ line ∈ lines, line.isRemark = false → base ≤ line.indentOf)
    (done : convertLines lines left = .ok () after) :
    ∃ alone, convertLines lines right = .ok () alone ∧ Over base below blocks after alone := by
  induction lines generalizing left right with
  | nil =>
      cases done
      exact ⟨right, rfl, piled⟩
  | cons line lines ih =>
      obtain ⟨middle, one, rest⟩ := convertLines_cons_eq_ok.mp done
      obtain ⟨other, loopless⟩ := List.forall_mem_cons.mp loopless
      obtain ⟨first, inside⟩ := List.forall_mem_cons.mp inside
      have agree := agree_convertLine_over piled idle first
      rw [one] at agree
      generalize right_eq : convertLine line right = result at agree
      cases agree with
      | @ok _ _ inner kept =>
          obtain ⟨alone, reached, piled⟩ :=
            ih kept (idle_of_convertLine idle other one) loopless inside rest
          exact ⟨alone, convertLines_cons_eq_ok.mpr ⟨inner, right_eq, reached⟩, piled⟩

/-! ## Where a line is written -/

/-- Convert lines, and leave the blocks that one further line leaves. -/
def approach (lines : List Text) (line : Text) : Conversion Unit := do
  convertLines lines
  modify (·.before line)

theorem approach_eq_ok {lines : List Text} {line : Text} {state reached : State} :
    approach lines line state = .ok () reached ↔
      ∃ middle, convertLines lines state = .ok () middle ∧ middle.before line = reached := by
  rw [approach, bind_eq_ok]
  constructor
  · rintro ⟨_, middle, done, rest⟩
    exact ⟨middle, done, modify_eq_ok.mp rest⟩
  · rintro ⟨middle, done, rest⟩
    exact ⟨(), middle, done, modify_eq_ok.mpr rest⟩

/-- The step leaves the innermost block of a state open: it does what it does where nothing but the
level of that block is open, and the block and everything around it stay on the stacks. -/
def Encloses (opened : State) (step : Conversion Unit) : Prop :=
  ∃ base below alone reached, opened.levels = base :: below ∧
    step { opened with levels := [base], blocks := [] } = .ok () alone ∧
      step opened = .ok () reached ∧ Over base below opened.blocks reached alone

theorem encloses_of_inside {body : List Text} {line : Text} {opened reached : State}
    (open_eq : opened.levels = base :: below) (idle : opened.doPending = false)
    (loopless : ∀ inner ∈ body, inner.strip ≠ "do:".toList)
    (inside : ∀ inner ∈ body ++ [line], inner.isRemark = false → base ≤ inner.indentOf)
    (done : approach body line opened = .ok () reached) :
    Encloses opened (approach body line) := by
  obtain ⟨middle, converted, rfl⟩ := approach_eq_ok.mp done
  have start : Over base below opened.blocks opened
      { opened with levels := [base], blocks := [] } := by
    refine ⟨?_, [], rfl, rfl⟩
    simp [atop, ← open_eq]
  obtain ⟨alone, alone_converted, piled⟩ := exists_over_of_convertLines start idle loopless
    (fun inner mem => inside inner (by simp [mem])) converted
  refine ⟨base, below, alone.before line, middle.before line, open_eq,
    approach_eq_ok.mpr ⟨alone, alone_converted, rfl⟩, done, ?_⟩
  unfold State.before
  split
  · exact piled
  · rename_i spoken
    exact piled.dedent (inside line (by simp) (by simpa using spoken))

theorem not_encloses_of_short {body : List Text} {line : Text} {opened : State}
    (open_eq : opened.levels = base :: below) (descending : opened.Descending)
    (others : ∀ inner ∈ body ++ [line], inner.isRemark = false → inner.indentOf + 4 ≠ base)
    (short : ∃ inner ∈ body ++ [line], inner.isRemark = false ∧ inner.indentOf < base) :
    ¬Encloses opened (approach body line) := by
  rintro ⟨_, _, alone, reached, same, _, done, piled⟩
  obtain ⟨rfl, rfl⟩ := List.cons.inj (open_eq.symm.trans same)
  obtain ⟨middle, converted, rfl⟩ := approach_eq_ok.mp done
  have mem : base ∈ (middle.before line).levels := by
    obtain ⟨uppers, alone_eq, _⟩ := piled.anchored
    rw [piled.same, atop, alone_eq]
    simp
  obtain ⟨inner, position, spoken, short⟩ := short
  rcases List.mem_append.mp position with inside | last
  · refine not_mem_levels_of_convertLines (fun inner mem => others inner (by simp [mem])) descending
      (.inr ⟨inner, inside, spoken, short⟩) converted (before_levels_subset line middle mem)
  · obtain rfl := List.mem_singleton.mp last
    exact (descending.convertLines converted).not_mem_before spoken short mem

/-- The line opens a block, behind the blocks that it leaves. -/
structure OpensBlock (header : Text) (block : Block) (before opened : State) : Prop where
  spoken : header.isRemark = false
  done : convertLine header before = .ok () opened
  blocks_eq : opened.blocks = block :: (before.dedent header.indentOf).blocks

theorem OpensBlock.levels_eq {header : Text} {block : Block} {before opened : State}
    (opens : OpensBlock header block before opened) :
    opened.levels = (header.indentOf + 4) :: (before.dedent header.indentOf).levels := by
  have sizes := congrArg List.length opens.blocks_eq
  rcases moves_of_convertLine opens.done with ⟨remark, _⟩ | ⟨_, moves⟩
  · simp [opens.spoken] at remark
  · cases moves with
    | stays _ blocks _ _ => simp [blocks] at sizes
    | opens levels _ _ _ _ _ _ => exact levels
    | loops levels _ _ _ => exact levels
    | ends _ _ blocks _ _ _ =>
        rw [blocks, List.length_tail, List.length_cons] at sizes
        omega

/-- In a source without do loops, let a line open a block and let the lines behind it be deeper than
it.  The level of the block is four columns to the right of the line, and the block is still open
where a later line is written exactly if all lines up to that one reach the level. -/
theorem encloses_iff_reach {source : Text}
    (loopless : ∀ line ∈ source.lines, line.strip ≠ "do:".toList)
    {front body back : List Text} {header line : Text}
    (split : source.lines = front ++ header :: (body ++ line :: back))
    {state before opened reached : State} {block : Block}
    (fronted : convertLines front state.reset = .ok () before)
    (opens : OpensBlock header block before opened)
    (deeper : ∀ inner ∈ body ++ [line], inner.isRemark = false →
      header.indentOf < inner.indentOf)
    (done : approach body line opened = .ok () reached) :
    opened.levels = (header.indentOf + 4) :: (before.dedent header.indentOf).levels ∧
      (Encloses opened (approach body line) ↔
        ∀ inner ∈ body ++ [line], inner.isRemark = false →
          header.indentOf + 4 ≤ inner.indentOf) := by
  rw [split] at loopless
  have open_eq := opens.levels_eq
  have idle : opened.doPending = false := by
    have start : before.doPending = false :=
      idle_of_convertLines rfl (fun line mem => loopless line (by simp [mem])) fronted
    exact idle_of_convertLine start (loopless header (by simp)) opens.done
  have descending : opened.Descending := by
    have start : state.reset.Descending := List.pairwise_singleton _ _
    exact (start.convertLines fronted).convertLine opens.done
  refine ⟨open_eq, fun encloses => ?_, fun inside => ?_⟩
  · intro inner mem spoken
    by_contra short
    refine not_encloses_of_short open_eq descending (fun other mem spoken => ?_)
      ⟨inner, mem, spoken, by omega⟩ encloses
    have := deeper other mem spoken
    omega
  · refine encloses_of_inside open_eq idle (fun inner mem => loopless inner ?_) inside done
    simp [mem]

/-- The lines of a block of ragged indentation, the last one apart. -/
def raggedBody : List Text :=
  ["    for i in c:".toList, "# note".toList, "           b()".toList, "      while d:".toList]

theorem encloses_iff_reach_ragged :
    ∃ opened, OpensBlock "if a:".toList .when State.initial.reset opened ∧
      Encloses opened (approach raggedBody "            e()".toList) := by
  have passed : (convertLine "if a:".toList).passes (fun _ opened =>
      opened.blocks == [.when] && (approach raggedBody "            e()".toList).returns opened)
        State.initial.reset = true := by decide +kernel
  obtain ⟨_, opened, headed, test⟩ := passes_iff.mp passed
  obtain ⟨blocks_eq, reaches⟩ := Bool.and_eq_true_iff.mp test
  obtain ⟨_, reached, done⟩ := returns_iff.mp reaches
  have opens : OpensBlock "if a:".toList .when State.initial.reset opened :=
    ⟨by decide, headed, beq_iff_eq.mp blocks_eq⟩
  have split : (Text.join ['\n'] ("if a:".toList :: raggedBody ++
      ["            e()".toList])).lines = [] ++ "if a:".toList :: (raggedBody ++
        "            e()".toList :: []) := by decide +kernel
  refine ⟨opened, opens, (encloses_iff_reach ?_ split rfl opens ?_ done).2.mpr ?_⟩
  · decide +kernel
  · decide +kernel
  · decide +kernel

/-- A line that is indented by two columns ends the block in front of it. -/
theorem not_encloses_narrow :
    (∃ opened, OpensBlock "if a:".toList .when State.initial.reset opened ∧
      ¬Encloses opened (approach [] "  b()".toList)) ∧
    (convert "if a:\n  b()".toList).passes (fun text _ => text == Text.join ['\n'] (banner ++
      ["if (a) \x7b".toList, "    \x7d".toList, "  b();".toList])) State.initial = true := by
  refine ⟨?_, by decide +kernel⟩
  have passed : (convertLine "if a:".toList).passes (fun _ opened => opened.blocks == [.when])
      State.initial.reset = true := by decide +kernel
  obtain ⟨_, opened, headed, blocks_eq⟩ := passes_iff.mp passed
  have opens : OpensBlock "if a:".toList .when State.initial.reset opened :=
    ⟨by decide, headed, beq_iff_eq.mp blocks_eq⟩
  have start : State.initial.reset.Descending := List.pairwise_singleton _ _
  refine ⟨opened, opens, not_encloses_of_short opens.levels_eq (start.convertLine headed) ?_ ?_⟩
  · decide +kernel
  · decide +kernel

end Conversion
end Ephp
