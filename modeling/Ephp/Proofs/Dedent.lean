import Ephp.Close

/-!
# Leaving blocks

Closing a block writes lines and settles what is pending; it leaves the names, the resources and
the rest of the stacks alone.  Leaving blocks in several stages is the same as leaving them at once,
and the end of the source leaves the blocks as a line without indentation would.
-/

namespace Ephp

/-- The lines that release a resource. -/
def Resource.closing (resource : Resource) : List Text :=
  let handle := '$' :: resource.handle
  [Text.indentation resource.base ++ "\x7d finally \x7b".toList,
    Text.indentation (resource.base + 4) ++ ("if (isset(".toList ++ handle ++
      ") && is_resource(".toList ++ handle ++ ")) \x7b".toList),
    Text.indentation (resource.base + 8) ++ ("fclose(".toList ++ handle ++ ");".toList),
    Text.indentation (resource.base + 4) ++ ['}'], Text.indentation resource.base ++ ['}']]

/-- What is kept of the remembered resources is found as before. -/
theorem Resource.lookup_filter {key : Int} {keep : Int × Resource → Bool}
    (kept : ∀ resource, keep (key, resource) = true) (resources : List (Int × Resource)) :
    (resources.filter keep).lookup key = resources.lookup key := by
  induction resources with
  | nil => rfl
  | cons entry resources ih =>
      obtain ⟨level, resource⟩ := entry
      by_cases same : key = level
      · subst same
        rw [List.filter_cons_of_pos (kept resource), List.lookup_cons_self, List.lookup_cons_self]
      · have distinct : (key == level) = false := by simpa using same
        rw [List.lookup_cons, distinct, ← ih, List.filter_cons]
        split
        · rw [List.lookup_cons, distinct]
        · rfl

namespace State

theorem release_eq (state : State) (resource : Resource) :
    state.release resource = { state with lines := state.lines ++ resource.closing } := by
  simp [release, emit, writeLine, Resource.closing]

section Frame

variable (state : State)

@[simp]
theorem emit_levels (indent : Int) (text : Text) : (state.emit indent text).levels = state.levels :=
  rfl

@[simp]
theorem emit_blocks (indent : Int) (text : Text) : (state.emit indent text).blocks = state.blocks :=
  rfl

@[simp]
theorem emit_lines (indent : Int) (text : Text) :
    (state.emit indent text).lines = state.lines ++ [Text.indentation indent ++ text] := rfl

@[simp]
theorem flushMatch_levels : state.flushMatch.levels = state.levels := by
  unfold flushMatch
  split <;> rfl

@[simp]
theorem flushMatch_blocks : state.flushMatch.blocks = state.blocks := by
  unfold flushMatch
  split <;> rfl

@[simp]
theorem flushMatch_names : state.flushMatch.names = state.names := by
  unfold flushMatch
  split <;> rfl

@[simp]
theorem flushMatch_resources : state.flushMatch.resources = state.resources := by
  unfold flushMatch
  split <;> rfl

@[simp]
theorem flushMatch_doPending : state.flushMatch.doPending = state.doPending := by
  unfold flushMatch
  split <;> rfl

/-- Closing a block changes nothing but the lines and the pending label and switch. -/
theorem close_eq (block : Option Block) (level : Int) :
    state.close block level =
      { state with
        lines := (state.close block level).lines
        casePending := (state.close block level).casePending
        switchPending := (state.close block level).switchPending } := by
  unfold close
  split
  · cases state.resources.lookup level with
    | none => rfl
    | some resource => simp only [release_eq]
  · split
    · rfl
    · split
      · rfl
      · split <;> rfl

@[simp]
theorem close_levels (block : Option Block) (level : Int) :
    (state.close block level).levels = state.levels := by rw [close_eq]

@[simp]
theorem close_blocks (block : Option Block) (level : Int) :
    (state.close block level).blocks = state.blocks := by rw [close_eq]

@[simp]
theorem close_names (block : Option Block) (level : Int) :
    (state.close block level).names = state.names := by rw [close_eq]

@[simp]
theorem close_resources (block : Option Block) (level : Int) :
    (state.close block level).resources = state.resources := by rw [close_eq]

@[simp]
theorem close_doPending (block : Option Block) (level : Int) :
    (state.close block level).doPending = state.doPending := by rw [close_eq]

@[simp]
theorem close_collected (block : Option Block) (level : Int) :
    (state.close block level).collected = state.collected := by rw [close_eq]

end Frame

/-- Leaving the innermost level: its end is written unless it is a do loop that waits for its
condition. -/
theorem closeTop_eq (state : State) (level : Int) (below : List Int) :
    state.closeTop id level below =
      if state.blocks.head? = some .doLoop ∧ state.doPending then (state.pop below).flushMatch
      else (state.pop below).flushMatch.close state.blocks.head? level := by
  simp [closeTop, pop]

@[simp]
theorem closeTop_levels (state : State) (level : Int) (below : List Int) :
    (state.closeTop id level below).levels = below := by
  rw [closeTop_eq]
  split <;> simp [pop]

@[simp]
theorem closeTop_blocks (state : State) (level : Int) (below : List Int) :
    (state.closeTop id level below).blocks = state.blocks.tail := by
  rw [closeTop_eq]
  split <;> simp [pop]

@[simp]
theorem closeTop_names (state : State) (level : Int) (below : List Int) :
    (state.closeTop id level below).names = state.names := by
  rw [closeTop_eq]
  split <;> simp [pop]

@[simp]
theorem closeTop_resources (state : State) (level : Int) (below : List Int) :
    (state.closeTop id level below).resources = state.resources := by
  rw [closeTop_eq]
  split <;> simp [pop]

@[simp]
theorem closeTop_doPending (state : State) (level : Int) (below : List Int) :
    (state.closeTop id level below).doPending = state.doPending := by
  rw [closeTop_eq]
  split <;> simp [pop]

/-! ## Dedents -/

theorem dedentFrom_induct {indent : Int} {holds : State → Prop}
    (step : ∀ state level below, state.levels = level :: below → indent < level → holds state →
      holds (state.closeTop id level below))
    {levels : List Int} {state : State} (open_eq : state.levels = levels) (start : holds state) :
    holds (dedentFrom indent levels state) := by
  induction levels generalizing state with
  | nil => exact start
  | cons level below ih =>
      rw [dedentFrom]
      split
      · rename_i deeper
        exact ih (closeTop_levels state level below) (step state level below open_eq deeper start)
      · exact start

/-- What holds of a state and is kept whenever a level deeper than the indentation is left holds
after the dedent. -/
theorem dedent_induct {indent : Int} {holds : State → Prop}
    (step : ∀ state level below, state.levels = level :: below → indent < level → holds state →
      holds (state.closeTop id level below))
    {state : State} (start : holds state) : holds (state.dedent indent) :=
  dedentFrom_induct step rfl start

/-- Nothing is left at an indentation that no open level exceeds. -/
theorem dedent_eq_self {indent : Int} {state : State}
    (inside : ∀ level ∈ state.levels.head?, level ≤ indent) : state.dedent indent = state := by
  unfold dedent
  cases open_eq : state.levels with
  | nil => rfl
  | cons level below =>
      have within : level ≤ indent := inside level (by simp [open_eq])
      rw [dedentFrom, if_neg (by omega)]

theorem dedent_of_lt {indent level : Int} {below : List Int} {state : State}
    (open_eq : state.levels = level :: below) (deeper : indent < level) :
    state.dedent indent = (state.closeTop id level below).dedent indent := by
  unfold dedent
  rw [open_eq, dedentFrom, if_pos deeper, closeTop_levels]

/-- A dedent removes exactly the topmost levels that are deeper than the indentation. -/
theorem dedent_levels (indent : Int) (state : State) :
    (state.dedent indent).levels = state.levels.dropWhile (indent < ·) := by
  generalize open_eq : state.levels = levels
  induction levels generalizing state with
  | nil => rw [dedent_eq_self (by simp [open_eq]), open_eq, List.dropWhile_nil]
  | cons level below ih =>
      by_cases deeper : indent < level
      · rw [dedent_of_lt open_eq deeper, ih _ (closeTop_levels state level below),
          List.dropWhile_cons_of_pos (by simpa using deeper)]
      · rw [dedent_eq_self (by simp [open_eq]; omega), open_eq,
          List.dropWhile_cons_of_neg (by simpa using deeper)]

@[simp]
theorem dedent_names (indent : Int) (state : State) :
    (state.dedent indent).names = state.names :=
  @dedent_induct indent (fun after => after.names = state.names)
    (fun after level below _ _ same => by rw [closeTop_names, same]) state rfl

@[simp]
theorem dedent_resources (indent : Int) (state : State) :
    (state.dedent indent).resources = state.resources :=
  @dedent_induct indent (fun after => after.resources = state.resources)
    (fun after level below _ _ same => by rw [closeTop_resources, same]) state rfl

@[simp]
theorem dedent_doPending (indent : Int) (state : State) :
    (state.dedent indent).doPending = state.doPending :=
  @dedent_induct indent (fun after => after.doPending = state.doPending)
    (fun after level below _ _ same => by rw [closeTop_doPending, same]) state rfl

theorem dedent_levels_head_le {indent level : Int} {state : State}
    (top : level ∈ (state.dedent indent).levels.head?) : level ≤ indent := by
  rw [dedent_levels] at top
  have kept := List.head?_dropWhile_not (fun level => decide (indent < level)) state.levels
  rw [Option.mem_def.mp top] at kept
  simpa using kept

/-- A dedent may be made in two stages. -/
theorem dedent_dedent {indent outer : Int} (further : outer ≤ indent) (state : State) :
    (state.dedent indent).dedent outer = state.dedent outer := by
  generalize open_eq : state.levels = levels
  induction levels generalizing state with
  | nil =>
      have same : state.dedent indent = state := dedent_eq_self (by simp [open_eq])
      rw [same]
  | cons level below ih =>
      by_cases deeper : indent < level
      · rw [dedent_of_lt open_eq deeper, dedent_of_lt open_eq (by omega : outer < level)]
        exact ih _ (closeTop_levels state level below)
      · have same : state.dedent indent = state := dedent_eq_self (by simp [open_eq]; omega)
        rw [same]

/-! ## Calm states -/

/-- Nothing is pending and no match is being collected. -/
structure Calm (state : State) : Prop where
  doPending : state.doPending = false
  switchPending : state.switchPending = false
  casePending : state.casePending = false
  collected : state.collected = .absent

theorem flushMatch_of_absent {state : State} (absent : state.collected = .absent) :
    state.flushMatch = state := by
  simp [flushMatch, absent, Match.absent, Match.lines]

/-- The lines that end a block where nothing is pending. -/
def blockEnd (state : State) (block : Option Block) (level : Int) : List Text :=
  match block with
  | some .resource => ((state.resources.lookup level).map Resource.closing).getD []
  | some .closure => [Text.indentation level ++ "\x7d;".toList]
  | _ => [Text.indentation level ++ ['}']]

theorem close_of_calm {state : State} (calm : state.Calm) (block : Option Block) (level : Int) :
    state.close block level =
      { state with lines := state.lines ++ state.blockEnd block level } := by
  unfold close
  split
  · rename_i owner
    subst owner
    cases found : state.resources.lookup level with
    | none => simp [blockEnd, found]
    | some resource => simp [blockEnd, found, release_eq]
  · rename_i owner
    split
    · rename_i stored
      subst stored
      rfl
    · rename_i stored
      have ending : state.blockEnd block level = [Text.indentation level ++ ['}']] := by
        unfold blockEnd
        split <;> simp_all
      rw [if_neg (by simp [calm.casePending]), if_neg (by simp [calm.switchPending]), ending]
      rfl

/-- Where nothing is pending, leaving a level only writes the end of its block. -/
theorem closeTop_of_calm {state : State} (calm : state.Calm) (level : Int) (below : List Int) :
    state.closeTop id level below =
      { state.pop below with lines := state.lines ++ state.blockEnd state.blocks.head? level } := by
  have popped : (state.pop below).Calm :=
    ⟨calm.doPending, calm.switchPending, calm.casePending, calm.collected⟩
  rw [closeTop_eq, if_neg (by simp [calm.doPending]), flushMatch_of_absent popped.collected,
    close_of_calm popped]
  rfl

theorem Calm.dedent {state : State} (calm : state.Calm) (indent : Int) :
    (state.dedent indent).Calm := by
  refine dedent_induct (fun state level below _ _ calm => ?_) calm
  rw [closeTop_of_calm calm]
  exact ⟨calm.doPending, calm.switchPending, calm.casePending, calm.collected⟩

/-! ## The end of the source -/

@[simp]
theorem closeTop_endDoLoop_levels (state : State) (level : Int) (below : List Int) :
    (state.closeTop (endDoLoop level) level below).levels = below := by
  simp only [closeTop]
  split <;> simp [endDoLoop, pop]

@[simp]
theorem closeTop_endDoLoop_blocks (state : State) (level : Int) (below : List Int) :
    (state.closeTop (endDoLoop level) level below).blocks = state.blocks.tail := by
  simp only [closeTop]
  split <;> simp [endDoLoop, pop]

theorem closeAllFrom_levels {levels : List Int} {state : State} (open_eq : state.levels = levels) :
    (closeAllFrom levels state).levels = levels.getLast?.toList := by
  induction levels generalizing state with
  | nil => exact open_eq
  | cons level below ih =>
      cases below with
      | nil => exact open_eq
      | cons next below =>
          rw [closeAllFrom, ih (closeTop_endDoLoop_levels state level (next :: below)),
            List.getLast?_cons_cons]

theorem closeAllFrom_blocks (levels : List Int) (state : State) :
    (closeAllFrom levels state).blocks = state.blocks.drop (levels.length - 1) := by
  induction levels generalizing state with
  | nil => rfl
  | cons level below ih =>
      cases below with
      | nil => rfl
      | cons next below =>
          rw [closeAllFrom, ih, closeTop_endDoLoop_blocks, List.drop_tail]
          rfl

/-- The end of the source leaves the outermost level open. -/
theorem closeAll_levels (state : State) : state.closeAll.levels = state.levels.getLast?.toList :=
  closeAllFrom_levels rfl

theorem closeAll_blocks (state : State) :
    state.closeAll.blocks = state.blocks.drop (state.levels.length - 1) :=
  closeAllFrom_blocks state.levels state

theorem closeTop_of_idle {abandon : State → State} {state : State} (idle : state.doPending = false)
    (level : Int) (below : List Int) :
    state.closeTop abandon level below = state.closeTop id level below := by
  simp [closeTop, pop, idle]

/-- With no do loop pending the end of the source leaves the levels as a line without indentation
would. -/
theorem closeAll_eq_dedent {state : State} {uppers : List Int}
    (open_eq : state.levels = uppers ++ [0]) (positive : ∀ level ∈ uppers, 0 < level)
    (idle : state.doPending = false) : state.closeAll = state.dedent 0 := by
  unfold closeAll dedent
  rw [open_eq]
  clear open_eq
  induction uppers generalizing state with
  | nil => rfl
  | cons level uppers ih =>
      have deeper : 0 < level := positive level (by simp)
      cases split : uppers ++ [0] with
      | nil => simp at split
      | cons next below =>
          rw [List.cons_append, split, closeAllFrom, dedentFrom, if_pos deeper,
            closeTop_of_idle idle, ← split]
          exact ih (fun other mem => positive other (by simp [mem]))
            (by rw [closeTop_doPending, idle])

end State
end Ephp
