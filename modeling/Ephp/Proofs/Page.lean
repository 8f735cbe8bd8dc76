import Ephp.Proofs.Stack

/-!
# Pages

A page is an output with its blocks: what stands in it are labels of switches, breaks, blocks and
other lines.  A break belongs to a switch if it is the last thing in front of a label or of the end
of the switch.  What is still due when blocks are left is a list of marks too, and leaving the
blocks writes just this.
-/

namespace Ephp

/-- Whether the end of a block settles a pending label. -/
def Block.settles : Block → Bool
  | .closure | .resource => false
  | _ => true

/-- What a stretch of an output is. -/
inductive Mark where
  /-- Any lines but breaks. -/
  | plain
  /-- A break. -/
  | leave
  /-- A label of a switch. -/
  | label
  /-- The start of a block. -/
  | opens (kind : Block)
  /-- The end of a block. -/
  | ends (kind : Block)
deriving DecidableEq, Repr

/-- A sequence of marks in which every block has its start and its end. -/
inductive Page where
  | nil
  | plain (rest : Page)
  | leave (rest : Page)
  | label (rest : Page)
  | block (kind : Block) (body rest : Page)
deriving DecidableEq, Repr

namespace Page

def marks : Page → List Mark
  | nil => []
  | plain rest => .plain :: rest.marks
  | leave rest => .leave :: rest.marks
  | label rest => .label :: rest.marks
  | block kind body rest => .opens kind :: (body.marks ++ .ends kind :: rest.marks)

/-- The page with a break in front, if there is to be one. -/
def leaveIf (pending : Bool) (page : Page) : Page :=
  if pending then page.leave else page

/-- Whether a break in front of the page would be followed by a label or by the end. -/
def closesArm : Page → Bool
  | nil | label _ => true
  | _ => false

/-- Whether there is a break in front of the first label, if there is a label. -/
def leavesArm : Page → Bool
  | nil => true
  | plain rest => rest.leavesArm
  | leave _ => true
  | label _ => false
  | block _ _ rest => rest.leavesArm

/-- Whether all breaks belong to a switch, as the last thing in front of a label or of its end, and
between any two labels of a switch there is a break of that switch.  The page itself is the body of
a switch, or it is not. -/
def belongs : Bool → Page → Bool
  | _, nil => true
  | inside, plain rest => rest.belongs inside
  | inside, leave rest => inside && rest.closesArm && rest.belongs inside
  | inside, label rest => rest.leavesArm && rest.belongs inside
  | inside, block kind body rest => body.belongs (kind == .switch) && rest.belongs inside

theorem marks_leaveIf (pending : Bool) (page : Page) :
    (page.leaveIf pending).marks = (if pending then [.leave] else []) ++ page.marks := by
  cases pending <;> rfl

end Page

/-! ## Spelling -/

/-- The line is what is written for a blank line or a comment. -/
def Text.IsRemarkText (line : Text) : Prop :=
  line = [] ∨ ∃ indent comment, line = indentation indent ++ ("// ".toList ++ comment)

theorem Text.isRemarkText_remarkText (line : Text) : line.remarkText.IsRemarkText := by
  unfold remarkText
  split
  · exact .inl rfl
  · exact .inr ⟨_, _, rfl⟩

theorem Text.IsRemarkText.isLeave {line : Text} (remark : line.IsRemarkText) :
    line.isLeave = false := by
  rcases remark with rfl | ⟨indent, comment, rfl⟩
  · rfl
  · rw [isLeave_indentation_append]
    exact isLeave_eq_false_of_mem (List.mem_cons_self : '/' ∈ _) (by decide)

/-- The lines that a mark can stand for. -/
inductive Mark.Spells : Mark → List Text → Prop where
  | plain {lines : List Text} (others : ∀ line ∈ lines, line.isLeave = false) : Spells .plain lines
  | leave (indent : Int) : Spells .leave [Text.indentation indent ++ "break;".toList]
  | label (indent : Int) {text : Text} (spelled : Statement.IsLabelText text) :
      Spells .label [Text.indentation indent ++ text]
  | opens {kind : Block} {lines : List Text} {header : Text} (indent : Int)
      (others : ∀ line ∈ lines, line.isLeave = false)
      (named : kind = .switch → lines = [] ∧ List.IsPrefix "switch (".toList header) :
      Spells (.opens kind) (lines ++ [Text.indentation indent ++ (header ++ " \x7b".toList)])
  | ends {kind : Block} (indent : Int) (settles : kind.settles = true) :
      Spells (.ends kind) [Text.indentation indent ++ ['}']]
  | stored (indent : Int) : Spells (.ends .closure) [Text.indentation indent ++ "\x7d;".toList]
  | released {lines : List Text} (others : ∀ line ∈ lines, line.isLeave = false) :
      Spells (.ends .resource) lines

theorem Mark.Spells.header {kind : Block} {text : Text} (indent : Int)
    (named : kind = .switch → List.IsPrefix "switch (".toList text) :
    Spells (.opens kind) [Text.indentation indent ++ (text ++ " \x7b".toList)] :=
  @opens kind [] text indent (by simp) fun same => ⟨rfl, named same⟩

/-- Lines spell marks, with remarks anywhere between them. -/
inductive Spelled : List Mark → List Text → Prop where
  | nil : Spelled [] []
  | remark {marks : List Mark} {line : Text} {lines : List Text} (remark : line.IsRemarkText)
      (rest : Spelled marks lines) : Spelled marks (line :: lines)
  | cons {mark : Mark} {marks : List Mark} {chunk lines : List Text} (one : mark.Spells chunk)
      (rest : Spelled marks lines) : Spelled (mark :: marks) (chunk ++ lines)

namespace Spelled

theorem append {left right : List Mark} {above below : List Text} (first : Spelled left above)
    (second : Spelled right below) : Spelled (left ++ right) (above ++ below) := by
  induction first with
  | nil => exact second
  | remark text _ ih => exact .remark text ih
  | cons one _ ih =>
      rw [List.append_assoc]
      exact .cons one ih

theorem single {mark : Mark} {chunk : List Text} (one : mark.Spells chunk) :
    Spelled [mark] chunk := by
  have whole := Spelled.cons one .nil
  rwa [List.append_nil] at whole

/-- Plain lines in front of other plain lines make one stretch with them. -/
theorem absorb {marks : List Mark} {lines above : List Text}
    (spelled : Spelled (.plain :: marks) lines) (others : ∀ line ∈ above, line.isLeave = false) :
    Spelled (.plain :: marks) (above ++ lines) := by
  generalize whole : Mark.plain :: marks = all at spelled
  induction spelled generalizing above with
  | nil => cases whole
  | @remark _ line _ text _ ih =>
      rw [List.append_cons]
      refine ih (fun other mem => ?_) whole
      rcases List.mem_append.mp mem with mem | mem
      · exact others other mem
      · rw [List.mem_singleton.mp mem]
        exact text.isLeave
  | cons one rest _ =>
      cases whole
      cases one with
      | plain chunk_others =>
          rw [← List.append_assoc]
          exact .cons (.plain (List.forall_mem_append.mpr ⟨others, chunk_others⟩)) rest

end Spelled

namespace State

/-- The lines that the second state has written after the first one spell marks. -/
def Adds (marks : List Mark) (state after : State) : Prop :=
  ∃ lines, after.lines = state.lines ++ lines ∧ Spelled marks lines

namespace Adds

variable {left right marks : List Mark} {state middle after : State}

theorem nil (same : after.lines = state.lines) : Adds [] state after :=
  ⟨[], by rw [same, List.append_nil], .nil⟩

theorem trans (first : Adds left state middle) (second : Adds right middle after) :
    Adds (left ++ right) state after := by
  obtain ⟨above, middle_eq, above_spelled⟩ := first
  obtain ⟨below, after_eq, below_spelled⟩ := second
  refine ⟨above ++ below, ?_, above_spelled.append below_spelled⟩
  rw [after_eq, middle_eq, List.append_assoc]

theorem emit {mark : Mark} {indent : Int} {text : Text}
    (one : mark.Spells [Text.indentation indent ++ text]) :
    Adds [mark] state (state.emit indent text) :=
  ⟨_, rfl, .single one⟩

theorem writeLine {line : Text} (remark : line.IsRemarkText) :
    Adds [] state (state.writeLine line) :=
  ⟨_, rfl, .remark remark .nil⟩

/-- Plain lines in front of what starts with plain lines are part of them. -/
theorem absorb {lines : List Text} (written : middle.lines = state.lines ++ lines)
    (others : ∀ line ∈ lines, line.isLeave = false) (rest : Adds (.plain :: marks) middle after) :
    Adds (.plain :: marks) state after := by
  obtain ⟨below, after_eq, spelled⟩ := rest
  refine ⟨lines ++ below, ?_, spelled.absorb others⟩
  rw [after_eq, written, List.append_assoc]

end Adds

end State

/-! ## Ends of blocks -/

theorem Match.isLeave_of_mem_lines {collected : Match} {line : Text}
    (mem : line ∈ collected.lines) : line.isLeave = false := by
  unfold lines at mem
  split at mem
  · split at mem
    · rename_i opening found
      rw [List.cons_append, List.mem_cons, List.mem_append] at mem
      rcases mem with rfl | mem | mem
      · unfold opening? at found
        split at found
        · cases found
          exact Text.isLeave_eq_false_of_mem (List.mem_cons_self : '$' ∈ _) (by decide)
        · cases found
          exact Text.isLeave_eq_false_of_mem
            (List.mem_cons_of_mem _ (List.mem_cons_of_mem _ List.mem_cons_self) : 't' ∈ _)
            (by decide)
        · cases found
      · obtain ⟨arm, _, rfl⟩ := List.mem_map.mp mem
        have arrow : '=' ∈ " => ".toList := by decide
        exact Text.isLeave_eq_false_of_mem (List.mem_append_left _ (List.mem_append_left _
          (List.mem_append_right _ arrow))) (by decide)
      · rw [List.mem_singleton.mp mem]
        decide
    · simp at mem
  · simp at mem

theorem Resource.isLeave_of_mem_closing {resource : Resource} {line : Text}
    (mem : line ∈ resource.closing) : line.isLeave = false := by
  simp only [closing, List.mem_cons, List.not_mem_nil, or_false] at mem
  rcases mem with rfl | rfl | rfl | rfl | rfl
  · rw [Text.isLeave_indentation_append]
    decide
  · rw [Text.isLeave_indentation_append]
    exact Text.isLeave_eq_false_of_mem (List.mem_cons_self : 'i' ∈ _) (by decide)
  · rw [Text.isLeave_indentation_append]
    exact Text.isLeave_eq_false_of_mem (List.mem_cons_self : 'f' ∈ _) (by decide)
  · rw [Text.isLeave_indentation_append]
    decide
  · rw [Text.isLeave_indentation_append]
    decide

/-- What is written when a block is left: the match that is held, perhaps a break, and the end. -/
def Block.closing (kind : Block) (pending : Bool) : List Mark :=
  .plain :: ((if pending && kind.settles then [.leave] else []) ++ [.ends kind])

namespace State

theorem exists_flushMatch_lines (state : State) :
    ∃ lines, state.flushMatch.lines = state.lines ++ lines ∧
      ∀ line ∈ lines, line.isLeave = false := by
  unfold flushMatch
  split
  · exact ⟨[], by simp, by simp⟩
  · refine ⟨_, rfl, fun line mem => ?_⟩
    obtain ⟨text, text_mem, rfl⟩ := List.mem_map.mp mem
    rw [Text.isLeave_indentation_append]
    exact Match.isLeave_of_mem_lines text_mem

@[simp]
theorem flushMatch_casePending (state : State) :
    state.flushMatch.casePending = state.casePending := by
  unfold flushMatch
  split <;> rfl

theorem close_resource (state : State) (level : Int) :
    state.close (some .resource) level =
      { state with lines :=
          state.lines ++ ((state.resources.lookup level).map Resource.closing).getD [] } := by
  rw [close, if_pos rfl]
  cases state.resources.lookup level with
  | none => simp
  | some resource => exact release_eq state resource

theorem close_closure (state : State) (level : Int) :
    state.close (some .closure) level = state.emit level "\x7d;".toList := rfl

theorem close_of_settles {kind : Block} (settles : kind.settles = true) (state : State)
    (level : Int) :
    (state.close (some kind) level).lines =
        ((if state.casePending then state.emit level "break;".toList else state).emit level
          ['}']).lines ∧
      (state.close (some kind) level).casePending = false := by
  have owner : some kind ≠ some .resource := by
    rintro ⟨⟩
    simp [Block.settles] at settles
  have stored : some kind ≠ some .closure := by
    rintro ⟨⟩
    simp [Block.settles] at settles
  rw [close, if_neg owner, if_neg stored]
  cases pending : state.casePending with
  | true => exact ⟨rfl, rfl⟩
  | false =>
      cases state.switchPending with
      | true => exact ⟨rfl, pending⟩
      | false => exact ⟨rfl, pending⟩

/-- The end of a block that settles the pending label has its break in front. -/
theorem adds_close (kind : Block) (level : Int) (state : State) :
    Adds ((if state.casePending && kind.settles then [.leave] else []) ++ [.ends kind]) state
        (state.close (some kind) level) ∧
      (state.close (some kind) level).casePending = (state.casePending && !kind.settles) := by
  cases settles : kind.settles with
  | true =>
      obtain ⟨lines, pending⟩ := close_of_settles settles state level
      have brace (state : State) : Adds [.ends kind] state (state.emit level ['}']) :=
        .emit (.ends level settles)
      refine ⟨?_, by simp [pending]⟩
      rw [Adds, lines, Bool.and_true]
      cases state.casePending with
      | true => exact Adds.trans (.emit (.leave level)) (brace _)
      | false => exact brace state
  | false =>
      have kinds : kind = .resource ∨ kind = .closure := by
        cases kind <;> simp_all [Block.settles]
      simp only [Bool.and_false, Bool.not_false, Bool.and_true]
      rcases kinds with rfl | rfl
      · rw [close_resource]
        refine ⟨⟨_, rfl, .single (.released fun line mem => ?_)⟩, rfl⟩
        cases found : state.resources.lookup level with
        | none => simp [found] at mem
        | some resource =>
            rw [found] at mem
            exact Resource.isLeave_of_mem_closing mem
      · rw [close_closure]
        exact ⟨.emit (.stored level), rfl⟩

/-- With no do loop pending, leaving the innermost block writes its end. -/
theorem adds_closeTop {state : State} {kind : Block} {kinds : List Block}
    (idle : state.doPending = false) (blocks_eq : state.blocks = kind :: kinds) (level : Int)
    (below : List Int) :
    Adds (kind.closing state.casePending) state (state.closeTop id level below) ∧
      (state.closeTop id level below).casePending = (state.casePending && !kind.settles) := by
  obtain ⟨lines, written, others⟩ := exists_flushMatch_lines (state.pop below)
  obtain ⟨closed, pending⟩ := adds_close kind level (state.pop below).flushMatch
  rw [flushMatch_casePending] at closed pending
  have same : state.closeTop id level below =
      (state.pop below).flushMatch.close (some kind) level := by
    rw [closeTop_eq, if_neg (by simp [idle]), blocks_eq, List.head?_cons]
  rw [same]
  exact ⟨Adds.trans ⟨lines, written, .single (.plain others)⟩ closed, pending⟩

/-! ## What is due -/

/-- What is written for blocks, innermost first, when those that are deeper than an indentation are
left. -/
def duesFrom (indent : Int) : Bool → List (Int × Block) → List Mark
  | _, [] => []
  | pending, (level, kind) :: others =>
    if indent < level then
      kind.closing pending ++ duesFrom indent (pending && !kind.settles) others
    else []

/-- Whether a label is pending behind blocks, innermost first, when those that are deeper than an
indentation are left. -/
def pendingFrom (indent : Int) : Bool → List (Int × Block) → Bool
  | pending, [] => pending
  | pending, (level, kind) :: others =>
    if indent < level then pendingFrom indent (pending && !kind.settles) others else pending

section Flat

variable {indent : Int} {levels : List Int} (inside : ∀ level ∈ levels.head?, level ≤ indent)
include inside

theorem duesFrom_of_flat (pending : Bool) (blocks : List Block) :
    duesFrom indent pending (levels.zip blocks) = [] := by
  cases levels with
  | nil => rfl
  | cons level below =>
      have within : level ≤ indent := inside level rfl
      cases blocks with
      | nil => rfl
      | cons kind kinds => rw [List.zip_cons_cons, duesFrom, if_neg (by omega)]

theorem pendingFrom_of_flat (pending : Bool) (blocks : List Block) :
    pendingFrom indent pending (levels.zip blocks) = pending := by
  cases levels with
  | nil => rfl
  | cons level below =>
      have within : level ≤ indent := inside level rfl
      cases blocks with
      | nil => rfl
      | cons kind kinds => rw [List.zip_cons_cons, pendingFrom, if_neg (by omega)]

end Flat

/-- What is written when a line at an indentation leaves blocks. -/
def dues (indent : Int) (state : State) : List Mark :=
  duesFrom indent state.casePending (state.levels.zip state.blocks)

theorem dues_eq_nil_or_plain (indent : Int) (state : State) :
    state.dues indent = [] ∨ ∃ marks, state.dues indent = .plain :: marks := by
  unfold dues
  cases state.levels.zip state.blocks with
  | nil => exact .inl rfl
  | cons first others =>
      rw [duesFrom]
      split
      · exact .inr ⟨_, rfl⟩
      · exact .inl rfl

/-- Whether a label is pending when a line at an indentation has left blocks. -/
def pendingAt (indent : Int) (state : State) : Bool :=
  pendingFrom indent state.casePending (state.levels.zip state.blocks)

section Closed

variable {indent level : Int} {below : List Int} {kind : Block} {kinds : List Block} {state : State}
  (idle : state.doPending = false) (open_eq : state.levels = level :: below)
  (blocks_eq : state.blocks = kind :: kinds) (deeper : indent < level)
include idle open_eq blocks_eq deeper

theorem dues_of_lt : state.dues indent =
    kind.closing state.casePending ++ (state.closeTop id level below).dues indent := by
  rw [dues, dues, open_eq, blocks_eq, List.zip_cons_cons, duesFrom, if_pos deeper,
    (adds_closeTop idle blocks_eq level below).2, closeTop_levels, closeTop_blocks, blocks_eq,
    List.tail_cons]

theorem pendingAt_of_lt :
    state.pendingAt indent = (state.closeTop id level below).pendingAt indent := by
  rw [pendingAt, pendingAt, open_eq, blocks_eq, List.zip_cons_cons, pendingFrom, if_pos deeper,
    (adds_closeTop idle blocks_eq level below).2, closeTop_levels, closeTop_blocks, blocks_eq,
    List.tail_cons]

end Closed

/-- The outermost level is open, there is a level for every block and one more, and no do loop waits
for its condition. -/
structure Aligned (state : State) : Prop where
  rooted : state.Rooted
  sized : state.levels.length = state.blocks.length + 1
  idle : state.doPending = false

namespace Aligned

variable {state : State}

/-- There is a block at every level that is deeper than an indentation. -/
theorem exists_block (aligned : state.Aligned) {indent level : Int} {below : List Int}
    (nonneg : 0 ≤ indent) (open_eq : state.levels = level :: below) (deeper : indent < level) :
    ∃ kind kinds, state.blocks = kind :: kinds := by
  cases blocks_eq : state.blocks with
  | cons kind kinds => exact ⟨kind, kinds, rfl⟩
  | nil =>
      obtain ⟨uppers, split, _⟩ := aligned.rooted
      have sized := aligned.sized
      rw [blocks_eq, split] at sized
      obtain rfl : uppers = [] := by simpa using sized
      obtain ⟨rfl, _⟩ := List.cons.inj (open_eq.symm.trans split)
      omega

theorem closeTop (aligned : state.Aligned) {indent level : Int} {below : List Int}
    (nonneg : 0 ≤ indent) (open_eq : state.levels = level :: below) (deeper : indent < level) :
    (state.closeTop id level below).Aligned := by
  obtain ⟨kind, kinds, blocks_eq⟩ := aligned.exists_block nonneg open_eq deeper
  have sized := aligned.sized
  rw [open_eq, blocks_eq] at sized
  refine ⟨?_, ?_, by rw [closeTop_doPending, aligned.idle]⟩
  · have split : state.levels = level :: (state.closeTop id level below).levels := by
      rw [closeTop_levels, open_eq]
    exact aligned.rooted.tail split (by omega : 0 < level) (by simp [open_eq])
  · rw [closeTop_levels, closeTop_blocks, blocks_eq]
    simpa using sized

/-- A property that holds where nothing is to be left, and that a state has if the state behind its
innermost block has it, holds of every state. -/
theorem induct {indent : Int} (nonneg : 0 ≤ indent) {motive : State → Prop}
    (flat : ∀ {state : State}, state.Aligned → (∀ level ∈ state.levels.head?, level ≤ indent) →
      motive state)
    (closed : ∀ {state : State} {level below kind kinds}, state.Aligned →
      state.levels = level :: below → state.blocks = kind :: kinds → indent < level →
        motive (state.closeTop id level below) → motive state)
    (aligned : state.Aligned) : motive state := by
  generalize open_eq : state.levels = levels
  induction levels generalizing state with
  | nil => exact absurd open_eq aligned.rooted.levels_ne_nil
  | cons level below ih =>
      by_cases deeper : indent < level
      · obtain ⟨kind, kinds, blocks_eq⟩ := aligned.exists_block nonneg open_eq deeper
        apply closed aligned open_eq blocks_eq deeper
        exact ih (aligned.closeTop nonneg open_eq deeper) (closeTop_levels state level below)
      · apply flat aligned
        intro top mem
        rw [open_eq, List.head?_cons, Option.mem_some_iff] at mem
        omega

/-- Leaving blocks writes what is due. -/
theorem adds_dedent {indent : Int} (nonneg : 0 ≤ indent) (aligned : state.Aligned) :
    Adds (state.dues indent) state (state.dedent indent) := by
  refine aligned.induct nonneg (motive := fun state =>
    Adds (state.dues indent) state (state.dedent indent)) ?_ ?_
  · intro state aligned inside
    rw [dedent_eq_self inside, dues, duesFrom_of_flat inside]
    exact .nil rfl
  · intro state level below kind kinds aligned open_eq blocks_eq deeper rest
    rw [dedent_of_lt open_eq deeper, dues_of_lt aligned.idle open_eq blocks_eq deeper]
    exact (adds_closeTop aligned.idle blocks_eq level below).1.trans rest

theorem dedent {indent : Int} (nonneg : 0 ≤ indent) (aligned : state.Aligned) :
    (state.dedent indent).Aligned := by
  refine ⟨aligned.rooted.dedent nonneg, ?_, by rw [dedent_doPending, aligned.idle]⟩
  refine aligned.induct nonneg (motive := fun state =>
    (state.dedent indent).levels.length = (state.dedent indent).blocks.length + 1) ?_ ?_
  · intro state aligned inside
    rw [dedent_eq_self inside, aligned.sized]
  · intro state level below kind kinds aligned open_eq blocks_eq deeper rest
    rw [dedent_of_lt open_eq deeper, rest]

theorem casePending_dedent {indent : Int} (nonneg : 0 ≤ indent) (aligned : state.Aligned) :
    (state.dedent indent).casePending = state.pendingAt indent := by
  refine aligned.induct nonneg (motive := fun state =>
    (state.dedent indent).casePending = state.pendingAt indent) ?_ ?_
  · intro state aligned inside
    rw [dedent_eq_self inside, pendingAt, pendingFrom_of_flat inside]
  · intro state level below kind kinds aligned open_eq blocks_eq deeper rest
    rw [dedent_of_lt open_eq deeper, pendingAt_of_lt aligned.idle open_eq blocks_eq deeper, rest]

/-- What is due may be written in two stages. -/
theorem dues_dedent {indent outer : Int} (nonneg : 0 ≤ indent) (further : outer ≤ indent)
    (aligned : state.Aligned) :
    state.dues outer = state.dues indent ++ (state.dedent indent).dues outer := by
  refine aligned.induct nonneg (motive := fun state =>
    state.dues outer = state.dues indent ++ (state.dedent indent).dues outer) ?_ ?_
  · intro state aligned inside
    rw [dedent_eq_self inside, dues.eq_def indent, duesFrom_of_flat inside, List.nil_append]
  · intro state level below kind kinds aligned open_eq blocks_eq deeper rest
    rw [dedent_of_lt open_eq deeper, dues_of_lt aligned.idle open_eq blocks_eq deeper,
      dues_of_lt aligned.idle open_eq blocks_eq (by omega : outer < level), rest,
      List.append_assoc]

theorem pendingAt_dedent {indent outer : Int} (nonneg : 0 ≤ indent) (further : outer ≤ indent)
    (aligned : state.Aligned) : (state.dedent indent).pendingAt outer = state.pendingAt outer := by
  refine aligned.induct nonneg (motive := fun state =>
    (state.dedent indent).pendingAt outer = state.pendingAt outer) ?_ ?_
  · intro state aligned inside
    rw [dedent_eq_self inside]
  · intro state level below kind kinds aligned open_eq blocks_eq deeper rest
    rw [dedent_of_lt open_eq deeper,
      pendingAt_of_lt aligned.idle open_eq blocks_eq (by omega : outer < level), rest]

/-- The end of the source writes the match that is held, and what is due. -/
theorem adds_closeAll (aligned : state.Aligned) :
    Adds (state.dues 0 ++ [.plain]) state state.flushMatch.closeAll := by
  obtain ⟨lines, written, others⟩ := exists_flushMatch_lines state
  have flushed : state.flushMatch.Aligned := by
    obtain ⟨⟨uppers, open_eq, positive⟩, sized, idle⟩ := aligned
    refine ⟨⟨uppers, ?_, positive⟩, ?_, ?_⟩
    · rw [flushMatch_levels, open_eq]
    · rw [flushMatch_levels, flushMatch_blocks, sized]
    · rw [flushMatch_doPending, idle]
  have same : state.flushMatch.dues 0 = state.dues 0 := by
    rw [dues, dues, flushMatch_levels, flushMatch_blocks, flushMatch_casePending]
  obtain ⟨uppers, open_eq, positive⟩ := flushed.rooted
  rw [closeAll_eq_dedent open_eq positive flushed.idle]
  have closed := flushed.adds_dedent (Int.le_refl 0)
  rw [same] at closed
  rcases dues_eq_nil_or_plain 0 state with nothing | ⟨marks, first⟩
  · have held : Adds [.plain] state state.flushMatch := ⟨lines, written, .single (.plain others)⟩
    rw [nothing] at closed ⊢
    exact held.trans closed
  · rw [first] at closed ⊢
    exact (closed.absorb written others).trans
      ⟨[], (List.append_nil _).symm, .single (.plain (by simp))⟩

end Aligned
end State
end Ephp
