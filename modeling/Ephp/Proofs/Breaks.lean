import Ephp.Proofs.Collect
import Ephp.Proofs.DoLoop
import Ephp.Proofs.Page
import Ephp.Proofs.Verbatim

/-!
# Where breaks are written

A label of a switch stays pending until the next label, which then gets a break in front, or until
some block ends, which then gets the break in front of its end.  This block need not be the switch.
So the breaks belong to the switches only if the first block that ends below a label is a switch, or
there is none, and there has to be none if another label follows.
-/

namespace Ephp

namespace Statement

/-- What a line is to the blocks around it. -/
inductive Role where
  /-- A label of a switch. -/
  | label
  /-- The header of a block. -/
  | header (kind : Block)
  /-- The header of a match or one of its arms, which are written later. -/
  | silent
  /-- Any other line. -/
  | single
deriving DecidableEq, Repr

def role (body : Text) : Role :=
  if (read? body).any (·.isLabel) then .label
  else if (read? body).any fun line => line.isArm || line.started?.isSome then .silent
  else match openedBy? body with
    | some kind => .header kind
    | none => .single

theorem isLabel_of_isArm {statement : Statement} (is_arm : statement.isArm = true) :
    statement.isLabel = false := by
  cases statement with
  | arm _ _ | defaultArm _ => rfl
  | _ => cases is_arm

/-- A line that writes a line of its own has no other role. -/
theorem other_of_isSimple {statement : Statement} (simple : statement.isSimple = true) :
    statement.isLabel = false ∧ statement.isArm = false ∧ statement.started? = none := by
  cases statement with
  | label _ | defaultLabel | arm _ _ | defaultArm _ | matchAssign _ _ | matchReturn _ =>
      cases simple
  | _ => exact ⟨rfl, rfl, rfl⟩

theorem isLabel_of_started? {statement : Statement} {collected : Match}
    (header : statement.started? = some collected) : statement.isLabel = false := by
  cases statement with
  | matchAssign _ _ | matchReturn _ => rfl
  | _ => cases header

/-- The header of a block has no other role. -/
theorem other_of_opened? {statement : Statement} {kind : Block}
    (opened : statement.opened? = some kind) :
    statement.isLabel = false ∧ statement.started? = none := by
  cases statement with
  | label _ | defaultLabel | matchAssign _ _ | matchReturn _ => cases opened
  | _ => exact ⟨rfl, rfl⟩

theorem role_of_isArm {body : Text} {statement : Statement} (found : read? body = some statement)
    (is_arm : statement.isArm = true) : role body = .silent := by
  simp [role, found, is_arm, isLabel_of_isArm is_arm]

theorem role_of_started? {body : Text} {statement : Statement} {collected : Match}
    (found : read? body = some statement) (header : statement.started? = some collected) :
    role body = .silent := by
  simp [role, found, header, isLabel_of_started? header]

theorem role_of_openedBy? {body : Text} {kind : Block} (opened : openedBy? body = some kind)
    (apart : ∀ statement, read? body = some statement → statement.isArm = false) :
    role body = .header kind := by
  unfold role
  cases found : read? body with
  | none => simp [opened]
  | some statement =>
      have regular := apart statement found
      have same : statement.opened? = some kind := by
        rw [← openedBy?_of_read? found regular, opened]
      obtain ⟨other, headless⟩ := other_of_opened? same
      simp [other, headless, regular, opened]

theorem role_of_isSimple {body : Text} (single : openedBy? body = none)
    (simple : ∀ statement, read? body = some statement → statement.isSimple = true) :
    role body = .single := by
  unfold role
  cases found : read? body with
  | none => simp [single]
  | some statement =>
      obtain ⟨regular, apart, headless⟩ := other_of_isSimple (simple statement found)
      simp [regular, apart, headless, single]

end Statement

open Statement

/-- Whether a line may stand at a place: a do loop or a break may not, and a line in a block is no
format text, which can be written as a break too. -/
def Place.accepts (place : Place) (body : Text) : Bool :=
  match place with
  | .block => (Format.body? body).isNone && !(read? body).any fun statement =>
      statement.isArm || statement.isLabel || statement == .doLoop || statement == .leave
  | .labels => (read? body).any (·.isLabel)
  | .arms => (read? body).any (·.isArm)

namespace Outline

/-- Whether the outline is of a source with properly nested blocks, four columns for each level,
without do loops and without breaks. -/
def regular : Place → Int → Outline → Bool
  | _, _, nil => true
  | place, indent, remark line rest => line.isRemark && rest.regular place indent
  | place, indent, node line body rest =>
    (!line.isRemark && line.indentOf == indent && place.accepts line.strip) &&
      (match role line.strip with
        | .label => body.regular .block (indent + 4)
        | .header kind => body.regular (if kind = .switch then .labels else .block) (indent + 4)
        | .silent => body.regular .arms (indent + 4)
        | .single => body == nil) &&
      rest.regular place indent
  | _, _, loop _ _ _ _ => false

/-- Whether a label is pending behind the lines. -/
def pendingAfter : Bool → Outline → Bool
  | pending, nil => pending
  | pending, remark _ rest => rest.pendingAfter pending
  | pending, node line body rest =>
    match role line.strip with
    | .label => rest.pendingAfter (body.pendingAfter true)
    | .header kind => rest.pendingAfter (body.pendingAfter pending && !kind.settles)
    | .silent => rest.pendingAfter pending
    | .single => rest.pendingAfter pending
  | pending, loop _ _ _ _ => pending

/-- What is written for the lines, in front of what is written behind them. -/
def page : Bool → Outline → Page → Page
  | _, nil, next => next
  | pending, remark _ rest, next => rest.page pending next
  | pending, node line body rest, next =>
    match role line.strip with
    | .label =>
      Page.leaveIf pending (.label (body.page true (rest.page (body.pendingAfter true) next)))
    | .header kind =>
      .block kind
        (body.page pending
          (.plain (Page.leaveIf (body.pendingAfter pending && kind.settles) .nil)))
        (rest.page (body.pendingAfter pending && !kind.settles) next)
    | .silent => rest.page pending next
    | .single => .plain (rest.page pending next)
  | _, loop _ _ _ _, next => next

/-- The kind of the first block to end, of those that settle a pending label; a switch counts as a
whole. -/
def firstEnded? : Outline → Option Block
  | nil => none
  | remark _ rest => rest.firstEnded?
  | node line body rest =>
    match role line.strip with
    | .header kind =>
      if kind = .switch then some .switch
      else body.firstEnded? <|> (if kind.settles then some kind else rest.firstEnded?)
    | _ => rest.firstEnded?
  | loop _ _ _ _ => none

/-- Whether there is a line that is no remark. -/
def speaks : Outline → Bool
  | nil => false
  | remark _ rest => rest.speaks
  | _ => true

/-- Whether below every label the first block to end is a switch or there is none, and there is none
if another label follows. -/
def settlesLabels : Outline → Bool
  | nil => true
  | remark _ rest => rest.settlesLabels
  | node line body rest =>
    (match role line.strip with
      | .label => body.firstEnded?.all fun kind => kind == .switch && !rest.speaks
      | _ => true) &&
      body.settlesLabels && rest.settlesLabels
  | loop _ _ _ _ => true

section Node

variable (line : Text) (body rest : Outline)

theorem pendingAfter_node (pending : Bool) :
    (node line body rest).pendingAfter pending =
      match role line.strip with
      | .label => rest.pendingAfter (body.pendingAfter true)
      | .header kind => rest.pendingAfter (body.pendingAfter pending && !kind.settles)
      | .silent => rest.pendingAfter pending
      | .single => rest.pendingAfter pending := rfl

theorem page_node (pending : Bool) (next : Page) :
    (node line body rest).page pending next =
      match role line.strip with
      | .label =>
        Page.leaveIf pending (.label (body.page true (rest.page (body.pendingAfter true) next)))
      | .header kind =>
        .block kind
          (body.page pending
            (.plain (Page.leaveIf (body.pendingAfter pending && kind.settles) .nil)))
          (rest.page (body.pendingAfter pending && !kind.settles) next)
      | .silent => rest.page pending next
      | .single => .plain (rest.page pending next) := rfl

theorem firstEnded?_node :
    (node line body rest).firstEnded? =
      match role line.strip with
      | .header kind =>
        if kind = .switch then some .switch
        else body.firstEnded? <|> (if kind.settles then some kind else rest.firstEnded?)
      | _ => rest.firstEnded? := rfl

theorem settlesLabels_node :
    (node line body rest).settlesLabels =
      ((match role line.strip with
        | .label => body.firstEnded?.all fun kind => kind == .switch && !rest.speaks
        | _ => true) &&
        body.settlesLabels && rest.settlesLabels) := rfl

end Node

end Outline

/-! ## One line -/

namespace State

/-- The stacks are the same, and so is whether a do loop waits for its condition. -/
structure Unmoved (state after : State) : Prop where
  levels : after.levels = state.levels
  blocks : after.blocks = state.blocks
  waiting : after.doPending = state.doPending

/-- What a line of some role does, once the blocks that it leaves are closed. -/
inductive Stepped (indent : Int) (state after : State) : Role → Prop where
  | label (unmoved : Unmoved state after) (pending : after.casePending = true)
      (added : Adds ((if state.casePending then [.leave] else []) ++ [.label]) state after) :
      Stepped indent state after .label
  | header {kind : Block} (levels : after.levels = (indent + 4) :: state.levels)
      (blocks : after.blocks = kind :: state.blocks) (waiting : after.doPending = state.doPending)
      (pending : after.casePending = state.casePending) (added : Adds [.opens kind] state after) :
      Stepped indent state after (.header kind)
  | silent (unmoved : Unmoved state after) (pending : after.casePending = state.casePending)
      (lines : after.lines = state.lines) (isOpen : after.collected.isOpen = true) :
      Stepped indent state after .silent
  | single (unmoved : Unmoved state after) (pending : after.casePending = state.casePending)
      (added : Adds [.plain] state after) : Stepped indent state after .single

/-- What an accepted line writes of its own is no break. -/
theorem isLeave_of_accepts {place : Place} {line text : Text}
    (accepted : place.accepts line.strip = true)
    (simple : ∀ statement, read? line.strip = some statement → statement.isSimple = true)
    (leaves : text.isLeave = true → read? line.strip = some .leave ∨
      ∃ names written, Expr.expand names line.strip = .ok written ∧ text = written ++ [';']) :
    text.isLeave = false := by
  have named : read? "break".toList = some .leave := by decide +kernel
  by_contra left
  rw [Bool.not_eq_false] at left
  cases place with
  | block =>
      obtain ⟨plain, other⟩ := Bool.and_eq_true_iff.mp accepted
      have own : read? line.strip ≠ some .leave := by
        intro found
        simp [found] at other
      rcases leaves left with found | ⟨names, written, expanded, rfl⟩
      · exact own found
      · have same := Expr.eq_of_isLeave_expand (Option.isNone_iff_eq_none.mp plain) expanded left
        exact own (same ▸ named)
  | labels =>
      obtain ⟨statement, found, label⟩ := (Option.any_eq_true _ _).mp accepted
      simp [(other_of_isSimple (simple statement found)).1] at label
  | arms =>
      obtain ⟨statement, found, is_arm⟩ := (Option.any_eq_true _ _).mp accepted
      simp [(other_of_isSimple (simple statement found)).2.1] at is_arm

section Accepted

variable {place : Place} {line : Text} {indent : Int} {state after : State}
  (accepted : place.accepts line.strip = true)
  (collecting : place = .arms → state.collected.isOpen = true)
include accepted collecting

/-- An arm is an arm of the match that is being collected. -/
theorem isArm_of_accepts (apart : Apart line.strip state) :
    ∀ statement, read? line.strip = some statement → statement.isArm = false := by
  intro statement found
  by_contra is_arm
  rw [Bool.not_eq_false] at is_arm
  cases place with
  | block => simp [Place.accepts, found, is_arm] at accepted
  | labels =>
      have label : statement.isLabel = true := by simpa [Place.accepts, found] using accepted
      simp [isLabel_of_isArm is_arm] at label
  | arms => simp [apart statement found is_arm] at collecting

theorem stepped_of_outcome (idle : state.doPending = false)
    (outcome : Outcome indent line.strip state after) :
    Stepped indent state after (role line.strip) := by
  cases outcome with
  | @wrote text names single apart made leaves simple =>
      have regular := isArm_of_accepts accepted collecting apart
      have simple : ∀ statement, read? line.strip = some statement → statement.isSimple = true :=
        fun statement found => (simple statement found).resolve_right (by simp [regular _ found])
      have other := isLeave_of_accepts accepted simple leaves
      rw [role_of_isSimple single simple]
      refine .single ⟨rfl, rfl, rfl⟩ rfl ⟨_, rfl, .single (.plain ?_)⟩
      simpa [Text.isLeave_indentation_append] using other
  | opened names kind owner loop settled apart made other =>
      rw [role_of_openedBy? kind (isArm_of_accepts accepted collecting apart)]
      exact .header rfl rfl rfl rfl
        ⟨_, rfl, .single (.header indent fun same => absurd same other)⟩
  | @acquired _ _ text names found made leaves =>
      rw [role_of_openedBy? (openedBy?_of_read? found rfl) (by simp [found, isArm])]
      refine .header rfl rfl rfl rfl ⟨_, List.append_assoc _ _ _, .single ?_⟩
      refine @Mark.Spells.opens .resource [Text.indentation indent ++ text] "try".toList indent ?_
        (by simp)
      simpa [Text.isLeave_indentation_append] using leaves
  | looped found =>
      cases place with
      | block => simp [Place.accepts, found] at accepted
      | labels => simp [Place.accepts, found, isLabel] at accepted
      | arms => simp [Place.accepts, found, isArm] at accepted
  | ended found waits open_eq made => simp [idle] at waits
  | switched found made named =>
      rw [role_of_openedBy? (openedBy?_of_read? found rfl) (by simp [found, isArm])]
      exact .header rfl rfl rfl rfl
        ⟨_, rfl, .single (.header indent fun _ => named)⟩
  | labelled found label made spelled =>
      have same : role line.strip = .label := by simp [role, found, label]
      rw [same]
      cases pending : state.casePending with
      | true =>
          refine .label ⟨rfl, rfl, rfl⟩ rfl ?_
          rw [pending]
          exact Adds.trans (.emit (.leave _)) (.emit (.label indent spelled))
      | false =>
          refine .label ⟨rfl, rfl, rfl⟩ rfl ?_
          rw [pending]
          exact .emit (.label indent spelled)
  | @started statement collected names found header =>
      rw [role_of_started? found header]
      exact .silent ⟨rfl, rfl, rfl⟩ rfl rfl (isOpen_of_started? found header)
  | @armed statement arm found is_arm isOpen made_values made_result =>
      rw [role_of_isArm found is_arm]
      exact .silent ⟨rfl, rfl, rfl⟩ rfl rfl isOpen

end Accepted

theorem stepped_of_convertLine {place : Place} {line : Text} {state after : State}
    (spoken : line.isRemark = false) (accepted : place.accepts line.strip = true)
    (collecting : place = .arms → (state.dedent line.indentOf).collected.isOpen = true)
    (idle : state.doPending = false) (done : Conversion.convertLine line state = .ok () after) :
    Stepped line.indentOf (state.dedent line.indentOf) after (role line.strip) := by
  rcases Conversion.convertLine_eq_ok done with ⟨remark, _⟩ | ⟨_, outcome⟩
  · simp [spoken] at remark
  · exact stepped_of_outcome accepted collecting (by rw [dedent_doPending, idle]) outcome

/-! ## Lines of an outline -/

namespace Unmoved

variable {state middle after : State}

theorem trans (first : Unmoved state middle) (second : Unmoved middle after) :
    Unmoved state after :=
  ⟨second.levels.trans first.levels, second.blocks.trans first.blocks,
    second.waiting.trans first.waiting⟩

theorem aligned (unmoved : Unmoved state after) (aligned : state.Aligned) : after.Aligned := by
  obtain ⟨⟨uppers, open_eq, positive⟩, sized, idle⟩ := aligned
  refine ⟨⟨uppers, unmoved.levels.trans open_eq, positive⟩, ?_, unmoved.waiting.trans idle⟩
  rw [unmoved.levels, unmoved.blocks, sized]

end Unmoved

end State

namespace Outline

open State

/-- The parts of a regular node. -/
theorem regular_node {place : Place} {indent : Int} {line : Text} {body rest : Outline}
    (regular : (node line body rest).regular place indent = true) :
    (line.isRemark = false ∧ line.indentOf = indent ∧ place.accepts line.strip = true) ∧
      (match role line.strip with
        | .label => body.regular .block (indent + 4)
        | .header kind => body.regular (if kind = .switch then .labels else .block) (indent + 4)
        | .silent => body.regular .arms (indent + 4)
        | .single => body == nil) = true ∧
      rest.regular place indent = true := by
  simp only [Outline.regular, Bool.and_eq_true, Bool.not_eq_true', beq_iff_eq] at regular
  obtain ⟨⟨⟨⟨spoken, same⟩, accepted⟩, inner⟩, others⟩ := regular
  exact ⟨⟨spoken, same, accepted⟩, inner, others⟩

theorem role_of_arms {body : Text} (accepted : Place.arms.accepts body = true) :
    role body = .silent := by
  obtain ⟨statement, found, is_arm⟩ := (Option.any_eq_true _ _).mp accepted
  exact role_of_isArm found is_arm

/-- The arms of a match write nothing where they stand, and leave the stacks alone. -/
theorem unmoved_of_arms {outline : Outline} {indent : Int}
    (regular : outline.regular .arms indent = true) {state after : State}
    (inside : ∀ level ∈ state.levels.head?, level ≤ indent) (idle : state.doPending = false)
    (isOpen : state.collected.isOpen = true)
    (done : Conversion.convertLines outline.lines state = .ok () after) :
    Unmoved state after ∧ after.casePending = state.casePending ∧ Adds [] state after ∧
      after.collected.isOpen = true := by
  induction outline generalizing indent state after with
  | nil =>
      cases done
      exact ⟨⟨rfl, rfl, rfl⟩, rfl, .nil rfl, isOpen⟩
  | remark line rest ih =>
      obtain ⟨remark, others⟩ := Bool.and_eq_true_iff.mp regular
      obtain ⟨middle, one, rest_done⟩ := Conversion.convertLines_cons_eq_ok.mp done
      rw [Conversion.convertLine_of_isRemark remark] at one
      cases one
      have flat : ∀ level ∈ (state.writeLine line.remarkText).levels.head?, level ≤ indent := inside
      obtain ⟨unmoved, pending, added, still⟩ := ih others flat idle isOpen rest_done
      exact ⟨⟨unmoved.levels, unmoved.blocks, unmoved.waiting⟩, pending,
        Adds.trans (.writeLine line.isRemarkText_remarkText) added, still⟩
  | node line body rest body_ih rest_ih =>
      obtain ⟨⟨spoken, rfl, accepted⟩, inner, others⟩ := regular_node regular
      obtain ⟨middle, last, one, body_done, rest_done⟩ := exists_of_convertLines_node done
      have stays : state.dedent line.indentOf = state := dedent_eq_self inside
      have stepped := stepped_of_convertLine spoken accepted (fun _ => by rwa [stays]) idle one
      rw [role_of_arms accepted] at inner stepped
      rw [stays] at stepped
      cases stepped with
      | silent unmoved pending lines still =>
          have deeper : ∀ level ∈ middle.levels.head?, level ≤ line.indentOf + 4 := by
            intro level mem
            rw [unmoved.levels] at mem
            have := inside level mem
            omega
          obtain ⟨body_unmoved, body_pending, body_added, body_still⟩ :=
            body_ih inner deeper (unmoved.waiting.trans idle) still body_done
          have both := unmoved.trans body_unmoved
          obtain ⟨rest_unmoved, rest_pending, rest_added, rest_still⟩ :=
            rest_ih others (by rwa [both.levels]) (both.waiting.trans idle) body_still rest_done
          exact ⟨both.trans rest_unmoved, rest_pending.trans (body_pending.trans pending),
            (Adds.nil lines).trans (body_added.trans rest_added), rest_still⟩
  | loop opening body closing rest body_ih rest_ih => cases regular

/-- What the lines of an outline do.  Apart from blocks that a line at their indentation leaves, the
stacks are as before.  What was due before and what the page of the outline says is what has been
written and what is due now, whatever follows. -/
structure Spans (outline : Outline) (indent : Int) (state after : State) : Prop where
  aligned : after.Aligned
  levels : (after.dedent indent).levels = (state.dedent indent).levels
  blocks : (after.dedent indent).blocks = (state.dedent indent).blocks
  pending : after.pendingAt indent = outline.pendingAfter (state.pendingAt indent)
  written : ∃ marks, Adds marks state after ∧ ∀ next,
    state.dues indent ++ (outline.page (state.pendingAt indent) next).marks =
      marks ++ (after.dues indent ++ next.marks)

namespace Spans

variable {outline rest : Outline} {indent : Int} {state middle after : State}

/-- The first lines of an outline in front of the others. -/
theorem extend {front : List Mark} (added : Adds front state middle)
    (levels : (middle.dedent indent).levels = (state.dedent indent).levels)
    (blocks : (middle.dedent indent).blocks = (state.dedent indent).blocks)
    (pending : outline.pendingAfter (state.pendingAt indent) =
      rest.pendingAfter (middle.pendingAt indent))
    (pages : ∀ next, state.dues indent ++ (outline.page (state.pendingAt indent) next).marks =
      front ++ (middle.dues indent ++ (rest.page (middle.pendingAt indent) next).marks))
    (spans : Spans rest indent middle after) : Spans outline indent state after := by
  obtain ⟨marks, rest_added, conserved⟩ := spans.written
  refine ⟨spans.aligned, spans.levels.trans levels, spans.blocks.trans blocks,
    spans.pending.trans pending.symm, front ++ marks, added.trans rest_added, fun next => ?_⟩
  rw [pages, conserved, List.append_assoc]

/-- Lines that start where nothing is to be left. -/
theorem of_flat (spans : Spans outline indent state after) (nonneg : 0 ≤ indent)
    (inside : ∀ level ∈ state.levels.head?, level ≤ indent) :
    (after.dedent indent).levels = state.levels ∧ (after.dedent indent).blocks = state.blocks ∧
      (after.dedent indent).casePending = outline.pendingAfter state.casePending ∧
      ∃ marks, Adds marks state after ∧ ∀ next,
        (outline.page state.casePending next).marks =
          marks ++ (after.dues indent ++ next.marks) := by
  obtain ⟨aligned, levels, blocks, pending, marks, added, conserved⟩ := spans
  have settled : state.pendingAt indent = state.casePending := pendingFrom_of_flat inside _ _
  have nothing : state.dues indent = [] := duesFrom_of_flat inside _ _
  rw [dedent_eq_self inside] at levels blocks
  rw [settled] at pending
  refine ⟨levels, blocks, (aligned.casePending_dedent nonneg).trans pending, marks, added, ?_⟩
  intro next
  have conserved := conserved next
  rwa [nothing, settled, List.nil_append] at conserved

section Front

variable (aligned : state.Aligned) (nonneg : 0 ≤ indent)
include aligned nonneg

/-- Lines that leave the stacks alone, in front of the others. -/
theorem extend_unmoved {front : List Mark} (unmoved : Unmoved (state.dedent indent) middle)
    (added : Adds front (state.dedent indent) middle)
    (pending : outline.pendingAfter (state.pendingAt indent) =
      rest.pendingAfter middle.casePending)
    (pages : ∀ next, (outline.page (state.pendingAt indent) next).marks =
      front ++ (rest.page middle.casePending next).marks)
    (spans : Spans rest indent middle after) : Spans outline indent state after := by
  have inside : ∀ level ∈ middle.levels.head?, level ≤ indent := by
    intro level mem
    rw [unmoved.levels] at mem
    exact dedent_levels_head_le mem
  have settled : middle.pendingAt indent = middle.casePending := pendingFrom_of_flat inside _ _
  have nothing : middle.dues indent = [] := duesFrom_of_flat inside _ _
  have stays : middle.dedent indent = middle := dedent_eq_self inside
  refine extend ((aligned.adds_dedent nonneg).trans added) ?_ ?_ ?_ ?_ spans
  · rw [stays, unmoved.levels]
  · rw [stays, unmoved.blocks]
  · rw [settled, pending]
  · intro next
    rw [settled, nothing, pages, List.nil_append, List.append_assoc]

/-- A label and the lines below it, in front of the others. -/
theorem extend_label {line : Text} {body : Outline} {last : State}
    (label : role line.strip = .label)
    (stepped : Stepped indent (state.dedent indent) middle .label)
    (inner : Spans body (indent + 4) middle last) (spans : Spans rest indent last after) :
    Spans (.node line body rest) indent state after := by
  cases stepped with
  | label unmoved pending added =>
      rw [aligned.casePending_dedent nonneg] at added
      have inside : ∀ level ∈ (state.dedent indent).levels.head?, level ≤ indent :=
        fun level mem => dedent_levels_head_le mem
      have deeper : ∀ level ∈ middle.levels.head?, level ≤ indent + 4 := by
        intro level mem
        rw [unmoved.levels] at mem
        have := inside level mem
        omega
      obtain ⟨levels, blocks, left, marks, body_added, conserved⟩ := inner.of_flat (by omega) deeper
      rw [pending] at left conserved
      have flat : ∀ level ∈ (last.dedent (indent + 4)).levels.head?, level ≤ indent := by
        rw [levels, unmoved.levels]
        exact inside
      have stays : last.dedent indent = last.dedent (indent + 4) := by
        rw [← dedent_dedent (by omega : indent ≤ indent + 4), dedent_eq_self flat]
      have settled : last.pendingAt indent = body.pendingAfter true := by
        rw [← inner.aligned.pendingAt_dedent (by omega) (by omega : indent ≤ indent + 4), pendingAt,
          pendingFrom_of_flat flat, left]
      have due : last.dues indent = last.dues (indent + 4) := by
        rw [inner.aligned.dues_dedent (by omega) (by omega : indent ≤ indent + 4),
          dues.eq_def indent, duesFrom_of_flat flat, List.append_nil]
      refine extend (((aligned.adds_dedent nonneg).trans added).trans body_added) ?_ ?_ ?_ ?_ spans
      · rw [stays, levels, unmoved.levels]
      · rw [stays, blocks, unmoved.blocks]
      · rw [settled, pendingAfter_node, label]
      · intro next
        rw [settled, due, page_node, label]
        simp only [Page.marks_leaveIf, Page.marks, conserved, List.append_assoc, List.cons_append,
          List.nil_append]

/-- The header of a block and the lines below it, in front of the others. -/
theorem extend_header {line : Text} {body : Outline} {last : State} {kind : Block}
    (header : role line.strip = .header kind)
    (stepped : Stepped indent (state.dedent indent) middle (.header kind))
    (inner : Spans body (indent + 4) middle last) (spans : Spans rest indent last after) :
    Spans (.node line body rest) indent state after := by
  cases stepped with
  | header levels_eq blocks_eq waiting pending added =>
      rw [aligned.casePending_dedent nonneg] at pending
      have inside : ∀ level ∈ (state.dedent indent).levels.head?, level ≤ indent :=
        fun level mem => dedent_levels_head_le mem
      have deeper : ∀ level ∈ middle.levels.head?, level ≤ indent + 4 := by simp [levels_eq]
      obtain ⟨levels, blocks, left, marks, body_added, conserved⟩ := inner.of_flat (by omega) deeper
      rw [pending] at left conserved
      rw [levels_eq] at levels
      rw [blocks_eq] at blocks
      have within : indent < indent + 4 := by omega
      have stays : last.dedent indent =
          (last.dedent (indent + 4)).closeTop id (indent + 4) (state.dedent indent).levels := by
        rw [← dedent_dedent (by omega : indent ≤ indent + 4), dedent_of_lt levels within,
          dedent_eq_self (by simpa using inside)]
      have settled : last.pendingAt indent =
          (body.pendingAfter (state.pendingAt indent) && !kind.settles) := by
        rw [← inner.aligned.pendingAt_dedent (by omega) (by omega : indent ≤ indent + 4), pendingAt,
          levels, blocks, List.zip_cons_cons, pendingFrom, if_pos within,
          pendingFrom_of_flat inside, left]
      have due : last.dues indent = last.dues (indent + 4) ++
          kind.closing (body.pendingAfter (state.pendingAt indent)) := by
        rw [inner.aligned.dues_dedent (by omega) (by omega : indent ≤ indent + 4),
          dues.eq_def indent, levels, blocks, List.zip_cons_cons, duesFrom, if_pos within,
          duesFrom_of_flat inside, List.append_nil, left]
      refine extend (((aligned.adds_dedent nonneg).trans added).trans body_added) ?_ ?_ ?_ ?_ spans
      · rw [stays, closeTop_levels]
      · rw [stays, closeTop_blocks, blocks, List.tail_cons]
      · rw [settled, pendingAfter_node, header]
      · intro next
        rw [settled, due, page_node, header]
        simp only [Page.marks, conserved, Page.marks_leaveIf, Block.closing, List.append_assoc,
          List.cons_append, List.nil_append]

end Front
end Spans

theorem spans_of_regular {outline : Outline} {place : Place} {indent : Int}
    (regular : outline.regular place indent = true) (other : place ≠ .arms) (nonneg : 0 ≤ indent)
    {state after : State} (aligned : state.Aligned)
    (done : Conversion.convertLines outline.lines state = .ok () after) :
    Spans outline indent state after := by
  -- Blocks that the last line has left open are closed by the next line only, so that the lines
  -- below a node start in the state that its line leaves, and the other ones where the last of
  -- these ends.
  induction outline generalizing place indent state after with
  | nil =>
      cases done
      exact ⟨aligned, rfl, rfl, rfl, [], .nil rfl, fun _ => rfl⟩
  | remark line rest ih =>
      obtain ⟨remark, others⟩ := Bool.and_eq_true_iff.mp regular
      obtain ⟨middle, one, rest_done⟩ := Conversion.convertLines_cons_eq_ok.mp done
      rw [Conversion.convertLine_of_isRemark remark] at one
      cases one
      have unmoved : Unmoved state (state.writeLine line.remarkText) := ⟨rfl, rfl, rfl⟩
      have spans := ih others other nonneg (unmoved.aligned aligned) rest_done
      refine .extend (.writeLine line.isRemarkText_remarkText) ?_ ?_ ?_ ?_ spans
      · rw [dedent_levels, dedent_levels, unmoved.levels]
      · rw [dedent_blocks, dedent_blocks, unmoved.levels, unmoved.blocks]
      · rfl
      · exact fun next => rfl
  | node line body rest body_ih rest_ih =>
      obtain ⟨⟨spoken, rfl, accepted⟩, inner, others⟩ := regular_node regular
      obtain ⟨middle, last, one, body_done, rest_done⟩ := exists_of_convertLines_node done
      have stepped :=
        stepped_of_convertLine spoken accepted (fun arms => absurd arms other) aligned.idle one
      have left := aligned.dedent nonneg
      have deeper : 0 ≤ line.indentOf + 4 := by omega
      generalize found : role line.strip = line_role at stepped inner
      cases line_role with
      | label =>
          cases stepped with
          | label unmoved pending added =>
              have below := body_ih inner (by simp) deeper (unmoved.aligned left) body_done
              have spans := rest_ih others other nonneg below.aligned rest_done
              exact .extend_label aligned nonneg found (.label unmoved pending added) below spans
      | header kind =>
          cases stepped with
          | header levels blocks waiting pending added =>
              have opened : middle.Aligned := by
                refine ⟨left.rooted.cons (by omega) levels, ?_, waiting.trans left.idle⟩
                rw [levels, blocks, List.length_cons, List.length_cons, left.sized]
              have enclosed : (if kind = .switch then Place.labels else .block) ≠ .arms := by
                split <;> simp
              have below := body_ih inner enclosed deeper opened body_done
              have spans := rest_ih others other nonneg below.aligned rest_done
              apply Spans.extend_header aligned nonneg found _ below spans
              exact .header levels blocks waiting pending added
      | silent =>
          cases stepped with
          | silent unmoved pending lines isOpen =>
              have inside : ∀ level ∈ middle.levels.head?, level ≤ line.indentOf + 4 := by
                intro level mem
                rw [unmoved.levels] at mem
                have := dedent_levels_head_le mem
                omega
              obtain ⟨arms_unmoved, arms_pending, added, _⟩ :=
                unmoved_of_arms inner inside (unmoved.waiting.trans left.idle) isOpen body_done
              have both := unmoved.trans arms_unmoved
              have spans := rest_ih others other nonneg (both.aligned left) rest_done
              have same : last.casePending = state.pendingAt line.indentOf :=
                (arms_pending.trans pending).trans (aligned.casePending_dedent nonneg)
              refine .extend_unmoved aligned nonneg both ((Adds.nil lines).trans added) ?_ ?_ spans
              · rw [same, pendingAfter_node, found]
              · intro next
                rw [same, page_node, found]
                rfl
      | single =>
          cases stepped with
          | single unmoved pending added =>
              obtain rfl : body = nil := by simpa using inner
              cases body_done
              have spans := rest_ih others other nonneg (unmoved.aligned left) rest_done
              have same : middle.casePending = state.pendingAt line.indentOf :=
                pending.trans (aligned.casePending_dedent nonneg)
              refine .extend_unmoved aligned nonneg unmoved added ?_ ?_ spans
              · rw [same, pendingAfter_node, found]
              · intro next
                rw [same, page_node, found]
                rfl
  | loop opening body closing rest body_ih rest_ih => cases regular

/-! ## Where the breaks belong -/

theorem role_of_labels {body : Text} (accepted : Place.labels.accepts body = true) :
    role body = .label := by
  have label : (read? body).any (·.isLabel) = true := accepted
  rw [role, if_pos label]

theorem role_of_block {body : Text} (accepted : Place.block.accepts body = true) :
    role body ≠ .label := by
  have regular : ¬(read? body).any (·.isLabel) = true := by
    cases found : read? body with
    | none => simp
    | some statement =>
        intro label
        have label : statement.isLabel = true := by simpa using label
        simp [Place.accepts, found, label] at accepted
  rw [role, if_neg regular]
  split
  · simp
  · split <;> simp

/-- In a block a label stays pending until a block ends that settles it. -/
theorem pendingAfter_of_block {outline : Outline} {indent : Int}
    (regular : outline.regular .block indent = true) (pending : Bool) :
    outline.pendingAfter pending = (pending && outline.firstEnded?.isNone) := by
  induction outline generalizing indent pending with
  | nil => exact (Bool.and_true pending).symm
  | remark line rest ih => exact ih (Bool.and_eq_true_iff.mp regular).2 pending
  | node line body rest body_ih rest_ih =>
      obtain ⟨⟨_, _, accepted⟩, inner, others⟩ := regular_node regular
      have other := role_of_block accepted
      rw [pendingAfter_node, firstEnded?_node]
      generalize role line.strip = line_role at inner other
      cases line_role with
      | label => exact absurd rfl other
      | header kind =>
          simp only at inner ⊢
          by_cases switch : kind = .switch
          · subst switch
            simp [rest_ih others, Block.settles]
          · rw [if_neg switch] at inner ⊢
            rw [rest_ih others, body_ih inner]
            cases kind.settles <;> cases body.firstEnded? <;> simp
      | silent => exact rest_ih others pending
      | single => exact rest_ih others pending
  | loop opening body closing rest body_ih rest_ih => cases regular

theorem leavesArm_page_of_block {outline : Outline} {indent : Int}
    (regular : outline.regular .block indent = true) (pending : Bool) (next : Page) :
    (outline.page pending next).leavesArm = next.leavesArm := by
  induction outline generalizing pending with
  | nil => rfl
  | remark line rest ih => exact ih (Bool.and_eq_true_iff.mp regular).2 pending
  | node line body rest body_ih rest_ih =>
      obtain ⟨⟨_, _, accepted⟩, _, others⟩ := regular_node regular
      have other := role_of_block accepted
      rw [page_node]
      generalize role line.strip = line_role at other
      cases line_role with
      | label => exact absurd rfl other
      | header kind => exact rest_ih others _
      | silent => exact rest_ih others pending
      | single => exact rest_ih others pending
  | loop opening body closing rest body_ih rest_ih => cases regular

theorem leavesArm_page_of_labels {outline : Outline} {indent : Int}
    (regular : outline.regular .labels indent = true) (pending : Bool) (next : Page) :
    (outline.page pending next).leavesArm =
      if outline.speaks then pending else next.leavesArm := by
  induction outline generalizing pending with
  | nil => rfl
  | remark line rest ih => exact ih (Bool.and_eq_true_iff.mp regular).2 pending
  | node line body rest body_ih rest_ih =>
      obtain ⟨⟨_, _, accepted⟩, _, _⟩ := regular_node regular
      rw [page_node, role_of_labels accepted]
      cases pending <;> rfl
  | loop opening body closing rest body_ih rest_ih => cases regular

theorem belongs_leaveIf_label (pending : Bool) (page : Page) :
    (Page.leaveIf pending page.label).belongs true = (page.leavesArm && page.belongs true) := by
  cases pending <;> rfl

theorem belongs_leaveIf_nil (pending inside : Bool) :
    (Page.leaveIf pending .nil).belongs inside = (!pending || inside) := by
  cases pending <;> cases inside <;> rfl

theorem settlesLabels_of_arms {outline : Outline} {indent : Int}
    (regular : outline.regular .arms indent = true) : outline.settlesLabels = true := by
  induction outline generalizing indent with
  | nil => rfl
  | remark line rest ih => exact ih (Bool.and_eq_true_iff.mp regular).2
  | node line body rest body_ih rest_ih =>
      obtain ⟨⟨_, _, accepted⟩, inner, others⟩ := regular_node regular
      rw [role_of_arms accepted] at inner
      rw [settlesLabels_node, role_of_arms accepted, body_ih inner, rest_ih others]
      rfl
  | loop opening body closing rest body_ih rest_ih => cases regular

/-- The breaks of the lines belong to the switches exactly if below every label the right blocks end
first.  In a block that stands below a pending label, the first block to end has to be a switch. -/
theorem belongs_page {outline : Outline} {place : Place} {indent : Int}
    (regular : outline.regular place indent = true) (pending : Bool) (next : Page) :
    (place = .block → ∀ inside, (outline.page pending next).belongs inside =
      (outline.settlesLabels && (!pending || outline.firstEnded?.all (· == .switch)) &&
        next.belongs inside)) ∧
    (place = .labels → next.leavesArm = true → (outline.page pending next).belongs true =
      (outline.settlesLabels && next.belongs true)) := by
  induction outline generalizing place indent pending next with
  | nil =>
      refine ⟨fun _ inside => ?_, fun _ _ => rfl⟩
      change next.belongs inside = (true && (!pending || true) && next.belongs inside)
      rw [Bool.or_true, Bool.and_true, Bool.true_and]
  | remark line rest ih => exact ih (Bool.and_eq_true_iff.mp regular).2 pending next
  | node line body rest body_ih rest_ih =>
      obtain ⟨⟨_, _, accepted⟩, inner, others⟩ := regular_node regular
      constructor
      · rintro rfl inside
        have other := role_of_block accepted
        have later := fun pending => (rest_ih others pending next).1 rfl inside
        rw [page_node, settlesLabels_node, firstEnded?_node]
        generalize role line.strip = line_role at inner other
        cases line_role with
        | label => exact absurd rfl other
        | header kind =>
            simp only at inner ⊢
            by_cases switch : kind = .switch
            · subst switch
              -- A label that is pending outside is settled in the switch.
              have closed : (Page.plain (Page.leaveIf (body.pendingAfter pending &&
                  Block.switch.settles) .nil)).leavesArm = true := by
                cases body.pendingAfter pending <;> rfl
              have below := (body_ih inner pending _).2 rfl closed
              have same : (Block.switch == .switch) = true := by decide
              rw [Page.belongs, same, below, Page.belongs, belongs_leaveIf_nil, later]
              simp [Block.settles, Bool.and_assoc]
            · rw [if_neg switch] at inner ⊢
              have below := fun next => (body_ih inner pending next).1 rfl
              have same : (kind == .switch) = false := beq_eq_false_iff_ne.mpr switch
              rw [Page.belongs, same, below, Page.belongs, belongs_leaveIf_nil, later,
                pendingAfter_of_block inner]
              -- If nothing in the block settles the label, the end of the block may.
              cases pending <;> cases kind.settles <;> cases body.firstEnded? <;>
                simp [same, Bool.and_assoc, Bool.and_left_comm]
        | silent =>
            rw [later, settlesLabels_of_arms inner]
            rfl
        | single =>
            obtain rfl : body = nil := by simpa using inner
            rw [Page.belongs, later]
            rfl
      · rintro rfl closed
        rw [role_of_labels accepted] at inner
        have below := fun next => (body_ih inner true next).1 rfl true
        have later := fun pending => (rest_ih others pending next).2 rfl closed
        rw [page_node, settlesLabels_node, role_of_labels accepted]
        simp only [belongs_leaveIf_label, below, later, leavesArm_page_of_block inner,
          leavesArm_page_of_labels others, pendingAfter_of_block inner, closed]
        cases rest.speaks <;> cases body.firstEnded? <;> simp [Bool.and_assoc, Bool.and_left_comm]
  | loop opening body closing rest body_ih rest_ih => cases regular

/-- What is written for a whole source, with the match that may be held at its end. -/
def output (outline : Outline) : Page :=
  outline.page false (.plain .nil)

theorem belongs_output {outline : Outline} (regular : outline.regular .block 0 = true) :
    outline.output.belongs false = outline.settlesLabels := by
  rw [output, (belongs_page regular false _).1 rfl false]
  simp [Page.belongs]

end Outline

namespace Conversion

open State

/-- The output of a nested source spells the page of the source. -/
theorem exists_spelled_of_convert {source text : Text} {outline : Outline} {final : State}
    (lines : source.lines = outline.lines) (regular : outline.regular .block 0 = true)
    (done : convert source State.initial = .ok text final) :
    ∃ written, text = Text.join ['\n'] (banner ++ written) ∧
      Spelled outline.output.marks written := by
  obtain ⟨after, converted, rfl, rfl⟩ := convert_eq_ok.mp done
  rw [lines] at converted
  have start : State.initial.reset.Aligned := ⟨⟨[], rfl, by simp⟩, rfl, rfl⟩
  have spans := Outline.spans_of_regular regular (by simp) (Int.le_refl 0) start converted
  obtain ⟨_, _, _, marks, added, conserved⟩ :=
    spans.of_flat (Int.le_refl 0) (by simp [State.reset, State.initial])
  obtain ⟨written, lines_eq, spelled⟩ := added.trans spans.aligned.adds_closeAll
  have whole : outline.output.marks = marks ++ (after.dues 0 ++ [.plain]) :=
    conserved (.plain .nil)
  exact ⟨written, congrArg _ lines_eq, whole ▸ spelled⟩

/-- The output of a nested source without do loops and without breaks of its own is a page, in which
the breaks belong to the switches exactly if below every label the first block to end is a switch or
there is none, and there is none if another label follows. -/
theorem belongs_iff_settlesLabels {source text : Text} {outline : Outline} {final : State}
    (lines : source.lines = outline.lines) (regular : outline.regular .block 0 = true)
    (done : convert source State.initial = .ok text final) :
    ∃ written, text = Text.join ['\n'] (banner ++ written) ∧
      Spelled outline.output.marks written ∧
        (outline.output.belongs false = true ↔ outline.settlesLabels = true) := by
  obtain ⟨written, joined, spelled⟩ := exists_spelled_of_convert lines regular done
  refine ⟨written, joined, spelled, ?_⟩
  rw [Outline.belongs_output regular]

/-- A switch with a function stored below one label and another switch below the last one. -/
def settledSwitch : Outline :=
  .node "switch a:".toList
    (.node "    case 1:".toList (.node "        b()".toList .nil (.remark "    # c".toList .nil)) <|
      .node "    case 2:".toList
        (.node "        f = fn(x):".toList (.node "            d()".toList .nil .nil) .nil) <|
      .node "    default:".toList
        (.node "        switch b:".toList
          (.node "            case 1:".toList (.node "                e()".toList .nil .nil) .nil)
          .nil) .nil) <|
    .node "print(a)".toList .nil .nil

theorem belongs_iff_settlesLabels_settledSwitch :
    ∃ text final, convert (Text.join ['\n'] settledSwitch.lines) State.initial = .ok text final ∧
      ∃ written, text = Text.join ['\n'] (banner ++ written) ∧
        Spelled settledSwitch.output.marks written ∧
          settledSwitch.output.belongs false = true := by
  have lines : (Text.join ['\n'] settledSwitch.lines).lines = settledSwitch.lines := by
    decide +kernel
  have regular : settledSwitch.regular .block 0 = true := by decide +kernel
  have returned :
      (convert (Text.join ['\n'] settledSwitch.lines)).returns State.initial = true := by
    decide +kernel
  obtain ⟨text, final, done⟩ := returns_iff.mp returned
  obtain ⟨written, joined, spelled, belongs⟩ := belongs_iff_settlesLabels lines regular done
  exact ⟨text, final, done, written, joined, spelled, belongs.mpr (by decide +kernel)⟩

/-- A conditional block below a label. -/
def conditionalArm : Outline :=
  .node "switch x:".toList
    (.node "    case 1:".toList
      (.node "        if a:".toList (.node "            b()".toList .nil .nil) <|
        .node "        c()".toList .nil .nil) .nil) .nil

/-- The break of the label is written in the conditional block, and the end of the switch has
none. -/
theorem not_belongs_conditionalArm :
    conditionalArm.regular .block 0 = true ∧
      ∃ text final written,
        convert (Text.join ['\n'] conditionalArm.lines) State.initial = .ok text final ∧
        text = Text.join ['\n'] (banner ++ ["switch (x) \x7b".toList, "    case 1:".toList,
          "        if (a) \x7b".toList, "            b();".toList, "            break;".toList,
          "            \x7d".toList, "        c();".toList, "    \x7d".toList]) ∧
        text = Text.join ['\n'] (banner ++ written) ∧
          Spelled conditionalArm.output.marks written ∧
            conditionalArm.output.belongs false = false := by
  have lines : (Text.join ['\n'] conditionalArm.lines).lines = conditionalArm.lines := by
    decide +kernel
  have regular : conditionalArm.regular .block 0 = true := by decide +kernel
  have passed : (convert (Text.join ['\n'] conditionalArm.lines)).passes (fun text _ =>
      text == Text.join ['\n'] (banner ++ ["switch (x) \x7b".toList, "    case 1:".toList,
        "        if (a) \x7b".toList, "            b();".toList, "            break;".toList,
        "            \x7d".toList, "        c();".toList, "    \x7d".toList]))
      State.initial = true := by decide +kernel
  obtain ⟨text, final, done, shown⟩ := passes_iff.mp passed
  obtain ⟨written, joined, spelled⟩ := exists_spelled_of_convert lines regular done
  refine ⟨regular, text, final, written, done, beq_iff_eq.mp shown, joined, spelled, ?_⟩
  rw [Outline.belongs_output regular]
  decide +kernel

end Conversion
end Ephp
