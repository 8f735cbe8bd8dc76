import Ephp.Proofs.Compose

/-!
# Running from two states

A step may run from two states that differ only in what it does not look at.  A relation between
states that the primitive steps keep is kept by the statements that are made of them, and these
answer or fail alike from related states.
-/

namespace Ephp
namespace Conversion

variable {α β : Type}

/-- Two results are the same answer or the same fault, in related states. -/
inductive Agree (related : State → State → Prop) :
    EStateM.Result Fault State α → EStateM.Result Fault State α → Prop where
  | ok {answer : α} {left right : State} (kept : related left right) :
      Agree related (.ok answer left) (.ok answer right)
  | error {fault : Fault} {left right : State} (kept : related left right) :
      Agree related (.error fault left) (.error fault right)

/-- From related states a step gives the same, in related states. -/
def Keeps (related : State → State → Prop) (step : Conversion α) : Prop :=
  ∀ ⦃left right⦄, related left right → Agree related (step left) (step right)

/-- The first state is what a change makes of the second one. -/
def Image (change : State → State) (left right : State) : Prop :=
  left = change right

/-- A step that commutes with a change answers alike before and after it. -/
theorem Keeps.image_eq_ok {change : State → State} {step : Conversion α} {state after : State}
    {answer : α} (keeps : Keeps (Image change) step) (done : step state = .ok answer after) :
    step (change state) = .ok answer (change after) := by
  have agree := keeps (rfl : Image change (change state) state)
  rw [done] at agree
  generalize step (change state) = result at agree
  cases agree with
  | ok kept => rw [kept]

theorem Keeps.exists_of_image {change : State → State} {step : Conversion α} {state after : State}
    {answer : α} (keeps : Keeps (Image change) step)
    (done : step (change state) = .ok answer after) :
    ∃ plain, step state = .ok answer plain ∧ after = change plain := by
  have agree := keeps (rfl : Image change (change state) state)
  rw [done] at agree
  generalize step state = result at agree
  cases agree with
  | ok kept => exact ⟨_, rfl, kept⟩

/-- Related states know the same names and stay related when both of them write the same line, open
the same block, get other names or remember the same resource. -/
structure Local (related : State → State → Prop) : Prop where
  names_eq : ∀ {left right}, related left right → left.names = right.names
  emit : ∀ {left right} indent text, related left right →
    related (left.emit indent text) (right.emit indent text)
  openBlock : ∀ {left right} block level, related left right →
    related (left.openBlock block level) (right.openBlock block level)
  named : ∀ {left right} names, related left right →
    related { left with names := names } { right with names := names }
  acquire : ∀ {left right} level resource, related left right →
    related (left.acquire level resource) (right.acquire level resource)

variable {related : State → State → Prop}

theorem Keeps.modify {change : State → State}
    (step : ∀ {left right}, related left right → related (change left) (change right)) :
    Keeps related (modify change) :=
  fun _ _ start => .ok (step start)

theorem Keeps.bind {first : Conversion α} {next : α → Conversion β} (one : Keeps related first)
    (rest : ∀ answer, Keeps related (next answer)) : Keeps related (first >>= next) := by
  intro left right start
  have agree := one start
  rw [bind_apply, bind_apply]
  generalize first left = left_result, first right = right_result at agree
  cases agree with
  | ok kept => exact rest _ kept
  | error kept => exact .error kept

/-- A relation that the primitive steps keep is kept by what is made of them. -/
theorem Local.compositional (rules : Local related) (body : Text) :
    Compositional body fun step => Keeps related step where
  pure _ _ _ start := .ok start
  bind one rest := one.bind rest
  emit indent text := .modify (rules.emit indent text)
  openBlock block indent header :=
    .modify fun start => rules.openBlock block (indent + 4) (rules.emit indent _ start)
  declareAll names := .modify fun {left right} start => by
    rw [Statement.foldl_declare, Statement.foldl_declare, rules.names_eq start]
    exact rules.named _ start
  define name := .modify fun {left right} start => by
    rw [State.define, State.define, rules.names_eq start]
    exact rules.named _ start
  acquire level resource := .modify (rules.acquire level resource)
  withNames {_ action} _ left right start := by
    change Agree related ((MonadExcept.ofExcept (action left.names) : Conversion _) left)
      ((MonadExcept.ofExcept (action right.names) : Conversion _) right)
    rw [rules.names_eq start]
    cases action right.names with
    | ok answer => exact .ok start
    | error fault => exact .error start

/-- Related states also agree on whether a label is pending, and stay related when both of them set
the same thing pending. -/
structure Flagged (related : State → State → Prop) : Prop extends Local related where
  casePending_eq : ∀ {left right}, related left right → left.casePending = right.casePending
  setDoPending : ∀ {left right} pending, related left right →
    related { left with doPending := pending } { right with doPending := pending }
  setCasePending : ∀ {left right} pending, related left right →
    related { left with casePending := pending } { right with casePending := pending }
  setSwitchPending : ∀ {left right} pending, related left right →
    related { left with switchPending := pending } { right with switchPending := pending }

theorem Flagged.pending (rules : Flagged related) (body : Text) :
    Compositional.Pending body fun step => Keeps related step where
  toCompositional := rules.toLocal.compositional body
  breakPending indent left right start := by
    change Agree related ((if left.casePending then _ else _ : Conversion Unit) left)
      ((if right.casePending then _ else _ : Conversion Unit) right)
    rw [rules.casePending_eq start]
    split
    · exact .ok (rules.emit _ _ start)
    · exact .ok start
  setCasePending := .modify (rules.setCasePending true)
  setDoPending := .modify (rules.setDoPending true)
  setSwitchPending := .modify (rules.setSwitchPending true)

/-- The end of a block keeps a relation if the states remember the same resources and agree on
whether a switch is pending. -/
theorem Flagged.close (rules : Flagged related) {left right : State} (start : related left right)
    (resources : left.resources = right.resources)
    (switches : left.switchPending = right.switchPending) (block : Option Block) (level : Int) :
    related (left.close block level) (right.close block level) := by
  unfold State.close
  rw [resources, switches, rules.casePending_eq start]
  split
  · cases right.resources.lookup level with
    | none => exact start
    | some resource =>
        exact rules.emit _ _ (rules.emit _ _ (rules.emit _ _ (rules.emit _ _
          (rules.emit _ _ start))))
  · split
    · exact rules.emit _ _ start
    · split
      · exact rules.setCasePending false (rules.emit _ _ (rules.emit _ _ start))
      · split
        · exact rules.setSwitchPending false (rules.emit _ _ start)
        · exact rules.emit _ _ start

/-- Related states also agree on what the end of a loop looks at, and stay related when both of them
lose a level. -/
structure Parallel (related : State → State → Prop) : Prop extends Flagged related where
  levels_eq : ∀ {left right}, related left right → left.levels = right.levels
  doPending_eq : ∀ {left right}, related left right → left.doPending = right.doPending
  pop : ∀ {left right} below, related left right → related (left.pop below) (right.pop below)

namespace Parallel

open Statement

theorem endDo (rules : Parallel related) {body condition : Text}
    (piece : List.IsInfix condition body) : Keeps related (Statement.endDo condition) := by
  have compositional := rules.toLocal.compositional body
  intro left right start
  have same := rules.levels_eq start
  cases open_eq : right.levels with
  | nil =>
      rw [endDo_of_nil (same.trans open_eq), endDo_of_nil open_eq]
      exact .error start
  | cons level below =>
      have keeps : Keeps related (do
          modify (·.pop below)
          let written ← expand condition
          emit (level - 4) ("\x7d while (".toList ++ written ++ ");".toList)
          modify fun state => { state with doPending := false }) :=
        compositional.bind (.modify (rules.pop below)) fun _ =>
          compositional.bind (compositional.expand_piece piece) fun _ =>
            compositional.bind (compositional.emit _ _) fun _ => .modify (rules.setDoPending false)
      rw [endDo_of_cons (same.trans open_eq), endDo_of_cons open_eq]
      exact keeps start

theorem whileLoop (rules : Parallel related) {body condition : Text} (indent : Int)
    (found : read? body = some (.whileLoop condition)) :
    Keeps related ((Statement.whileLoop condition).perform indent) := by
  have piece : List.IsInfix condition.strip body :=
    (Text.strip_isInfix condition).trans (fields_infix_of_read? found _ (by simp [fields]))
  intro left right start
  change Agree related ((if left.doPending = true then _ else _ : Conversion Unit) left)
    ((if right.doPending = true then _ else _ : Conversion Unit) right)
  rw [rules.doPending_eq start]
  split
  · exact rules.endDo piece start
  · exact (rules.toLocal.compositional body).openLoop indent found start

/-- Statements that collect no match keep a relation. -/
theorem perform (rules : Parallel related) {body : Text} {statement : Statement} (indent : Int)
    (found : read? body = some statement) (is_arm : statement.isArm = false)
    (header : statement.started? = none) : Keeps related (statement.perform indent) := by
  by_cases loop : ∃ condition, statement = .whileLoop condition
  · obtain ⟨condition, rfl⟩ := loop
    exact rules.whileLoop indent found
  · exact (rules.pending body).perform indent found (fun condition same => loop ⟨condition, same⟩)
      is_arm header

end Parallel

/-! ## Lines from two states -/

section Lines

open Statement

variable {left right : State}

theorem applies_congr (statement : Statement)
    (same : left.collected.isOpen = right.collected.isOpen) :
    statement.applies left = statement.applies right := by
  cases statement <;> first | exact same | rfl

/-- The body of a line does the same if the statement that it is does, behind the blocks that it
leaves. -/
theorem agree_convertBody {indent : Int} {body : Text}
    (start : related (left.dedent indent) (right.dedent indent))
    (same : (left.dedent indent).collected.isOpen = (right.dedent indent).collected.isOpen)
    (unknown : Keeps related (convertUnknown indent body))
    (perform : ∀ statement, read? body = some statement →
      Agree related (statement.perform indent (left.dedent indent))
        (statement.perform indent (right.dedent indent))) :
    Agree related (convertBody indent body left) (convertBody indent body right) := by
  rw [convertBody_eq, convertBody_eq]
  cases found : read? body with
  | none => exact unknown start
  | some statement =>
      simp only [applies_congr statement same]
      split
      · exact perform statement found
      · exact unknown start

/-- A line does the same if its body does; a remark is copied. -/
theorem agree_convertLine {line : Text}
    (copied : ∀ text, related (left.writeLine text) (right.writeLine text))
    (spoken : line.isRemark = false → Agree related (convertBody line.indentOf line.strip left)
      (convertBody line.indentOf line.strip right)) :
    Agree related (convertLine line left) (convertLine line right) := by
  cases remark : line.isRemark with
  | true =>
      rw [convertLine_of_isRemark remark, convertLine_of_isRemark remark]
      exact .ok (copied _)
  | false =>
      rw [convertLine_of_isRemark_eq_false remark]
      exact spoken remark

theorem keeps_convertLines {lines : List Text}
    (each : ∀ line ∈ lines, Keeps related (convertLine line)) :
    Keeps related (convertLines lines) := by
  induction lines with
  | nil => exact fun _ _ start => .ok start
  | cons line lines ih =>
      obtain ⟨first, others⟩ := List.forall_mem_cons.mp each
      rw [convertLines_cons]
      exact first.bind fun _ => ih others

end Lines

/-! ## Whole lines -/

/-- Related states also have the same blocks and both of them collect a match or none does, and they
stay related when both of them copy a remark, collect the same, write the match or end a block. -/
structure Synchronous (related : State → State → Prop) : Prop extends Parallel related where
  blocks_eq : ∀ {left right}, related left right → left.blocks = right.blocks
  isOpen_eq : ∀ {left right}, related left right →
    left.collected.isOpen = right.collected.isOpen
  writeLine : ∀ {left right} text, related left right →
    related (left.writeLine text) (right.writeLine text)
  startMatch : ∀ subject use target, Keeps related (Statement.startMatch subject use target)
  addArm : ∀ values result, Keeps related (Statement.addArm values result)
  flushMatch : ∀ {left right}, related left right → related left.flushMatch right.flushMatch
  close : ∀ {left right} block level, related left right →
    related (left.close block level) (right.close block level)

namespace Synchronous

variable {left right : State}

theorem collecting (rules : Synchronous related) (body : Text) :
    Compositional.Collecting body fun step => Keeps related step where
  toPending := rules.pending body
  startMatch := rules.startMatch
  addArm := rules.addArm

theorem closeTop (rules : Synchronous related) {abandon : State → State}
    (abandoned : ∀ {left right}, related left right → related (abandon left) (abandon right))
    (level : Int) (below : List Int) (start : related left right) :
    related (left.closeTop abandon level below) (right.closeTop abandon level below) := by
  have popped := rules.flushMatch (rules.pop below start)
  simp only [State.closeTop, rules.blocks_eq start, rules.doPending_eq popped]
  split
  · exact abandoned popped
  · exact rules.close _ level popped

theorem dedentFrom (rules : Synchronous related) (indent : Int) (levels : List Int)
    (start : related left right) :
    related (State.dedentFrom indent levels left) (State.dedentFrom indent levels right) := by
  induction levels generalizing left right with
  | nil => exact start
  | cons level below ih =>
      rw [State.dedentFrom, State.dedentFrom]
      split
      · apply ih
        exact rules.closeTop (fun kept => kept) level below start
      · exact start

theorem dedent (rules : Synchronous related) (indent : Int) (start : related left right) :
    related (left.dedent indent) (right.dedent indent) := by
  rw [State.dedent, State.dedent, rules.levels_eq start]
  exact rules.dedentFrom indent right.levels start

theorem closeAllFrom (rules : Synchronous related) (levels : List Int)
    (start : related left right) :
    related (State.closeAllFrom levels left) (State.closeAllFrom levels right) := by
  induction levels generalizing left right with
  | nil => exact start
  | cons level below ih =>
      cases below with
      | nil => exact start
      | cons next below =>
          rw [State.closeAllFrom, State.closeAllFrom]
          apply ih
          apply rules.closeTop _ level (next :: below) start
          exact fun kept => rules.setDoPending false (rules.emit _ _ kept)

theorem closeAll (rules : Synchronous related) (start : related left right) :
    related left.closeAll right.closeAll := by
  rw [State.closeAll, State.closeAll, rules.levels_eq start]
  exact rules.closeAllFrom right.levels start

theorem convertLine (rules : Synchronous related) (line : Text) :
    Keeps related (convertLine line) := by
  intro left right start
  have dedented := rules.dedent line.indentOf start
  refine agree_convertLine (fun text => rules.writeLine text start) fun _ => ?_
  refine agree_convertBody dedented (rules.isOpen_eq dedented)
    ((rules.collecting _).convertUnknown _) fun statement found => ?_
  by_cases loop : ∃ condition, statement = .whileLoop condition
  · obtain ⟨condition, rfl⟩ := loop
    exact rules.whileLoop _ found dedented
  · exact (rules.collecting _).perform _ found (fun condition same => loop ⟨condition, same⟩)
      dedented

theorem convertLines (rules : Synchronous related) (lines : List Text) :
    Keeps related (convertLines lines) :=
  keeps_convertLines fun line _ => rules.convertLine line

end Synchronous

end Conversion
end Ephp
