import Ephp.Proofs.Compose
import Ephp.Proofs.Stack

/-!
# Conversions that return

Without format texts a line can fail in one way only: as the condition of a do loop where no level
is open.  The outermost level stays open until the condition of a do loop closes it, so that a
source with one do loop is converted to its end.
-/

namespace Ephp

namespace Conversion

open Statement

/-- A step that answers in every state. -/
def Total {α : Type} (step : Conversion α) : Prop :=
  ∀ state, step.returns state = true

theorem returns_congr {α : Type} {first second : Conversion α} {state other : State}
    (same : first state = second other) : first.returns state = second.returns other := by
  rw [returns, returns, same]

theorem returns_bind {α β : Type} {first : Conversion α} {next : α → Conversion β} {state : State}
    (one : first.returns state = true) (rest : ∀ answer, Total (next answer)) :
    (first >>= next).returns state = true := by
  obtain ⟨answer, middle, done⟩ := returns_iff.mp one
  obtain ⟨result, after, rest⟩ := returns_iff.mp (rest answer middle)
  exact returns_iff.mpr ⟨result, after, bind_eq_ok.mpr ⟨answer, middle, done, rest⟩⟩

theorem total_compositional {body : Text} (formatless : body.Formatless) :
    Compositional.Collecting body fun step => Total step where
  pure _ _ := rfl
  bind one rest state := returns_bind (one state) rest
  emit _ _ _ := rfl
  openBlock _ _ _ _ := rfl
  declareAll _ _ := rfl
  define _ _ := rfl
  acquire _ _ _ := rfl
  withNames total state := by
    obtain ⟨answer, found⟩ := total formatless state.names
    exact returns_iff.mpr ⟨answer, state, withNames_eq_ok.mpr ⟨found, rfl⟩⟩
  startMatch _ _ _ _ := rfl
  addArm _ _ _ := rfl
  breakPending indent state :=
    returns_iff.mpr ⟨(), _, breakPending_eq_ok.mpr rfl⟩
  setCasePending _ := rfl
  setDoPending _ := rfl
  setSwitchPending _ := rfl

theorem returns_whileLoop {body condition : Text} (formatless : body.Formatless)
    (found : read? body = some (.whileLoop condition)) (indent : Int) {state : State}
    (ready : state.doPending = true → state.levels ≠ []) :
    ((whileLoop condition).perform indent).returns state = true := by
  have rules := (total_compositional formatless).toCompositional
  have piece : List.IsInfix condition.strip body :=
    (Text.strip_isInfix condition).trans (fields_infix_of_read? found _ (by simp [fields]))
  change (if state.doPending = true then endDo condition.strip else _ : Conversion Unit).returns
    state = true
  split
  · rename_i waits
    cases open_eq : state.levels with
    | nil => exact absurd open_eq (ready waits)
    | cons level below =>
        have total : Total (do
            modify (·.pop below)
            let written ← expand condition.strip
            emit (level - 4) ("\x7d while (".toList ++ written ++ ");".toList)
            modify fun state => { state with doPending := false }) :=
          rules.bind (fun _ => rfl) fun _ => rules.bind (rules.expand_piece piece) fun _ =>
            rules.bind (rules.emit _ _) fun _ => fun _ => rfl
        rw [returns_congr (endDo_of_cons open_eq)]
        exact total state
  · exact rules.openLoop indent found state

theorem returns_convertBody {body : Text} (formatless : body.Formatless) (indent : Int)
    {state : State} (ready : state.doPending = true → (state.dedent indent).levels ≠ []) :
    (convertBody indent body).returns state = true := by
  have rules := total_compositional formatless
  have unknown : (convertUnknown indent body).returns (state.dedent indent) = true :=
    rules.convertUnknown indent _
  cases found : read? body with
  | none =>
      have same : convertBody indent body state =
          convertUnknown indent body (state.dedent indent) := by
        rw [convertBody_eq, found]
      rw [returns_congr same, unknown]
  | some statement =>
      by_cases applies : statement.applies (state.dedent indent) = true
      · rw [returns_congr (convertBody_of_applies found applies)]
        cases statement with
        | whileLoop condition =>
            refine returns_whileLoop formatless found indent fun waits => ?_
            rw [State.dedent_doPending] at waits
            exact ready waits
        | _ => exact rules.perform indent found (by simp) _
      · have same : convertBody indent body state =
            convertUnknown indent body (state.dedent indent) := by
          rw [convertBody_eq, found]
          exact if_neg applies
        rw [returns_congr same, unknown]

/-- A line without format texts is passed, unless it is the condition of a do loop and no level is
open. -/
theorem returns_convertLine {line : Text} (formatless : line.Formatless) {state : State}
    (ready : state.doPending = true → (state.dedent line.indentOf).levels ≠ []) :
    (convertLine line).returns state = true := by
  cases spoken : line.isRemark with
  | false =>
      rw [convertLine_of_isRemark_eq_false spoken]
      exact returns_convertBody (formatless.of_isInfix (Text.strip_isInfix line)) _ ready
  | true => exact returns_iff.mpr ⟨_, _, convertLine_of_isRemark spoken state⟩

/-- A line that opens no do loop leaves none waiting where none waited. -/
theorem idle_of_convertLine {line : Text} {state after : State} (idle : state.doPending = false)
    (other : line.strip ≠ "do:".toList) (done : convertLine line state = .ok () after) :
    after.doPending = false := by
  rcases State.moves_of_convertLine done with ⟨_, text, rfl⟩ | ⟨_, moves⟩
  · exact idle
  · cases moves with
    | stays _ _ waiting _ => rw [waiting, State.dedent_doPending, idle]
    | opens _ _ waiting _ _ _ _ => rw [waiting, State.dedent_doPending, idle]
    | loops _ _ _ found =>
        exact absurd (eq_of_read?_eq_doLoop found (Text.getLast?_strip_ne rfl)) other
    | ends _ _ _ _ waiting _ => exact waiting

theorem idle_of_convertLines {lines : List Text} {state after : State}
    (idle : state.doPending = false) (others : ∀ line ∈ lines, line.strip ≠ "do:".toList)
    (done : convertLines lines state = .ok () after) : after.doPending = false := by
  apply @convertLines_induct (fun state => state.doPending = false) lines _ state after idle done
  intro line mem state after idle one
  exact idle_of_convertLine idle (others line mem) one

/-- Whether a line opens a do loop. -/
def opensLoop (line : Text) : Bool :=
  line.strip == "do:".toList

/-- Lines without format texts are all passed if at most one of them opens a do loop and the
outermost level is open as long as a do loop waits or is still to come. -/
theorem returns_convertLines {lines : List Text} (formatless : ∀ line ∈ lines, line.Formatless)
    {state : State} (ready : state.doPending = true → state.Rooted)
    (once : lines.countP opensLoop = 0 ∨
      lines.countP opensLoop ≤ 1 ∧ state.doPending = false ∧ state.Rooted) :
    (convertLines lines).returns state = true := by
  induction lines generalizing state with
  | nil => rfl
  | cons line lines ih =>
      obtain ⟨first_formatless, formatless⟩ := List.forall_mem_cons.mp formatless
      have level_left (waits : state.doPending = true) :
          (state.dedent line.indentOf).levels ≠ [] :=
        ((ready waits).dedent line.indentOf_nonneg).levels_ne_nil
      obtain ⟨_, middle, done⟩ := returns_iff.mp (returns_convertLine first_formatless level_left)
      have rest : (convertLines lines).returns middle = true := by
        rw [List.countP_cons] at once
        by_cases opens : opensLoop line = true
        · -- This is the do loop; no other one follows.
          rw [if_pos opens] at once
          obtain ⟨single, idle, rooted⟩ := once.resolve_left (by omega)
          have rooted := (rooted.convertLine done).resolve_right (by simp [idle])
          exact ih formatless (fun _ => rooted) (.inl (by omega))
        · have other : line.strip ≠ "do:".toList := by simpa [opensLoop] using opens
          rw [if_neg opens, Nat.add_zero] at once
          refine ih formatless (fun waits => ?_) (once.imp id ?_)
          · have waited : state.doPending = true := by
              by_contra idle
              simp [idle_of_convertLine (by simpa using idle) other done] at waits
            exact ((ready waited).convertLine done).resolve_right (by simp [waits])
          · rintro ⟨single, idle, rooted⟩
            exact ⟨single, idle_of_convertLine idle other done,
              (rooted.convertLine done).resolve_right (by simp [idle])⟩
      obtain ⟨_, after, rest⟩ := returns_iff.mp rest
      exact returns_iff.mpr ⟨_, after, convertLines_cons_eq_ok.mpr ⟨middle, done, rest⟩⟩

/-- A source without format texts and with at most one do loop is converted to its end. -/
theorem returns_convert {source : Text} (formatless : source.Formatless)
    (once : source.lines.countP opensLoop ≤ 1) (state : State) :
    (convert source).returns state = true := by
  have lines : (convertLines source.lines).returns state.reset = true :=
    returns_convertLines (fun line mem => formatless.of_isInfix (Text.infix_of_mem_lines mem))
      (by simp [State.reset, State.initial]) (.inr ⟨once, rfl, [], rfl, by simp⟩)
  obtain ⟨_, after, done⟩ := returns_iff.mp lines
  exact returns_iff.mpr ⟨_, _, convert_eq_ok.mpr ⟨after, done, rfl, rfl⟩⟩

end Conversion
end Ephp
