import Ephp.Convert

/-!
# Running steps

A step of a conversion answers in a new state or fails in one.  A sequence of steps answers exactly
if all of them do, each from the state that the one before it reached.
-/

namespace Ephp

theorem Except.bind_eq_ok {ε α β : Type} {first : Except ε α} {next : α → Except ε β} {result : β} :
    (first >>= next) = .ok result ↔ ∃ answer, first = .ok answer ∧ next answer = .ok result := by
  cases first with
  | ok answer =>
      change next answer = _ ↔ _
      simp
  | error fault =>
      change Except.error fault = _ ↔ _
      simp

theorem Except.pure_eq_ok {ε α : Type} {answer result : α} :
    (pure answer : Except ε α) = .ok result ↔ answer = result := by
  change Except.ok answer = _ ↔ _
  simp

namespace Conversion

variable {α β : Type}

/-- Whether a step answers. -/
def returns (step : Conversion α) (state : State) : Bool :=
  match step state with
  | .ok _ _ => true
  | .error _ _ => false

theorem returns_iff {step : Conversion α} {state : State} :
    step.returns state = true ↔ ∃ answer after, step state = .ok answer after := by
  unfold returns
  split <;> simp_all

/-- Whether a step answers and the answer and the new state pass a test. -/
def passes (step : Conversion α) (test : α → State → Bool) (state : State) : Bool :=
  match step state with
  | .ok answer after => test answer after
  | .error _ _ => false

theorem passes_iff {step : Conversion α} {test : α → State → Bool} {state : State} :
    step.passes test state = true ↔
      ∃ answer after, step state = .ok answer after ∧ test answer after = true := by
  unfold passes
  cases step state with
  | ok answer after =>
      constructor
      · intro passed
        exact ⟨answer, after, rfl, passed⟩
      · rintro ⟨_, _, ⟨⟩, passed⟩
        exact passed
  | error fault after => simp

theorem bind_apply {ε σ : Type} (first : EStateM ε σ α) (next : α → EStateM ε σ β) (state : σ) :
    (first >>= next) state =
      match first state with
      | .ok answer middle => next answer middle
      | .error fault middle => .error fault middle := by
  change EStateM.bind first next state = _
  unfold EStateM.bind
  cases first state <;> rfl

theorem bind_eq_ok {ε σ : Type} {first : EStateM ε σ α} {next : α → EStateM ε σ β}
    {state after : σ} {result : β} :
    (first >>= next) state = .ok result after ↔
      ∃ answer middle, first state = .ok answer middle ∧ next answer middle = .ok result after := by
  rw [bind_apply]
  cases first state with
  | ok answer middle =>
      constructor
      · intro done
        exact ⟨answer, middle, rfl, done⟩
      · rintro ⟨_, _, ⟨⟩, done⟩
        exact done
  | error fault middle => simp

theorem bind_eq_error {ε σ : Type} {first : EStateM ε σ α} {next : α → EStateM ε σ β}
    {state after : σ} {fault : ε} :
    (first >>= next) state = .error fault after ↔ first state = .error fault after ∨
      ∃ answer middle, first state = .ok answer middle ∧
        next answer middle = .error fault after := by
  rw [bind_apply]
  cases first state with
  | ok answer middle =>
      constructor
      · intro failed
        exact .inr ⟨answer, middle, rfl, failed⟩
      · rintro (stopped | ⟨_, _, ⟨⟩, failed⟩)
        · cases stopped
        · exact failed
  | error other middle => simp

theorem pure_eq_ok {answer result : α} {state after : State} :
    (pure answer : Conversion α) state = .ok result after ↔ answer = result ∧ state = after := by
  change EStateM.Result.ok answer state = _ ↔ _
  simp

theorem modify_eq_ok {change : State → State} {state after : State} {result : Unit} :
    (modify change : Conversion Unit) state = .ok result after ↔ change state = after := by
  change EStateM.Result.ok () (change state) = _ ↔ _
  simp

theorem get_eq_ok {state after result : State} :
    (get : Conversion State) state = .ok result after ↔ state = result ∧ state = after := by
  change EStateM.Result.ok state state = _ ↔ _
  simp

theorem withNames_eq_ok {action : Names → Except Fault α} {state after : State} {result : α} :
    withNames action state = .ok result after ↔
      action state.names = .ok result ∧ state = after := by
  change (MonadExcept.ofExcept (action state.names) : Conversion α) state = _ ↔ _
  cases action state.names with
  | ok answer =>
      change EStateM.Result.ok answer state = _ ↔ _
      simp
  | error fault =>
      change EStateM.Result.error fault state = _ ↔ _
      simp

theorem expand_eq_ok {text result : Text} {state after : State} :
    expand text state = .ok result after ↔
      Expr.expand state.names text = .ok result ∧ state = after :=
  withNames_eq_ok

theorem mapM_expand_eq_ok {texts results : List Text} {state after : State} :
    texts.mapM expand state = .ok results after ↔
      texts.mapM (Expr.expand state.names) = .ok results ∧ state = after := by
  induction texts generalizing results state after with
  | nil => rw [List.mapM_nil, List.mapM_nil, pure_eq_ok, Except.pure_eq_ok]
  | cons text texts ih =>
      simp only [List.mapM_cons, bind_eq_ok, expand_eq_ok, ih, pure_eq_ok, Except.bind_eq_ok,
        Except.pure_eq_ok]
      constructor
      · rintro ⟨first, _, ⟨expanded, rfl⟩, rest, _, ⟨others, rfl⟩, rfl, rfl⟩
        exact ⟨⟨first, expanded, rest, others, rfl⟩, rfl⟩
      · rintro ⟨⟨first, expanded, rest, others, rfl⟩, rfl⟩
        exact ⟨first, _, ⟨expanded, rfl⟩, rest, _, ⟨others, rfl⟩, rfl, rfl⟩

theorem endDo_of_nil {condition : Text} {state : State} (bare : state.levels = []) :
    Statement.endDo condition state = .error .noOpenLevel state := by
  obtain ⟨levels, _⟩ := state
  cases bare
  rfl

theorem endDo_of_cons {condition : Text} {state : State} {level : Int} {below : List Int}
    (open_eq : state.levels = level :: below) :
    Statement.endDo condition state = (do
      modify (·.pop below)
      let written ← expand condition
      emit (level - 4) ("\x7d while (".toList ++ written ++ ");".toList)
      modify fun state => { state with doPending := false } : Conversion Unit) state := by
  obtain ⟨levels, _⟩ := state
  cases open_eq
  rfl

/-- The body of a line leaves blocks and is then performed as the statement that it is, if this
applies. -/
theorem convertBody_eq (indent : Int) (body : Text) (state : State) :
    convertBody indent body state =
      match Statement.read? body with
      | some statement =>
        if statement.applies (state.dedent indent) then
          statement.perform indent (state.dedent indent)
        else convertUnknown indent body (state.dedent indent)
      | none => convertUnknown indent body (state.dedent indent) := by
  cases found : Statement.read? body with
  | none =>
      simp only [convertBody, found]
      rfl
  | some statement =>
      simp only [convertBody, found, Statement.run]
      change ((if statement.applies (state.dedent indent) then _ else _ : Conversion Bool) >>= _)
        (state.dedent indent) = _
      split
      · simp only [bind_apply]
        cases statement.perform indent (state.dedent indent) <;> rfl
      · rfl

theorem convertBody_of_applies {indent : Int} {body : Text} {statement : Statement} {state : State}
    (found : Statement.read? body = some statement)
    (applies : statement.applies (state.dedent indent) = true) :
    convertBody indent body state = statement.perform indent (state.dedent indent) := by
  rw [convertBody_eq, found]
  exact if_pos applies

theorem convertLines_cons (line : Text) (lines : List Text) :
    convertLines (line :: lines) = convertLine line >>= fun _ => convertLines lines := rfl

theorem convertLines_append (front back : List Text) :
    convertLines (front ++ back) = convertLines front >>= fun _ => convertLines back := by
  induction front with
  | nil => rfl
  | cons line front ih =>
      rw [List.cons_append, convertLines_cons, convertLines_cons, ih, bind_assoc]

theorem convert_eq (source : Text) (state : State) :
    convert source state =
      match convertLines source.lines state.reset with
      | .ok _ after =>
        .ok (Text.join ['\n'] after.flushMatch.closeAll.lines) after.flushMatch.closeAll
      | .error fault after => .error fault after := by
  change (convertLines source.lines >>= _) state.reset = _
  rw [bind_apply]
  cases convertLines source.lines state.reset <;> rfl

@[simp]
theorem convertLines_nil (state : State) : convertLines [] state = .ok () state := rfl

theorem convertLines_cons_eq_ok {line : Text} {lines : List Text} {state after : State} :
    convertLines (line :: lines) state = .ok () after ↔
      ∃ middle, convertLine line state = .ok () middle ∧
        convertLines lines middle = .ok () after := by
  rw [convertLines_cons, bind_eq_ok]
  exact ⟨fun ⟨_, middle, one, rest⟩ => ⟨middle, one, rest⟩,
    fun ⟨middle, one, rest⟩ => ⟨(), middle, one, rest⟩⟩

theorem convertLines_append_eq_ok {front back : List Text} {state after : State} :
    convertLines (front ++ back) state = .ok () after ↔
      ∃ middle, convertLines front state = .ok () middle ∧
        convertLines back middle = .ok () after := by
  rw [convertLines_append, bind_eq_ok]
  exact ⟨fun ⟨_, middle, one, rest⟩ => ⟨middle, one, rest⟩,
    fun ⟨middle, one, rest⟩ => ⟨(), middle, one, rest⟩⟩

/-- What holds of a state and is kept by each of the lines holds behind them. -/
theorem convertLines_induct {holds : State → Prop} {lines : List Text}
    (step : ∀ line ∈ lines, ∀ {state after}, holds state →
      convertLine line state = .ok () after → holds after)
    {state after : State} (start : holds state)
    (done : convertLines lines state = .ok () after) : holds after := by
  induction lines generalizing state with
  | nil =>
      cases done
      exact start
  | cons line lines ih =>
      obtain ⟨middle, one, rest⟩ := convertLines_cons_eq_ok.mp done
      obtain ⟨first, others⟩ := List.forall_mem_cons.mp step
      exact ih others (first start one) rest

theorem convert_eq_ok {source text : Text} {state final : State} :
    convert source state = .ok text final ↔
      ∃ after, convertLines source.lines state.reset = .ok () after ∧
        final = after.flushMatch.closeAll ∧ text = Text.join ['\n'] final.lines := by
  rw [convert_eq]
  cases convertLines source.lines state.reset with
  | ok _ after =>
      simp only [EStateM.Result.ok.injEq]
      constructor
      · rintro ⟨rfl, rfl⟩
        exact ⟨after, ⟨trivial, rfl⟩, rfl, rfl⟩
      · rintro ⟨_, ⟨_, rfl⟩, rfl, rfl⟩
        exact ⟨rfl, rfl⟩
  | error fault after => simp

end Conversion
end Ephp
