import Ephp.Proofs.Return

/-!
# Where a conversion stops

An expression cannot be expanded exactly if it is hollow: a format text without segments, or one
with a hollow placeholder.  A line stops a conversion exactly if it has a hollow expression, or if
it is the condition of a do loop and no level is open.
-/

namespace Ephp

namespace Expr

/-- A format text without segments, or with a placeholder that is such a text again. -/
inductive Hollow : Text → Prop
  | bare {text body : Text} (found : Format.body? (convertCalls text) = some body)
      (empty : Format.segments body = []) : Hollow text
  | inside {text body inner : Text} (found : Format.body? (convertCalls text) = some body)
      (mem : Format.Segment.placeholder inner ∈ Format.segments body)
      (hollow : Hollow inner.strip) : Hollow text

/-- An action that fails exactly if there is a cause for it, and then with an empty format text. -/
def FailsIf {α : Type} (cause : Prop) (action : Except Fault α) : Prop :=
  ∀ fault, action = .error fault ↔ fault = .emptyFormat ∧ cause

theorem FailsIf.bind {α β : Type} {cause other : Prop} {first : Except Fault α}
    {next : α → Except Fault β} (one : FailsIf cause first)
    (rest : ∀ answer, first = .ok answer → FailsIf other (next answer)) :
    FailsIf (cause ∨ other) (first >>= next) := by
  intro fault
  cases done : first with
  | error found =>
      obtain ⟨rfl, holds⟩ := (one found).mp done
      change Except.error .emptyFormat = .error fault ↔ _
      rw [Except.error.injEq]
      exact ⟨fun same => ⟨same.symm, .inl holds⟩, fun failed => failed.1.symm⟩
  | ok answer =>
      have passed : ¬cause := fun holds =>
        nomatch done.symm.trans ((one .emptyFormat).mpr ⟨rfl, holds⟩)
      change next answer = .error fault ↔ _
      rw [rest answer done fault, or_iff_right passed]

/-- An action that fails exactly if one of the texts is hollow. -/
def Needs {α : Type} (texts : List Text) (action : Except Fault α) : Prop :=
  FailsIf (∃ text ∈ texts, Hollow text) action

namespace Needs

variable {α β : Type}

theorem ok (answer : α) : Needs [] (.ok answer) := by
  intro fault
  simp

theorem bind {front back : List Text} {first : Except Fault α} {next : α → Except Fault β}
    (one : Needs front first) (rest : ∀ answer, Needs back (next answer)) :
    Needs (front ++ back) (first >>= next) := by
  have both := FailsIf.bind one fun answer _ => rest answer
  simpa only [Needs, List.mem_append, or_and_right, exists_or] using both

theorem map {texts : List Text} {action : Except Fault α} (one : Needs texts action)
    (build : α → β) : Needs texts (action >>= fun answer => pure (build answer)) := by
  have both := one.bind fun answer => ok (build answer)
  rwa [List.append_nil] at both

theorem mapM {items : List α} {texts : α → List Text} {action : α → Except Fault β}
    (each : ∀ item ∈ items, Needs (texts item) (action item)) :
    Needs (items.flatMap texts) (items.mapM action) := by
  induction items with
  | nil => exact ok []
  | cons item items ih =>
      obtain ⟨first, others⟩ := List.forall_mem_cons.mp each
      rw [List.mapM_cons, List.flatMap_cons]
      exact first.bind fun answer => (ih others).map _

end Needs

/-- The expressions in a segment of a format text. -/
def segmentExpressions : Format.Segment → List Text
  | .literal _ => []
  | .placeholder inner => [inner.strip]

theorem hollow_iff {text body : Text} (found : Format.body? (convertCalls text) = some body) :
    Hollow text ↔ (∃ inner ∈ (Format.segments body).flatMap segmentExpressions, Hollow inner) ∨
      Format.segments body = [] := by
  constructor
  · rintro (⟨other, empty⟩ | ⟨other, mem, hollow⟩)
    · rw [found] at other
      cases other
      exact .inr empty
    · rw [found] at other
      cases other
      exact .inl ⟨_, List.mem_flatMap.mpr ⟨_, mem, List.mem_singleton_self _⟩, hollow⟩
  · rintro (⟨inner, mem, hollow⟩ | empty)
    · obtain ⟨segment, segment_mem, inner_mem⟩ := List.mem_flatMap.mp mem
      cases segment with
      | literal _ => simp [segmentExpressions] at inner_mem
      | placeholder text =>
          obtain rfl := List.mem_singleton.mp inner_mem
          exact .inside found segment_mem hollow
    · exact .bare found empty

theorem not_hollow_of_body?_eq_none {text : Text}
    (plain : Format.body? (convertCalls text) = none) : ¬Hollow text := by
  rintro (⟨found, _⟩ | ⟨found, _, _⟩) <;> simp [plain] at found

theorem failsIf_joinSegments (texts : List Text) : FailsIf (texts = []) (joinSegments texts) := by
  intro fault
  cases texts with
  | nil => simp [joinSegments, eq_comm]
  | cons text texts => simp [joinSegments]

theorem eq_nil_of_mapM {α β : Type} {items : List α} {action : α → Except Fault β}
    {answers : List β} (done : items.mapM action = .ok answers) : answers = [] ↔ items = [] := by
  cases items with
  | nil =>
      cases done
      simp
  | cons item items =>
      simp only [List.mapM_cons, Except.bind_eq_ok, Except.pure_eq_ok] at done
      obtain ⟨_, _, _, _, rfl⟩ := done
      simp

/-- A format text cannot be expanded exactly if an expression in it is hollow or it has no segments,
provided that its expressions fail exactly if they are hollow. -/
theorem failsIf_expandFormat {names : Names} {text body : Text}
    (found : Format.body? text = some body)
    (inside : ∀ inner, Format.Segment.placeholder inner ∈ Format.segments body →
      Needs [inner.strip] (expand names inner.strip)) :
    FailsIf ((∃ inner ∈ (Format.segments body).flatMap segmentExpressions, Hollow inner) ∨
      Format.segments body = []) (expandFormat names text) := by
  have each : Needs ((Format.segments body).flatMap segmentExpressions)
      ((Format.segments body).mapM (expandSegment names)) := by
    refine Needs.mapM fun segment mem => ?_
    cases segment with
    | literal text => exact Needs.ok _
    | placeholder inner => exact inside inner mem
  rw [expandFormat, found]
  refine FailsIf.bind each fun written done => ?_
  rw [← eq_nil_of_mapM done]
  exact failsIf_joinSegments written

theorem needs_expand (names : Names) (text : Text) : Needs [text] (expand names text) := by
  generalize size : text.count '{' = depth
  induction depth using Nat.strongRecOn generalizing text with
  | _ depth ih =>
      simp only [Needs, List.mem_singleton, exists_eq_left]
      rw [expand_eq]
      cases found : Format.body? (convertCalls text) with
      | none =>
          intro fault
          simp [not_hollow_of_body?_eq_none found]
      | some body =>
          rw [Option.isSome_some, if_pos rfl, hollow_iff found]
          exact failsIf_expandFormat found fun inner mem =>
            ih _ (size ▸ count_placeholder_lt found mem) _ rfl

/-- The expressions in an assigned value. -/
def elements (value : Text) : List Text :=
  match enclosed? '[' ']' value.strip, enclosed? '{' '}' value.strip with
  | some inner, _ => inner.items
  | none, some inner =>
    (inner.items.filterMap (Text.splitFirst? ':')).map fun entry => entry.2.strip
  | none, none => if isTruthValue value.strip then [] else [value.strip]

theorem needs_mapM_expand (names : Names) (texts : List Text) :
    Needs texts (texts.mapM (expand names)) := by
  have each := Needs.mapM fun text (_ : text ∈ texts) => needs_expand names text
  rwa [List.flatMap_singleton'] at each

theorem needs_expandEntry (names : Names) (entry : Text × Text) :
    Needs [entry.2.strip] (expandEntry names entry) :=
  (needs_expand names entry.2.strip).map _

theorem needs_expandValue (names : Names) (value : Text) :
    Needs (elements value) (expandValue names value) := by
  unfold expandValue expandStripped elements
  cases enclosed? '[' ']' value.strip with
  | some inner => exact (needs_mapM_expand names inner.items).map _
  | none =>
      cases enclosed? '{' '}' value.strip with
      | some inner =>
          have each := Needs.mapM fun entry
            (_ : entry ∈ inner.items.filterMap (Text.splitFirst? ':')) =>
              needs_expandEntry names entry
          rw [← List.map_eq_flatMap] at each
          exact each.map _
      | none =>
          simp only
          split
          · exact Needs.ok _
          · exact needs_expand names value.strip

end Expr

namespace Parameter

theorem needs_write (names : Names) (parameter : Parameter) :
    Expr.Needs parameter.default.toList (write names parameter) := by
  unfold write
  cases parameter.default with
  | none => exact Expr.Needs.ok _
  | some value => exact (Expr.needs_expand names value).map _

theorem needs_writeList (names : Names) (parameters : List Parameter) :
    Expr.Needs (parameters.flatMap (·.default.toList)) (writeList names parameters) :=
  (Expr.Needs.mapM fun parameter _ => needs_write names parameter).map _

end Parameter

namespace Statement

/-- The expressions that are expanded when a statement is performed. -/
def expressions : Statement → List Text
  | .function _ parameters _ => (Parameter.listOfText parameters).flatMap (·.default.toList)
  | .arrow _ parameters body =>
    (Parameter.listOfStoredText parameters).flatMap (·.default.toList) ++
      [(Text.after? "return ".toList body).getD body]
  | .closure _ parameters =>
    (Parameter.listOfStoredText parameters).flatMap (·.default.toList)
  | .resource acquired _ => [acquired]
  | .arm values result => armValues values ++ [result.strip]
  | .defaultArm result => [result.strip]
  | .choice _ accepted condition rejected => [condition, accepted, rejected]
  | .whileLoop condition => [condition.strip]
  | .constant _ value => [value]
  | .assign _ value => Expr.elements value
  | .returnValue value => [value]
  | .print content => [printedContent content]
  | .when condition => [condition]
  | .elseWhen condition => [condition]
  | .countLoop _ bounds =>
    let bounds := Bounds.ofItems bounds.items
    [bounds.start, bounds.stop, bounds.step]
  | .eachLoop _ collection => [collection]
  | .switch subject => [subject]
  | .label value => [value]
  | .call callee arguments => [callArguments callee arguments]
  | .require _ | .matchAssign _ _ | .matchReturn _ | .input _ _ | .doLoop | .leave | .proceed
  | .pass | .otherwise | .defaultLabel => []

end Statement

namespace Conversion

open Statement

theorem total_breakPending (indent : Int) : Total (breakPending indent) :=
  fun _ => returns_iff.mpr ⟨(), _, breakPending_eq_ok.mpr rfl⟩

theorem Total.bind {α β : Type} {first : Conversion α} {next : α → Conversion β}
    (one : Total first) (rest : ∀ answer, Total (next answer)) : Total (first >>= next) :=
  fun state => returns_bind (one state) rest

/-- A step that fails exactly if one of the texts is hollow. -/
def Needs {α : Type} (texts : List Text) (step : Conversion α) : Prop :=
  ∀ state fault, (∃ after, step state = .error fault after) ↔
    fault = .emptyFormat ∧ ∃ text ∈ texts, Expr.Hollow text

/-- The expressions of a line that is no statement. -/
def unknownExpressions (body : Text) : List Text :=
  if body.endsWith [':'] then [] else [body]

/-- The expressions of a line in a state. -/
def bodyExpressions (state : State) (body : Text) : List Text :=
  match read? body with
  | some statement =>
    if statement.applies state then statement.expressions else unknownExpressions body
  | none => unknownExpressions body

namespace Needs

variable {α β : Type}

theorem of_total {step : Conversion α} (total : Total step) : Needs [] step := by
  intro state fault
  obtain ⟨answer, after, done⟩ := returns_iff.mp (total state)
  simp [done]

theorem bind {front back texts : List Text} {first : Conversion α} {next : α → Conversion β}
    (one : Needs front first) (rest : ∀ answer, Needs back (next answer))
    (same : front ++ back = texts) : Needs texts (first >>= next) := by
  intro state fault
  rw [bind_apply, ← same]
  simp only [List.mem_append, or_and_right, exists_or]
  cases done : first state with
  | error found middle =>
      obtain ⟨rfl, hollow⟩ := (one state found).mp ⟨middle, done⟩
      simp only [EStateM.Result.error.injEq, exists_and_left, exists_eq', and_true]
      exact ⟨fun same => ⟨same.symm, .inl hollow⟩, fun failed => failed.1.symm⟩
  | ok answer middle =>
      have passed : ¬∃ text ∈ front, Expr.Hollow text := fun hollow => by
        obtain ⟨after, failed⟩ := (one state .emptyFormat).mpr ⟨rfl, hollow⟩
        cases done.symm.trans failed
      rw [or_iff_right passed]
      exact rest answer middle fault

/-- Steps that cannot fail can stand in front. -/
theorem behind {texts : List Text} {first : Conversion α} {next : α → Conversion β}
    (total : Total first) (rest : ∀ answer, Needs texts (next answer)) :
    Needs texts (first >>= next) :=
  (of_total total).bind rest rfl

/-- Steps that cannot fail can follow. -/
theorem before {texts : List Text} {first : Conversion α} {next : α → Conversion β}
    (one : Needs texts first) (total : ∀ answer, Total (next answer)) :
    Needs texts (first >>= next) :=
  one.bind (fun answer => of_total (total answer)) (List.append_nil texts)

theorem withNames {texts : List Text} {action : Names → Except Fault α}
    (needs : ∀ names, Expr.Needs texts (action names)) : Needs texts (withNames action) := by
  intro state fault
  rw [← needs state.names fault]
  change (∃ after, (MonadExcept.ofExcept (action state.names) : Conversion α) state =
    .error fault after) ↔ _
  cases action state.names with
  | ok answer =>
      change (∃ after, EStateM.Result.ok answer state = .error fault after) ↔ _
      simp
  | error found =>
      change (∃ after, EStateM.Result.error found state = .error fault after) ↔ _
      simp

theorem expand (text : Text) : Needs [text] (Conversion.expand text) :=
  withNames fun names => Expr.needs_expand names text

theorem mapM_expand (texts : List Text) : Needs texts (texts.mapM Conversion.expand) := by
  induction texts with
  | nil => exact of_total fun _ => rfl
  | cons text texts ih =>
      rw [List.mapM_cons]
      exact (expand text).bind (fun _ => ih.before fun _ _ => rfl) rfl

/-- Performing a statement fails exactly if one of its expressions is hollow; only the end of a do
loop can fail otherwise. -/
theorem perform (indent : Int) {statement : Statement}
    (other : ∀ condition, statement ≠ .whileLoop condition) :
    Needs statement.expressions (statement.perform indent) := by
  cases statement with
  | require path => exact of_total fun _ => rfl
  | function name parameters result =>
      exact (withNames fun names => Parameter.needs_writeList names _).before fun _ _ => rfl
  | arrow target parameters body =>
      refine (withNames fun names => Parameter.needs_writeList names _).bind (fun _ => ?_) rfl
      exact .behind (fun _ => rfl) fun _ => (expand _).before fun _ _ => rfl
  | closure target parameters =>
      exact (withNames fun names => Parameter.needs_writeList names _).before fun _ _ => rfl
  | resource acquired handle => exact (expand acquired).before fun _ _ => rfl
  | matchAssign target subject => exact of_total fun _ => rfl
  | matchReturn subject => exact of_total fun _ => rfl
  | arm values result =>
      exact (mapM_expand _).bind (fun _ => (expand _).before fun _ _ => rfl) rfl
  | defaultArm result => exact (expand _).before fun _ _ => rfl
  | input target prompt => exact of_total fun _ => rfl
  | choice target accepted condition rejected =>
      refine .behind (fun _ => rfl) fun _ => (expand condition).bind (fun _ => ?_) rfl
      exact (expand accepted).bind (fun _ => (expand rejected).before fun _ _ => rfl) rfl
  | doLoop => exact of_total fun _ => rfl
  | whileLoop condition => exact absurd rfl (other condition)
  | constant name value => exact (expand value).before fun _ _ => rfl
  | assign target value =>
      exact .behind (fun _ => rfl) fun _ =>
        (withNames fun names => Expr.needs_expandValue names value).before fun _ _ => rfl
  | returnValue value => exact (expand value).before fun _ _ => rfl
  | leave => exact of_total fun _ => rfl
  | proceed => exact of_total fun _ => rfl
  | pass => exact of_total fun _ => rfl
  | print content => exact (expand _).before fun _ _ => rfl
  | when condition => exact (expand condition).before fun _ _ => rfl
  | elseWhen condition => exact (expand condition).before fun _ _ => rfl
  | otherwise => exact of_total fun _ => rfl
  | countLoop counter bounds =>
      refine (expand _).bind (fun _ => (expand _).bind (fun _ => ?_) rfl) rfl
      exact (expand _).before fun _ _ => rfl
  | eachLoop element collection =>
      exact .behind (fun _ => rfl) fun _ => (expand collection).before fun _ _ => rfl
  | switch subject => exact (expand subject).before fun _ _ => rfl
  | label value =>
      exact .behind (total_breakPending indent) fun _ => (expand value).before fun _ _ => rfl
  | defaultLabel => exact of_total (.bind (total_breakPending indent) fun _ _ => rfl)
  | call callee arguments => exact (expand _).before fun _ _ => rfl

theorem convertUnknown (indent : Int) (body : Text) :
    Needs (unknownExpressions body) (Conversion.convertUnknown indent body) := by
  unfold Conversion.convertUnknown unknownExpressions
  split
  · exact of_total fun _ => rfl
  · exact (expand body).before fun _ _ => rfl

end Needs

/-- A line that ends a do loop while no level is open. -/
def Unrooted (line : Text) (state : State) : Prop :=
  (∃ condition, read? line.strip = some (.whileLoop condition)) ∧ state.doPending = true ∧
    (state.dedent line.indentOf).levels = []

/-- Why a line stops a conversion: it ends a do loop while no level is open, or otherwise one of its
expressions is hollow. -/
inductive Stops (line : Text) (state : State) : Fault → Prop
  | noOpenLevel (spoken : line.isRemark = false) (unrooted : Unrooted line state) :
      Stops line state .noOpenLevel
  | emptyFormat {text : Text} (spoken : line.isRemark = false) (rooted : ¬Unrooted line state)
      (mem : text ∈ bodyExpressions (state.dedent line.indentOf) line.strip)
      (hollow : Expr.Hollow text) : Stops line state .emptyFormat

theorem endDo_fails_iff {condition : Text} {state : State} {fault : Fault} :
    (∃ after, endDo condition state = .error fault after) ↔
      (fault = .noOpenLevel ∧ state.levels = []) ∨
        (fault = .emptyFormat ∧ state.levels ≠ [] ∧ Expr.Hollow condition) := by
  cases open_eq : state.levels with
  | nil => simp [endDo_of_nil open_eq, eq_comm]
  | cons level below =>
      have needs : Needs [condition] (do
          modify (·.pop below)
          let written ← expand condition
          emit (level - 4) ("\x7d while (".toList ++ written ++ ");".toList)
          modify fun state => { state with doPending := false } : Conversion Unit) :=
        .behind (fun _ => rfl) fun _ => (Needs.expand condition).before fun _ _ => rfl
      rw [endDo_of_cons open_eq, needs state fault]
      simp

theorem whileLoop_fails_iff {condition : Text} {indent : Int} {state : State} {fault : Fault} :
    (∃ after, (whileLoop condition).perform indent state = .error fault after) ↔
      (fault = .noOpenLevel ∧ state.doPending = true ∧ state.levels = []) ∨
        (fault = .emptyFormat ∧ ¬(state.doPending = true ∧ state.levels = []) ∧
          Expr.Hollow condition.strip) := by
  change (∃ after, (if state.doPending = true then endDo condition.strip else _ : Conversion Unit)
    state = .error fault after) ↔ _
  split
  · rename_i waits
    rw [endDo_fails_iff]
    simp [waits]
  · rename_i idle
    have needs : Needs [condition.strip] (do
        let written ← expand condition.strip
        openBlock .whileLoop indent ("while (".toList ++ written ++ [')'])) :=
      (Needs.expand _).before fun _ _ => rfl
    rw [needs state fault]
    simp [idle]

theorem convertBody_fails_iff {line : Text} {state : State} {fault : Fault} :
    (∃ after, convertBody line.indentOf line.strip state = .error fault after) ↔
      (fault = .noOpenLevel ∧ Unrooted line state) ∨
        (fault = .emptyFormat ∧ ¬Unrooted line state ∧
          ∃ text ∈ bodyExpressions (state.dedent line.indentOf) line.strip, Expr.Hollow text) := by
  rw [convertBody_eq]
  unfold bodyExpressions Unrooted
  cases found : read? line.strip with
  | none =>
      rw [Needs.convertUnknown _ _ _ fault]
      simp
  | some statement =>
      simp only
      split
      · rename_i applies
        by_cases loop : ∃ condition, statement = .whileLoop condition
        · obtain ⟨condition, rfl⟩ := loop
          rw [whileLoop_fails_iff]
          simp [State.dedent_doPending, expressions]
        · have other : ∀ condition, statement ≠ .whileLoop condition := fun condition same =>
            loop ⟨condition, same⟩
          rw [Needs.perform _ other _ fault]
          simp [other]
      · rename_i idle
        have other : ∀ condition, statement ≠ .whileLoop condition := by
          rintro condition rfl
          exact idle rfl
        rw [Needs.convertUnknown _ _ _ fault]
        simp [other]

theorem convertLine_fails_iff {line : Text} {state : State} {fault : Fault} :
    (∃ after, convertLine line state = .error fault after) ↔ Stops line state fault := by
  cases spoken : line.isRemark with
  | true =>
      rw [convertLine_of_isRemark spoken]
      constructor
      · rintro ⟨_, ⟨⟩⟩
      · rintro (⟨other, _⟩ | ⟨other, _, _, _⟩) <;> simp [spoken] at other
  | false =>
      rw [convertLine_of_isRemark_eq_false spoken, convertBody_fails_iff]
      constructor
      · rintro (⟨rfl, unrooted⟩ | ⟨rfl, rooted, text, mem, hollow⟩)
        · exact .noOpenLevel spoken unrooted
        · exact .emptyFormat spoken rooted mem hollow
      · rintro (⟨_, unrooted⟩ | ⟨_, rooted, mem, hollow⟩)
        · exact .inl ⟨rfl, unrooted⟩
        · exact .inr ⟨rfl, rooted, _, mem, hollow⟩

/-- Some of the lines stops a conversion, which passes the lines before it. -/
def StopsIn (lines : List Text) (state : State) (fault : Fault) : Prop :=
  ∃ front line back reached, lines = front ++ line :: back ∧
    convertLines front state = .ok () reached ∧ Stops line reached fault

theorem stopsIn_cons_iff {line : Text} {lines : List Text} {state : State} {fault : Fault} :
    StopsIn (line :: lines) state fault ↔ Stops line state fault ∨
      ∃ middle, convertLine line state = .ok () middle ∧ StopsIn lines middle fault := by
  constructor
  · rintro ⟨front, other, back, reached, split, passed, stops⟩
    cases front with
    | nil =>
        cases split
        cases passed
        exact .inl stops
    | cons first front =>
        cases split
        obtain ⟨middle, one, rest⟩ := convertLines_cons_eq_ok.mp passed
        exact .inr ⟨middle, one, front, other, back, reached, rfl, rest, stops⟩
  · rintro (stops | ⟨middle, one, front, other, back, reached, rfl, rest, stops⟩)
    · exact ⟨[], line, lines, state, rfl, rfl, stops⟩
    · exact ⟨line :: front, other, back, reached, rfl,
        convertLines_cons_eq_ok.mpr ⟨middle, one, rest⟩, stops⟩

/-- Converting lines fails exactly if one of them stops it. -/
theorem convertLines_fails_iff {lines : List Text} {state : State} {fault : Fault} :
    (∃ after, convertLines lines state = .error fault after) ↔ StopsIn lines state fault := by
  induction lines generalizing state with
  | nil => simp [StopsIn]
  | cons line lines ih =>
      rw [stopsIn_cons_iff, ← convertLine_fails_iff, convertLines_cons, bind_apply]
      cases done : convertLine line state with
      | error found middle => simp
      | ok _ middle =>
          simp only [reduceCtorEq, exists_false, false_or, EStateM.Result.ok.injEq, true_and]
          rw [ih]
          simp

-- The first loop closes the lowest level, so that none is open at the end of the second.
example : (convertLines ["do:".toList, "while a".toList, "do:".toList, "while b".toList]).returns
    State.initial = false := by
  decide +kernel

/-- Without format texts and with at most one do loop a source is converted to its end.  Whatever
the source, a conversion fails exactly at a line that ends a do loop while no level is open, or that
has a hollow expression. -/
theorem convert_fails_iff_stopsIn (source : Text) (state : State) :
    (source.Formatless → source.lines.countP opensLoop ≤ 1 →
      ∃ text after, convert source state = .ok text after) ∧
    ∀ fault, (∃ after, convert source state = .error fault after) ↔
      StopsIn source.lines state.reset fault := by
  refine ⟨fun formatless once => returns_iff.mp (returns_convert formatless once state), ?_⟩
  intro fault
  rw [← convertLines_fails_iff, convert_eq]
  cases convertLines source.lines state.reset <;> simp

theorem convert_fails_iff_stopsIn_loop :
    ∃ text after, convert "do:\n    n = next(n)\nwhile n < 9".toList State.initial =
      .ok text after :=
  (convert_fails_iff_stopsIn _ State.initial).1 (by decide +kernel) (by decide +kernel)

end Conversion
end Ephp
