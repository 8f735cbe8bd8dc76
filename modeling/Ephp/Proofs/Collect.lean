import Ephp.Proofs.Dedent
import Ephp.Proofs.Outcome

/-!
# Collecting a match

The header of a match starts an open match without arms, and every arm that follows is added to it.
Neither of them writes anything or moves the stacks.
-/

namespace Ephp

namespace Pattern

/-- A pattern that keeps no span which may be empty. -/
def KeepsHeaded : {α : Type} → Pattern α → Prop
  | _, .stop => True
  | _, .ending => True
  | _, .fixed _ next => next.KeepsHeaded
  | _, .skip _ next => next.KeepsHeaded
  | _, .keep (.headed _ _ _) next => next.KeepsHeaded
  | _, .keep (.free _ _) _ => False

theorem fields_ne_nil_of_match? {α : Type} {pattern : Pattern α} {text behind : Text} {kept : α}
    (matched : pattern.match? text = some (kept, behind)) (headed : pattern.KeepsHeaded) :
    ∀ field ∈ pattern.fields kept, field ≠ [] := by
  induction pattern generalizing text with
  | stop => simp [fields]
  | ending => simp [fields]
  | fixed word next ih =>
      simp only [match?, Option.bind_eq_some_iff] at matched
      obtain ⟨rest, _, tail⟩ := matched
      exact ih tail headed
  | skip span next ih =>
      simp only [match?, Option.map_eq_some_iff, Prod.exists, Prod.mk.injEq] at matched
      obtain ⟨run, _, _, cut, rfl, rfl⟩ := matched
      obtain ⟨rest, _, tail⟩ := Span.cut?_eq_some cut
      exact ih tail headed
  | keep span next ih =>
      simp only [match?, Option.map_eq_some_iff, Prod.exists, Prod.mk.injEq] at matched
      obtain ⟨run, inner, _, cut, rfl, rfl⟩ := matched
      cases span with
      | free reach admits => exact headed.elim
      | headed reach starts admits =>
          obtain ⟨first, others, rfl, _⟩ := Span.headed_of_cut? cut
          obtain ⟨rest, _, tail⟩ := Span.cut?_eq_some cut
          exact List.forall_mem_cons.mpr ⟨by simp, ih tail headed⟩

end Pattern

/-- The match with more arms. -/
def Match.add (collected : Match) (arms : List Arm) : Match :=
  { collected with arms := collected.arms ++ arms }

namespace Statement

open Conversion

/-- The match that a header starts is open. -/
theorem isOpen_of_started? {body : Text} {statement : Statement} {collected : Match}
    (found : read? body = some statement) (header : statement.started? = some collected) :
    collected.isOpen = true := by
  obtain ⟨reader, mem, found⟩ := List.exists_of_findSome?_eq_some found
  simp only [forms, List.mem_cons, List.not_mem_nil, or_false] at mem
  rcases mem with rfl | rfl | rfl | rfl | rfl | rfl | rfl | rfl | rfl | rfl | rfl | rfl | rfl |
    rfl | rfl | rfl | rfl | rfl | rfl | rfl | rfl | rfl | rfl | rfl | rfl | rfl | rfl | rfl | rfl |
    rfl
  case inr.inr.inr.inr.inr.inl =>
    obtain ⟨⟨target, subject, _⟩, behind, matched, rfl⟩ := form_eq_some found
    have nonempty : subject ≠ [] :=
      Pattern.fields_ne_nil_of_match? matched trivial subject
        (by simp [assignment, matchSubject, Pattern.fields])
    cases header
    simpa [Match.isOpen] using nonempty
  case inr.inr.inr.inr.inr.inr.inl =>
    obtain ⟨⟨subject, _⟩, behind, matched, rfl⟩ := form_eq_some found
    have nonempty : subject ≠ [] :=
      Pattern.fields_ne_nil_of_match? matched trivial subject
        (by simp [matchSubject, Pattern.fields])
    cases header
    simpa [Match.isOpen] using nonempty
  all_goals
    obtain ⟨_, _, _, rfl⟩ := form_eq_some found
    cases header

/-- The header of a match starts it, and but for the names nothing else happens. -/
theorem perform_of_started? {statement : Statement} {collected : Match}
    (header : statement.started? = some collected) (indent : Int) :
    ∃ update : Names → Names, ∀ state, statement.perform indent state =
      .ok () { state with names := update state.names, collected := collected } := by
  cases statement with
  | matchAssign target subject =>
      cases header
      exact ⟨(·.declare target), fun _ => rfl⟩
  | matchReturn subject =>
      cases header
      exact ⟨id, fun _ => rfl⟩
  | _ => cases header

/-- An arm is written with the names known at its place and is added to the match. -/
theorem perform_of_isArm {statement : Statement} (is_arm : statement.isArm = true) (indent : Int) :
    ∃ write : Names → Except Fault Arm, ∀ state after,
      statement.perform indent state = .ok () after ↔
        ∃ arm, write state.names = .ok arm ∧
          after = { state with collected := state.collected.add [arm] } := by
  cases statement with
  | arm values result =>
      refine ⟨fun names => do
        let values ← (armValues values).mapM (Expr.expand names)
        let result ← Expr.expand names result.strip
        return ⟨values, result⟩, fun state after => ?_⟩
      simp only [perform, addArm, bind_eq_ok, mapM_expand_eq_ok, expand_eq_ok, modify_eq_ok,
        Except.bind_eq_ok, Except.pure_eq_ok]
      constructor
      · rintro ⟨choices, _, ⟨each, rfl⟩, written, _, ⟨expanded, rfl⟩, rfl⟩
        exact ⟨_, ⟨choices, each, written, expanded, rfl⟩, rfl⟩
      · rintro ⟨_, ⟨choices, each, written, expanded, rfl⟩, rfl⟩
        exact ⟨choices, _, ⟨each, rfl⟩, written, _, ⟨expanded, rfl⟩, rfl⟩
  | defaultArm result =>
      refine ⟨fun names => do
        let result ← Expr.expand names result.strip
        return ⟨["default".toList], result⟩, fun state after => ?_⟩
      simp only [perform, addArm, bind_eq_ok, expand_eq_ok, modify_eq_ok, Except.bind_eq_ok,
        Except.pure_eq_ok]
      constructor
      · rintro ⟨written, _, ⟨expanded, rfl⟩, rfl⟩
        exact ⟨_, ⟨written, expanded, rfl⟩, rfl⟩
      · rintro ⟨_, ⟨written, expanded, rfl⟩, rfl⟩
        exact ⟨written, _, ⟨expanded, rfl⟩, rfl⟩
  | _ => cases is_arm

end Statement

namespace Conversion

open Statement

section Lines

variable {line : Text} {statement : Statement} (spoken : line.isRemark = false)
  (found : read? line.strip = some statement)
include spoken found

theorem convertLine_of_started? {collected : Match} (header : statement.started? = some collected) :
    ∃ update : Names → Names, ∀ state, convertLine line state =
      .ok () { state.dedent line.indentOf with
        names := update state.names, collected := collected } := by
  obtain ⟨update, started⟩ := perform_of_started? header line.indentOf
  refine ⟨update, fun state => ?_⟩
  have applies : statement.applies (state.dedent line.indentOf) = true := by
    cases statement <;> first | rfl | cases header
  rw [convertLine_of_isRemark_eq_false spoken, convertBody_of_applies found applies, started,
    State.dedent_names]

/-- An arm is added to the match that is open, and nothing else happens. -/
theorem convertLine_of_isArm (is_arm : statement.isArm = true) :
    ∃ write : Names → Except Fault Arm, ∀ state after,
      (state.dedent line.indentOf).collected.isOpen = true →
        (convertLine line state = .ok () after ↔
          ∃ arm, write state.names = .ok arm ∧
            after = { state.dedent line.indentOf with
              collected := (state.dedent line.indentOf).collected.add [arm] }) := by
  obtain ⟨write, adds⟩ := perform_of_isArm is_arm line.indentOf
  refine ⟨write, fun state after isOpen => ?_⟩
  have applies : statement.applies (state.dedent line.indentOf) = true := by
    cases statement <;> first | exact isOpen | cases is_arm
  rw [convertLine_of_isRemark_eq_false spoken, convertBody_of_applies found applies, adds]
  simp only [State.dedent_names]

end Lines

end Conversion
end Ephp
