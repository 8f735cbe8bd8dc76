import Ephp.Proofs.Tails

/-!
# When a format text is rejected

The body of a format text is read as literal text up to an opening brace, a placeholder up to the
next closing brace, and so on to the end of the body, which also ends a placeholder that is not
closed.  Nothing at all is read in the empty body and in a lone opening brace.  A format text with
such a body is rejected, and so is one with a placeholder whose expression is rejected; everything
else can be expanded.
-/

namespace Ephp
namespace Format

open Segment

/-- A text starts with the mark of format texts and a quote. -/
def Marked (text : Text) : Prop :=
  List.IsPrefix "f\"".toList text ∨ List.IsPrefix "f'".toList text

/-- A text without its first two characters and its last one. -/
def content (text : Text) : Text :=
  (text.drop 2).dropLast

/-- A body has a placeholder: it runs from an opening brace that is met outside of the placeholders
to the next closing brace, or to the end of the body if there is none and something is left. -/
inductive HasPlaceholder : Text → Text → Prop
  | closed {front inner rest : Text} (unopened : '{' ∉ front) (unclosed : '}' ∉ inner) :
      HasPlaceholder (front ++ '{' :: (inner ++ '}' :: rest)) inner
  | ended {front inner : Text} (unopened : '{' ∉ front) (unclosed : '}' ∉ inner)
      (filled : inner ≠ []) : HasPlaceholder (front ++ '{' :: inner) inner
  | later {front passed rest inner : Text} (unopened : '{' ∉ front) (unclosed : '}' ∉ passed)
      (behind : HasPlaceholder rest inner) :
      HasPlaceholder (front ++ '{' :: (passed ++ '}' :: rest)) inner

/-! ## The body of a format text -/

theorem body?_of_marked {text : Text} (marked : Marked text) :
    body? text = some (content text) := by
  rcases marked with ⟨rest, rfl⟩ | ⟨rest, rfl⟩ <;> rfl

theorem marked_of_body? {text body : Text} (found : body? text = some body) : Marked text := by
  unfold body? at found
  split at found
  · exact .inl (List.prefix_append ['f', '"'] _)
  · exact .inr (List.prefix_append ['f', '\''] _)
  · cases found

theorem isSome_body?_iff {text : Text} : (body? text).isSome = true ↔ Marked text := by
  constructor
  · intro found
    obtain ⟨body, found⟩ := Option.isSome_iff_exists.mp found
    exact marked_of_body? found
  · intro marked
    rw [body?_of_marked marked]
    rfl

/-! ## Reading a body -/

/-- The segment of literal text, if there is any. -/
def literals (text : Text) : List Segment :=
  if text = [] then [] else [literal text]

theorem literals_eq_nil_iff {text : Text} : literals text = [] ↔ text = [] := by
  simp [literals]

theorem placeholder_not_mem_literals {text inner : Text} : placeholder inner ∉ literals text := by
  unfold literals
  split <;> simp

/-- A body is read as one piece of literal text, or up to its first placeholder, which is not
closed, or up to there and then as the body behind it. -/
theorem body_induct {motive : Text → Prop}
    (literal : ∀ front, '{' ∉ front → motive front)
    (ended : ∀ front inner, '{' ∉ front → '}' ∉ inner → motive (front ++ '{' :: inner))
    (closed : ∀ front inner rest, '{' ∉ front → '}' ∉ inner → motive rest →
      motive (front ++ '{' :: (inner ++ '}' :: rest)))
    (body : Text) : motive body := by
  generalize size : body.length = length
  induction length using Nat.strongRecOn generalizing body with
  | _ length ih =>
      by_cases opened : '{' ∈ body
      · obtain ⟨front, behind, rfl, unopened⟩ := List.eq_append_cons_of_mem opened
        by_cases shut : '}' ∈ behind
        · obtain ⟨inner, rest, rfl, unclosed⟩ := List.eq_append_cons_of_mem shut
          refine closed front inner rest unopened unclosed (ih rest.length ?_ rest rfl)
          simp only [← size, List.length_append, List.length_cons]
          omega
        · exact ended front behind unopened shut
      · exact literal body opened

/-- A body that starts inside a placeholder does not start with literal text. -/
theorem head?_segmentsFrom_true (body : Text) :
    ∀ next ∈ (segmentsFrom true body).head?, next.isLiteral = false := by
  cases body with
  | nil => exact fun _ mem => nomatch mem
  | cons char rest =>
      rw [segmentsFrom]
      split
      · exact fun _ mem => Option.some.inj mem ▸ rfl
      · unfold consPlaceholder
        split
        · exact fun _ mem => Option.some.inj mem ▸ rfl
        · exact fun _ mem => Option.some.inj mem ▸ rfl

theorem segments_opened {front : Text} (unopened : '{' ∉ front) (rest : Text) :
    segments (front ++ '{' :: rest) = literals front ++ segmentsFrom true rest := by
  have inside : segmentsFrom false ('{' :: rest) = segmentsFrom true rest := by
    rw [segmentsFrom, if_pos rfl]
  by_cases empty : front = []
  · rw [empty, literals, if_pos rfl, List.nil_append, List.nil_append, segments, inside]
  · -- Nothing of the placeholder is added to the literal text in front of it.
    have ends := head?_segmentsFrom_true rest
    rw [← inside] at ends
    rw [literals, if_neg empty, segments, segmentsFrom_literal empty unopened ends, inside,
      List.singleton_append]

theorem segments_literal {front : Text} (unopened : '{' ∉ front) :
    segments front = literals front := by
  by_cases empty : front = []
  · rw [empty]
    rfl
  · rw [segments_of_unopened empty unopened, literals, if_neg empty]

theorem segmentsFrom_ended {inner : Text} (unclosed : '}' ∉ inner) (filled : inner ≠ []) :
    segmentsFrom true inner = [placeholder inner] := by
  induction inner with
  | nil => exact absurd rfl filled
  | cons char inner ih =>
      obtain ⟨other, unclosed⟩ := not_or.mp (mt List.mem_cons.mpr unclosed)
      rw [segmentsFrom, if_neg (Ne.symm other)]
      cases inner with
      | nil => rfl
      | cons second inner => rw [ih unclosed (List.cons_ne_nil _ _), consPlaceholder]

theorem segments_closed {front inner : Text} (unopened : '{' ∉ front) (unclosed : '}' ∉ inner)
    (rest : Text) :
    segments (front ++ '{' :: (inner ++ '}' :: rest)) =
      literals front ++ placeholder inner :: segments rest := by
  rw [segments_opened unopened, segmentsFrom_placeholder unclosed]
  rfl

theorem segments_ended {front inner : Text} (unopened : '{' ∉ front) (unclosed : '}' ∉ inner)
    (filled : inner ≠ []) :
    segments (front ++ '{' :: inner) = literals front ++ [placeholder inner] := by
  rw [segments_opened unopened, segmentsFrom_ended unclosed filled]

/-- Nothing is read in the empty body and in a lone opening brace, and something in any other. -/
theorem segments_eq_nil_iff {body : Text} : segments body = [] ↔ body = [] ∨ body = ['{'] := by
  constructor
  · induction body using body_induct with
    | literal front unopened =>
        rw [segments_literal unopened, literals_eq_nil_iff]
        exact .inl
    | ended front inner unopened unclosed =>
        rw [segments_opened unopened, List.append_eq_nil_iff, literals_eq_nil_iff]
        rintro ⟨rfl, empty⟩
        by_cases filled : inner = []
        · exact .inr (by rw [filled, List.nil_append])
        · rw [segmentsFrom_ended unclosed filled] at empty
          cases empty
    | closed front inner rest unopened unclosed _ =>
        rw [segments_closed unopened unclosed, List.append_eq_nil_iff]
        rintro ⟨_, empty⟩
        cases empty
  · rintro (rfl | rfl) <;> rfl

/-- The placeholders that are read in a body are those that it has. -/
theorem placeholder_mem_segments_iff {body inner : Text} :
    placeholder inner ∈ segments body ↔ HasPlaceholder body inner := by
  constructor
  · induction body using body_induct with
    | literal front unopened =>
        rw [segments_literal unopened]
        exact fun mem => absurd mem placeholder_not_mem_literals
    | ended front passed unopened unclosed =>
        rw [segments_opened unopened, List.mem_append,
          or_iff_right placeholder_not_mem_literals]
        by_cases filled : passed = []
        · rw [filled]
          exact fun mem => nomatch mem
        · rw [segmentsFrom_ended unclosed filled, List.mem_singleton, placeholder.injEq]
          rintro rfl
          exact .ended unopened unclosed filled
    | closed front passed rest unopened unclosed ih =>
        rw [segments_closed unopened unclosed, List.mem_append,
          or_iff_right placeholder_not_mem_literals, List.mem_cons, placeholder.injEq]
        rintro (rfl | mem)
        · exact .closed unopened unclosed
        · exact .later unopened unclosed (ih mem)
  · intro has
    induction has with
    | closed unopened unclosed =>
        rw [segments_closed unopened unclosed]
        exact List.mem_append_right _ List.mem_cons_self
    | ended unopened unclosed filled =>
        rw [segments_ended unopened unclosed filled]
        exact List.mem_append_right _ List.mem_cons_self
    | later unopened unclosed _ ih =>
        rw [segments_closed unopened unclosed]
        exact List.mem_append_right _ (List.mem_cons_of_mem _ ih)

end Format

namespace Expr

open Format

/-- An action that does not fail returns. -/
theorem FailsIf.returns {α : Type} {cause : Prop} {action : Except Fault α}
    (fails : FailsIf cause action) (passed : ¬cause) : ∃ answer, action = .ok answer := by
  cases done : action with
  | ok answer => exact ⟨answer, rfl⟩
  | error fault => exact absurd ((fails fault).mp done).2 passed

/-- Why a text cannot be expanded as a format text: there is nothing to write for it, or the
expression of one of its placeholders cannot be expanded. -/
def Rejects (names : Names) (text : Text) : Prop :=
  Marked text ∧ (content text = [] ∨ content text = ['{'] ∨
    ∃ inner, HasPlaceholder (content text) inner ∧
      ∃ fault, expand names inner.strip = .error fault)

theorem hollow_iff_fails {names : Names} {text : Text} :
    Hollow text ↔ ∃ fault, expand names text = .error fault := by
  have needs := needs_expand names text
  simp only [Needs, List.mem_singleton, exists_eq_left] at needs
  constructor
  · exact fun hollow => ⟨_, (needs .emptyFormat).mpr ⟨rfl, hollow⟩⟩
  · rintro ⟨fault, failed⟩
    exact ((needs fault).mp failed).2

theorem failsIf_rejects (names : Names) (text : Text) :
    FailsIf (Rejects names text) (expandFormat names text) := by
  by_cases marked : Marked text
  · have found := body?_of_marked marked
    have fails := failsIf_expandFormat found fun inner _ => needs_expand names inner.strip
    have hollow : (∃ inner ∈ (segments (content text)).flatMap segmentExpressions, Hollow inner) ↔
        ∃ inner, HasPlaceholder (content text) inner ∧
          ∃ fault, expand names inner.strip = .error fault := by
      constructor
      · rintro ⟨_, mem, hollow⟩
        obtain ⟨segment, read, mem⟩ := List.mem_flatMap.mp mem
        cases segment with
        | literal _ => cases mem
        | placeholder inner =>
            obtain rfl := List.mem_singleton.mp mem
            exact ⟨inner, placeholder_mem_segments_iff.mp read, hollow_iff_fails.mp hollow⟩
      · rintro ⟨inner, has, failed⟩
        exact ⟨inner.strip, List.mem_flatMap.mpr
          ⟨_, placeholder_mem_segments_iff.mpr has, List.mem_singleton_self _⟩,
            hollow_iff_fails.mpr failed⟩
    rw [hollow, segments_eq_nil_iff, or_comm, or_assoc] at fails
    intro fault
    rw [fails fault, Rejects, and_iff_right marked]
  · have plain : body? text = none := by
      rwa [← Option.not_isSome_iff_eq_none, isSome_body?_iff]
    intro fault
    rw [expandFormat, plain]
    simp [Rejects, marked]

theorem failsIf_expand (names : Names) (text : Text) :
    FailsIf (Marked (convertCalls text) ∧ ∃ fault, expandFormat names (convertCalls text) =
      .error fault) (expand names text) := by
  intro fault
  rw [expand_eq]
  by_cases marked : Marked (convertCalls text)
  · have only := failsIf_rejects names (convertCalls text) fault
    rw [if_pos (isSome_body?_iff.mpr marked), and_iff_right marked]
    constructor
    · exact fun failed => ⟨(only.mp failed).1, fault, failed⟩
    · rintro ⟨rfl, other, failed⟩
      exact ((failsIf_rejects names _ other).mp failed).1 ▸ failed
  · rw [if_neg (mt isSome_body?_iff.mp marked)]
    simp [marked]

/-- A format text is rejected exactly if its body is empty or a lone opening brace, or if the
expression of one of its placeholders is rejected.  An expression is rejected exactly if it is a
format text once its calls are converted, and is rejected as such.  The fault is always the same,
and in every other case there is a result. -/
theorem format_rejected_iff (names : Names) (text : Text) :
    (∀ fault, expandFormat names text = .error fault ↔
      fault = .emptyFormat ∧ Rejects names text) ∧
    (∀ fault, expand names text = .error fault ↔
      fault = .emptyFormat ∧ Marked (convertCalls text) ∧
        ∃ cause, expandFormat names (convertCalls text) = .error cause) ∧
    (¬Rejects names text → ∃ written, expandFormat names text = .ok written) ∧
    (¬(Marked (convertCalls text) ∧ ∃ cause, expandFormat names (convertCalls text) =
      .error cause) → ∃ written, expand names text = .ok written) :=
  ⟨failsIf_rejects names text, failsIf_expand names text, (failsIf_rejects names text).returns,
    (failsIf_expand names text).returns⟩

-- The second brace opens nothing, and what is left of the placeholder is a brace.
example : expandFormat .empty "f\"\x7b\x7b\"".toList = .ok ['{'] := by
  decide +kernel

end Expr
end Ephp
