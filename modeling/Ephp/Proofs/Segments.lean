import Ephp.Proofs.Faults
import Ephp.Proofs.Path

/-!
# Segments of format texts

The body of a format text is read as a list of segments.  Written one after another, with braces
around the placeholders, segments are read back as they were if every literal has some text, none
has an opening brace, no two literals are neighbours, and no placeholder has a closing brace.  A
format text is then expanded by writing its segments one by one.
-/

namespace Ephp

namespace Text

/-- Replacing a single character is done character by character. -/
theorem replace_singleton (mark : Char) (new text : Text) :
    replace [mark] new text = text.flatMap fun char => if char = mark then new else [char] := by
  have filled : [mark] ≠ [] := List.cons_ne_nil mark []
  induction text using replace_induct filled with
  | nil => rfl
  | occurrence rest ih =>
      rw [replace_occurrence filled, ih, List.singleton_append, List.flatMap_cons, if_pos rfl]
  | copied char rest other ih =>
      have distinct : char ≠ mark := by
        rintro rfl
        exact other (List.prefix_append [char] rest)
      rw [replace_cons other, ih, List.flatMap_cons, if_neg distinct, List.singleton_append]

end Text

namespace Format

namespace Segment

/-- A segment as it stands in a body. -/
def render : Segment → Text
  | literal text => text
  | placeholder text => '{' :: text ++ ['}']

/-- A segment that ends where it should: a literal has some text and no opening brace, and a
placeholder has no closing brace. -/
def Sound : Segment → Prop
  | literal text => text ≠ [] ∧ '{' ∉ text
  | placeholder text => '}' ∉ text

instance (segment : Segment) : Decidable segment.Sound :=
  match segment with
  | literal _ => inferInstanceAs (Decidable (_ ∧ _))
  | placeholder _ => inferInstanceAs (Decidable ¬_)

/-- Whether a segment is literal text. -/
def isLiteral : Segment → Bool
  | literal _ => true
  | placeholder _ => false

/-- Write a segment: literal text as a double-quoted literal with a backslash in front of its double
quotes, and a placeholder as the expression in it. -/
def write (names : Names) : Segment → Except Fault Text
  | literal text =>
    .ok (['"'] ++ text.flatMap (fun char => if char = '"' then ['\\', '"'] else [char]) ++ ['"'])
  | placeholder text => Expr.expand names text.strip

theorem write_eq_expandSegment (names : Names) (segment : Segment) :
    segment.write names = Expr.expandSegment names segment := by
  cases segment with
  | literal text => rw [write, Expr.expandSegment, quote, Text.replace_singleton]
  | placeholder text => rfl

end Segment

open Segment

/-- The segments of a body, in order. -/
structure Layout where
  segments : List Segment
  filled : segments ≠ []
  sound : ∀ segment ∈ segments, segment.Sound
  apart : segments.IsChain fun left right => (left.isLiteral && right.isLiteral) = false

/-- The format text with a quote and a layout of its body. -/
def Layout.text (quote : Char) (layout : Layout) : Text :=
  'f' :: quote :: (layout.segments.flatMap Segment.render ++ [quote])

/-! ## Reading segments back -/

/-- Literal text is read to its end if no literal text follows it. -/
theorem segmentsFrom_literal {text rest : Text} (filled : text ≠ []) (unopened : '{' ∉ text)
    (ends : ∀ next ∈ (segmentsFrom false rest).head?, next.isLiteral = false) :
    segmentsFrom false (text ++ rest) = literal text :: segmentsFrom false rest := by
  induction text with
  | nil => exact absurd rfl filled
  | cons char text ih =>
      obtain ⟨other, unopened⟩ := not_or.mp (mt List.mem_cons.mpr unopened)
      rw [List.cons_append, segmentsFrom, if_neg (Ne.symm other)]
      cases text with
      | cons second text => rw [ih (by simp) unopened, consLiteral]
      | nil =>
          rw [List.nil_append]
          cases behind : segmentsFrom false rest with
          | nil => rfl
          | cons next others =>
              have placed := ends next (by rw [behind]; rfl)
              cases next with
              | literal text => simp [isLiteral] at placed
              | placeholder text => rfl

theorem segmentsFrom_placeholder {text : Text} (unclosed : '}' ∉ text) (rest : Text) :
    segmentsFrom true (text ++ '}' :: rest) = placeholder text :: segmentsFrom false rest := by
  induction text with
  | nil => rfl
  | cons char text ih =>
      obtain ⟨other, unclosed⟩ := not_or.mp (mt List.mem_cons.mpr unclosed)
      rw [List.cons_append, segmentsFrom, if_neg (Ne.symm other), ih unclosed, consPlaceholder]

theorem segments_flatMap_render {segments : List Segment}
    (sound : ∀ segment ∈ segments, segment.Sound)
    (apart : segments.IsChain fun left right => (left.isLiteral && right.isLiteral) = false) :
    segmentsFrom false (segments.flatMap Segment.render) = segments := by
  induction segments with
  | nil => rfl
  | cons segment segments ih =>
      obtain ⟨first, others⟩ := List.forall_mem_cons.mp sound
      obtain ⟨beside, apart⟩ := List.isChain_cons.mp apart
      have behind := ih others apart
      rw [List.flatMap_cons]
      cases segment with
      | literal text =>
          obtain ⟨filled, unopened⟩ := first
          have placed (next : Segment) (mem : next ∈ segments.head?) : next.isLiteral = false := by
            simpa [isLiteral] using beside next mem
          rw [render, segmentsFrom_literal filled unopened (by rwa [behind]), behind]
      | placeholder text =>
          have opened : render (placeholder text) ++ segments.flatMap render =
              '{' :: (text ++ '}' :: segments.flatMap render) := by
            simp [render]
          rw [opened, segmentsFrom, if_pos rfl, segmentsFrom_placeholder first, behind]

theorem body?_layout {quote : Char} (quoted : Expr.isQuote quote = true) (layout : Layout) :
    body? (layout.text quote) = some (layout.segments.flatMap Segment.render) := by
  have either : quote = '"' ∨ quote = '\'' := by simpa [Expr.isQuote] using quoted
  rcases either with rfl | rfl
  · simp [Layout.text, body?]
  · simp [Layout.text, body?]

end Format

/-! ## Writing segments one by one -/

theorem Except.mapM_eq_ok_iff {ε α β : Type} {action : α → Except ε β} {items : List α}
    {answers : List β} :
    items.mapM action = .ok answers ↔ items.map action = answers.map .ok := by
  induction items generalizing answers with
  | nil => rw [List.mapM_nil, pure_eq_ok, List.map_nil, eq_comm, eq_comm (a := []),
      List.map_eq_nil_iff]
  | cons item items ih =>
      simp only [List.mapM_cons, bind_eq_ok, pure_eq_ok, ih, List.map_cons]
      constructor
      · rintro ⟨answer, one, others, rest, rfl⟩
        rw [one, rest, List.map_cons]
      · intro each
        cases answers with
        | nil => simp at each
        | cons answer answers =>
            obtain ⟨one, rest⟩ := List.cons.inj each
            exact ⟨answer, one, answers, rest, rfl⟩

/-- Where there is one kind of fault only, a list of actions fails exactly if one of them does. -/
theorem Except.mapM_eq_error_iff {ε α β : Type} {action : α → Except ε β} {items : List α}
    (single : ∀ {item other fault fault'}, action item = .error fault →
      action other = .error fault' → fault = fault') {fault : ε} :
    items.mapM action = .error fault ↔ ∃ item ∈ items, action item = .error fault := by
  induction items with
  | nil =>
      simp only [List.not_mem_nil, false_and, exists_false, iff_false]
      exact fun failed => nomatch failed
  | cons item items ih =>
      rw [List.mapM_cons, List.exists_mem_cons_iff, ← ih]
      cases one : action item with
      | error found =>
          change Except.error found = .error fault ↔ _
          rw [Except.error.injEq, Except.error.injEq]
          constructor
          · exact .inl
          · rintro (same | failed)
            · exact same
            · obtain ⟨other, _, failed⟩ := ih.mp failed
              exact single one failed
      | ok answer =>
          cases rest : items.mapM action with
          | error found =>
              change Except.error found = .error fault ↔ _
              simp
          | ok answers =>
              change Except.ok (answer :: answers) = .error fault ↔ _
              simp

namespace Expr

open Format

theorem expandFormat_of_layout (names : Names) {quote : Char} (quoted : isQuote quote = true)
    (layout : Layout) :
    expandFormat names (layout.text quote) =
      layout.segments.mapM (Segment.write names) >>= joinSegments := by
  have read : segments (layout.segments.flatMap Segment.render) = layout.segments :=
    segments_flatMap_render layout.sound layout.apart
  have same : expandSegment names = Segment.write names :=
    funext fun segment => (segment.write_eq_expandSegment names).symm
  simp only [expandFormat, body?_layout quoted, read, same]

theorem joinSegments_of_ne_nil {texts : List Text} (filled : texts ≠ []) :
    joinSegments texts = .ok (Text.join " . ".toList texts) := by
  cases texts with
  | nil => exact absurd rfl filled
  | cons text texts => rfl

theorem single_fault {names : Names} {segment other : Segment} {fault fault' : Fault}
    (failed : segment.write names = .error fault)
    (other_failed : other.write names = .error fault') : fault = fault' := by
  have known {segment : Segment} {fault : Fault} (failed : segment.write names = .error fault) :
      fault = .emptyFormat := by
    cases segment with
    | literal text => cases failed
    | placeholder text => exact ((needs_expand names text.strip fault).mp failed).1
  rw [known failed, known other_failed]

/-- Segments that are written one after another in a format text are read back, and the format text
is expanded to what its segments are written as, in order, with the sign of concatenation between
them.  This fails exactly if the expression of a placeholder cannot be expanded. -/
theorem expandFormat_layout (names : Names) {quote : Char} (quoted : isQuote quote = true)
    (layout : Layout) :
    (body? (layout.text quote)).map segments = some layout.segments ∧
      (∀ text, expandFormat names (layout.text quote) = .ok text ↔
        ∃ parts, layout.segments.map (Segment.write names) = parts.map .ok ∧
          text = Text.join " . ".toList parts) ∧
      ∀ fault, expandFormat names (layout.text quote) = .error fault ↔
        ∃ inner, Segment.placeholder inner ∈ layout.segments ∧
          expand names inner.strip = .error fault := by
  have filled {parts : List Text}
      (written : layout.segments.mapM (Segment.write names) = .ok parts) : parts ≠ [] :=
    mt (eq_nil_of_mapM written).mp layout.filled
  refine ⟨?_, fun text => ?_, fun fault => ?_⟩
  · rw [body?_layout quoted, Option.map_some]
    exact congrArg some (segments_flatMap_render layout.sound layout.apart)
  · rw [expandFormat_of_layout names quoted, Except.bind_eq_ok]
    refine exists_congr fun parts => ?_
    rw [← Except.mapM_eq_ok_iff]
    refine and_congr_right fun written => ?_
    rw [joinSegments_of_ne_nil (filled written), Except.ok.injEq, eq_comm]
  · rw [expandFormat_of_layout names quoted]
    have failed : (layout.segments.mapM (Segment.write names) >>= joinSegments) = .error fault ↔
        layout.segments.mapM (Segment.write names) = .error fault := by
      cases written : layout.segments.mapM (Segment.write names) with
      | error found =>
          change Except.error found = .error fault ↔ _
          rw [Except.error.injEq, Except.error.injEq]
      | ok parts =>
          change joinSegments parts = .error fault ↔ _
          rw [joinSegments_of_ne_nil (filled written)]
          simp
    rw [failed, Except.mapM_eq_error_iff fun {_ _ _ _} => single_fault]
    constructor
    · rintro ⟨segment, mem, failed⟩
      cases segment with
      | literal text => cases failed
      | placeholder inner => exact ⟨inner, mem, failed⟩
    · rintro ⟨inner, mem, failed⟩
      exact ⟨_, mem, failed⟩

/-- Quotes and braces that do not count, and an empty placeholder beside another one. -/
def tangledLayout : Layout where
  segments := [.literal "\"\x7d".toList, .placeholder " x".toList, .placeholder [],
    .literal ['\''], .placeholder ['{']]
  filled := by simp
  sound := by decide
  apart := by decide

/-- A format text without a body inside another one. -/
def hollowLayout : Layout where
  segments := [.literal ['a'], .placeholder "f'".toList]
  filled := by simp
  sound := by decide
  apart := by decide

theorem expandFormat_layout_tangled :
    expandFormat ⟨[['x']], []⟩ (tangledLayout.text '"') =
        .ok "\"\\\"\x7d\" . $x .  . \"'\" . \x7b".toList ∧
      expandFormat ⟨[['x']], []⟩ (hollowLayout.text '\'') = .error .emptyFormat := by
  constructor
  · refine ((expandFormat_layout _ rfl tangledLayout).2.1 _).mpr
      ⟨["\"\\\"\x7d\"".toList, "$x".toList, [], "\"'\"".toList, ['{']], ?_, by decide⟩
    decide +kernel
  · refine ((expandFormat_layout _ rfl hollowLayout).2.2 _).mpr ⟨"f'".toList, by decide, ?_⟩
    decide +kernel

end Expr
end Ephp
