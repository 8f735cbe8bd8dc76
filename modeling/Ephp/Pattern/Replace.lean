import Ephp.Pattern.Match
import Ephp.Text.Substitute

/-!
# Replacing matches

Every match of a pattern, taken from left to right, is replaced by a text written from the spans
that the match keeps.
-/

namespace Ephp
namespace Pattern

/-- The substitution rule that writes `write kept` for a match that keeps `kept`. -/
def rule {α : Type} (pattern : Pattern α) (write : α → Text) (text : Text) :
    Option (Text × Text) :=
  (pattern.match? text).map fun (kept, behind) => (write kept, behind)

/-- Replace every match of a pattern by what `write` makes of its kept spans. -/
def replace {α : Type} (pattern : Pattern α) (write : α → Text) (text : Text) : Text :=
  Text.substitute (pattern.rule write) text

/-- A replacement adds no `mark` if no written text has more of them than its kept spans. -/
theorem count_replace_le {α : Type} (mark : Char) (pattern : Pattern α) (write : α → Text)
    (keeps : ∀ kept, (write kept).count mark ≤ (pattern.fields kept).flatten.count mark)
    (text : Text) : (pattern.replace write text).count mark ≤ text.count mark := by
  refine Text.count_substitute_le mark _ ?_ text
  intro text written behind applied
  simp only [rule, Option.map_eq_some_iff, Prod.exists, Prod.mk.injEq] at applied
  obtain ⟨kept, _, matched, rfl, rfl⟩ := applied
  refine ⟨isSuffix_of_match? matched, ?_⟩
  have counted := (fields_sublist_of_match? matched).count_le mark
  rw [List.count_append] at counted
  have := keeps kept
  omega

end Pattern

namespace Text

/-- Replacing a word by one without `mark` adds no `mark`. -/
theorem count_replace_le (old : Text) {new : Text} {mark : Char} (free : new.count mark = 0)
    (text : Text) : (replace old new text).count mark ≤ text.count mark := by
  refine count_substitute_le mark _ ?_ text
  intro text written behind applied
  simp only [Option.map_eq_some_iff, after?_eq_some_iff, Prod.mk.injEq] at applied
  obtain ⟨_, rfl, rfl, rfl⟩ := applied
  exact ⟨List.suffix_append _ _, by simp [free]⟩

end Text
end Ephp
