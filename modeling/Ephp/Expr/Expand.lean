import Ephp.Expr.Format
import Ephp.Expr.Keyword
import Ephp.Expr.Literal
import Ephp.Expr.Sigil
import Ephp.Fault

/-!
# Expanding expressions

An expression of the source becomes an expression of the output.  Its calls are converted first.
If it then is a format text, its segments are joined by concatenation, where each placeholder is
expanded in turn; otherwise its code gets sigils and keyword spellings, and its quoted literals
stay.  A placeholder has fewer opening braces than the expression around it, so the expansion ends.
-/

namespace Ephp
namespace Expr

/-- Write a part of an expression for the output. -/
def expandPart (names : Names) : Part → Text
  | .literal text => text
  | .code text => respellKeywords (markVariables names text)

/-- Expand an expression that is no format text.  Two dots, which join texts, become one. -/
def expandPlain (names : Names) (text : Text) : Text :=
  (parts (Text.replace "..".toList ['.'] text)).flatMap (expandPart names)

/-- Join the written segments of a format text, of which there has to be one. -/
def joinSegments : List Text → Except Fault Text
  | [] => .error .emptyFormat
  | texts => .ok (Text.join " . ".toList texts)

/-- A placeholder of a format text has fewer opening braces than the format text. -/
theorem count_strip_lt {text body inner : Text} (found : Format.body? text = some body)
    (mem : Format.Segment.placeholder inner ∈ Format.segments body) :
    inner.strip.count '{' < text.count '{' := by
  have stripped : inner.strip.count '{' ≤ inner.count '{' :=
    (Text.trim_sublist Text.isBlank inner).count_le '{'
  have opened : inner.count '{' + 1 ≤ body.count '{' := Format.count_placeholder_le mem
  have bounded := Format.count_body?_le found '{'
  omega

/-- A placeholder of a format text has fewer opening braces than the expression that the format
text came from. -/
theorem count_placeholder_lt {text body inner : Text}
    (found : Format.body? (convertCalls text) = some body)
    (mem : Format.Segment.placeholder inner ∈ Format.segments body) :
    inner.strip.count '{' < text.count '{' :=
  Nat.lt_of_lt_of_le (count_strip_lt found mem) (count_convertCalls_le rfl text)

/-- Expand an expression. -/
def expand (names : Names) (text : Text) : Except Fault Text :=
  match _found : Format.body? (convertCalls text) with
  | some body => do
    let written ← (Format.segments body).attach.mapM fun
      | ⟨.literal text, _⟩ => .ok (Format.quote text)
      | ⟨.placeholder inner, _⟩ => expand names inner.strip
    joinSegments written
  | none => .ok (expandPlain names (convertCalls text))
termination_by text.count '{'
decreasing_by exact count_placeholder_lt ‹_› (by assumption)

/-- Write a segment of a format text for the output. -/
def expandSegment (names : Names) : Format.Segment → Except Fault Text
  | .literal text => .ok (Format.quote text)
  | .placeholder text => expand names text.strip

/-- Expand a format text; any other text is left as it is. -/
def expandFormat (names : Names) (text : Text) : Except Fault Text :=
  match Format.body? text with
  | some body => do joinSegments (← (Format.segments body).mapM (expandSegment names))
  | none => .ok text

/-- An expression is expanded as a format text if it is one once its calls are converted. -/
theorem expand_eq (names : Names) (text : Text) :
    expand names text =
      if (Format.body? (convertCalls text)).isSome then expandFormat names (convertCalls text)
      else .ok (expandPlain names (convertCalls text)) := by
  rw [expand]
  split
  · rename_i body found
    have pointwise : (fun (segment : { x // x ∈ Format.segments body }) =>
        expandSegment names segment.val) = fun
          | ⟨.literal text, _⟩ => .ok (Format.quote text)
          | ⟨.placeholder inner, _⟩ => expand names inner.strip := by
      funext ⟨segment, mem⟩
      cases segment <;> rfl
    have attached : (Format.segments body).attach.mapM (fun segment =>
        expandSegment names segment.val) = (Format.segments body).mapM (expandSegment names) := by
      simp
    simp only [found, Option.isSome_some, if_true, expandFormat]
    rw [← attached, pointwise]
  · rename_i found
    simp [found]

end Expr
end Ephp
