import Ephp.Text.Substitute

/-!
# Format texts

A format text is quoted and marked by a leading `f`.  Its body alternates between literal text and
placeholders in braces.  A placeholder runs to the next closing brace, or to the end of the body; an
opening brace inside it and a closing brace outside are ordinary characters.
-/

namespace Ephp
namespace Format

/-- A piece of the body of a format text. -/
inductive Segment where
  /-- Text to be written as it stands. -/
  | literal (text : Text)
  /-- An expression whose value is inserted. -/
  | placeholder (text : Text)
deriving DecidableEq, Repr

namespace Segment

/-- Put a character of literal text in front of the segments. -/
def consLiteral (char : Char) : List Segment → List Segment
  | .literal text :: segments => .literal (char :: text) :: segments
  | segments => .literal [char] :: segments

/-- Put a character in front of the placeholder that the segments start with. -/
def consPlaceholder (char : Char) : List Segment → List Segment
  | .placeholder text :: segments => .placeholder (char :: text) :: segments
  | segments => .placeholder [char] :: segments

end Segment

/-- The body of a format text: all behind the opening quote but the last character. -/
def body? : Text → Option Text
  | 'f' :: '"' :: rest => some rest.dropLast
  | 'f' :: '\'' :: rest => some rest.dropLast
  | _ => none

/-- The segments of a body; `inside` tells whether it starts inside a placeholder.  A placeholder
that is neither closed nor filled is none. -/
def segmentsFrom : Bool → Text → List Segment
  | _, [] => []
  | false, char :: rest =>
    if char = '{' then segmentsFrom true rest
    else Segment.consLiteral char (segmentsFrom false rest)
  | true, char :: rest =>
    if char = '}' then .placeholder [] :: segmentsFrom false rest
    else Segment.consPlaceholder char (segmentsFrom true rest)

/-- The segments of a body. -/
def segments (body : Text) : List Segment :=
  segmentsFrom false body

/-- Literal text as a double-quoted literal, with its double quotes escaped. -/
def quote (text : Text) : Text :=
  ['"'] ++ Text.replace ['"'] ['\\', '"'] text ++ ['"']

/-- The body of a format text has no more occurrences of a character than the text. -/
theorem count_body?_le {text body : Text} (found : body? text = some body) (mark : Char) :
    body.count mark ≤ text.count mark := by
  unfold body? at found
  split at found
  · cases found
    exact ((List.dropLast_sublist _).trans (List.sublist_append_right ['f', '"'] _)).count_le mark
  · cases found
    exact ((List.dropLast_sublist _).trans (List.sublist_append_right ['f', '\''] _)).count_le mark
  · simp at found

/-- A placeholder leaves out at least the opening brace in front of it, unless the body starts
inside it. -/
theorem count_placeholder_le {inside : Bool} {body text : Text}
    (mem : Segment.placeholder text ∈ segmentsFrom inside body) :
    text.count '{' + (if inside then 0 else 1) ≤ body.count '{' := by
  induction body generalizing inside text with
  | nil => simp [segmentsFrom] at mem
  | cons char rest ih =>
    cases inside with
    | false =>
      rw [segmentsFrom] at mem
      split at mem
      · rename_i brace
        have tail := ih mem
        simp [brace] at tail ⊢
        omega
      · have tail : Segment.placeholder text ∈ segmentsFrom false rest := by
          revert mem
          unfold Segment.consLiteral
          split <;> simp_all
        have := ih tail
        simp [List.count_cons] at this ⊢
        omega
    | true =>
      rw [segmentsFrom] at mem
      split at mem
      · simp only [List.mem_cons, Segment.placeholder.injEq] at mem
        rcases mem with rfl | mem
        · simp
        · have := ih mem
          simp [List.count_cons] at this ⊢
          omega
      · revert mem
        unfold Segment.consPlaceholder
        split
        · rename_i first segments split_eq
          intro mem
          simp only [List.mem_cons, Segment.placeholder.injEq] at mem
          rcases mem with rfl | mem
          · have := @ih true first (by simp [split_eq])
            simp [List.count_cons] at this ⊢
            omega
          · have := @ih true text (by simp [split_eq, mem])
            simp [List.count_cons] at this ⊢
            omega
        · intro mem
          simp only [List.mem_cons, Segment.placeholder.injEq] at mem
          rcases mem with rfl | mem
          · simp [List.count_cons]
          · have := ih mem
            simp [List.count_cons] at this ⊢
            omega

end Format
end Ephp
