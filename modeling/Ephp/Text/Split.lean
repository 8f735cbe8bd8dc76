import Ephp.Text.Blank

/-!
# Splitting texts

A text is split at every occurrence of a separator, or only at its first or its last one.
Occurrences are taken from left to right and never overlap.
-/

namespace Ephp
namespace Text

/-- Split at the occurrences of `separator`, after passing over the first `skip` characters. -/
def splitAfter (separator : Text) : Nat → Text → List Text
  | _, [] => [[]]
  | skip + 1, _ :: rest => splitAfter separator skip rest
  | 0, char :: rest =>
    if separator.isPrefixOf (char :: rest) then
      [] :: splitAfter separator (separator.length - 1) rest
    else
      (splitAfter separator 0 rest).modifyHead (char :: ·)

/-- The parts of a text between the occurrences of `separator`. -/
def splitAt (text separator : Text) : List Text :=
  splitAfter separator 0 text

/-- The parts of a text before and after the first `mark`. -/
def splitFirst? (mark : Char) : Text → Option (Text × Text)
  | [] => none
  | char :: rest =>
    if char = mark then some ([], rest)
    else (splitFirst? mark rest).map fun (front, back) => (char :: front, back)

/-- The parts of a text before and after the last `mark`. -/
def splitLast? (mark : Char) : Text → Option (Text × Text)
  | [] => none
  | char :: rest =>
    match splitLast? mark rest with
    | some (front, back) => some (char :: front, back)
    | none => if char = mark then some ([], rest) else none

/-- The parts of a text between its commas, without the blanks around them. -/
def items (text : Text) : List Text :=
  (text.splitOn ',').map strip

end Text
end Ephp
