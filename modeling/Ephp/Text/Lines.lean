import Ephp.Text.Blank

/-!
# Lines

The lines of a text are what stands between its line breaks.  A carriage return directly before a
line feed makes one break with it, and a break at the very end starts no further line.
-/

namespace Ephp
namespace Text

/-- Put a character in front of the first line. -/
def consLine (char : Char) : List Text → List Text
  | [] => [[char]]
  | line :: lines => (char :: line) :: lines

/-- The lines of a text. -/
def lines : Text → List Text
  | [] => []
  | '\r' :: '\n' :: rest => [] :: lines rest
  | char :: rest => if isLineBreak char then [] :: lines rest else consLine char (lines rest)

/-- Spell every line end of a text as a single line feed. -/
def unifyLineEnds : Text → Text
  | [] => []
  | '\r' :: '\n' :: rest => '\n' :: unifyLineEnds rest
  | char :: rest => (if char = '\r' then '\n' else char) :: unifyLineEnds rest

end Text
end Ephp
