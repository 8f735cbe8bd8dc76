import Ephp.Text.Basic

/-!
# Blank characters and line breaks

The blank characters are the white space of Unicode together with the four information
separators; some of them also end a line.
-/

namespace Ephp
namespace Text

/-- Whether a character is blank. -/
def isBlank (char : Char) : Bool :=
  let code := char.toNat
  (0x09 ≤ code && code ≤ 0x0D) || (0x1C ≤ code && code ≤ 0x20) || code == 0x85 || code == 0xA0 ||
    code == 0x1680 || (0x2000 ≤ code && code ≤ 0x200A) || code == 0x2028 || code == 0x2029 ||
    code == 0x202F || code == 0x205F || code == 0x3000

/-- Whether a character ends a line. -/
def isLineBreak (char : Char) : Bool :=
  let code := char.toNat
  (0x0A ≤ code && code ≤ 0x0D) || (0x1C ≤ code && code ≤ 0x1E) || code == 0x85 ||
    code == 0x2028 || code == 0x2029

/-- Whether a character can stand inside a line, whose only end here is the line feed. -/
def isInline (char : Char) : Bool :=
  char != '\n'

/-- Remove the blank characters at both ends of a text. -/
def strip (text : Text) : Text :=
  trim isBlank text

/-- The number of blank characters in front of a text. -/
def indentOf (text : Text) : Int :=
  (text.takeWhile isBlank).length

/-- Every line break is blank. -/
theorem isBlank_of_isLineBreak {char : Char} (ends : isLineBreak char = true) :
    isBlank char = true := by
  simp only [isLineBreak, isBlank, Bool.or_eq_true, Bool.and_eq_true, decide_eq_true_eq,
    beq_iff_eq] at *
  omega

end Text
end Ephp
