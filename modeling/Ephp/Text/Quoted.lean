import Ephp.Text.Printable

/-!
# Quoted texts

A text is shown in quotes so that it stands on one line and its ends are visible: the quote and the
backslash are escaped, and so is every character that is not printable.
-/

namespace Ephp
namespace Text

/-- A number in hexadecimal digits, filled with zeros to a width. -/
def hexadecimal (width number : Nat) : Text :=
  let digits := Nat.toDigits 16 number
  List.replicate (width - digits.length) '0' ++ digits

/-- The escape of a character by its code point. -/
def escapeCode (code : Nat) : Text :=
  if code < 0x100 then "\\x".toList ++ hexadecimal 2 code
  else if code < 0x10000 then "\\u".toList ++ hexadecimal 4 code
  else "\\U".toList ++ hexadecimal 8 code

/-- A character inside a quoted text. -/
def escape (quote char : Char) : Text :=
  if char = quote ∨ char = '\\' then ['\\', char]
  else if char = '\t' then "\\t".toList
  else if char = '\n' then "\\n".toList
  else if char = '\r' then "\\r".toList
  else if isPrintable char then [char]
  else escapeCode char.toNat

/-- The quote around a text: a double quote if the text has single quotes only. -/
def quoteOf (text : Text) : Char :=
  if text.contains '\'' && !text.contains '"' then '"' else '\''

/-- A text in quotes. -/
def quoted (text : Text) : Text :=
  let quote := quoteOf text
  [quote] ++ text.flatMap (escape quote) ++ [quote]

end Text
end Ephp
