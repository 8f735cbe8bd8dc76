import Ephp.Text.Basic

/-!
# Quoted literals

An expression alternates between code and quoted literals.  A literal runs from a quote to the next
quote of the same kind; a quote without a partner opens no literal, and the expression is code from
there to its end.
-/

namespace Ephp
namespace Expr

/-- A part of an expression. -/
inductive Part where
  /-- A stretch outside the literals. -/
  | code (text : Text)
  /-- A closed literal with its two quotes. -/
  | literal (text : Text)
deriving DecidableEq, Repr

namespace Part

/-- The characters of a part. -/
def text : Part → Text
  | .code text => text
  | .literal text => text

/-- Put a character of code in front of the parts. -/
def consCode (char : Char) : List Part → List Part
  | .code text :: parts => .code (char :: text) :: parts
  | parts => .code [char] :: parts

/-- Put a character in front of the literal that the parts start with. -/
def consLiteral (char : Char) : List Part → List Part
  | .literal text :: parts => .literal (char :: text) :: parts
  | parts => .literal [char] :: parts

end Part

/-- Whether a character is a quote. -/
def isQuote (char : Char) : Bool :=
  char == '"' || char == '\''

/-- The parts of an expression; `within` is the quote that closes the current literal, if the
text starts inside one. -/
def partsFrom : Option Char → Text → List Part
  | _, [] => []
  | none, char :: rest =>
    if isQuote char then
      if rest.contains char then Part.consLiteral char (partsFrom (some char) rest)
      else [.code (char :: rest)]
    else Part.consCode char (partsFrom none rest)
  | some quote, char :: rest =>
    if char = quote then .literal [char] :: partsFrom none rest
    else Part.consLiteral char (partsFrom (some quote) rest)

/-- The parts of an expression. -/
def parts (text : Text) : List Part :=
  partsFrom none text

end Expr
end Ephp
