import Ephp.Text.Word

/-!
# Known names

A conversion remembers the variables and the constants that the program has introduced so far.
Only a variable that is not also a constant is written with a sigil.
-/

namespace Ephp

/-- The names known at a point of the program, each listed once. -/
structure Names where
  /-- Names introduced as variables. -/
  declared : List Text
  /-- Names introduced as constants. -/
  defined : List Text
deriving DecidableEq, Repr

namespace Names

/-- No name is known. -/
def empty : Names := ⟨[], []⟩

/-- Introduce a variable. -/
def declare (names : Names) (name : Text) : Names :=
  { names with declared := names.declared.insert name }

/-- Introduce a constant. -/
def define (names : Names) (name : Text) : Names :=
  { names with defined := names.defined.insert name }

/-- Whether a word of an expression takes a sigil: it is an identifier that names a variable and
no constant. -/
def takesSigil (names : Names) (word : Text) : Bool :=
  word.isIdentifier && names.declared.contains word && !names.defined.contains word

end Names
end Ephp
