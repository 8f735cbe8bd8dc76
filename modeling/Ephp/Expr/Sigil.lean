import Ephp.Names

/-!
# Sigils

Variables are written with a sigil.  A word of the code is a maximal run of word characters, and it
takes a sigil exactly when it is a known variable.
-/

namespace Ephp
namespace Expr

/-- The maximal runs of word characters and of other characters, in order. -/
def runs (text : Text) : List Text :=
  text.splitBy fun left right => Text.isWordChar left == Text.isWordChar right

/-- Write a run of characters, with a sigil if it names a variable. -/
def markRun (names : Names) (run : Text) : Text :=
  if names.takesSigil run then '$' :: run else run

/-- Write the variables of a stretch of code with their sigils. -/
def markVariables (names : Names) (text : Text) : Text :=
  (runs text).flatMap (markRun names)

end Expr
end Ephp
