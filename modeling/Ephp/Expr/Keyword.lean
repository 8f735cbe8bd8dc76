import Ephp.Expr.Call

/-!
# Keywords

The truth values, the null value and the logical operators have other spellings in the output.
The operators are recognised by the single blanks around them.
-/

namespace Ephp
namespace Expr

/-- The keywords and their spellings in the output, in the order of replacement. -/
def keywords : List (Text × Text) :=
  [("True".toList, "true".toList), ("False".toList, "false".toList), ("None".toList, "null".toList),
    (" and ".toList, " && ".toList), (" or ".toList, " || ".toList), (" not ".toList, " ! ".toList)]

/-- Spell the keywords of a stretch of code for the output. -/
def respellKeywords (text : Text) : Text :=
  respell keywords text

end Expr
end Ephp
