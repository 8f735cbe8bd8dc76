import Ephp.Expr.Expand
import Ephp.Text.Split

/-!
# Assigned values

The value of an assignment can be a list or a dictionary on one line, whose elements are expanded
one by one, or a truth value in any case; every other value is an expression.
-/

namespace Ephp
namespace Expr

/-- What stands between the first and the last character of a text, if these are as given. -/
def enclosed? (opening closing : Char) (text : Text) : Option Text :=
  if text.head? = some opening ∧ text.getLast? = some closing then some (text.drop 1).dropLast
  else none

/-- Write the elements of a list. -/
def expandList (names : Names) (inner : Text) : Except Fault Text := do
  let elements ← inner.items.mapM (expand names)
  return ['['] ++ Text.join ", ".toList elements ++ [']']

/-- A text without the blanks around it, then without double quotes, then without single quotes. -/
def unquoted (text : Text) : Text :=
  (text.strip.trim (· == '"')).trim (· == '\'')

/-- Write an entry of a dictionary from its key and its value. -/
def expandEntry (names : Names) : Text × Text → Except Fault Text
  | (key, value) => do
    return ['\''] ++ unquoted key ++ "' => ".toList ++ (← expand names value.strip)

/-- Write the entries of a dictionary; an item without a colon is no entry. -/
def expandDictionary (names : Names) (inner : Text) : Except Fault Text := do
  let entries ← (inner.items.filterMap (Text.splitFirst? ':')).mapM (expandEntry names)
  return ['['] ++ Text.join ", ".toList entries ++ [']']

/-- Whether a text is a given lower-case word up to the case of its letters. -/
def spells (word text : Text) : Bool :=
  text.map Char.toLower == word

/-- Whether a text is a truth value in any case. -/
def isTruthValue (text : Text) : Bool :=
  spells "true".toList text || spells "false".toList text

/-- Expand the value of an assignment, of which the blanks at both ends are removed. -/
def expandStripped (names : Names) (text : Text) : Except Fault Text :=
  match enclosed? '[' ']' text, enclosed? '{' '}' text with
  | some inner, _ => expandList names inner
  | none, some inner => expandDictionary names inner
  | none, none => if isTruthValue text then .ok (text.map Char.toLower) else expand names text

/-- Expand the value of an assignment. -/
def expandValue (names : Names) (text : Text) : Except Fault Text :=
  expandStripped names text.strip

end Expr
end Ephp
