import Ephp.Expr.Value

/-!
# Matches

A match is collected arm by arm, and when it is complete it is written as a whole.
-/

namespace Ephp

/-- What becomes of the result of a match. -/
inductive MatchUse where
  /-- It is assigned to a variable. -/
  | assigned
  /-- It is returned. -/
  | returned
  /-- Any other use, known by a label; a match of such a use is never written. -/
  | other (label : Text)
deriving DecidableEq, Repr

/-- An arm of a match, with its parts as they are written. -/
structure Arm where
  /-- The values that select the arm. -/
  values : List Text
  /-- The result of the arm. -/
  result : Text
deriving DecidableEq, Repr

/-- A match that is being collected. -/
structure Match where
  /-- The variable that is matched; the match is open if this is a nonempty text. -/
  subject : Option Text
  /-- What becomes of the result. -/
  use : Option MatchUse
  /-- The variable that the result is assigned to. -/
  target : Option Text
  /-- The arms collected so far, in order. -/
  arms : List Arm
deriving DecidableEq, Repr

namespace Match

/-- No match is being collected. -/
def absent : Match := ⟨none, none, none, []⟩

/-- Whether a match is being collected. -/
def isOpen (collected : Match) : Bool :=
  collected.subject.any (!·.isEmpty)

/-- The subject of a match as it is written: a truth value stands for itself, and any other subject
is a variable. -/
def writeSubject (subject : Text) : Text :=
  if Expr.isTruthValue subject then subject else '$' :: subject

/-- The first line of a match, unless its use is none that is written. -/
def opening? (collected : Match) : Option Text :=
  let matched := "match (".toList ++ writeSubject (collected.subject.getD []) ++ ") \x7b".toList
  match collected.use with
  | some .assigned =>
    some ('$' :: collected.target.getD "None".toList ++ " = ".toList ++ matched)
  | some .returned => some ("return ".toList ++ matched)
  | _ => none

/-- The line of an arm. -/
def armLine (arm : Arm) : Text :=
  "    ".toList ++ Text.join ", ".toList arm.values ++ " => ".toList ++ arm.result ++ [',']

/-- The lines of a match; a match that is not open, has no arms or is of no written use has none. -/
def lines (collected : Match) : List Text :=
  if collected.isOpen && !collected.arms.isEmpty then
    match collected.opening? with
    | some opening => opening :: collected.arms.map armLine ++ ["\x7d;".toList]
    | none => []
  else []

end Match
end Ephp
