import Ephp.Text.Basic

/-!
# Faults

A conversion can fail in two ways only.  Its recursion is not limited: a machine that allows only so
many calls inside of each other fails in a third way, on format texts that are nested deeply enough.
-/

namespace Ephp

/-- Why a conversion fails. -/
inductive Fault where
  /-- A format text has no part to write. -/
  | emptyFormat
  /-- The condition of a do loop comes when no indentation level is open. -/
  | noOpenLevel
deriving DecidableEq, Repr

namespace Fault

/-- The wording of a fault. -/
def message : Fault → Text
  | .emptyFormat => "list index out of range".toList
  | .noOpenLevel =>
    "cannot access local variable 'lvl' where it is not associated with a value".toList

end Fault
end Ephp
