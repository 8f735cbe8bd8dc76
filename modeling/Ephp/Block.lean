import Ephp.Text.Basic

/-!
# Blocks

Every indented block of the source is of a kind, which decides how the block is closed.
-/

namespace Ephp

/-- The kind of a block. -/
inductive Block where
  /-- The body of a named function. -/
  | function
  /-- The body of a function stored in a variable. -/
  | closure
  /-- A block that owns a resource. -/
  | resource
  /-- A conditional block. -/
  | when
  /-- A further conditional block. -/
  | elseWhen
  /-- The block that remains when no condition holds. -/
  | otherwise
  /-- The body of a loop over a range of numbers. -/
  | countLoop
  /-- The body of a loop over a collection. -/
  | eachLoop
  /-- The body of a loop with its condition at the end. -/
  | doLoop
  /-- The body of a loop with its condition in front. -/
  | whileLoop
  /-- The body of a switch. -/
  | switch
  /-- A block of no other kind, known by a label. -/
  | other (label : Text)
deriving DecidableEq, Repr

namespace Block

/-- The block below a line that has none of the forms of statements. -/
def unnamed : Block := .other "block".toList

end Block
end Ephp
