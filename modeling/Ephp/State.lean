import Ephp.Block
import Ephp.Match

/-!
# The state of a conversion

Between two lines a conversion knows the open indentation levels with their blocks, the names
introduced so far, what it still has to close or to finish, and the lines written so far.  Both
stacks have their top at the head of the list.
-/

namespace Ephp

/-- A resource that a block owns. -/
structure Resource where
  /-- The indentation of the block's header. -/
  base : Int
  /-- The variable that holds the resource. -/
  handle : Text
deriving DecidableEq, Repr

/-- The state of a conversion between two lines. -/
structure State where
  /-- The open indentation levels, innermost first. -/
  levels : List Int
  /-- The kinds of the open blocks, innermost first. -/
  blocks : List Block
  /-- The names introduced so far. -/
  names : Names
  /-- Whether a do loop waits for its condition. -/
  doPending : Bool
  /-- Whether a switch waits for its end. -/
  switchPending : Bool
  /-- Whether a label of a switch waits for its break. -/
  casePending : Bool
  /-- The match that is being collected. -/
  collected : Match
  /-- The resources of blocks, by the level of the block's body, each level listed once. -/
  resources : List (Int × Resource)
  /-- The lines written so far. -/
  lines : List Text
deriving DecidableEq, Repr

namespace State

/-- The state before anything is read. -/
def initial : State where
  levels := [0]
  blocks := []
  names := .empty
  doPending := false
  switchPending := false
  casePending := false
  collected := .absent
  resources := []
  lines := []

/-- Write a line. -/
def writeLine (state : State) (line : Text) : State :=
  { state with lines := state.lines ++ [line] }

/-- Write a line with an indentation. -/
def emit (state : State) (indent : Int) (text : Text) : State :=
  state.writeLine (Text.indentation indent ++ text)

/-- Write lines with one indentation. -/
def emitAll (state : State) (indent : Int) (texts : List Text) : State :=
  { state with lines := state.lines ++ texts.map (Text.indentation indent ++ ·) }

/-- Open a block with its body at a level. -/
def openBlock (state : State) (block : Block) (level : Int) : State :=
  { state with levels := level :: state.levels, blocks := block :: state.blocks }

/-- Take the innermost level, which is followed by `below`, and its block off the stacks. -/
def pop (state : State) (below : List Int) : State :=
  { state with levels := below, blocks := state.blocks.tail }

/-- Introduce a variable. -/
def declare (state : State) (name : Text) : State :=
  { state with names := state.names.declare name }

/-- Introduce a constant. -/
def define (state : State) (name : Text) : State :=
  { state with names := state.names.define name }

/-- Remember the resource of the block whose body is at a level. -/
def acquire (state : State) (level : Int) (resource : Resource) : State :=
  { state with resources := (level, resource) :: state.resources.filter (·.1 != level) }

end State
end Ephp
