import Ephp.Close
import Ephp.Fault

/-!
# Steps of a conversion

A conversion goes on in small steps that write lines, open blocks and introduce names.  A step can
fail, and then the state that it has reached remains.
-/

namespace Ephp

/-- A step of a conversion, which can fail and keeps the state reached before the fault. -/
abbrev Conversion := EStateM Fault State

namespace Conversion

/-- Write a line with an indentation. -/
def emit (indent : Int) (text : Text) : Conversion Unit :=
  modify (·.emit indent text)

/-- Write the header of a block and open the block four columns further in. -/
def openBlock (block : Block) (indent : Int) (header : Text) : Conversion Unit :=
  modify fun state => (state.emit indent (header ++ " \x7b".toList)).openBlock block (indent + 4)

/-- Introduce a variable. -/
def declare (name : Text) : Conversion Unit :=
  modify (·.declare name)

/-- Introduce variables. -/
def declareAll (names : List Text) : Conversion Unit :=
  modify fun state => names.foldl State.declare state

/-- Introduce a constant. -/
def define (name : Text) : Conversion Unit :=
  modify (·.define name)

/-- Do something with the names known at this point. -/
def withNames {α : Type} (action : Names → Except Fault α) : Conversion α := do
  MonadExcept.ofExcept (action (← get).names)

/-- Expand an expression with the names known at this point. -/
def expand (text : Text) : Conversion Text :=
  withNames (Expr.expand · text)

end Conversion

end Ephp
