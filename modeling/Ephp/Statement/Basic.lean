import Ephp.Text.Basic

/-!
# Statements

A statement is one line of the source without its indentation, taken apart into the fields that
its form distinguishes.  The fields are texts as they stand in the source.
-/

namespace Ephp

/-- A line of the source, by its form. -/
inductive Statement where
  /-- Use another file. -/
  | require (path : Text)
  /-- The header of a named function. -/
  | function (name parameters result : Text)
  /-- A function of one expression, stored in a variable. -/
  | arrow (target parameters body : Text)
  /-- The header of a function stored in a variable. -/
  | closure (target parameters : Text)
  /-- The header of a block that owns a resource. -/
  | resource (acquired handle : Text)
  /-- The header of a match whose result is assigned. -/
  | matchAssign (target subject : Text)
  /-- The header of a match whose result is returned. -/
  | matchReturn (subject : Text)
  /-- An arm of a match. -/
  | arm (values result : Text)
  /-- The default arm of a match. -/
  | defaultArm (result : Text)
  /-- Read a line of input into a variable. -/
  | input (target prompt : Text)
  /-- Assign one of two values by a condition. -/
  | choice (target accepted condition rejected : Text)
  /-- The header of a loop with its condition at the end. -/
  | doLoop
  /-- The header of a loop, or the condition at the end of one. -/
  | whileLoop (condition : Text)
  /-- Define a constant. -/
  | constant (name value : Text)
  /-- Assign a value to a variable. -/
  | assign (target value : Text)
  /-- Return a value. -/
  | returnValue (value : Text)
  /-- Leave a loop or a switch. -/
  | leave
  /-- Go on with the next turn of a loop. -/
  | proceed
  /-- Do nothing. -/
  | pass
  /-- Print a value. -/
  | print (content : Text)
  /-- The header of a conditional block. -/
  | when (condition : Text)
  /-- The header of a further conditional block. -/
  | elseWhen (condition : Text)
  /-- The header of the block that remains. -/
  | otherwise
  /-- The header of a loop over a range of numbers. -/
  | countLoop (counter bounds : Text)
  /-- The header of a loop over a collection. -/
  | eachLoop (element collection : Text)
  /-- The header of a switch. -/
  | switch (subject : Text)
  /-- A label of a switch. -/
  | label (value : Text)
  /-- The default label of a switch. -/
  | defaultLabel
  /-- A call of a function. -/
  | call (callee arguments : Text)
deriving DecidableEq, Repr

namespace Statement

/-- The fields of a statement, in the order of the line. -/
def fields : Statement → List Text
  | .require path => [path]
  | .function name parameters result => [name, parameters, result]
  | .arrow target parameters body => [target, parameters, body]
  | .closure target parameters => [target, parameters]
  | .resource acquired handle => [acquired, handle]
  | .matchAssign target subject => [target, subject]
  | .matchReturn subject => [subject]
  | .arm values result => [values, result]
  | .defaultArm result => [result]
  | .input target prompt => [target, prompt]
  | .choice target accepted condition rejected => [target, accepted, condition, rejected]
  | .whileLoop condition => [condition]
  | .constant name value => [name, value]
  | .assign target value => [target, value]
  | .returnValue value => [value]
  | .print content => [content]
  | .when condition => [condition]
  | .elseWhen condition => [condition]
  | .countLoop counter bounds => [counter, bounds]
  | .eachLoop element collection => [element, collection]
  | .switch subject => [subject]
  | .label value => [value]
  | .call callee arguments => [callee, arguments]
  | .doLoop | .leave | .proceed | .pass | .otherwise | .defaultLabel => []

end Statement
end Ephp
