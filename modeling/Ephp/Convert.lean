import Ephp.Statement.Form
import Ephp.Statement.Perform
import Ephp.Text.Lines

/-!
# Converting a source

A source is converted line by line.  Blank lines and comments are copied, and every other line first
closes the blocks that it leaves and is then performed as a statement.  At the end of the source the
collected match is written and the open blocks are closed.
-/

namespace Ephp

/-- The lines in front of every output. -/
def banner : List Text :=
  ["<?php".toList, "// Generated by DSL to PHP converter".toList]

namespace State

/-- The state at the start of a source.  A switch or a label that an earlier source left pending is
still pending. -/
def reset (state : State) : State :=
  { State.initial with
    switchPending := state.switchPending, casePending := state.casePending, lines := banner }

end State

namespace Conversion

/-- Convert a line that is no statement: a final colon makes it the header of a block, and otherwise
it is an expression. -/
def convertUnknown (indent : Int) (body : Text) : Conversion Unit := do
  if body.endsWith [':'] then
    openBlock .unnamed indent body.dropLast
  else
    let expression ← expand body
    emit indent (expression ++ [';'])

/-- Convert the body of a line that is neither blank nor a comment. -/
def convertBody (indent : Int) (body : Text) : Conversion Unit := do
  modify (·.dedent indent)
  let performed ← match Statement.read? body with
    | some statement => statement.run indent
    | none => pure false
  unless performed do convertUnknown indent body

/-- Convert a line. -/
def convertLine (line : Text) : Conversion Unit :=
  match line.strip with
  | [] => modify (·.writeLine [])
  | '#' :: comment => emit line.indentOf ("// ".toList ++ Text.strip comment)
  | body => convertBody line.indentOf body

/-- Convert the lines of a source, without its end. -/
def convertLines (lines : List Text) : Conversion Unit :=
  lines.forM convertLine

/-- Convert a source. -/
def convert (source : Text) : Conversion Text := do
  modify State.reset
  convertLines source.lines
  modify fun state => state.flushMatch.closeAll
  return Text.join ['\n'] (← get).lines

end Conversion
end Ephp
