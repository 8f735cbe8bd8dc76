import Ephp.State

/-!
# Closing blocks

A line that is indented less than the open levels closes their blocks, and so does the end of the
source.  Both close a block in the same way, except for a do loop that still waits for its
condition.
-/

namespace Ephp
namespace State

/-- Write the collected match, if there is one to write, and forget it. -/
def flushMatch (state : State) : State :=
  match state.collected.lines with
  | [] => state
  | lines =>
    { state.emitAll (state.levels.head?.getD 0) lines with collected := .absent }

/-- Write the lines that release the resource of a block. -/
def release (state : State) (resource : Resource) : State :=
  let handle := '$' :: resource.handle
  let test :=
    "if (isset(".toList ++ handle ++ ") && is_resource(".toList ++ handle ++ ")) \x7b".toList
  state.emit resource.base "\x7d finally \x7b".toList
    |>.emit (resource.base + 4) test
    |>.emit (resource.base + 8) ("fclose(".toList ++ handle ++ ");".toList)
    |>.emit (resource.base + 4) ['}']
    |>.emit resource.base ['}']

/-- Write the end of a block that was opened at a level.  A block that is neither a stored function
nor the owner of a resource ends the pending label, or else the pending switch. -/
def close (state : State) (block : Option Block) (level : Int) : State :=
  if block = some .resource then
    match state.resources.lookup level with
    | some resource => state.release resource
    | none => state
  else if block = some .closure then
    state.emit level "\x7d;".toList
  else if state.casePending then
    { state.emit level "break;".toList |>.emit level ['}'] with casePending := false }
  else if state.switchPending then
    { state.emit level ['}'] with switchPending := false }
  else
    state.emit level ['}']

/-- Close the innermost level, which is followed by `below`: the collected match is written first,
and a do loop that waits for its condition is left to `abandon`. -/
def closeTop (abandon : State → State) (state : State) (level : Int) (below : List Int) : State :=
  let block := state.blocks.head?
  let popped := (state.pop below).flushMatch
  if block = some .doLoop ∧ popped.doPending then abandon popped else popped.close block level

/-- Close the levels of a stack, from its top, that are deeper than an indentation. -/
def dedentFrom (indent : Int) : List Int → State → State
  | [], state => state
  | level :: below, state =>
    if indent < level then dedentFrom indent below (state.closeTop id level below) else state

/-- Close the levels that are deeper than an indentation.  A do loop that waits for its condition is
left without an end. -/
def dedent (indent : Int) (state : State) : State :=
  dedentFrom indent state.levels state

/-- End a do loop that never got its condition. -/
def endDoLoop (level : Int) (state : State) : State :=
  { state.emit (level - 4) "\x7d while (false);".toList with doPending := false }

/-- Close all levels of a stack but the last one. -/
def closeAllFrom : List Int → State → State
  | level :: next :: below, state =>
    closeAllFrom (next :: below) (state.closeTop (endDoLoop level) level (next :: below))
  | _, state => state

/-- Close all levels but the outermost. -/
def closeAll (state : State) : State :=
  closeAllFrom state.levels state

end State
end Ephp
