import Ephp.Conversion
import Ephp.File.Path
import Ephp.Statement.Basic
import Ephp.Statement.Parameter

/-!
# Performing statements

A statement at an indentation writes its lines, opens a block if it is a header, and introduces its
names.  What a statement did before a fault stays done.
-/

namespace Ephp

namespace Statement

open Conversion

/-- The path of an imported file as the output names it. -/
def requiredPath (path : Text) : Text :=
  if Path.isSource path then Path.output path else path

/-- The values that select an arm: they are separated by `or`, and these parts by `and`. -/
def armValues (values : Text) : List Text :=
  ((values.splitAt "or".toList).flatMap (·.splitAt "and".toList)).map Text.strip

/-- A variable at the end of a text. -/
def finalVariable : Pattern Unit :=
  .fixed ['$'] <| .skip .identifier .ending

/-- The printed expression: a content that ends with a variable is printed as a list. -/
def printedContent (content : Text) : Text :=
  if finalVariable.occursIn content then "implode(\", \", ".toList ++ content ++ [')'] else content

/-- The bounds of a loop over a range of numbers. -/
structure Bounds where
  /-- The first number. -/
  start : Text
  /-- The number to stop at. -/
  stop : Text
  /-- The distance between two numbers. -/
  step : Text
deriving DecidableEq, Repr

/-- Read the bounds of a range: one item is where it stops, two are where it starts and stops, and
a third one is its step. -/
def Bounds.ofItems : List Text → Bounds
  | start :: stop :: step :: _ => ⟨start, stop, step⟩
  | [start, stop] => ⟨start, stop, ['1']⟩
  | [stop] => ⟨['0'], stop, ['1']⟩
  | [] => ⟨['0'], [], ['1']⟩

/-- A format text with a double-quoted body of at least one character. -/
def formatLiteral : Pattern (Text × Unit) :=
  .fixed ['f', '"'] <| .keep .least <| .fixed ['"'] .stop

/-- The arguments of a call: what is written to a file is no format text. -/
def callArguments (callee arguments : Text) : Text :=
  if callee = "fwrite".toList then
    formatLiteral.replace (fun (body, _) => ['"'] ++ body ++ ['"']) arguments
  else arguments

/-- Start to collect a match. -/
def startMatch (subject : Text) (use : MatchUse) (target : Option Text) : Conversion Unit :=
  modify fun state => { state with collected := ⟨some subject, some use, target, []⟩ }

/-- Add an arm to the collected match. -/
def addArm (values : List Text) (result : Text) : Conversion Unit :=
  modify fun state =>
    { state with
      collected := { state.collected with arms := state.collected.arms ++ [⟨values, result⟩] } }

/-- End the pending do loop with its condition. -/
def endDo (condition : Text) : Conversion Unit := do
  match (← get).levels with
  | [] => throw .noOpenLevel
  | level :: below => do
    modify (·.pop below)
    let condition ← expand condition
    emit (level - 4) ("\x7d while (".toList ++ condition ++ ");".toList)
    modify fun state => { state with doPending := false }

/-- Break out of the label before this one, if there is one. -/
def breakPending (indent : Int) : Conversion Unit := do
  if (← get).casePending then emit (indent - 4) "break;".toList

/-- Mark a label as waiting for its break. -/
def setCasePending : Conversion Unit :=
  modify fun state => { state with casePending := true }

/-- Perform a statement at an indentation. -/
def perform (indent : Int) : Statement → Conversion Unit
  | .require path =>
    emit indent ("require_once \"".toList ++ requiredPath path ++ "\";".toList)
  | .function name parameters result => do
    let parameters := Parameter.listOfText parameters
    let written ← withNames (Parameter.writeList · parameters)
    openBlock .function indent
      ("function ".toList ++ name ++ ['('] ++ written ++ "): ".toList ++
        Parameter.spellResult result)
    declareAll (parameters.map (·.name))
  | .arrow target parameters body => do
    let parameters := Parameter.listOfStoredText parameters
    let written ← withNames (Parameter.writeList · parameters)
    declareAll (parameters.map (·.name))
    let body ← expand ((Text.after? "return ".toList body).getD body)
    emit indent
      ('$' :: target ++ " = fn(".toList ++ written ++ ") => ".toList ++ body ++ [';'])
    declare target
  | .closure target parameters => do
    let parameters := Parameter.listOfStoredText parameters
    let written ← withNames (Parameter.writeList · parameters)
    declareAll (parameters.map (·.name))
    openBlock .closure indent
      ('$' :: target ++ " = function(".toList ++ written ++ [')'])
    declare target
  | .resource acquired handle => do
    let acquired ← expand acquired
    emit indent ('$' :: handle ++ " = ".toList ++ acquired ++ [';'])
    openBlock .resource indent "try".toList
    declare handle
    modify (·.acquire (indent + 4) ⟨indent, handle⟩)
  | .matchAssign target subject => do
    startMatch subject .assigned (some target)
    declare target
  | .matchReturn subject => startMatch subject .returned none
  | .arm values result => do
    let values ← (armValues values).mapM expand
    let result ← expand result.strip
    addArm values result
  | .defaultArm result => do
    let result ← expand result.strip
    addArm ["default".toList] result
  | .input target prompt => do
    emit indent
      ('$' :: target ++ " = readline(\"".toList ++ Expr.unquoted prompt ++ "\");".toList)
    declare target
  | .choice target accepted condition rejected => do
    declare target
    let condition ← expand condition
    let accepted ← expand accepted
    let rejected ← expand rejected
    emit indent ('$' :: target ++ " = (".toList ++ condition ++ ") ? ".toList ++ accepted ++
      " : ".toList ++ rejected ++ [';'])
  | .doLoop => do
    openBlock .doLoop indent "do".toList
    modify fun state => { state with doPending := true }
  | .whileLoop condition => do
    if (← get).doPending then endDo condition.strip
    else
      let condition ← expand condition.strip
      openBlock .whileLoop indent ("while (".toList ++ condition ++ [')'])
  | .constant name value => do
    let value ← expand value
    emit indent ("define(\"".toList ++ name ++ "\", ".toList ++ value ++ ");".toList)
    define name
  | .assign target value => do
    declare target
    let value ← withNames (Expr.expandValue · value)
    emit indent ('$' :: target ++ " = ".toList ++ value ++ [';'])
  | .returnValue value => do
    let value ← expand value
    emit indent ("return ".toList ++ value ++ [';'])
  | .leave => emit indent "break;".toList
  | .proceed => emit indent "continue;".toList
  | .pass => emit indent "// pass".toList
  | .print content => do
    let content ← expand (printedContent content)
    emit indent ("echo ".toList ++ content ++ [';'])
  | .when condition => do
    let condition ← expand condition
    openBlock .when indent ("if (".toList ++ condition ++ [')'])
  | .elseWhen condition => do
    let condition ← expand condition
    openBlock .elseWhen indent ("elseif (".toList ++ condition ++ [')'])
  | .otherwise => openBlock .otherwise indent "else".toList
  | .countLoop counter bounds => do
    let bounds := Bounds.ofItems bounds.items
    let start ← expand bounds.start
    let stop ← expand bounds.stop
    let step ← expand bounds.step
    openBlock .countLoop indent
      ("for ($".toList ++ counter ++ " = ".toList ++ start ++ "; $".toList ++ counter ++
        " < ".toList ++ stop ++ "; $".toList ++ counter ++ " += ".toList ++ step ++ [')'])
    declare counter
  | .eachLoop element collection => do
    declare element
    let collection ← expand collection
    openBlock .eachLoop indent
      ("foreach (".toList ++ collection ++ " as $".toList ++ element ++ [')'])
  | .switch subject => do
    let subject ← expand subject
    openBlock .switch indent ("switch (".toList ++ subject ++ [')'])
    modify fun state => { state with switchPending := true }
  | .label value => do
    breakPending indent
    let value ← expand value
    emit indent ("case ".toList ++ value ++ [':'])
    setCasePending
  | .defaultLabel => do
    breakPending indent
    emit indent "default:".toList
    setCasePending
  | .call callee arguments => do
    let arguments ← expand (callArguments callee arguments)
    emit indent (callee ++ ['('] ++ arguments ++ ");".toList)

/-- Whether a statement applies in a state: an arm needs an open match. -/
def applies (state : State) : Statement → Bool
  | .arm _ _ => state.collected.isOpen
  | .defaultArm _ => state.collected.isOpen
  | _ => true

/-- Perform a statement if it applies, and tell whether it did. -/
def run (indent : Int) (statement : Statement) : Conversion Bool := do
  if statement.applies (← get) then
    statement.perform indent
    return true
  else
    return false

end Statement
end Ephp
