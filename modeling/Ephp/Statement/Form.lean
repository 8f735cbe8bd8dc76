import Ephp.Pattern.Basic
import Ephp.Statement.Basic

/-!
# Forms of statements

Each form of statement has a pattern.  The forms are tried in a fixed order, and the first one whose
pattern matches a line decides which statement the line is.
-/

namespace Ephp
namespace Statement

open Ephp.Pattern Ephp.Span

/-- Read a line by a pattern and build a statement from the kept spans. -/
def form {α : Type} (pattern : Pattern α) (build : α → Statement) (line : Text) :
    Option Statement :=
  (pattern.match? line).map fun (kept, _) => build kept

/-- A header: a keyword, a gap and anything up to a final colon. -/
def header (keyword : Text) : Pattern (Text × Unit) :=
  fixed keyword <| skip gap <| keep most <| fixed [':'] ending

/-- A keyword, a gap and the rest of the line. -/
def clause (keyword : Text) : Pattern (Text × Unit) :=
  fixed keyword <| skip gap <| keep most ending

/-- An assignment to what `target` reads, up to and without the assigned value. -/
def assignment {α : Type} (target : Span) (value : Pattern α) : Pattern (Text × α) :=
  keep target <| skip blanks <| fixed ['='] <| skip blanks value

/-- The start of a function stored in a variable, up to the colon behind its parameters. -/
def storedFunction {α : Type} (body : Pattern α) : Pattern (Text × Text × α) :=
  assignment word <| fixed "fn".toList <| skip blanks <| fixed ['('] <| keep least <|
    fixed [')'] <| skip blanks <| fixed [':'] body

/-- A match header behind its keyword, whose colon may be followed by anything. -/
def matchSubject : Pattern (Text × Unit) :=
  fixed "match".toList <| skip gap <| keep word <| skip blanks <| fixed [':'] <|
    skip mostOrNothing ending

/-- The reader of import lines. -/
def requireForm : Text → Option Statement :=
  form (fixed "import".toList <| skip gap <| fixed ['"'] <| keep most <| fixed ['"'] ending)
    fun (path, _) => .require path

/-- The reader of function headers. -/
def functionForm : Text → Option Statement :=
  form (fixed "func".toList <| skip gap <| keep word <| skip blanks <| fixed ['('] <| keep least <|
      fixed [')'] <| skip blanks <| keep wordOrNothing <| skip blanks <| fixed [':'] ending)
    fun (name, parameters, result, _) => .function name parameters result

/-- The reader of functions of one expression. -/
def arrowForm : Text → Option Statement :=
  form (storedFunction <| skip blanks <| keep most ending)
    fun (target, parameters, body, _) => .arrow target parameters body

/-- The reader of headers of functions stored in a variable. -/
def closureForm : Text → Option Statement :=
  form (storedFunction ending) fun (target, parameters, _) => .closure target parameters

/-- The reader of headers of blocks that own a resource. -/
def resourceForm : Text → Option Statement :=
  form (fixed "with".toList <| skip gap <| keep least <| skip gap <| fixed "as".toList <|
      skip gap <| keep word <| skip blanks <| fixed [':'] ending)
    fun (acquired, handle, _) => .resource acquired handle

/-- The reader of headers of assigned matches. -/
def matchAssignForm : Text → Option Statement :=
  form (assignment word matchSubject) fun (target, subject, _) => .matchAssign target subject

/-- The reader of headers of returned matches. -/
def matchReturnForm : Text → Option Statement :=
  form (fixed "return".toList <| skip gap matchSubject) fun (subject, _) => .matchReturn subject

/-- The reader of match arms. -/
def armForm : Text → Option Statement :=
  form (fixed "case".toList <| skip gap <| keep least <| fixed [':'] <| skip blanks <|
      keep most ending)
    fun (values, result, _) => .arm values result

/-- The reader of default arms. -/
def defaultArmForm : Text → Option Statement :=
  form (fixed "default:".toList <| skip blanks <| keep most ending)
    fun (result, _) => .defaultArm result

/-- The reader of input lines. -/
def inputForm : Text → Option Statement :=
  form (assignment identifier <| fixed "input".toList <| skip blanks <| fixed ['('] <|
      keep mostOrNothing <| fixed [')'] ending)
    fun (target, prompt, _) => .input target prompt

/-- The reader of assignments of one of two values. -/
def choiceForm : Text → Option Statement :=
  form (assignment identifier <| keep least <| skip gap <| fixed "if".toList <| skip gap <|
      keep least <| skip gap <| fixed "else".toList <| skip gap <| keep most ending)
    fun (target, accepted, condition, rejected, _) => .choice target accepted condition rejected

/-- The reader of a line that is exactly `line`. -/
def fixedForm (line : Text) (statement : Statement) : Text → Option Statement :=
  form (fixed line ending) fun _ => statement

/-- The reader of constant definitions. -/
def constantForm : Text → Option Statement :=
  form (assignment constantName <| keep most ending) fun (name, value, _) => .constant name value

/-- The reader of assignments. -/
def assignForm : Text → Option Statement :=
  form (assignment identifier <| keep most ending) fun (target, value, _) => .assign target value

/-- The reader of print lines. -/
def printForm : Text → Option Statement :=
  form (fixed "print(".toList <| keep most <| fixed [')'] ending) fun (content, _) => .print content

/-- The start of a loop header, up to and without what the loop runs over. -/
def loopOver {α : Type} (range : Pattern α) : Pattern (Text × α) :=
  fixed "for".toList <| skip gap <| keep word <| skip gap <| fixed "in".toList <| skip gap range

/-- The reader of headers of loops over a range of numbers. -/
def countLoopForm : Text → Option Statement :=
  form (loopOver <| fixed "range(".toList <| keep leastOrNothing <| fixed "):".toList ending)
    fun (counter, bounds, _) => .countLoop counter bounds

/-- The reader of headers of loops over a collection. -/
def eachLoopForm : Text → Option Statement :=
  form (loopOver <| keep most <| fixed [':'] ending)
    fun (element, collection, _) => .eachLoop element collection

/-- The reader of function calls. -/
def callForm : Text → Option Statement :=
  form (keep word <| fixed ['('] <| keep mostOrNothing <| fixed [')'] ending)
    fun (callee, arguments, _) => .call callee arguments

/-- The reader of a header that starts with `keyword`. -/
def headerForm (keyword : Text) (build : Text → Statement) : Text → Option Statement :=
  form (header keyword) fun (field, _) => build field

/-- The reader of a line that starts with `keyword` and has no final mark. -/
def clauseForm (keyword : Text) (build : Text → Statement) : Text → Option Statement :=
  form (clause keyword) fun (field, _) => build field

/-- The readers of all forms, in the order in which they are tried. -/
def forms : List (Text → Option Statement) :=
  [requireForm, functionForm, arrowForm, closureForm, resourceForm, matchAssignForm,
    matchReturnForm, armForm, defaultArmForm, inputForm, choiceForm,
    fixedForm "do:".toList .doLoop, headerForm "while".toList .whileLoop,
    clauseForm "while".toList .whileLoop, constantForm, assignForm,
    clauseForm "return".toList .returnValue, fixedForm "break".toList .leave,
    fixedForm "continue".toList .proceed, fixedForm "pass".toList .pass, printForm,
    headerForm "if".toList .when, headerForm "elif".toList .elseWhen,
    fixedForm "else:".toList .otherwise, countLoopForm, eachLoopForm,
    headerForm "switch".toList .switch, headerForm "case".toList .label,
    fixedForm "default:".toList .defaultLabel, callForm]

/-- The statement that a line is, if it has one of the forms. -/
def read? (line : Text) : Option Statement :=
  forms.findSome? fun form => form line

end Statement
end Ephp
