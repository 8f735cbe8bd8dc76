import Ephp.Text.Blank
import Ephp.Text.Word

/-!
# Patterns

A pattern describes a text as a sequence of fixed words and of spans of characters, some of which
are kept.  Where a span can end in several places the pattern says whether the longest or the
shortest choice is preferred, and a choice counts only if the rest of the pattern matches what
follows it.
-/

namespace Ephp

/-- Which of the possible lengths of a span is tried first. -/
inductive Reach where
  /-- From the longest to the shortest. -/
  | longest
  /-- From the shortest to the longest. -/
  | shortest
deriving DecidableEq, Repr

/-- A run of characters of one class. -/
inductive Span where
  /-- Any number of characters of the class `admits`. -/
  | free (reach : Reach) (admits : Char → Bool)
  /-- A character of the class `starts` and any number of characters of the class `admits`. -/
  | headed (reach : Reach) (starts admits : Char → Bool)

namespace Span

/-- Cut off the longest run of admitted characters behind which `next` succeeds. -/
def cutLongest {α : Type} (admits : Char → Bool) (next : Text → Option α) :
    Text → Option (Text × α)
  | [] => (next []).map fun found => ([], found)
  | char :: rest =>
    match if admits char then cutLongest admits next rest else none with
    | some (run, found) => some (char :: run, found)
    | none => (next (char :: rest)).map fun found => ([], found)

/-- Cut off the shortest run of admitted characters behind which `next` succeeds. -/
def cutShortest {α : Type} (admits : Char → Bool) (next : Text → Option α) :
    Text → Option (Text × α)
  | [] => (next []).map fun found => ([], found)
  | char :: rest =>
    match next (char :: rest) with
    | some found => some ([], found)
    | none =>
      if admits char then
        (cutShortest admits next rest).map fun (run, found) => (char :: run, found)
      else none

/-- Cut off a run of admitted characters behind which `next` succeeds. -/
def cutRun {α : Type} : Reach → (Char → Bool) → (Text → Option α) → Text → Option (Text × α)
  | .longest => cutLongest
  | .shortest => cutShortest

/-- Cut a span off the front of a text so that `next` succeeds on what follows it. -/
def cut? {α : Type} (next : Text → Option α) : Span → Text → Option (Text × α)
  | .free reach admits, text => cutRun reach admits next text
  | .headed _ _ _, [] => none
  | .headed reach starts admits, char :: rest =>
    if starts char then
      (cutRun reach admits next rest).map fun (run, found) => (char :: run, found)
    else none

/-- Any number of blanks. -/
def blanks : Span := .free .longest Text.isBlank

/-- At least one blank. -/
def gap : Span := .headed .longest Text.isBlank Text.isBlank

/-- A word of at least one word character. -/
def word : Span := .headed .longest Text.isWordChar Text.isWordChar

/-- A word that may be empty. -/
def wordOrNothing : Span := .free .longest Text.isWordChar

/-- An identifier. -/
def identifier : Span := .headed .longest Text.isIdentStart Text.isIdentRest

/-- The name of a constant: an identifier without lower-case letters. -/
def constantName : Span :=
  .headed .longest (fun char => char.isUpper || char == '_')
    (fun char => char.isUpper || char.isDigit || char == '_')

/-- As much of a line as possible, at least one character. -/
def most : Span := .headed .longest Text.isInline Text.isInline

/-- As much of a line as possible, which may be nothing. -/
def mostOrNothing : Span := .free .longest Text.isInline

/-- As little of a line as possible, at least one character. -/
def least : Span := .headed .shortest Text.isInline Text.isInline

/-- As little of a line as possible, which may be nothing. -/
def leastOrNothing : Span := .free .shortest Text.isInline

end Span

/-- A pattern whose kept spans have the type `α`. -/
inductive Pattern : Type → Type 1 where
  /-- Matches anywhere and reads nothing. -/
  | stop : Pattern Unit
  /-- Matches at the end of the text or before a line feed that ends it. -/
  | ending : Pattern Unit
  /-- Reads a fixed word. -/
  | fixed {α : Type} (word : Text) (next : Pattern α) : Pattern α
  /-- Reads a span and forgets it. -/
  | skip {α : Type} (span : Span) (next : Pattern α) : Pattern α
  /-- Reads a span and keeps it. -/
  | keep {α : Type} (span : Span) (next : Pattern α) : Pattern (Text × α)

namespace Pattern

/-- Match a pattern at the start of a text: the spans that it keeps and the text behind it. -/
def match? : {α : Type} → Pattern α → Text → Option (α × Text)
  | _, .stop, text => some ((), text)
  | _, .ending, text => if text = [] ∨ text = ['\n'] then some ((), text) else none
  | _, .fixed word next, text => (Text.after? word text).bind next.match?
  | _, .skip span next, text => (span.cut? next.match? text).map fun (_, found) => found
  | _, .keep span next, text =>
    (span.cut? next.match? text).map fun (run, kept, behind) => ((run, kept), behind)

/-- The kept spans of a pattern, in order. -/
def fields : {α : Type} → Pattern α → α → List Text
  | _, .stop, _ => []
  | _, .ending, _ => []
  | _, .fixed _ next, kept => next.fields kept
  | _, .skip _ next, kept => next.fields kept
  | _, .keep _ next, (run, kept) => run :: next.fields kept

/-- Whether a pattern matches somewhere in a text. -/
def occursIn {α : Type} (pattern : Pattern α) : Text → Bool
  | [] => (pattern.match? []).isSome
  | char :: rest => (pattern.match? (char :: rest)).isSome || pattern.occursIn rest

end Pattern
end Ephp
