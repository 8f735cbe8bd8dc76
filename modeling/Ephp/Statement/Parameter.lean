import Ephp.Expr.Expand
import Ephp.Text.Split

/-!
# Parameters

A parameter has a name and can have a type and a default value.  A named function reads all three
and spells the types for the output; a function stored in a variable reads everything behind the
first blank as the name.
-/

namespace Ephp

/-- A parameter of a function. -/
structure Parameter where
  /-- Its type, as it is written in the output. -/
  type : Option Text
  /-- Its name. -/
  name : Text
  /-- Its default value, as it stands in the source. -/
  default : Option Text
deriving DecidableEq, Repr

namespace Parameter

/-- The spelling of a result type in the output. -/
def spellResult (type : Text) : Text :=
  if type = "str".toList then "string".toList else type

/-- The spelling of the list type in the output. -/
def spellList (type : Text) : Text :=
  if type = "list".toList then "array".toList else type

/-- Read a parameter of a named function without its default value: the type stands before the
last blank. -/
def ofDeclarator (text : Text) : Parameter :=
  match text.splitLast? ' ' with
  | some (type, name) => ⟨some (spellList (spellResult type)), name, none⟩
  | none => ⟨none, spellList text, none⟩

/-- Read a parameter of a named function: the default value stands behind the first equals sign. -/
def ofText (text : Text) : Parameter :=
  match text.splitFirst? '=' with
  | some (declarator, value) =>
    { ofDeclarator declarator.strip with default := some value.strip }
  | none => ofDeclarator text

/-- Read a parameter of a function stored in a variable: the type stands before the first blank. -/
def ofStoredText (text : Text) : Parameter :=
  match text.splitFirst? ' ' with
  | some (type, name) => ⟨some type, name, none⟩
  | none => ⟨none, text, none⟩

/-- Read the parameters of a named function, passing over empty ones. -/
def listOfText (text : Text) : List Parameter :=
  (text.items.filter (!·.isEmpty)).map ofText

/-- Read the parameters of a function stored in a variable; a blank text has none. -/
def listOfStoredText (text : Text) : List Parameter :=
  if text.strip.isEmpty then [] else text.items.map ofStoredText

/-- Write a parameter with its sigil. -/
def write (names : Names) (parameter : Parameter) : Except Fault Text := do
  let typed := match parameter.type with
    | some type => type ++ " $".toList ++ parameter.name
    | none => '$' :: parameter.name
  match parameter.default with
  | some value => return typed ++ " = ".toList ++ (← Expr.expand names value)
  | none => return typed

/-- Write a list of parameters. -/
def writeList (names : Names) (parameters : List Parameter) : Except Fault Text := do
  return Text.join ", ".toList (← parameters.mapM (write names))

end Parameter
end Ephp
