import Ephp.Convert
import Ephp.File.Failure
import Ephp.File.Path

/-!
# The program

The program converts a source file and, before it, the source files that it imports.  It is written
against the few things that it needs of its surroundings, so that it runs on a disk in memory as
well as on a real one.
-/

namespace Ephp

/-- What the program needs of its surroundings. -/
class Host (m : Type → Type) where
  /-- Print a line. -/
  print : Text → m Unit
  /-- Whether something is at a path. -/
  hasPath : Text → m Bool
  /-- Read the bytes of a file. -/
  read : Text → m ByteArray
  /-- Write a file. -/
  write : Text → ByteArray → m Unit
  /-- Give up. -/
  fail {α : Type} : Failure → m α

namespace Program

/-- An import of a source file, alone on its line; its path is kept without the ending. -/
def sourceImport : Pattern (Text × Unit) :=
  .fixed "import".toList <| .skip .gap <| .fixed ['"'] <| .keep .most <|
    .fixed (Path.sourceEnding ++ ['"']) .ending

/-- The path of the source file that a line imports. -/
def importedPath? (line : Text) : Option Text :=
  (sourceImport.match? line.strip).map fun ((stem, _), _) => stem ++ Path.sourceEnding

/-- The paths of the source files that a source imports, in order. -/
def imports (source : Text) : List Text :=
  source.lines.filterMap importedPath?

/-- The text of a file, with every line end spelled as a line feed. -/
def decode? (content : ByteArray) : Option Text :=
  (String.fromUTF8? content).map fun text => Text.unifyLineEnds text.toList

/-- The content of a file with a text. -/
def encode (text : Text) : ByteArray :=
  (String.ofList text).toUTF8

/-- The output for a source, from a fresh start. -/
def output (source : Text) : Except Fault Text :=
  match Conversion.convert source State.initial with
  | .ok text _ => .ok text
  | .error fault _ => .error fault

variable {m : Type → Type} [Monad m] [Host m]

/-- Read a source file. -/
def readSource (path : Text) : m Text := do
  match decode? (← Host.read path) with
  | some source => return source
  | none => Host.fail .undecodable

/-- Convert a source and write the output to a file; the answer is the output. -/
def writeOutput (path source : Text) : m Text := do
  match output source with
  | .ok text =>
    Host.write path (encode text)
    return text
  | .error fault => Host.fail (.fault fault)

/-- Convert an imported file, which is sought from the directory `base`. -/
def convertImport (base path : Text) : m Unit := do
  let path := Path.join base path
  if ← Host.hasPath path then
    Host.print ("Converting imported file: ".toList ++ path)
    let source ← readSource path
    let _ ← writeOutput (Path.output path) source
  else
    Host.print ("Warning: Imported file not found: ".toList ++ path)

/-- Convert the file at `input` after the files that it imports. -/
def convertFile (input target : Text) : m Unit := do
  let source ← readSource input
  (imports source).forM (convertImport (Path.directory input))
  Host.print ("Converting main file: ".toList ++ input)
  let text ← writeOutput target source
  Host.print ("✅ Conversion successful! PHP file saved to: ".toList ++ target)
  Host.print ("ℹ️ ".toList ++ Nat.toDigits 10 text.lines.length ++ " lines generated".toList)

/-- Run the program with its arguments; the answer is the exit code. -/
def run : List Text → m Nat
  | [] => do
    Host.print "Usage: python php_dsl.py <input.ephp> [output.php]".toList
    return 1
  | input :: arguments => do
    if Path.isSource input then
      convertFile input (arguments.head?.getD (Path.output input))
      return 0
    else
      Host.print "Error: Input file must have .ephp extension".toList
      return 1

end Program
end Ephp
