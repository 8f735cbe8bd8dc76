import Ephp.Program

/-!
# The command line
-/

namespace Ephp

/-- A run on the machine. -/
abbrev Console := ExceptT Failure IO

namespace Console

/-- The failure that an error of a file operation at a path stands for. -/
def failureOf? (path : Text) : IO.Error → Option Failure
  | .noFileOrDirectory .. => some (.notFound path)
  | .inappropriateType _ code _ =>
    some (if code = 20 then .notDirectory path else .isDirectory path)
  | .permissionDenied _ code _ => if code = 13 then some (.denied path) else none
  | _ => none

/-- Do something with the file at a path. -/
def onFile {α : Type} (path : Text) (action : String → IO α) : Console α := do
  if let some failure := Failure.ofPath? path then throw failure
  match ← (action (String.ofList path)).toBaseIO with
  | .ok result => return result
  | .error error =>
    match failureOf? path error with
    | some failure => throw failure
    | none => throwThe IO.Error error

instance : Host Console where
  print line := IO.println (String.ofList line)
  hasPath path := do
    if (Failure.ofPath? path).isSome then return false
    match ← (IO.FS.realPath (String.ofList path)).toBaseIO with
    | .ok _ => return true
    | .error _ => return false
  read path := onFile path fun file => IO.FS.readBinFile file
  write path content := onFile path fun file => IO.FS.writeBinFile file content
  fail := throw

end Console
end Ephp

/-- Convert the file named on the command line. -/
def main (arguments : List String) : IO UInt32 := do
  match ← (Ephp.Program.run (arguments.map String.toList) : Ephp.Console Nat).run with
  | .ok code => return code.toUInt32
  | .error failure =>
    IO.eprintln (String.ofList (failure.message?.getD []))
    return 1
