import Ephp.Proofs.Disk
import Ephp.Proofs.Imports
import Ephp.World

/-!
# Runs of the program

A run reads and writes in turns: it reads its input, then reads and writes file after file for the
imports, and writes its output last.  What it writes is nevertheless a function of the disk that it
starts from, since it never reads what it has written: a file has one location, and the name that an
output is written under is not the name of a source.
-/

namespace Ephp

namespace Program

/-- The text of the source file at a path. -/
def sourceAt (disk : Disk) (path : Text) : Except Failure Text := do
  match decode? (← disk.read path) with
  | some source => .ok source
  | none => .error .undecodable

/-- The output for a source and the location at which it can be written. -/
def product (disk : Disk) (path source : Text) : Except Failure (Location × Text) := do
  let text ← (output source).mapError .fault
  let location ← disk.target path
  match disk.lookup location with
  | some .directory => .error (.isDirectory path)
  | _ => if disk.permits location .write then .ok (location, text) else .error (.denied path)

/-- The output for an imported file, if there is such a file. -/
def importProduct (disk : Disk) (base file : Text) : Except Failure (Option (Location × Text)) :=
  if disk.hasPath (Path.join base file) then do
    let source ← sourceAt disk (Path.join base file)
    return some (← product disk (Path.output (Path.join base file)) source)
  else .ok none

end Program

/-- Write outputs one after another. -/
def Disk.putAll (disk : Disk) (outputs : List (Location × Text)) : Disk :=
  outputs.foldl (fun disk file => disk.put file.1 (.file (Program.encode file.2))) disk

namespace Session

variable {α : Type}

theorem onDisk_apply (action : Disk → Except Failure α) (world : World) :
    onDisk action world =
      match action world.disk with
      | .ok answer => .ok answer world
      | .error failure => .error failure world := by
  change (MonadExcept.ofExcept (action world.disk) : Session α) world = _
  cases action world.disk <;> rfl

/-- What a run answers, if it does not fail. -/
def answer? (run : Session α) (world : World) : Option α :=
  match run world with
  | .ok answer _ => some answer
  | .error _ _ => none

theorem answer?_eq_some_iff {run : Session α} {world : World} {answer : α} :
    run.answer? world = some answer ↔ ∃ after, run world = .ok answer after := by
  unfold answer?
  cases run world with
  | ok other after => simp
  | error failure after => simp

end Session

namespace Program

open Conversion (bind_apply bind_eq_ok)
open Session (onDisk_apply)

theorem readSource_apply (path : Text) (world : World) :
    (readSource path : Session Text) world =
      match sourceAt world.disk path with
      | .ok source => .ok source world
      | .error failure => .error failure world := by
  have read : (Host.read path : Session ByteArray) world = _ := onDisk_apply (·.read path) world
  rw [readSource, bind_apply, read, sourceAt]
  cases world.disk.read path with
  | error failure => rfl
  | ok content =>
      simp only [bind, Except.bind]
      cases decode? content <;> rfl

theorem product_eq_ok_iff {disk : Disk} {path source text : Text} {location : Location} :
    product disk path source = .ok (location, text) ↔
      output source = .ok text ∧ disk.target path = .ok location ∧
        disk.lookup location ≠ some .directory ∧ disk.permits location .write = true := by
  unfold product
  cases output source with
  | error fault => simp [Except.mapError, bind, Except.bind]
  | ok written =>
      cases disk.target path with
      | error failure => simp [Except.mapError, bind, Except.bind]
      | ok place =>
          simp only [Except.mapError, bind, Except.bind, Except.ok.injEq]
          constructor
          · intro done
            split at done
            · simp at done
            · rename_i free
              split at done
              · rename_i permitted
                cases done
                exact ⟨rfl, rfl, free, permitted⟩
              · simp at done
          · rintro ⟨rfl, rfl, free, permitted⟩
            split
            · rename_i found
              exact absurd found free
            · rw [if_pos permitted]

theorem writeOutput_apply (path source : Text) (world : World) :
    (writeOutput path source : Session Text) world =
      match product world.disk path source with
      | .ok file => .ok file.2 { world with disk := world.disk.putAll [file] }
      | .error failure => .error failure world := by
  unfold writeOutput product
  cases output source with
  | error fault => rfl
  | ok text =>
      have written : (Host.write path (encode text) : Session Unit) world =
          match world.disk.write path (encode text) with
          | .ok disk => .ok () { world with disk := disk }
          | .error failure => .error failure world := by
        change (Session.onDisk (·.write path (encode text)) >>= _) world = _
        rw [bind_apply, onDisk_apply]
        cases world.disk.write path (encode text) <;> rfl
      simp only
      rw [bind_apply, written, Disk.write]
      cases world.disk.target path with
      | error failure => rfl
      | ok location =>
          simp only [bind, Except.bind, Except.mapError]
          cases world.disk.permits location .write <;> cases world.disk.lookup location with
          | none => rfl
          | some entry => cases entry <;> rfl

/-- A file that imports another file twice, a file that is missing, and itself. -/
def tangled : World where
  disk :=
    { entries := [([], .directory),
        (["m.ephp".toList], .file (encode (Text.join ['\n'] ["import \"a.ephp\"".toList,
          "import \"b.ephp\"".toList, "import \"a.ephp\"".toList, "import \"m.ephp\"".toList]))),
        (["a.ephp".toList], .file (encode "x".toList))]
      working := [] }
  printed := []

end Program
end Ephp
