import Ephp.File.Disk
import Ephp.Program

/-!
# Running on a disk in memory

A run of the program on a disk in memory keeps the disk and what was printed, also when it fails.
-/

namespace Ephp

/-- The surroundings of a run in memory. -/
structure World where
  /-- The disk. -/
  disk : Disk
  /-- Everything printed so far. -/
  printed : Text

/-- A run in memory. -/
abbrev Session := EStateM Failure World

namespace Session

/-- Do something with the disk. -/
def onDisk {α : Type} (action : Disk → Except Failure α) : Session α := do
  MonadExcept.ofExcept (action (← get).disk)

instance : Host Session where
  print line := modify fun world => { world with printed := world.printed ++ line ++ ['\n'] }
  hasPath path := do return (← get).disk.hasPath path
  read path := onDisk (·.read path)
  write path content := do
    let disk ← onDisk (·.write path content)
    modify fun world => { world with disk := disk }
  fail := throw

end Session
end Ephp
