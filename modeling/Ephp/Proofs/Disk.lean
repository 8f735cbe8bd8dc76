import Ephp.File.Disk
import Ephp.Proofs.Path
import Ephp.Proofs.Step

/-!
# Sources and outputs on a disk

Outputs are written where no source is: the name of an output has no source ending in it.  A disk
that has changed only by outputs has the same directories and the same sources, so that a path leads
to the same location and a source is read as before.
-/

namespace Ephp

namespace Path

end Path

namespace Disk

theorem lookup_filter_of_ne {location other : Location} (differs : other ≠ location)
    (entries : List (Location × Entry)) :
    (entries.filter (·.1 != location)).lookup other = entries.lookup other := by
  induction entries with
  | nil => rfl
  | cons first entries ih =>
      obtain ⟨place, entry⟩ := first
      by_cases same : place = location
      · have passed : (other == location) = false := by simpa using differs
        simpa [same, List.lookup_cons, passed] using ih
      · simp [same, List.lookup_cons, ih]

theorem lookup_put (disk : Disk) (location other : Location) (entry : Entry) :
    (disk.put location entry).lookup other =
      if other = location then some entry else disk.lookup other := by
  unfold put lookup
  split
  · rename_i same
    simp [same]
  · rename_i differs
    have passed : (other == location) = false := by simpa using differs
    simp only [List.lookup_cons, passed]
    exact lookup_filter_of_ne differs disk.entries

/-- The last of the names on the way to a location, or in a path, has a source ending in it. -/
def NamesSource (names : List Text) : Prop :=
  ∃ name ∈ names.getLast?, List.IsInfix Path.sourceEnding name

/-- A disk that has the directories and the sources of another one. -/
structure Retains (initial disk : Disk) : Prop where
  working : disk.working = initial.working
  permits : disk.permits = initial.permits
  directories : ∀ location,
    disk.lookup location = some .directory ↔ initial.lookup location = some .directory
  sources : ∀ location, NamesSource location → disk.lookup location = initial.lookup location

namespace Retains

variable {initial disk : Disk} (kept : Retains initial disk)

theorem refl (disk : Disk) : Retains disk disk :=
  ⟨rfl, rfl, fun _ => Iff.rfl, fun _ _ => rfl⟩

include kept

/-- Writing a file that is no source keeps the directories and the sources. -/
theorem put {location : Location} (content : ByteArray)
    (free : disk.lookup location ≠ some .directory) (other : ¬NamesSource location) :
    Retains initial (disk.put location (.file content)) where
  working := kept.working
  permits := kept.permits
  directories place := by
    rw [lookup_put, ← kept.directories]
    split
    · rename_i same
      simp [same, free]
    · rfl
  sources place named := by
    rw [lookup_put, if_neg, kept.sources place named]
    rintro rfl
    exact other named

end Retains
end Disk
end Ephp
