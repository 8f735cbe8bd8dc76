import Ephp.Proofs.Run

/-!
# Runs that fail

A run that fails has converted the imports before the one that it fails at, or all of them.  Their
outputs are complete, and nothing else on the disk is touched: a run never leaves half of an output,
and it never writes a source.
-/

namespace Ephp

namespace Session

variable {α : Type}

end Session

namespace Program

open Conversion (bind_eq_error)

/-- Where the conversion of a file fails, on the disk `after` that it has made of `disk`, and the
files that it has converted before. -/
inductive Stops (disk after : Disk) (input target : Text) (failure : Failure) :
    List Text → Prop where
  /-- The input cannot be read. -/
  | reading (failed : sourceAt disk input = .error failure) :
      Stops disk after input target failure []
  /-- An import cannot be read, converted or written. -/
  | importing {source file : Text} {files others : List Text}
      (read : sourceAt disk input = .ok source) (split : imports source = files ++ file :: others)
      (failed : importProduct after (Path.directory input) file = .error failure) :
      Stops disk after input target failure files
  /-- The input cannot be converted, or its output cannot be written. -/
  | writing {source : Text} (read : sourceAt disk input = .ok source)
      (failed : product after target source = .error failure) :
      Stops disk after input target failure (imports source)

end Program
end Ephp
