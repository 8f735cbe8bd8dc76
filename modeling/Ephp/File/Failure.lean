import Ephp.Fault
import Ephp.Text.Quoted

/-!
# Failures

A run of the program fails if a file cannot be used or if a conversion has a fault.
-/

namespace Ephp

/-- Why a run fails. -/
inductive Failure where
  /-- Nothing is at a path. -/
  | notFound (path : Text)
  /-- A directory is at a path where a file is needed. -/
  | isDirectory (path : Text)
  /-- A path leads through something that is no directory. -/
  | notDirectory (path : Text)
  /-- What is to be done at a path is not permitted. -/
  | denied (path : Text)
  /-- A path, or a name in it, is longer than a disk allows. -/
  | nameTooLong (path : Text)
  /-- A path has a null character in it. -/
  | nullInPath
  /-- The content of a file is no text. -/
  | undecodable
  /-- A conversion has a fault. -/
  | fault (cause : Fault)
deriving DecidableEq, Repr

namespace Failure

/-- The wording of a failure, if it has one. -/
def message? : Failure → Option Text
  | .notFound path => some ("[Errno 2] No such file or directory: ".toList ++ path.quoted)
  | .isDirectory path => some ("[Errno 21] Is a directory: ".toList ++ path.quoted)
  | .notDirectory path => some ("[Errno 20] Not a directory: ".toList ++ path.quoted)
  | .denied path => some ("[Errno 13] Permission denied: ".toList ++ path.quoted)
  | .nameTooLong path => some ("[Errno 36] File name too long: ".toList ++ path.quoted)
  | .nullInPath => some "embedded null byte".toList
  | .undecodable => none
  | .fault cause => some cause.message

/-- The failure of a path that leads nowhere on any disk: one with a null character, one of 4096
bytes or more, or the empty one. -/
def ofPath? (path : Text) : Option Failure :=
  if path.contains (Char.ofNat 0) then some .nullInPath
  else if 4096 ≤ path.byteSize then some (.nameTooLong path)
  else if path.isEmpty then some (.notFound path)
  else none

end Failure
end Ephp
