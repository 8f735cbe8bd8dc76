import Ephp.Text.Substitute

/-!
# Paths

A path is a text of names separated by slashes.  It is absolute if it starts with a slash.
-/

namespace Ephp
namespace Path

/-- Whether a path starts at the root. -/
def isAbsolute (path : Text) : Bool :=
  path.head? == some '/'

/-- The path of the directory that a path lies in: what stands before its last slash, without the
slashes at its end unless there is nothing else. -/
def directory (path : Text) : Text :=
  let front := path.trimEnd (· != '/')
  if front.all (· == '/') then front else front.trimEnd (· == '/')

/-- The path of `path` seen from the directory `base`. -/
def join (base path : Text) : Text :=
  if isAbsolute path then path
  else if base.isEmpty || base.getLast? == some '/' then base ++ path
  else base ++ ['/'] ++ path

/-- The ending of source files. -/
def sourceEnding : Text := ".ephp".toList

/-- Whether a path names a source file. -/
def isSource (path : Text) : Bool :=
  path.endsWith sourceEnding

/-- The path of the output for a source file. -/
def output (path : Text) : Text :=
  Text.replace sourceEnding ".php".toList path

end Path
end Ephp
