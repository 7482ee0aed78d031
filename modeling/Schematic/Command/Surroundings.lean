/-!
# What the command works with

The command takes a text from a stream or from a file and leaves one on a stream or in a file. It
sees streams and files only through the operations listed here, so that it runs alike over a real
disk and over one that is a value.
-/

namespace Schematic.Command

/-- What stands in the way of reading or writing a file. -/
inductive FileFault where
  | absent
  | denied
  | notFolder
  | folder
  | tooLong
deriving Repr, DecidableEq

namespace FileFault

/-- The number under which systems report a fault. -/
def number : FileFault → Nat
  | .absent => 2
  | .denied => 13
  | .notFolder => 20
  | .folder => 21
  | .tooLong => 36

def wording : FileFault → String
  | .absent => "No such file or directory"
  | .denied => "Permission denied"
  | .notFolder => "Not a directory"
  | .folder => "Is a directory"
  | .tooLong => "File name too long"

end FileFault

structure Surroundings (m : Type → Type) where
  incoming : m String
  read : String → m (Except FileFault String)
  /-- Makes a text the content of the file at a path. -/
  write : String → String → m (Except FileFault Unit)

end Schematic.Command
