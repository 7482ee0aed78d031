import Schematic.Command.Run

/-!
# The program

Connects the command with the streams and the disk.
-/

namespace Schematic.Command

/-- The fault that a failed operation on the disk tells of. -/
def FileFault.ofError : IO.Error → FileFault
  | .permissionDenied _ _ _ => .denied
  | .inappropriateType _ 20 _ => .notFolder
  | .inappropriateType _ _ _ => .folder
  | .invalidArgument _ 36 _ => .tooLong
  | _ => .absent

/-- The text that is left on a stream, behind what is already read. -/
partial def restOf (stream : IO.FS.Stream) (read : String) : IO String := do
  let line ← stream.getLine
  if line.isEmpty then return read
  restOf stream (read ++ line)

/-- An operation with its fault as a value. -/
def faulty {α : Type} (action : IO α) : IO (Except FileFault α) := do
  try return .ok (← action)
  catch e => return .error (.ofError e)

def disk : Surroundings IO where
  incoming := do restOf (← IO.getStdin) ""
  read path := faulty (IO.FS.readFile path)
  write path text := faulty (IO.FS.writeFile path text)

end Schematic.Command

def main (args : List String) : IO UInt32 := do
  let report ← Schematic.Command.run Schematic.Command.disk args
  (← IO.getStdout).putStr report.output
  for note in report.notes do
    (← IO.getStderr).putStrLn note
  return report.exit.toUInt32
