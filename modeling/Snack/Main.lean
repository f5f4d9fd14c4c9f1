import Snack.Command.Basic

/-! The program: the command line on the system's own files and streams. -/

namespace Snack.Command

/-- Reads a stream to its end. -/
partial def readStream (stream : IO.FS.Stream) (bytes : ByteArray) : IO ByteArray := do
  let more ← stream.read 65536
  if more.isEmpty then return bytes else readStream stream (bytes ++ more)

/-- The reason for which the system refused a file. -/
def OpenError.ofSystem : IO.Error → OpenError
  | .noFileOrDirectory .. => .notFound
  | .inappropriateType .. => .isDirectory
  | e => .other (toString e)

def reading (bytes : IO ByteArray) : IO (Except OpenError ByteArray) := do
  try return .ok (← bytes)
  catch e => return .error (.ofSystem e)

def ownSystem : System IO where
  File := IO.FS.Handle
  stdin := reading do readStream (← IO.getStdin) .empty
  read name := reading (IO.FS.readBinFile name)
  create name := do
    try return some (← IO.FS.Handle.mk name .write)
    catch _ => return none
  write file bytes := do
    try
      file.write bytes
      file.flush
      return true
    catch _ => return false

/-- Says what there is to say and gives the exit code. -/
def Outcome.report (outcome : Outcome) : IO UInt32 := do
  IO.eprint outcome.stderr
  IO.print outcome.stdout
  return outcome.code.toUInt32

end Snack.Command

open Snack.Command in
def main (args : List String) : IO UInt32 := do
  (← runOn ownSystem args).report
