/-! What a run asks of the system that it runs on: to read, to open a file for writing and to write to it. Each
may fail. Opening comes before writing and changes the file already, so a write that fails does not leave it as
it was. -/

namespace Snack.Command

inductive OpenError where
  | notFound
  | isDirectory
  | notDirectory
  /-- Any other reason that the system gives. -/
  | other (reason : String)
  deriving DecidableEq

def OpenError.message : OpenError → String
  | notFound => "No such file or directory"
  | isDirectory => "Is a directory"
  | notDirectory => "Not a directory"
  | other reason => reason

structure System (m : Type → Type) where
  /-- What stands for a file that is open for writing. -/
  File : Type
  stdin : m (Except OpenError ByteArray)
  read (name : String) : m (Except OpenError ByteArray)
  /-- Opens a file for writing, which creates it or takes out what it holds. -/
  create (name : String) : m (Option File)
  /-- Writes to a file and closes it. Tells whether all was written. -/
  write (file : File) (bytes : ByteArray) : m Bool

end Snack.Command
