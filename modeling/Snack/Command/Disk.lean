import Snack.Command.System

/-! A system whose files and directories are held by their paths. A path is read from the directory at hand, and
a file is written only where its directory is. -/

namespace Snack.Command

inductive Entry where
  | file (bytes : ByteArray)
  | directory

/-- The names on the way to an entry. -/
abbrev Path := List String

/-- Two dots lead back, one dot and no name lead nowhere. -/
def Path.walk (path : Path) : List String → Path
  | [] => path
  | "" :: names | "." :: names => Path.walk path names
  | ".." :: names => Path.walk path.dropLast names
  | name :: names => Path.walk (path ++ [name]) names

def Path.ofName (name : String) : Path := Path.walk [] ((name.toList.splitOn '/').map String.ofList)

structure Disk where
  entries : List (Path × Entry)

namespace Disk

def find? (d : Disk) (path : Path) : Option Entry :=
  if path = [] then some .directory else d.entries.lookup path

/-- Whether the name asks for a directory. -/
def namesDirectory (name : String) : Bool := name.toList.getLast? = some '/'

def isFile (d : Disk) (path : Path) : Bool :=
  match d.find? path with
  | some (.file _) => true
  | _ => false

def isDirectory (d : Disk) (path : Path) : Bool :=
  match d.find? path with
  | some .directory => true
  | _ => false

/-- Whether the way to a path leads through a file. -/
def blocked (d : Disk) (path : Path) : Bool :=
  (List.range path.length).any fun n => d.isFile (path.take n)

/-- What a file holds. -/
def read (d : Disk) (name : String) : Except OpenError ByteArray :=
  let path := Path.ofName name
  if name = "" then .error .notFound
  else if d.blocked path then .error .notDirectory
  else
    match d.find? path with
    | none => .error .notFound
    | some .directory => .error .isDirectory
    | some (.file bytes) => if namesDirectory name then .error .notDirectory else .ok bytes

/-- Puts a file at a path. -/
def put (d : Disk) (path : Path) (bytes : ByteArray) : Disk :=
  ⟨(path, .file bytes) :: d.entries.filter fun e => e.1 ≠ path⟩

/-- Opens a file, in the place of another or in a directory that is there. -/
def create (d : Disk) (name : String) : Option Path × Disk :=
  let path := Path.ofName name
  if name = "" || namesDirectory name || d.blocked path || d.isDirectory path || !d.isDirectory path.dropLast then
    (none, d)
  else (some path, d.put path .empty)

/-- Writes as much as there is room for, if the bytes of a file are limited. -/
def write (room : Option Nat) (d : Disk) (path : Path) (bytes : ByteArray) : Bool × Disk :=
  match d.find? path with
  | some (.file before) =>
    let all := before ++ bytes
    let size := room.getD all.size
    if all.size ≤ size then (true, d.put path all) else (false, d.put path (all.extract 0 size))
  | _ => (false, d)

/-- The disk as a system, with what comes from the input and the room for a file. -/
def system (stdin : ByteArray) (room : Option Nat) : System (StateM Disk) where
  File := Path
  stdin := pure (.ok stdin)
  read name := fun d => (d.read name, d)
  create name := fun d => d.create name
  write path bytes := fun d => d.write room path bytes

end Disk

end Snack.Command
