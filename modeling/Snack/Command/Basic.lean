import Snack.Command.Disk
import Snack.Command.Options
import Snack.Text.Utf8

/-! The command line on a system that it is given. A file is opened and written to only at the very end and only
when there is a text to write. -/

namespace Snack.Command

/-- What a run leaves behind. -/
structure Outcome where
  code : Nat
  stdout : String
  stderr : String

def Outcome.fail (code : Nat) (message : String) : Outcome := ⟨code, "", errorLine message⟩

def Stop.outcome (s : Stop) : Outcome := ⟨s.code, s.stdout, s.stderr⟩

/-- How messages call the input. -/
def Options.inputName (o : Options) : String := o.input.getD "<stdin>"

/-- The source text, or how the run ends without one. -/
def source (o : Options) (content : Except OpenError ByteArray) : Except Outcome String :=
  match content with
  | .error e => .error (.fail 1 ("cannot open '" ++ o.inputName ++ "': " ++ e.message))
  | .ok bytes =>
    match Text.decode bytes with
    | .error n => .error (.fail 1 (o.inputName ++ " is not valid utf-8 (byte " ++ toString n ++ ")"))
    | .ok s => if s.toList.all Text.isBlank then .error (.fail 2 "no input provided") else .ok s

/-- What compiling a source text comes to: the text that is asked for or a failure that is told, and the log
so far. -/
def pipeline (stopAt : Option Phase) (settings : Settings) (source : String) (log : List Compile.Event) :
    Outcome × List Compile.Event :=
  match Compile.run stopAt settings source log with
  | .ok text events => (⟨0, text, ""⟩, events)
  | .error e events => (.fail 1 e.message, events)

/-- What a run comes to before anything is written: an end, or a text and the log so far. -/
def produce (o : Options) (content : Except OpenError ByteArray) : Except Outcome (String × String) :=
  match source o content with
  | .error outcome => .error outcome
  | .ok s =>
    let log (events : List Compile.Event) : String := if o.verbose then Compile.logText events else ""
    let (outcome, events) := pipeline o.stopAt o.settings s [.read s.length]
    if outcome.code = 0 then .ok (outcome.stdout, log events)
    else .error { outcome with stderr := log events ++ outcome.stderr }

/-- How a run ends whose output could not be written. -/
def unwritten (file log : String) : Outcome := ⟨1, "", log ++ errorLine ("cannot write '" ++ file ++ "'")⟩

/-- Where a text goes. No text goes nowhere. -/
inductive Delivery where
  | stdout
  | file (name : String)
  | nowhere
  deriving DecidableEq

def delivery (o : Options) (text : String) : Delivery :=
  if text.isEmpty then .nowhere
  else
    match o.output with
    | some name => .file name
    | none => .stdout

section Run

variable {m : Type → Type} [Monad m]

/-- Delivers a text. A file is opened before it is written to. -/
def deliver (sys : System m) (o : Options) (text log : String) : m Outcome :=
  match delivery o text with
  | .nowhere => return ⟨0, "", log⟩
  | .stdout => return ⟨0, text ++ "\n", log⟩
  | .file name => do
    match ← sys.create name with
    | none => return unwritten name log
    | some file =>
      if ← sys.write file (text ++ "\n").toUTF8 then return ⟨0, "", log⟩ else return unwritten name log

/-- The bytes that a run reads. -/
def content (sys : System m) (o : Options) : m (Except OpenError ByteArray) :=
  match o.input with
  | none => sys.stdin
  | some name => sys.read name

/-- A whole run. -/
def runOn (sys : System m) (args : List String) : m Outcome :=
  match Options.ofArgs args with
  | .error stop => return stop.outcome
  | .ok o => do
    match produce o (← content sys o) with
    | .error outcome => return outcome
    | .ok (text, log) => deliver sys o text log

end Run

/-- A run on a disk with room for everything. -/
def run (args : List String) (stdin : ByteArray) (d : Disk) : Outcome × Disk :=
  (runOn (Disk.system stdin none) args).run d

end Snack.Command
