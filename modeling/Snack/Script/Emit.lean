import Snack.Core.Basic
import Snack.Script.Literal

/-! Writing a typed program as JavaScript, one statement a line and two spaces for every block around
it. A declared name gets a number behind it when it is first met, by default one for every entity, so
that a declaration that hides another stays apart from it. -/

namespace Snack.Script

open Snack.Core

/-! ### Names -/

/-- What shares a number: an entity, or everything of one name. -/
inductive Key where
  | entity (id : Nat)
  | name (s : String)
  deriving DecidableEq

/-- How names are told apart. -/
inductive Mangling where
  | byEntity
  | byName
  deriving DecidableEq

def Mangling.key : Mangling → Entity → Key
  | byEntity, e => .entity e.id
  | byName, e => .name e.name

/-- A name that has been given out. -/
structure Binding where
  key : Key
  name : String
  text : String
  deriving DecidableEq

/-- The text for an entity: the one it has, or a new one with the next number. -/
def mangle (names : List Binding) (key : Key) (name : String) : String × List Binding :=
  match names.find? fun b => b.key = key with
  | some b => (b.text, names)
  | none =>
    let text := name ++ "_" ++ toString (names.length + 1)
    (text, names ++ [⟨key, name, text⟩])

/-! ### Failures -/

inductive Error where
  | unsupportedStmt (tag : String)
  | unsupportedExpr (tag : String)
  /-- A library entity without a counterpart. -/
  | unknownName (name : String)
  /-- A length of nothing or a loop without iterators. -/
  | nothingThere
  deriving DecidableEq

def Error.message : Error → String
  | unsupportedStmt tag => "Unsupported statement kind: " ++ tag
  | unsupportedExpr tag => "Unsupported expression kind: " ++ tag
  | unknownName name => "'" ++ name ++ "'"
  | nothingThere => "list index out of range"

/-! ### Writing -/

structure State where
  names : List Binding
  lines : Array String

abbrev Emit := EStateM Error State

/-- A line at a depth. -/
def line (depth : Nat) (text : String) : Emit Unit :=
  modify fun st => { st with lines := st.lines.push (String.ofList (List.replicate (2 * depth) ' ') ++ text) }

def nameOf (m : Mangling) (e : Entity) : Emit String := fun st =>
  let (text, names) := mangle st.names (m.key e) e.name
  .ok text { st with names := names }

def namesOf (m : Mangling) : List Entity → Emit (List String)
  | [] => return []
  | e :: es => return (← nameOf m e) :: (← namesOf m es)

def commaSeparated (texts : List String) : String := String.intercalate ", " texts

/-- The counterpart of a library function used as a value. -/
def builtin : String → Emit String
  | "print" => pure "console.log"
  | "len" => pure "((s) => s.length)"
  | "str" => pure "String"
  | "num" => pure "Number"
  | "sqrt" => pure "Math.sqrt"
  | "sin" => pure "Math.sin"
  | "cos" => pure "Math.cos"
  | "exp" => pure "Math.exp"
  | "ln" => pure "Math.log"
  | "abs" => pure "Math.abs"
  | "hypot" => pure "Math.hypot"
  | name => throw (.unknownName name)

def constant : String → Emit String
  | "PI" => pure "Math.PI"
  | "TRUE" => pure "true"
  | "FALSE" => pure "false"
  | name => throw (.unknownName name)

/-- An entity as a value. A class as a value is the object at hand. -/
def entity (m : Mangling) (e : Entity) : Emit String :=
  match e.kind with
  | .var _ | .parameter | .function false => nameOf m e
  | .function true => pure e.name
  | .classDef => pure "this"
  | .builtin _ => builtin e.name
  | .constant => constant e.name
  | .other tag => throw (.unsupportedExpr tag)

/-- Equality without conversions. -/
def binaryOp : BinaryOp → String
  | .eq => "==="
  | .ne => "!=="
  | op => op.text

def isLen : Expr → Bool
  | .ref ⟨_, .builtin _, name, _⟩ => name == "len"
  | _ => false

def isDict : Ty → Bool
  | .dict .. => true
  | _ => false

/-- Whether a key can be written without brackets. -/
def isPlainKey : Expr → Bool
  | .str _ => true
  | .int n => 0 ≤ n
  | _ => false

mutual

/-- The text of an expression in a statement at a depth. Printing in the middle of an expression puts
a line before the statement. -/
def expr (m : Mangling) (depth : Nat) : Expr → Emit String
  | .int n => pure (intLiteral n)
  | .float x => pure (floatLiteral x)
  | .str s => pure (stringLiteral s)
  | .bool b => pure (if b then "true" else "false")
  | .ref e => entity m e
  | .binary op left right _ => do
    let l ← expr m depth left
    let r ← expr m depth right
    return "(" ++ l ++ " " ++ binaryOp op ++ " " ++ r ++ ")"
  | .unary .print operand _ => do
    let e ← expr m depth operand
    line depth ("console.log(" ++ e ++ ");")
    return ""
  | .unary op operand _ => return "(" ++ op.text ++ (← expr m depth operand) ++ ")"
  | .call callee args _ => do
    let as ← exprs m depth args
    if isLen callee then
      match as with
      | a :: _ => return a ++ ".length"
      | [] => throw .nothingThere
    else return (← expr m depth callee) ++ "(" ++ commaSeparated as ++ ")"
  | .construct c args => do
    let as ← exprs m depth args
    return "new " ++ (← nameOf m c) ++ "(" ++ commaSeparated as ++ ")"
  | .member object op field _ => do
    let o ← expr m depth object
    if field == "items" && isDict object.typ then return "Object.entries(" ++ o ++ ")"
    else return o ++ op.text ++ field
  | .array es _ | .tuple es _ => return "[" ++ commaSeparated (← exprs m depth es) ++ "]"
  | .dict es _ => return "\x7b" ++ commaSeparated (← entries m depth es) ++ "\x7d"
  | .emptyArray _ => pure "[]"
  | .emptyOptional _ => pure "undefined"
  | .other tag _ => throw (.unsupportedExpr tag)

def exprs (m : Mangling) (depth : Nat) : List Expr → Emit (List String)
  | [] => return []
  | e :: es => return (← expr m depth e) :: (← exprs m depth es)

def entries (m : Mangling) (depth : Nat) : List (Expr × Expr) → Emit (List String)
  | [] => return []
  | (k, v) :: es => do
    let key ← expr m depth k
    let value ← expr m depth v
    let text := if isPlainKey k then key else "[" ++ key ++ "]"
    return (text ++ ": " ++ value) :: (← entries m depth es)

end

/-! ### Statements -/

/-- Whether the pairs of a dictionary are asked for already. -/
def isItems : Expr → Bool
  | .member _ _ field _ => field == "items"
  | _ => false

/-- The head of a loop over a collection: two iterators take pairs apart. -/
def eachHead (m : Mangling) (depth : Nat) (iterators : List Entity) (collection : Expr) : Emit Unit := do
  let c ← expr m depth collection
  match iterators with
  | [k, v] =>
    let names ← namesOf m [k, v]
    let pairs := if isItems collection then c else "Object.entries(" ++ c ++ ")"
    line depth ("for (const [" ++ commaSeparated names ++ "] of " ++ pairs ++ ") \x7b")
  | i :: _ => line depth ("for (const " ++ (← nameOf m i) ++ " of " ++ c ++ ") \x7b")
  | [] => throw .nothingThere

def rangeHead (m : Mangling) (depth : Nat) (i : Entity) (low : Expr) (op : RangeOp) (high : Expr) :
    Emit Unit := do
  let name ← nameOf m i
  let lo ← expr m depth low
  let hi ← expr m depth high
  let test := if op = .through then "<=" else "<"
  line depth ("for (let " ++ name ++ " = " ++ lo ++ "; " ++ name ++ " " ++ test ++ " " ++ hi ++ "; " ++
    name ++ "++) \x7b")

/-- A constructor that stores one argument in each field. -/
def constructor (depth : Nat) (fields : List Field) : Emit Unit := do
  line depth ("constructor(" ++ commaSeparated (fields.map (·.name)) ++ ") \x7b")
  fields.forM fun f => line (depth + 1) ("this." ++ f.name ++ " = " ++ f.name ++ ";")
  line depth "\x7d"

mutual

def stmt (m : Mangling) (depth : Nat) : Stmt → Emit Unit
  | .declare v none _ => do line depth ("let " ++ (← nameOf m v) ++ ";")
  | .declare v (some init) _ => do
    let name ← nameOf m v
    line depth ("let " ++ name ++ " = " ++ (← expr m depth init) ++ ";")
  | .function f _ => do
    let name ← nameOf m f.entity
    function m depth "function " name f
  | .classDecl c fields ms _ => do
    line depth ("class " ++ (← nameOf m c) ++ " \x7b")
    constructor (depth + 1) fields
    methods m (depth + 1) ms
    line depth "\x7d"
  | .assign target source _ => do
    let t ← expr m depth target
    line depth (t ++ " = " ++ (← expr m depth source) ++ ";")
  | .addAssign target source _ => do
    let t ← expr m depth target
    line depth (t ++ " += " ++ (← expr m depth source) ++ ";")
  | .increment target _ => do line depth ((← expr m depth target) ++ "++;")
  | .decrement target _ => do line depth ((← expr m depth target) ++ "--;")
  | .ret none _ => line depth "return;"
  | .ret (some value) _ => do line depth ("return " ++ (← expr m depth value) ++ ";")
  | .print es _ => do line depth ("console.log(" ++ commaSeparated (← exprs m depth es) ++ ");")
  | .ifElse test body rest _ => do
    line depth ("if (" ++ (← expr m depth test) ++ ") \x7b")
    block m (depth + 1) body
    elsePart m depth rest
  | .whileLoop test body _ => do
    line depth ("while (" ++ (← expr m depth test) ++ ") \x7b")
    block m (depth + 1) body
    line depth "\x7d"
  | .rangeLoop i low op high body _ => do
    rangeHead m depth i low op high
    block m (depth + 1) body
    line depth "\x7d"
  | .eachLoop is collection body _ => do
    eachHead m depth is collection
    block m (depth + 1) body
    line depth "\x7d"
  | .brk _ => line depth "break;"
  | .call e _ => do
    let text ← expr m depth e
    if text.isEmpty then return () else line depth (text ++ ";")
  | .other tag _ => throw (.unsupportedStmt tag)

def block (m : Mangling) (depth : Nat) : List Stmt → Emit Unit
  | [] => return ()
  | s :: ss => do
    stmt m depth s
    block m depth ss

/-- What follows a block whose test failed, up to the closing brace. An empty block is not written. -/
def elsePart (m : Mangling) (depth : Nat) : Else → Emit Unit
  | .none | .block [] => line depth "\x7d"
  | .block body => do
    line depth "\x7d else \x7b"
    block m (depth + 1) body
    line depth "\x7d"
  | .elseIf test body rest _ => do
    line depth ("\x7d else if (" ++ (← expr m depth test) ++ ") \x7b")
    block m (depth + 1) body
    elsePart m depth rest

def function (m : Mangling) (depth : Nat) (keyword name : String) : Function → Emit Unit
  | .mk _ params body _ => do
    let ps ← namesOf m params
    line depth (keyword ++ name ++ "(" ++ commaSeparated ps ++ ") \x7b")
    block m (depth + 1) body
    line depth "\x7d"

def methods (m : Mangling) (depth : Nat) : List Function → Emit Unit
  | [] => return ()
  | f :: fs => do
    function m depth "" f.entity.name f
    methods m depth fs

end

/-- Writes a program. The state has its lines, and the names given out in order. -/
def run (m : Mangling) (p : Program) : Except Error Unit × State :=
  match block m 0 p.statements ⟨[], #[]⟩ with
  | .ok _ st => (.ok (), st)
  | .error e st => (.error e, st)

def State.text (st : State) : String := String.intercalate "\n" st.lines.toList

/-- The text of a program. -/
def generate (m : Mangling) (p : Program) : Except Error String :=
  match run m p with
  | (.ok _, st) => .ok st.text
  | (.error e, _) => .error e

end Snack.Script
