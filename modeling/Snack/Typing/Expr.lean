import Snack.Number.Numeral
import Snack.Tree.Basic
import Snack.Typing.Scope

/-! The types of expressions. Reading an expression or a written type changes nothing, so both are
functions of what is known so far. The first broken rule in the order of the text is the one that is
reported. -/

namespace Snack.Typing

open Snack.Core

/-! ### Rules on single expressions -/

/-- Reports a cause at a place unless the condition holds. -/
def require (ok : Bool) (p : Pos) (cause : Cause) : Except Error Unit :=
  if ok then .ok () else .error ⟨cause, p⟩

def requireNumeric (e : Expr) (p : Pos) : Except Error Unit := require e.typ.isNumeric p .notNumeric

def requireNumericOrString (e : Expr) (p : Pos) : Except Error Unit :=
  require e.typ.isNumericOrString p .notNumericOrString

def requireBoolean (e : Expr) (p : Pos) : Except Error Unit :=
  require (e.typ.equiv .bool) p (.notBoolean e.typ)

def requireSame (left right : Expr) (p : Pos) : Except Error Unit :=
  require (left.typ.equiv right.typ) p (.differentTypes left.typ right.typ)

def requireAssignable (e : Expr) (target : Ty) (p : Pos) : Except Error Unit :=
  require (e.typ.assignable target) p (.notAssignable e.typ target)

/-! ### Written types -/

/-- An optional of an optional is the optional itself. -/
def optionalOf : Ty → Ty
  | .optional t => .optional t
  | t => .optional t

/-- The type that is written. -/
def resolve (st : State) : Tree.TypeExpr → Except Error Ty
  | .named p name =>
    match Prim.ofText? name with
    | some q => .ok (.prim q)
    | none => .error ⟨.unknownType name, p⟩
  | .array _ base => return .array (← resolve st base)
  | .dict _ key value => return .dict (← resolve st key) (← resolve st value)
  | .optional _ base => return optionalOf (← resolve st base)
  | .ref p name => do
    let e ← st.lookup name p
    if e.kind = .classDef then return e.typ else throw ⟨.notAType, p⟩
  | .unknown p kind => .error ⟨.unsupportedType kind, p⟩
  | .absent part => .error (.missing part)

/-! ### Single nodes -/

/-- The longest text of an integer literal: the number of digits of the largest one. -/
def maxDigits : Nat := 309

/-- A number. The length of an integer is looked at before its value, so leading zeros count. -/
def number (text : String) (p : Pos) : Except Error Expr :=
  if Numeral.isFloat text then
    match Numeral.float? text with
    | some x => .ok (.float x)
    | none => .error (.ofTree (.notAFloat text))
  else if text.length > maxDigits then .error ⟨.integerTooLarge, p⟩
  else
    match Numeral.int? text with
    | some n => if Number.fits n then .ok (.int n) else .error ⟨.integerTooLarge, p⟩
    | none => .error (.ofTree (.notAnInteger text))

/-- A name as a value. In a class `self` is the object at hand, for which the class stands. -/
def nameValue (st : State) (name : String) (p : Pos) : Except Error Expr :=
  match if name == "self" then st.scope.cls else none with
  | some cls => .ok (.ref cls)
  | none => do
    let e ← st.lookup name p
    if e.kind = .classDef then throw ⟨.classAsValue name, p⟩ else return .ref e

/-- The name of a callee that is looked up as such: it may be a class. -/
def calleeName? : Tree.Expr → Option (String × Pos)
  | .var p name => if name == "self" then none else some (name, p)
  | _ => none

/-- The type of an operation at `p` with operands at `pl` and `pr`. -/
def binaryType (op : BinaryOp) (left right : Expr) (p pl pr : Pos) : Except Error Ty :=
  match op with
  | .and | .or => do
    requireBoolean left pl
    requireBoolean right pr
    return .bool
  | .coalesce =>
    match left.typ with
    | .optional base => do
      requireAssignable right base pr
      return base
    | _ => .error ⟨.notOptional, pl⟩
  | .lt | .le | .gt | .ge => do
    requireNumericOrString left pl
    requireSame left right p
    return .bool
  | .eq | .ne => do
    requireSame left right p
    return .bool
  | .add => do
    requireNumericOrString left pl
    requireSame left right p
    return left.typ
  | .sub | .mul | .div | .rem | .pow => do
    requireNumeric left pl
    requireSame left right p
    return left.typ
  | .other text => .error ⟨.unsupportedOperator text, p⟩

def requireOperand (op : UnaryOp) (operand : Expr) (p po : Pos) : Except Error Unit :=
  match op with
  | .neg => requireNumeric operand po
  | .not => requireBoolean operand po
  | op => .error ⟨.unsupportedOperator op.text, p⟩

/-- The type of the member `name` of an object at `po`. -/
def memberType (st : State) (object : Expr) (op : AccessOp) (name : String) (p po : Pos) :
    Except Error Ty :=
  match object.typ with
  | .dict k v => do
    require (name == "items") p .noSuchField
    return .dict k v
  | t => do
    let s ←
      if op = .ifPresent then
        match t with
        | .optional (.struct s) => pure s
        | _ => throw ⟨.notOptionalStruct, po⟩
      else
        match t with
        | .struct s => pure s
        | _ => throw ⟨.notStruct, po⟩
    match (st.membersOf s.id).typ? name with
    | none => throw ⟨.noSuchField, p⟩
    | some t => return if op = .ifPresent then optionalOf t else t

/-- The type of an array of these elements. Without any it may hold anything. -/
def arrayType (p : Pos) : List Expr → Except Error Ty
  | [] => .ok (.array .any)
  | e :: es => do
    require (es.all fun d => d.typ.equiv e.typ) p .mixedElements
    return .array e.typ

def dictType (p : Pos) : List (Expr × Expr) → Except Error Ty
  | [] => .ok (.dict .any .any)
  | (k, v) :: es => do
    require (es.all fun e => e.1.typ.equiv k.typ && e.2.typ.equiv v.typ) p .mixedEntries
    return .dict k.typ v.typ

/-- What is called: a class with as many fields as arguments, or a function with as many parameters
unless it takes any number. -/
inductive Callee where
  | constructor (cls : Entity)
  | function (f : Expr) (result : Ty)

/-- The typed call with these arguments. -/
def Callee.applied : Callee → List Expr → Expr
  | .constructor cls, args => .construct cls args
  | .function f result, args => .call f args result

/-- Checks the number of arguments before any of them is looked at. -/
def calleeOf (st : State) (f : Expr) (argc : Nat) (p : Pos) : Except Error Callee :=
  let count (required : Nat) : Except Error Unit :=
    require (argc == required) p (.argumentCount required argc)
  match f with
  | .ref ⟨id, .classDef, name, typ⟩ => do
    count (st.membersOf id).fields.length
    return .constructor ⟨id, .classDef, name, typ⟩
  | .ref ⟨id, .builtin true, name, .function ps r⟩ =>
    return .function (.ref ⟨id, .builtin true, name, .function ps r⟩) r
  | f =>
    match f.typ with
    | .function ps r => do
      count ps.length
      return .function f r
    | _ => .error ⟨.notCallable, p⟩

/-! ### Expressions -/

/-- A part that has to be there by now. -/
def part {α : Type} (key : String) : Option α → Except Error α
  | some a => .ok a
  | none => .error (.missing key)

mutual

/-- The typed form of an expression. -/
def infer (st : State) : Tree.Expr → Except Error Expr
  | .num p text => number text p
  | .str _ value => .ok (.str value)
  | .bool _ value => .ok (.bool value)
  | .var p name => nameValue st name p
  | .paren _ inner => infer st inner
  | .binary p op left right => do
    let l ← infer st left
    let r ← infer st right
    return .binary op l r (← binaryType op l r p left.pos right.pos)
  | .unary p op operand => do
    let e ← infer st operand
    requireOperand op e p operand.pos
    return .unary op e e.typ
  | .call p callee args => do
    let f ← match calleeName? callee with
      | some (name, q) => Expr.ref <$> st.lookup name q
      | none => infer st callee
    match args with
    | none => throw (.missing "args")
    | some args =>
      let callee ← calleeOf st f args.length p
      return callee.applied (← inferAll st args)
  | .member p object op name => do
    let o ← infer st object
    let op ← part "op" op
    let name ← part "id" name
    return .member o op name (← memberType st o op name p object.pos)
  | .array p items => do
    let es ← inferAll st items
    return .array es (← arrayType p es)
  | .tuple _ items => do
    let es ← inferAll st items
    return .tuple es (.tuple (es.map Expr.typ))
  | .dict p entries => do
    let es ← inferEntries st entries
    return .dict es (← dictType p es)
  | .emptyArray _ element => return .emptyArray (.array (← resolve st element))
  | .emptyOptional _ base => return .emptyOptional (.optional (← resolve st base))
  | .unknown p kind => .error ⟨.unsupportedExpr kind, p⟩
  | .absent part => .error (.missing part)

def inferAll (st : State) : List Tree.Expr → Except Error (List Expr)
  | [] => .ok []
  | e :: es => return (← infer st e) :: (← inferAll st es)

def inferEntries (st : State) : List Tree.Entry → Except Error (List (Expr × Expr))
  | [] => .ok []
  | .mk _ key value :: es => do
    let k ← infer st key
    let v ← infer st value
    return (k, v) :: (← inferEntries st es)

end

end Snack.Typing
