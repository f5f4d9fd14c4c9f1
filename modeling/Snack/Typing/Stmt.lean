import Snack.Typing.Expr

/-! The analysis of statements. It declares names, opens and closes scopes and collects the members of
classes. What a broken rule interrupts stays as it was then: names that were declared stay declared,
and scopes that were opened stay open. -/

namespace Snack.Typing

open Snack.Core

/-- A step of the analysis. A failure keeps what is known by then. -/
abbrev Check := EStateM Error State

namespace Check

/-- A question that changes nothing. -/
def ask {α : Type} (f : State → Except Error α) : Check α := fun st =>
  match f st with
  | .ok a => .ok a st
  | .error e => .error e st

def expr (e : Tree.Expr) : Check Expr := ask fun st => infer st e

def type (t : Tree.TypeExpr) : Check Ty := ask fun st => resolve st t

def lift {α : Type} (r : Except Error α) : Check α := ask fun _ => r

/-- A number that no entity has yet. -/
def fresh : Check Nat := fun st => .ok st.next { st with next := st.next + 1 }

/-- Fails if the innermost scope has that name. -/
def notDeclared (name : String) (p : Pos) : Check Unit :=
  ask fun st => require (!st.isLocal name) p (.alreadyDeclared name)

def declare (name : String) (e : Entity) (p : Pos) : Check Unit := do
  notDeclared name p
  modify (·.bind name e)

/-- Closes the innermost scope. -/
def leave : Check Unit := fun st =>
  match st.exit? with
  | some st => .ok () st
  | none => .error (.ofTree .outermostScope) st

/-- A step in a scope of its own, which is closed when the step succeeds. -/
def within {α : Type} (inLoop : Option Bool) (function : Option Callable) (cls : Option Entity)
    (body : Check α) : Check α := do
  modify (·.enter inLoop function cls)
  let a ← body
  leave
  return a

def inBlock {α : Type} (body : Check α) : Check α := within none none none body

def inLoop {α : Type} (body : Check α) : Check α := within (some true) none none body

/-! ### Declarations -/

/-- The type of a slot: as declared, else that of its first value, else anything. -/
def slotType (declared : Option Ty) (init : Option Expr) (p : Pos) : Except Error Ty :=
  match declared, init with
  | some t, some e => do
    requireAssignable e t p
    return t
  | some t, none => .ok t
  | none, some e => .ok e.typ
  | none, none => .ok .any

def expr? : Option Tree.Expr → Check (Option Expr)
  | none => return none
  | some e => return some (← expr e)

def type? : Option Tree.TypeExpr → Check (Option Ty)
  | none => return none
  | some t => return some (← type t)

def newVariable (name : String) (init : Option Expr) (t : Ty) (p : Pos) : Check Stmt := do
  let v : Entity := ⟨← fresh, .var true, name, t⟩
  declare name v p
  return .declare v init p

def varDecl (p : Pos) (t : Option Tree.TypeExpr) (name : String) (init : Option Tree.Expr) :
    Check Stmt := do
  notDeclared name p
  let declared ← type? t
  let value ← expr? init
  newVariable name value (← lift (slotType declared value p)) p

def collection (p : Pos) (name : String) (value : Tree.Expr) : Check Stmt := do
  notDeclared name p
  let e ← expr value
  newVariable name (some e) e.typ p

/-- Declares parameters in the scope of their function. -/
def params : List Tree.Param → Check (List Entity)
  | [] => return []
  | q :: qs => do
    let t := (← type? q.type).getD .any
    let name ← lift (part "id" q.name)
    let e : Entity := ⟨← fresh, .parameter, name, t⟩
    declare name e q.pos
    return e :: (← params qs)

/-- Makes a function known under its name before its parameters are: to the scope, or for a method to
its class only, which must not have a member of that name. -/
def announce (cls : Option Entity) (f : Entity) (p : Pos) : Check Unit :=
  match cls with
  | none => declare f.name f p
  | some c => ask fun st => require (!(st.membersOf c.id).has f.name) p (.alreadyDeclared f.name)

/-- Gives a function its final type, once its parameters are known. -/
def settle (cls : Option Entity) (f : Entity) : Check Unit :=
  match cls with
  | none => modify (·.settle f.name f)
  | some c => modify (·.addMethod c.id f)

/-- A function, or a method if there is a class. It is known while its body is analysed. -/
def function (cls : Option Entity) (p : Pos) (name : String) (ps : List Tree.Param)
    (returns : Option Tree.TypeExpr) (body : Check (List Stmt)) : Check Function := do
  let result := (← type? returns).getD .void
  let f : Entity := ⟨← fresh, .function cls.isSome, name, .function [] result⟩
  announce cls f p
  within (some false) (some ⟨name, result⟩) none do
    let qs ← params ps
    let f := { f with typ := .function (qs.map (·.typ)) result }
    settle cls f
    return .mk f qs (← body) p

/-! ### Classes -/

def field (id : Nat) (p : Pos) (t : Option Tree.TypeExpr) (name : String) (init : Option Tree.Expr) :
    Check Unit := do
  lift (require init.isNone p .fieldInitializer)
  ask fun st => require ((st.membersOf id).field? name).isNone p (.alreadyDeclared name)
  let t := (← type? t).getD .any
  modify (·.addField id ⟨name, t⟩)

/-- The fields of a class. They come before its methods, which may use fields declared below them. -/
def fields (id : Nat) : List Tree.Stmt → Check Unit
  | [] => return ()
  | .varDecl p t name init :: rest => do
    field id p t name init
    fields id rest
  | .absent part :: _ => throw (.missing part)
  | _ :: rest => fields id rest

/-- Notes a statement that is analysed and then left out of its class. -/
def drop (kind cls : String) : Check Unit :=
  modify fun st => { st with dropped := st.dropped ++ [(kind, cls)] }

def classDecl (p : Pos) (name : String) (body : List Tree.Stmt)
    (methods : Entity → Check (List Function)) : Check Stmt := do
  let id ← fresh
  let cls : Entity := ⟨id, .classDef, name, .struct ⟨id, name⟩⟩
  declare name cls p
  let fs ← within (some false) none (some cls) do
    fields id body
    methods cls
  let st ← get
  return .classDecl cls (st.membersOf id).fields fs p

/-! ### Control flow -/

/-- A condition. -/
def test (e : Tree.Expr) : Check Expr := do
  let t ← expr e
  lift (requireBoolean t e.pos)
  return t

/-- A bound of a range. -/
def bound (e : Tree.Expr) : Check Expr := do
  let t ← expr e
  lift (requireNumeric t e.pos)
  return t

def rangeOp (p : Pos) : Option RangeOp → Except Error RangeOp
  | none => .error (.missing "op")
  | some (.other text) => .error ⟨.unsupportedRange text, p⟩
  | some op => .ok op

def rangeLoop (p : Pos) (name : Option String) (low : Tree.Expr) (op : Option RangeOp)
    (high : Tree.Expr) (body : Check (List Stmt)) : Check Stmt := do
  let lo ← bound low
  let hi ← bound high
  let name ← lift (part "id" name)
  let i : Entity := ⟨← fresh, .var false, name, lo.typ⟩
  let b ← inLoop do
    declare name i p
    body
  return .rangeLoop i lo (← lift (rangeOp p op)) hi b p

/-- The types of what a loop over a collection binds. -/
def elementTypes (t : Ty) (p : Pos) : Except Error (List Ty) :=
  match t with
  | .array e => .ok [e]
  | .dict k v => .ok [k, v]
  | t => .error ⟨.notIterable t, p⟩

/-- Declares iterators in the scope of their loop. -/
def iterators (p : Pos) : List (String × Ty) → Check (List Entity)
  | [] => return []
  | (name, t) :: rest => do
    let i : Entity := ⟨← fresh, .var false, name, t⟩
    declare name i p
    return i :: (← iterators p rest)

def eachLoop (p : Pos) (names : Option (List String)) (collection : Tree.Expr)
    (body : Check (List Stmt)) : Check Stmt := do
  let c ← expr collection
  let ts ← lift (elementTypes c.typ collection.pos)
  let names ← lift (part "ids" names)
  lift (require (names.length == ts.length) p (.iteratorCount ts.length names.length))
  inLoop do
    let is ← iterators p (names.zip ts)
    return .eachLoop is c (← body) p

def ret (p : Pos) (value : Option Tree.Expr) : Check Stmt := do
  match (← get).scope.function with
  | none => throw ⟨.returnOutsideFunction, p⟩
  | some f =>
    match value with
    | none =>
      lift (require (f.result.equiv .void) p .valueMissing)
      return .ret none p
    | some value =>
      lift (require (!f.result.equiv .void) p .valueUnexpected)
      let e ← expr value
      lift (requireAssignable e f.result value.pos)
      return .ret (some e) p

/-! ### Assignments -/

/-- Refuses what has a fixed value. -/
def requirePlace (e : Expr) (p : Pos) : Except Error Unit :=
  match e with
  | .ref ⟨_, .function _, name, _⟩ | .ref ⟨_, .classDef, name, _⟩ | .ref ⟨_, .builtin _, name, _⟩
  | .ref ⟨_, .constant, name, _⟩ => .error ⟨.fixedTarget name, p⟩
  | .ref ⟨_, .var false, name, _⟩ => .error ⟨.iteratorTarget name, p⟩
  | _ => .ok ()

def target (e : Tree.Expr) : Check Expr := do
  let t ← expr e
  lift (requirePlace t e.pos)
  return t

/-- The value is analysed before the place that it goes to. -/
def assign (p : Pos) (place value : Tree.Expr) : Check Stmt := do
  let source ← expr value
  let t ← target place
  lift (requireAssignable source t.typ place.pos)
  return .assign t source p

def addAssign (p : Pos) (place value : Tree.Expr) : Check Stmt := do
  let source ← expr value
  let t ← target place
  lift (requireNumericOrString t place.pos)
  lift (requireAssignable source t.typ place.pos)
  return .addAssign t source p

def bump (p : Pos) (place : Tree.Expr) (op : Option BumpOp) : Check Stmt := do
  let t ← target place
  lift (requireNumeric t place.pos)
  match ← lift (part "op" op) with
  | .up => return .increment t p
  | .down => return .decrement t p

/-- An else-if clause that has been analysed. -/
structure Clause where
  test : Expr
  body : List Stmt
  loc : Pos

/-- The clauses in order, the last of them with what is left. -/
def clauses (cs : List Clause) (rest : Else) : Else :=
  cs.foldr (fun c rest => .elseIf c.test c.body rest c.loc) rest

/-! ### Statements -/

mutual

def stmt : Tree.Stmt → Check Stmt
  | .varDecl p t name init => varDecl p t name init
  | .collection p name value => collection p name value
  | .function p name ps returns body => do
    return .function (← function none p name (ps.getD []) returns (block body)) p
  | .classDecl p name body => classDecl p name body fun cls => methods cls body
  | .ifChain p cond body elseIfs none => do
    let t ← test cond
    let b ← inBlock (block body)
    return .ifElse t b (clauses (← elseIfClauses elseIfs) .none) p
  | .ifChain p cond body elseIfs (some elsePart) => do
    let t ← test cond
    let b ← inBlock (block body)
    let cs ← elseIfClauses elseIfs
    let rest ← inBlock (block elsePart)
    return .ifElse t b (clauses cs (.block rest)) p
  | .whileLoop p cond body => do
    let t ← test cond
    return .whileLoop t (← inLoop (block body)) p
  | .rangeLoop p name low op high body => rangeLoop p name low op high (block body)
  | .eachLoop p names coll body => eachLoop p names coll (block body)
  | .ret p value => ret p value
  | .brk p => do
    ask fun st => require st.scope.inLoop p .breakOutsideLoop
    return .brk p
  | .print p exprs => return .print (← ask fun st => inferAll st exprs) p
  | .assign p place value => assign p place value
  | .addAssign p place value => addAssign p place value
  | .bump p place op => bump p place op
  | .call p callee args => return .call (← expr (.call p callee args)) p
  | .unknown p kind => throw ⟨.unsupportedStmt kind, p⟩
  | .absent part | .incomplete part => throw (.missing part)

def block : List Tree.Stmt → Check (List Stmt)
  | [] => return []
  | s :: ss => return (← stmt s) :: (← block ss)

def elseIfClauses : List Tree.ElseIf → Check (List Clause)
  | [] => return []
  | .mk p cond body :: rest => do
    let t ← test cond
    let b ← inBlock (block body)
    return ⟨t, b, p⟩ :: (← elseIfClauses rest)

/-- The methods of a class. Whatever is neither a field nor a method is analysed in the scope of the
class and left out of it. -/
def methods (cls : Entity) : List Tree.Stmt → Check (List Function)
  | [] => return []
  | .varDecl .. :: rest => methods cls rest
  | .function p name ps returns body :: rest => do
    let f ← function (some cls) p name (ps.getD []) returns (block body)
    return f :: (← methods cls rest)
  | s :: rest => do
    let _ ← stmt s
    drop s.kind cls.name
    methods cls rest

end

end Check

/-- The typed form of a program, and what is known when the analysis ends. -/
def analyze (tree : Tree.Program) : Except Error Program × State :=
  match Check.block tree .initial with
  | .ok statements st => (.ok ⟨statements⟩, st)
  | .error e st => (.error e, st)

end Snack.Typing
