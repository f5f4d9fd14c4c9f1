import Snack.Core.Basic
import Snack.Table
import Snack.Typing.Error

/-! What is known while a program is analysed: the scopes that are open, innermost first, with the
names declared in each, and the members of the classes seen so far. -/

namespace Snack.Typing

open Snack.Core

/-- The function that a return leaves. -/
structure Callable where
  name : String
  result : Ty

/-- One lexical region with its names. Whether it lies in a loop, and in which function and class, is
taken over from the region around it unless it is a new one. -/
structure Scope where
  locals : List (String × Entity)
  inLoop : Bool
  function : Option Callable
  cls : Option Entity

/-- The members of a class. Its type has a table of its methods, in which they are looked up, beside the list that
the class itself has of them. -/
structure Members where
  fields : List Field
  /-- The types of the methods by their names. -/
  table : List (String × Ty)
  methods : List Entity

namespace Members

def field? (m : Members) (name : String) : Option Field := m.fields.find? fun f => f.name == name

def method? (m : Members) (name : String) : Option Ty := m.table.lookup name

/-- Whether a field or a method has that name. -/
def has (m : Members) (name : String) : Bool := (m.field? name).isSome || (m.method? name).isSome

/-- The type of the field or method of that name. -/
def typ? (m : Members) (name : String) : Option Ty :=
  match m.field? name with
  | some f => some f.typ
  | none => m.method? name

end Members

structure State where
  scope : Scope
  outer : List Scope
  members : List (Nat × Members)
  next : Nat
  /-- The statements left out of classes so far: the kind of each and its class. -/
  dropped : List (String × String)

namespace State

/-! ### Names -/

/-- The innermost declaration of a name. -/
def find? (st : State) (name : String) : Option Entity :=
  (st.scope :: st.outer).findSome? fun s => s.locals.lookup name

def lookup (st : State) (name : String) (p : Pos) : Except Error Entity :=
  match st.find? name with
  | some e => .ok e
  | none => .error ⟨.notDeclared name, p⟩

def isLocal (st : State) (name : String) : Bool := (st.scope.locals.lookup name).isSome

/-- Adds a name to the innermost scope. -/
def bind (st : State) (name : String) (e : Entity) : State :=
  { st with scope := { st.scope with locals := (name, e) :: st.scope.locals } }

/-- Gives a name of the scope around the innermost one its final entity. -/
def settle (st : State) (name : String) (e : Entity) : State :=
  match st.outer with
  | [] => st
  | s :: rest =>
    { st with outer := { s with locals := s.locals.map fun (n, d) => if n == name then (n, e) else (n, d) } :: rest }

/-! ### Scopes -/

/-- Opens a scope. What is not given is taken over from the scope around it. -/
def enter (st : State) (inLoop : Option Bool) (function : Option Callable) (cls : Option Entity) : State :=
  { st with
    scope := ⟨[], inLoop.getD st.scope.inLoop, function <|> st.scope.function, cls <|> st.scope.cls⟩
    outer := st.scope :: st.outer }

/-- Closes the innermost scope, unless it is the outermost one. -/
def exit? (st : State) : Option State :=
  match st.outer with
  | [] => none
  | s :: rest => some { st with scope := s, outer := rest }

/-! ### Classes -/

def membersOf (st : State) (id : Nat) : Members := (st.members.lookup id).getD ⟨[], [], []⟩

def setMembers (st : State) (id : Nat) (m : Members) : State :=
  { st with members := (id, m) :: st.members.filter fun entry => entry.1 != id }

def addField (st : State) (id : Nat) (f : Field) : State :=
  let m := st.membersOf id
  st.setMembers id { m with fields := m.fields ++ [f] }

/-- Enters a method in the table and adds it to the list. -/
def addMethod (st : State) (id : Nat) (e : Entity) : State :=
  let m := st.membersOf id
  st.setMembers id { m with table := Table.put m.table (e.name, e.typ), methods := m.methods ++ [e] }

end State

/-! ### The standard library -/

/-- The entities that every program can use, numbered from zero. -/
def standardLibrary : List Entity :=
  let function (id : Nat) (name : String) (params : List Ty) (result : Ty) : Entity :=
    ⟨id, .builtin false, name, .function params result⟩
  [⟨0, .builtin true, "print", .function [] .void⟩,
   function 1 "len" [.any] .int,
   function 2 "str" [.any] .string,
   function 3 "num" [.any] .float,
   function 4 "sqrt" [.any] .float,
   function 5 "sin" [.any] .float,
   function 6 "cos" [.any] .float,
   function 7 "exp" [.any] .float,
   function 8 "ln" [.any] .float,
   function 9 "abs" [.any] .float,
   function 10 "hypot" [.any, .any] .float,
   ⟨11, .constant, "PI", .float⟩,
   ⟨12, .constant, "TRUE", .bool⟩,
   ⟨13, .constant, "FALSE", .bool⟩]

/-- Only the standard library is known. -/
def State.initial : State where
  scope := ⟨standardLibrary.map fun e => (e.name, e), false, none, none⟩
  outer := []
  members := []
  next := standardLibrary.length
  dropped := []

end Snack.Typing
