import Snack.Prim

/-! Types. All of them compare by their structure but the types of classes, each of which is a type of
its own whatever its name. -/

namespace Snack

/-- The type of one class: its own number, and its name for messages. -/
structure StructRef where
  id : Nat
  name : String
  deriving DecidableEq

inductive Ty where
  | prim (p : Prim)
  | array (element : Ty)
  | dict (key value : Ty)
  | tuple (elements : List Ty)
  | optional (base : Ty)
  | function (params : List Ty) (result : Ty)
  | struct (s : StructRef)
  /-- A type that no rule knows. -/
  | other (name : String)

namespace Ty

instance : Inhabited Ty := ⟨prim .any⟩

@[match_pattern] abbrev bool : Ty := prim .bool

@[match_pattern] abbrev int : Ty := prim .int

@[match_pattern] abbrev float : Ty := prim .float

@[match_pattern] abbrev string : Ty := prim .string

@[match_pattern] abbrev void : Ty := prim .void

@[match_pattern] abbrev any : Ty := prim .any

/-! ### Names -/

mutual

/-- The name of a type in messages. -/
def name : Ty → String
  | prim p => p.name
  | array t => "[" ++ t.name ++ "]"
  | dict k v => "\x7b" ++ k.name ++ ": " ++ v.name ++ "\x7d"
  | tuple ts => "(" ++ String.intercalate ", " (names ts) ++ ")"
  | optional t => t.name ++ "?"
  | function ps r => "(" ++ String.intercalate ", " (names ps) ++ ")->" ++ r.name
  | struct s => s.name
  | other n => n

def names : List Ty → List String
  | [] => []
  | t :: ts => t.name :: names ts

end

/-! ### Equivalence -/

mutual

/-- Whether two types are the same. A type that no rule knows is not even like itself. -/
def equiv : Ty → Ty → Bool
  | prim p, prim q => p == q
  | array a, array b => equiv a b
  | dict k v, dict l w => equiv k l && equiv v w
  | tuple as, tuple bs => equivAll as bs
  | optional a, optional b => equiv a b
  | function ps r, function qs s => equivAll ps qs && equiv r s
  | struct s, struct t => s == t
  | _, _ => false

/-- Lists of one length whose members are the same pairwise. -/
def equivAll : List Ty → List Ty → Bool
  | [], [] => true
  | a :: as, b :: bs => equiv a b && equivAll as bs
  | _, _ => false

end

def isNumeric (t : Ty) : Bool := t.equiv int || t.equiv float

def isNumericOrString (t : Ty) : Bool := t.isNumeric || t.equiv string

/-! ### Assignability -/

mutual

/-- Whether a value of one type can stand where the other is declared: a value of `a` for `b` if `up`
holds, else a value of `b` for `a`. Functions may promise more in their result and ask less of their
arguments, so the direction turns there. -/
def flows (up : Bool) : Ty → Ty → Bool
  | function ps r, function qs s =>
    (equivAll ps qs && equiv r s) || (flows up r s && flowsAll (!up) ps qs)
  | a, b => (if up then b else a).equiv any || a.equiv b

def flowsAll (up : Bool) : List Ty → List Ty → Bool
  | [], [] => true
  | a :: as, b :: bs => flows up a b && flowsAll up as bs
  | _, _ => false

end

/-- Whether a value of type `source` can be stored in a slot of type `target`. -/
def assignable (source target : Ty) : Bool := flows true source target

end Ty

end Snack
