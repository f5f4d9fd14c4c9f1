/-! Values of the data format that dumps are written in. An object keeps its fields in the order in
which they were put in. -/

namespace Snack

inductive Json where
  | null
  | bool (b : Bool)
  | int (n : Int)
  | float (x : Float)
  | str (s : String)
  | arr (items : List Json)
  | obj (fields : List (String × Json))

namespace Json

instance : Inhabited Json := ⟨null⟩

/-- The first field of that name. -/
def get? (j : Json) (key : String) : Option Json :=
  match j with
  | obj fields => fields.lookup key
  | _ => none

/-- A field that is there and not null. -/
def some? (j : Json) (key : String) : Option Json :=
  match j.get? key with
  | some null => none
  | found => found

/-- A value without parts as text. -/
def scalar? : Json → Option String
  | null => some "None"
  | bool true => some "True"
  | bool false => some "False"
  | int n => some (toString n)
  | str s => some s
  | _ => none

def int? : Json → Option Int
  | int n => some n
  | _ => none

def arr? : Json → Option (List Json)
  | arr items => some items
  | _ => none

/-- An optional value, null when it is missing. -/
def ofOption {α : Type} (f : α → Json) : Option α → Json
  | some a => f a
  | none => null

mutual

/-- How deep the value nests. -/
def depth : Json → Nat
  | arr items => depthItems items + 1
  | obj fields => depthFields fields + 1
  | _ => 1

def depthItems : List Json → Nat
  | [] => 0
  | j :: rest => max j.depth (depthItems rest)

def depthFields : List (String × Json) → Nat
  | [] => 0
  | (_, j) :: rest => max j.depth (depthFields rest)

end

end Json

end Snack
