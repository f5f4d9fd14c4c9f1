/-! The six primitive types, with the emoji that writes each of them in a source text and the plain
name that messages use. -/

namespace Snack

inductive Prim where
  | bool | int | float | string | void | any
  deriving DecidableEq

namespace Prim

def all : List Prim := [bool, int, float, string, void, any]

def symbol : Prim → Char
  | bool => '🧈'
  | int => '🥚'
  | float => '🥓'
  | string => '🍝'
  | void => '🥮'
  | any => '🍞'

def name : Prim → String
  | bool => "bool"
  | int => "int"
  | float => "float"
  | string => "string"
  | void => "void"
  | any => "any"

def ofSymbol? (c : Char) : Option Prim := all.find? fun p => p.symbol == c

/-- A primitive type by its emoji or by its plain name. -/
def ofText? (s : String) : Option Prim := all.find? fun p => p.symbol.toString == s || p.name == s

end Prim

end Snack
