/-! Operators by their meaning. Each kind keeps a case for spellings without a meaning, so that a
program which did not come from a source text can still be named and refused. -/

namespace Snack

inductive BinaryOp where
  | coalesce | or | and | lt | le | eq | ne | ge | gt | add | sub | mul | div | rem | pow
  | other (text : String)
  deriving DecidableEq

namespace BinaryOp

def text : BinaryOp → String
  | coalesce => "??"
  | or => "||"
  | and => "&&"
  | lt => "<"
  | le => "<="
  | eq => "=="
  | ne => "!="
  | ge => ">="
  | gt => ">"
  | add => "+"
  | sub => "-"
  | mul => "*"
  | div => "/"
  | rem => "%"
  | pow => "**"
  | other s => s

def ofText : String → BinaryOp
  | "??" => coalesce
  | "||" => or
  | "&&" => and
  | "<" => lt
  | "<=" => le
  | "==" => eq
  | "!=" => ne
  | ">=" => ge
  | ">" => gt
  | "+" => add
  | "-" => sub
  | "*" => mul
  | "/" => div
  | "%" => rem
  | "**" => pow
  | s => other s

@[simp] theorem text_ofText (s : String) : (ofText s).text = s := by
  unfold ofText; split <;> rfl

end BinaryOp

inductive UnaryOp where
  | neg | not
  /-- Writes its operand out and has no value. No source text spells it. -/
  | print
  | other (text : String)
  deriving DecidableEq

namespace UnaryOp

def text : UnaryOp → String
  | neg => "-"
  | not => "!"
  | print => "print"
  | other s => s

def ofText : String → UnaryOp
  | "-" => neg
  | "!" => not
  | "print" => print
  | s => other s

@[simp] theorem text_ofText (s : String) : (ofText s).text = s := by
  unfold ofText; split <;> rfl

end UnaryOp

/-- How a counting loop treats its upper bound. -/
inductive RangeOp where
  | through | below
  | other (text : String)
  deriving DecidableEq

namespace RangeOp

def text : RangeOp → String
  | through => "..."
  | below => "..<"
  | other s => s

def ofText : String → RangeOp
  | "..." => through
  | "..<" => below
  | s => other s

@[simp] theorem text_ofText (s : String) : (ofText s).text = s := by
  unfold ofText; split <;> rfl

end RangeOp

/-- How a member is reached: directly, or only if the object is there. -/
inductive AccessOp where
  | direct | ifPresent
  | other (text : String)
  deriving DecidableEq

namespace AccessOp

def text : AccessOp → String
  | direct => "."
  | ifPresent => "?."
  | other s => s

def ofText : String → AccessOp
  | "." => direct
  | "?." => ifPresent
  | s => other s

@[simp] theorem text_ofText (s : String) : (ofText s).text = s := by
  unfold ofText; split <;> rfl

end AccessOp

/-- The two ways to step a number in place. -/
inductive BumpOp where
  | up | down
  deriving DecidableEq

namespace BumpOp

def text : BumpOp → String
  | up => "++"
  | down => "--"

/-- Whatever is not a step up is a step down. -/
def ofText (s : String) : BumpOp := if s == "++" then up else down

end BumpOp

end Snack
