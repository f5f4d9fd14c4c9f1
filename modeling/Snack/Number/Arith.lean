import Snack.Number.Basic
import Snack.Operator

/-! Arithmetic on constants. Two integers give an exact integer, but for their quotient and for a
negative exponent, which give floats; with a float on either side both become floats. What has no
finite answer in integers, a division by zero, a power beyond the floats and the root of a negative
number have no result. -/

namespace Snack.Number

/-- Both numbers as floats. -/
def floats? : Number → Number → Option (Float × Float)
  | int a, int b => return (← toFloat? a, ← toFloat? b)
  | int a, float y => return (← toFloat? a, y)
  | float x, int b => return (x, ← toFloat? b)
  | float x, float y => some (x, y)

/-- An operation that is exact on integers. -/
def arith? (onInts : Int → Int → Int) (onFloats : Float → Float → Float) (x y : Number) :
    Option Number :=
  match x, y with
  | int a, int b => some (int (onInts a b))
  | x, y => (floats? x y).map fun (x, y) => float (onFloats x y)

def div? : Number → Number → Option Number
  | int a, int b => (quotient? a b).map float
  | x, y =>
    if y.isZero then none else (floats? x y).map fun (x, y) => float (x / y)

/-! ### Powers -/

def one : Float := .ofModel (.ofInt 1)

def zero : Float := .ofModel (.ofInt 0)

def isOdd (x : Float) : Bool := (toInt? x).any fun n => n % 2 == 1

/-- Whether a float has its sign bit set. -/
def isNegative (x : Float) : Bool :=
  match unpack x with
  | .infinity .negative | .zero .negative | .finite .negative .. => true
  | _ => false

/-- A power of floats. None for a negative power of zero, a fractional power of a negative number and
a finite power that is too large. -/
def floatPow? (x y : Float) : Option Float :=
  let a := x.abs
  if y == zero then some one
  else if x.isNaN then some x
  else if y.isNaN then some (if x == one then one else y)
  else if y.isInf then
    some (if a == one then one else if decide (zero < y) == decide (one < a) then y.abs else zero)
  else if x.isInf then
    if zero < y then some (if isOdd y then x else a)
    else some (if isOdd y && isNegative x then -zero else zero)
  else if x == zero then
    if y < zero then none else some (if isOdd y then x else zero)
  else if x < zero && (toInt? y).isNone then none
  else
    -- powers of one and minus one need no multiplication, whatever the exponent
    let r := if a == one then one else Float.pow a y
    if r.isInf then none else some (if x < zero && isOdd y then -r else r)

/-- Whether a power of integers is too wide to be worth computing. -/
def powerOverflows (a b : Int) : Bool :=
  0 < b && 1 < a.natAbs && (maxBits : Int) < (a.natAbs.log2 : Int) * b

/-- A power of integers. Powers of zero, one and minus one need no multiplication, whatever the
exponent. -/
def intPow (a : Int) (n : Nat) : Int :=
  if a = 1 then 1
  else if a = 0 then (if n = 0 then 1 else 0)
  else if a = -1 then (if n % 2 = 0 then 1 else -1)
  else a.pow n

theorem intPow_eq (a : Int) (n : Nat) : intPow a n = a.pow n := by
  unfold intPow
  split
  · next h => subst h; exact Int.one_pow.symm
  · split
    · next h =>
      subst h
      cases n with
      | zero => rfl
      | succ n => exact ((Int.pow_succ 0 n).trans (Int.mul_zero _)).symm
    · split
      · next h =>
        subst h
        induction n with
        | zero => rfl
        | succ n ih =>
          have h : (-1 : Int).pow (n + 1) = (-1 : Int).pow n * -1 := Int.pow_succ (-1) n
          rw [h, ← ih]
          split <;> split <;> omega
      · rfl

def pow? : Number → Number → Option Number
  | int a, int b =>
    if powerOverflows a b then none
    else if 0 ≤ b then some (int (intPow a b.toNat))
    else do
      let x ← toFloat? a
      let y ← toFloat? b
      float <$> floatPow? x y
  | x, y => do
    let (x, y) ← floats? x y
    float <$> floatPow? x y

/-! ### Folding -/

/-- The value of an operation on two constants. -/
inductive Value where
  | number (x : Number)
  | bool (b : Bool)
  deriving DecidableEq

/-- A number as a value, unless it is an integer that is too wide. -/
def Value.ofNumber? : Number → Option Value
  | int n => if fits n then some (.number (int n)) else none
  | float x => some (.number (float x))

/-- The value of `x op y`, if the operation has one. -/
def fold? (x : Number) (op : BinaryOp) (y : Number) : Option Value :=
  match op with
  | .add => (arith? (· + ·) (· + ·) x y).bind Value.ofNumber?
  | .sub => (arith? (· - ·) (· - ·) x y).bind Value.ofNumber?
  | .mul => (arith? (· * ·) (· * ·) x y).bind Value.ofNumber?
  | .div => (div? x y).bind Value.ofNumber?
  | .pow => (pow? x y).bind Value.ofNumber?
  | .lt => some (.bool (x.lt y))
  | .le => some (.bool (x.le y))
  | .eq => some (.bool (x.eq y))
  | .ne => some (.bool !(x.eq y))
  | .ge => some (.bool (y.le x))
  | .gt => some (.bool (y.lt x))
  | _ => none

end Snack.Number
