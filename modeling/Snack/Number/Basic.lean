/-! Numbers of the language: integers of any size and binary floating-point numbers. An integer whose
absolute value has more than 1024 bits is beyond every finite float. -/

namespace Snack

inductive Number where
  | int (n : Int)
  | float (x : Float)
  deriving DecidableEq

namespace Number

open Float.Model

/-- The width up to which an integer is written out. -/
def maxBits : Nat := 1024

/-- Whether an integer has at most 1024 bits. -/
def fits (n : Int) : Bool := n.natAbs < Nat.pow 2 maxBits

theorem fits_of_lt {n : Int} (h : n.natAbs < maxBits) : fits n = true := by
  unfold fits
  generalize maxBits = k at h ⊢
  exact decide_eq_true (Nat.lt_trans h Nat.lt_two_pow_self)

/-! ### Exact values of floats -/

/-- A float as its sign, an integer and a power of two, if it is a number at all. -/
abbrev unpack (x : Float) : UnpackedFloat := x.toModel.unpack

def sign (negative : Bool) : UnpackedFloat.Sign := if negative then .negative else .positive

/-- An integer as a float that is not yet rounded. -/
def unrounded (n : Int) : UnpackedFloat :=
  if h : n = 0 then .zero .positive
  else .finite (sign (n < 0)) n.natAbs 0 (Int.natAbs_pos.2 h)

/-- The nearest float, of two equally near ones the even one. Nothing if that is an infinity. -/
def toFloat? (n : Int) : Option Float :=
  let x := Float.ofModel (.ofInt n)
  if x.isFinite then some x else none

/-- The float nearest to a quotient of integers. Nothing if the divisor is zero or the quotient too
large. A zero quotient takes its sign from the signs of both. -/
def quotient? (a b : Int) : Option Float :=
  if b = 0 then none
  else
    let x := Float.ofModel (.pack (UnpackedFloat.div .binary64 (unrounded a) (unrounded b)))
    if x.isFinite then some x else none

/-- The integer that a float is, if it is one. -/
def toInt? (x : Float) : Option Int :=
  match unpack x with
  | .zero _ => some 0
  | .finite s m e _ =>
    let magnitude : Option Nat :=
      if 0 ≤ e then some (m * Nat.pow 2 e.toNat)
      else if m % Nat.pow 2 (-e).toNat = 0 then some (m / Nat.pow 2 (-e).toNat)
      else none
    magnitude.map fun (k : Nat) => match s with
      | .positive => (k : Int)
      | .negative => -(k : Int)
  | _ => none

/-! ### Order -/

/-- Compares an integer with a float by their exact values. -/
def compareIntFloat (n : Int) (x : Float) : Option Ordering :=
  match unpack x with
  | .notANumber => none
  | .infinity .positive => some .lt
  | .infinity .negative => some .gt
  | .zero _ => some (compare n 0)
  | .finite s m e _ =>
    let k : Int := match s with
      | .positive => m
      | .negative => -m
    some (if 0 ≤ e then compare n (k * Int.pow 2 e.toNat) else compare (n * Int.pow 2 (-e).toNat) k)

/-- Compares two numbers by their exact values. A NaN compares with nothing. -/
def compare? : Number → Number → Option Ordering
  | int a, int b => some (compare a b)
  | int a, float y => compareIntFloat a y
  | float x, int b => (compareIntFloat b x).map Ordering.swap
  | float x, float y => Float.Model.compare x.toModel y.toModel

def lt (x y : Number) : Bool := compare? x y == some .lt

def le (x y : Number) : Bool := (compare? x y).any Ordering.isLE

def eq (x y : Number) : Bool := compare? x y == some .eq

def isZero (x : Number) : Bool := x.eq (int 0)

def isOne (x : Number) : Bool := x.eq (int 1)

def neg : Number → Number
  | int n => int (-n)
  | float x => float (-x)

end Number

end Snack
