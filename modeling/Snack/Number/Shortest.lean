import Snack.Number.Basic

/-! Writing a float with as few digits as will do: the decimal is the nearest one among the shortest
that read back as the same float. It is written out in full when its leading digit stands between the
fifth place behind the point and the sixteenth before it, and with an exponent otherwise. -/

namespace Snack.Shortest

open Float.Model

/-- The reals that round to one float, as multiples of `1 / scale`. The ends belong to it if the
float's integer is even. -/
structure Interval where
  low : Nat
  value : Nat
  high : Nat
  scale : Nat
  closed : Bool

/-- The reals that round to `m * 2 ^ e`. Below a power of two floats are twice as dense. -/
def Interval.around (m : Nat) (e : Int) : Interval :=
  let up := Nat.pow 2 e.toNat
  let below := if m = Nat.pow 2 52 && e > -1074 then up else 2 * up
  ⟨4 * m * up - below, 4 * m * up, 4 * m * up + 2 * up, 4 * Nat.pow 2 (-e).toNat, m % 2 == 0⟩

/-- Whether `num / den` lies in the interval. -/
def Interval.contains (i : Interval) (num den : Nat) : Bool :=
  let x := num * i.scale
  if i.closed then i.low * den ≤ x && x ≤ i.high * den else i.low * den < x && x < i.high * den

/-- The multiple of `10 ^ k` in the interval that is nearest to the float, of two equally near ones
the even one. -/
def Interval.onGrid? (i : Interval) (k : Int) : Option Nat :=
  let num := Nat.pow 10 k.toNat
  let den := Nat.pow 10 (-k).toNat
  let a := (i.value * den) / (i.scale * num)
  let down := i.contains (a * num) den
  let up := i.contains ((a + 1) * num) den
  if down && up then
    -- twice the float against the sum of both candidates
    match compare (2 * i.value * den) ((2 * a + 1) * num * i.scale) with
    | .lt => some a
    | .gt => some (a + 1)
    | .eq => some (if a % 2 = 0 then a else a + 1)
  else if down then some a
  else if up then some (a + 1)
  else none

/-- The first of `n` grids, from the coarse one of `10 ^ k` on, that meets the interval, with its
multiple. -/
def Interval.search (i : Interval) : (n : Nat) → (k : Int) → Nat × Int
  | 0, k => (0, k)
  | n + 1, k =>
    match i.onGrid? k with
    | some a => (a, k)
    | none => i.search n (k - 1)

/-- The shortest digits for `m * 2 ^ e` and the power of ten that they multiply. The search starts
above the leading digit; seventeen digits always do. -/
def digits (m : Nat) (e : Int) : Nat × Int :=
  let lead := ((m.log2 : Int) + e) * 30103 / 100000
  (Interval.around m e).search 21 (lead + 2)

/-! ### Layout -/

def zeros (n : Nat) : List Char := List.replicate n '0'

/-- At least two digits and a sign. -/
def exponentText (x : Int) : List Char :=
  let ds := (toString x.natAbs).toList
  (if x < 0 then '-' else '+') :: (if ds.length < 2 then '0' :: ds else ds)

/-- The decimal `units * 10 ^ k` as text. -/
def layout (units : Nat) (k : Int) : List Char :=
  let ds := (toString units).toList
  let lead : Int := ds.length - 1 + k
  if -4 ≤ lead && lead < 16 then
    if 0 ≤ k then ds ++ zeros k.toNat ++ ['.', '0']
    else if 0 ≤ lead then ds.take (lead.toNat + 1) ++ '.' :: ds.drop (lead.toNat + 1)
    else '0' :: '.' :: zeros (-lead - 1).toNat ++ ds
  else
    match ds with
    | [d] => d :: 'e' :: exponentText lead
    | d :: rest => d :: '.' :: rest ++ 'e' :: exponentText lead
    | [] => []

/-- The text of a float. -/
def text (x : Float) : String :=
  let signed (s : UnpackedFloat.Sign) (cs : List Char) : String :=
    match s with
    | .positive => String.ofList cs
    | .negative => String.ofList ('-' :: cs)
  match Number.unpack x with
  | .notANumber => "NaN"
  | .infinity .positive => "Infinity"
  | .infinity .negative => "-Infinity"
  | .zero s => signed s ['0', '.', '0']
  | .finite s m e _ =>
    let (units, k) := digits m e
    signed s (layout units k)

end Snack.Shortest
