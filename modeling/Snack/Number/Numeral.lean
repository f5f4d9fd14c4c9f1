import Snack.Number.Basic
import Snack.Text.Blank
import Snack.Text.Digit

/-! Reading numbers in decimal notation. A float has a point or an exponent and stands for the float
nearest to what it says. Blanks around a number do not count, digits may be those of any script, and
between two digits an underscore may stand. -/

namespace Snack.Numeral

def isDigit (c : Char) : Bool := '0' ≤ c && c ≤ '9'

/-! ### Plain spelling -/

/-- A blank that may stand around a number. The four information separators may not. -/
def isPadding (c : Char) : Bool := Text.isBlank c && !(0x1c ≤ c.toNat && c.toNat ≤ 0x1f)

def trim (cs : List Char) : List Char := ((cs.dropWhile isPadding).reverse.dropWhile isPadding).reverse

/-- A text without the underscores between its digits. Nothing if one stands anywhere else; a digit
comes before the text if `behindDigit` holds. -/
def ungrouped? (behindDigit : Bool) : List Char → Option (List Char)
  | [] => some []
  | ['_'] => none
  | '_' :: c :: cs =>
    if behindDigit && isDigit c then (ungrouped? true cs).map (c :: ·) else none
  | c :: cs => (ungrouped? (isDigit c) cs).map (c :: ·)

/-- The plain spelling of a number: no blanks, no underscores, and only the digits from `0` to `9`. -/
def plain? (text : String) : Option (List Char) := ungrouped? false ((trim text.toList).map Text.plainDigit)

/-! ### Integers -/

/-- The value of a run of digits. -/
def digits (cs : List Char) : Nat := cs.foldl (fun n c => 10 * n + (c.toNat - '0'.toNat)) 0

/-- The value of a text of digits only, of which there must be one. -/
def digits? (cs : List Char) : Option Nat := if cs ≠ [] ∧ cs.all isDigit then some (digits cs) else none

/-- A sign in front, if there is one, and what it signs. -/
def splitSign : List Char → Bool × List Char
  | '-' :: cs => (true, cs)
  | '+' :: cs => (false, cs)
  | cs => (false, cs)

/-- Digits with or without a sign. -/
def signed? (cs : List Char) : Option Int :=
  let (negative, ds) := splitSign cs
  (digits? ds).map fun n => if negative then -(n : Int) else n

/-- The integer that a text writes. -/
def int? (text : String) : Option Int := (plain? text).bind signed?

/-! ### Floats -/

/-- A whole number of units times a power of ten. -/
structure Decimal where
  units : Nat
  exponent : Int
  deriving DecidableEq

/-- The exponent behind the digits of a number. -/
def exponent? : List Char → Option Int
  | [] => some 0
  | c :: cs => if c == 'e' || c == 'E' then signed? cs else none

/-- The decimal that an unsigned text writes: digits, a fraction, an exponent. There must be a digit
before the exponent. -/
def decimal? (cs : List Char) : Option Decimal :=
  let whole := cs.takeWhile isDigit
  let rest := cs.dropWhile isDigit
  let (frac, tail) := match rest with
    | '.' :: rest => (rest.takeWhile isDigit, rest.dropWhile isDigit)
    | rest => ([], rest)
  if (whole ++ frac).isEmpty then none
  else (exponent? tail).map fun e => ⟨digits (whole ++ frac), e - frac.length⟩

/-- The float nearest to a decimal. -/
def Decimal.toFloat (d : Decimal) : Float := .ofModel (.ofScientific d.units d.exponent)

/-- What an unsigned text writes. -/
def unsigned? (cs : List Char) : Option Float :=
  if cs == ['I', 'n', 'f', 'i', 'n', 'i', 't', 'y'] then some (.ofModel (.pack (.infinity .positive)))
  else if cs == ['N', 'a', 'N'] then some (.ofModel (.pack .notANumber))
  else (decimal? cs).map Decimal.toFloat

/-- The float that a text writes. -/
def float? (text : String) : Option Float := do
  let (negative, cs) := splitSign (← plain? text)
  let x ← unsigned? cs
  return if negative then -x else x

/-- Whether a text is to be read as a float rather than as an integer. -/
def isFloat (text : String) : Bool := text.toList.any fun c => c == '.' || c == 'e' || c == 'E'

end Snack.Numeral
