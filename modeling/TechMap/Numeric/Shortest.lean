import TechMap.Numeric.Single
/-! The decimal text of a binary32 number: the fewest digits that read back as the number, the
nearest such decimal, a tie going up, always written out without an exponent. -/

namespace TechMap.Single

/-- A decimal `digits * 10 ^ exponent`. -/
structure Decimal where
  digits : Nat
  exponent : Int
deriving DecidableEq, Repr

/-- The number and the two ends of the interval that rounds to it, over one denominator. -/
structure Neighbourhood where
  low : Nat
  value : Nat
  high : Nat
  denominator : Nat
  closed : Bool

/-- A unit of the last place is split in four: half the narrower gap below a power of two is whole. -/
def neighbourhood (x : Single) : Neighbourhood :=
  let field := x.magnitude.toNat / Nat.pow 2 23
  let fraction := x.magnitude.toNat % Nat.pow 2 23
  let mantissa := if field = 0 then fraction else fraction + Nat.pow 2 23
  let exponent := if field = 0 then 1 else field
  -- the unit is 2 ^ (exponent - 152)
  let scale := Nat.pow 2 (exponent - 152)
  let below := if fraction = 0 ∧ 1 < field then 1 else 2
  { low := (4 * mantissa - below) * scale
    value := 4 * mantissa * scale
    high := (4 * mantissa + 2) * scale
    denominator := Nat.pow 2 (152 - exponent)
    closed := mantissa % 2 = 0 }

namespace Neighbourhood

/-- Is `n * num / den` in the interval? -/
def holds (w : Neighbourhood) (n num den : Nat) : Bool :=
  let scaled := n * num * w.denominator
  if w.closed then w.low * den ≤ scaled && scaled ≤ w.high * den
  else w.low * den < scaled && scaled < w.high * den

/-- The neighbour of the value on the grid of multiples of `num / den` that is in the interval. -/
def onGrid (w : Neighbourhood) (num den : Nat) : Option Nat :=
  let step := num * w.denominator
  let floor := w.value * den / step
  let rest := w.value * den - floor * step
  match w.holds floor num den && 0 < floor, w.holds (floor + 1) num den with
  | true, true => if 2 * rest < step then some floor else some (floor + 1)
  | true, false => some floor
  | false, true => some (floor + 1)
  | false, false => none

end Neighbourhood

/-- Tries the grids from coarse to fine. -/
def shortest (x : Single) : Decimal :=
  let w := x.neighbourhood
  let coarse := (List.range 40).reverse.findSome? fun (k : Nat) =>
    (w.onGrid (Nat.pow 10 k) 1).map fun n => Decimal.mk n k
  let fine := fun (_ : Unit) => (List.range 60).findSome? fun (k : Nat) =>
    (w.onGrid 1 (Nat.pow 10 (k + 1))).map fun n => Decimal.mk n (-(k + 1))
  (coarse.orElse fine).getD ⟨0, 0⟩

namespace Decimal

def zeros (n : Nat) : String := String.ofList (List.replicate n '0')

def render (d : Decimal) : String :=
  let text := toString d.digits
  if 0 ≤ d.exponent then text ++ zeros d.exponent.toNat
  else
    let places := (-d.exponent).toNat
    if places < text.length then
      String.ofList (text.toList.take (text.length - places)) ++ "."
        ++ String.ofList (text.toList.drop (text.length - places))
    else "0." ++ zeros (places - text.length) ++ text

end Decimal

def render (x : Single) : String :=
  if x.isNaN then "NaN"
  else
    let sign := if x.isNegative then "-" else ""
    if x.magnitude = 0x7f800000 then sign ++ "inf"
    else if x.magnitude = 0 then sign ++ "0"
    else sign ++ x.shortest.render

end TechMap.Single
