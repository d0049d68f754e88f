import TechMap.Numeric.Single
/-! What the mapper needs of the numbers it computes delays and areas with. No law is asked here,
so a statement about every `Quantity` holds for binary32 with its rounding, infinities and NaNs;
laws of exact arithmetic are stated where they are used. -/

namespace TechMap

class Quantity (α : Type) extends Add α, Sub α, Mul α, Div α, Max α, Min α where
  ofNat : Nat → α
  infinity : α
  isInfinite : α → Bool
  lt : α → α → Bool
  le : α → α → Bool
  /-- A total preorder on all values. Unlike `lt` and `le` it also places a NaN. -/
  order : α → α → Ordering

instance (priority := low) instOfNatQuantity {α : Type} [Quantity α] {n : Nat} : OfNat α n :=
  ⟨Quantity.ofNat n⟩

instance : Quantity Single where
  ofNat := Single.ofNat
  infinity := Single.infinity
  isInfinite x := x == Single.infinity
  lt := Single.lt
  le := Single.le
  order := Single.order

end TechMap
