/-! Binary32 numbers kept as their bit patterns. Core's `Float32` has one NaN; here a NaN keeps
its sign and payload, because the total order on patterns tells them apart. Arithmetic between
numbers is that of `Float32`, and only the rules for NaN operands are stated here. -/

namespace TechMap

structure Single where
  bits : UInt32
deriving DecidableEq, Inhabited, Repr

namespace Single

def magnitude (x : Single) : UInt32 := x.bits &&& 0x7fffffff

def isNegative (x : Single) : Bool := x.bits &&& 0x80000000 != 0

def isNaN (x : Single) : Bool := 0x7f800000 < x.magnitude

def infinity : Single := ⟨0x7f800000⟩

/-- The pattern that an invalid operation on numbers gives. -/
def invalid : Single := ⟨0xffc00000⟩

/-- A signalling NaN becomes the quiet one of the same sign and payload. -/
def quiet (x : Single) : Single := ⟨x.bits ||| 0x00400000⟩

def value (x : Single) : Float32 := Float32.ofBits x.bits

def ofValue (v : Float32) : Single := if v.isNaN then invalid else ⟨v.toBits⟩

/-- The first NaN among the operands is the result, quieted. -/
@[inline] def lift (op : Float32 → Float32 → Float32) (x y : Single) : Single :=
  if x.isNaN then x.quiet
  else if y.isNaN then y.quiet
  else ofValue (op x.value y.value)

instance : Add Single := ⟨lift (· + ·)⟩
instance : Sub Single := ⟨lift (· - ·)⟩
instance : Mul Single := ⟨lift (· * ·)⟩
instance : Div Single := ⟨lift (· / ·)⟩

/-- Rounds to nearest, ties to even. Numbers of 64 bits and more are not counts of anything. -/
def ofNat (n : Nat) : Single :=
  if n < UInt64.size then ofValue n.toUInt64.toFloat32 else infinity

/-- Drops the fraction. Negative numbers and NaN give zero, large numbers the largest word. -/
def truncate (x : Single) : Nat := if x.isNaN then 0 else x.value.toUInt64.toNat

/-- Orders the numbers, with the two zeros together. -/
def key (x : Single) : Int :=
  if x.isNegative then - (x.magnitude.toNat : Int) else x.magnitude.toNat

/-- Orders all patterns: negative NaNs, numbers with -0 below 0, positive NaNs. -/
def rank (x : Single) : Int :=
  if x.isNegative then - (x.magnitude.toNat : Int) - 1 else x.magnitude.toNat

def order (x y : Single) : Ordering := compare x.rank y.rank

def lt (x y : Single) : Bool := !x.isNaN && !y.isNaN && x.key < y.key

def le (x y : Single) : Bool := !x.isNaN && !y.isNaN && x.key ≤ y.key

/-- The larger number; the second of two zeros. A NaN gives way to the other operand. -/
def max (x y : Single) : Single := if y.isNaN || y.lt x then x else y

/-- The smaller number; the second of two zeros. A NaN gives way to the other operand. -/
def min (x y : Single) : Single := if y.isNaN || x.lt y then x else y

instance : Max Single := ⟨max⟩
instance : Min Single := ⟨min⟩

end Single

end TechMap
