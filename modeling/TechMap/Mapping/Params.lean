import TechMap.Numeric.Quantity
/-! The parameters of a mapping run. -/

namespace TechMap.Mapping

structure Params (α : Type) where
  /-- The last round instantiates. -/
  rounds : Nat
  cutsPerNode : Nat
  /-- Area of a LUT by its number of inputs. -/
  lutCost : Vector α 7
  /-- Area of each level of a multiplexer cut. -/
  muxCost : α
  muxes : Bool
  /-- Refine winners by exact area from the second round on. -/
  refine : Bool
  /-- Keep cut lists between rounds. -/
  recycle : Bool
  /-- Reselect cheaper cuts of equal delay while the active set is discovered. -/
  reselect : Bool
  /-- The delay target is this multiple of the delay of the first round. -/
  delayFactor : α
  /-- Add a round at the start that looks at delay alone. -/
  probe : Bool
  quiet : Bool

/-- Three tenths of the slots of a list that is constrained in time are kept for the fastest cuts. -/
def delayCutFraction : Single := ⟨0x3e99999a⟩

/-- A level has eight units of explicit delay. -/
def delayUnits : Nat := 8

/-- The largest area of a cone that refinement takes apart. -/
def refineLimit : Nat := 500

namespace Params

variable {α : Type} [Quantity α]

def standard : Params α where
  rounds := 4
  cutsPerNode := 10
  lutCost := Vector.replicate 7 1
  muxCost := 1
  muxes := false
  refine := true
  recycle := true
  reselect := false
  delayFactor := 1
  probe := false
  quiet := false

/-- The area of a cut of `size` leaves, or of a chain of `muxDepth` multiplexers. -/
def cutArea (p : Params α) (size muxDepth : Nat) : α :=
  if 0 < muxDepth then p.muxCost * Quantity.ofNat muxDepth
  else p.lutCost.toArray.getD size 0

/-- How many slots at the end of a list are in order of delay. -/
def delaySlots (p : Params α) : Nat :=
  (Single.ofNat p.cutsPerNode * delayCutFraction).truncate + 1

end Params

end TechMap.Mapping
