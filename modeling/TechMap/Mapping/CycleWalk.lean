/-! Reordering in place. Slot `i` is to receive the element that was in slot `target[i]`; the walk
swaps it in from where it is now. `place` says where a starting element is, `holder` which of them a
slot holds. Both are kept right only for the slots that are still to come. -/

namespace TechMap.Mapping

structure Walk (β : Type) where
  place : Array Nat
  holder : Array Nat
  items : Array β

namespace Walk

variable {β : Type}

def step (s : Walk β) (i target : Nat) : Walk β :=
  let w := s.place.getD target 0
  { place := s.place.setIfInBounds (s.holder.getD i 0) w
    holder := s.holder.swapIfInBounds i w
    items := s.items.swapIfInBounds i w }

def run (targets : List Nat) (items : Array β) : Walk β :=
  targets.zipIdx.foldl (fun s e => s.step e.2 e.1)
    ⟨Array.range items.size, Array.range items.size, items⟩

end Walk

def reorder {β : Type} (targets : List Nat) (items : List β) : List β :=
  (Walk.run targets items.toArray).items.toList

end TechMap.Mapping
