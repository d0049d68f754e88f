import TechMap.Numeric.Quantity
import TechMap.Network.Lit
/-! The work list of discovery, a list in ascending order of its keys. -/

namespace TechMap.Mapping

/-- Nodes on longer paths come first, then earlier arriving nodes, then lower numbers. -/
structure Priority (α : Type) where
  span : α
  arrival : α
  id : NodeId

namespace Priority

variable {α : Type} [Quantity α]

def compare (a b : Priority α) : Ordering :=
  (Quantity.order b.span a.span).then
    ((Quantity.order a.arrival b.arrival).then (Ord.compare a.id b.id))

/-- Puts a key in front of the first larger one. -/
def insert (key : Priority α) : List (Priority α) → List (Priority α)
  | [] => [key]
  | k :: rest => if key.compare k = .lt then key :: k :: rest else k :: insert key rest

theorem length_insert (key : Priority α) (queue : List (Priority α)) :
    (key.insert queue).length = queue.length + 1 := by
  induction queue with
  | nil => rfl
  | cons k rest ih => unfold insert; split <;> simp [ih]

end Priority

end TechMap.Mapping
