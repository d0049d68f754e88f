/-! Node numbers and signals. A signal is a node with a polarity; node 0 is the constant one. -/

namespace TechMap

abbrev NodeId := Nat

namespace NodeId

def constant : NodeId := 0

def render (id : NodeId) : String := s!"n{id}"

end NodeId

structure Lit where
  id : NodeId
  sign : Bool
deriving DecidableEq, Inhabited, Repr

namespace Lit

def one : Lit := ⟨0, false⟩

def zero : Lit := ⟨0, true⟩

def ofNode (id : NodeId) : Lit := ⟨id, false⟩

/-- A signal fits one 32 bit word: the polarity takes a bit, the node number keeps the low 31. -/
def packed (id : NodeId) (sign : Bool) : Lit := ⟨id % Nat.pow 2 31, sign⟩

def not (l : Lit) : Lit := { l with sign := !l.sign }

def xor (l : Lit) (b : Bool) : Lit := { l with sign := l.sign ^^ b }

def unsigned (l : Lit) : Lit := { l with sign := false }

/-- The number of a signal, twice its node plus one for an inversion. -/
def code (l : Lit) : Nat := 2 * l.id + l.sign.toNat

def render (l : Lit) : String := if l.sign then s!"~{l.id.render}" else l.id.render

end Lit

end TechMap
