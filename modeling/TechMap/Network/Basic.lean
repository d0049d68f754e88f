import TechMap.Network.Node
/-! A network is a table of nodes. It is canonical when operands point to live nodes of smaller
number, so that ascending numbers are a topological order. -/

namespace TechMap

structure Network where
  nodes : Array Node
deriving DecidableEq, Inhabited, Repr

namespace Network

/-- Only the constant. -/
def empty : Network := ⟨#[.const]⟩

variable (net : Network)

def size : Nat := net.nodes.size

/-- Nothing besides the constant. -/
def isEmpty : Bool := net.size ≤ 1

def get? (id : NodeId) : Option Node := net.nodes[id]?

/-- A number outside the table reads as a free slot. -/
def node (id : NodeId) : Node := net.nodes.getD id .removed

def isLive (id : NodeId) : Bool := !(net.node id).isRemoved

def ids : List NodeId := List.range net.size

def add (node : Node) : Network := ⟨net.nodes.push node⟩

def set (id : NodeId) (node : Node) : Network := ⟨net.nodes.setIfInBounds id node⟩

def remove (id : NodeId) : Network := net.set id .removed

def count (p : Node → Bool) : Nat := net.nodes.countP p

def countLut6 : Nat := net.count Node.isLut6

def countMux : Nat := net.count Node.isMux

def isCanonical : Bool :=
  net.ids.all fun id => (net.node id).operands.all fun l => l.id < id && net.isLive l.id

/-- Every operand is a node of the table, live or not. -/
def isClosed : Bool := net.nodes.all fun node => node.operands.all fun l => l.id < net.size

/-- The first operand that is missing or removed, with its consumer. -/
def dangling? : Option (NodeId × NodeId) :=
  net.ids.findSome? fun id =>
    ((net.node id).operands.find? fun l => !net.isLive l.id).map fun l => (id, l.id)

/-- The live nodes in ascending order. -/
def upOrder : List NodeId := net.ids.filter net.isLive

def downOrder : List NodeId := net.upOrder.reverse

/-- How often each node is an operand. -/
def fanoutCounts : Array Nat :=
  net.nodes.foldl
    (fun counts node => node.operands.foldl (fun counts l => counts.modify l.id (· + 1)) counts)
    (Array.replicate net.size 0)

def sinks : List NodeId := net.ids.filter fun id => (net.node id).isSink

def sources : List NodeId := net.ids.filter fun id => (net.node id).isSource

end Network

end TechMap
