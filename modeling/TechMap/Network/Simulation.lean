import TechMap.Error
import TechMap.Network.Basic
import TechMap.Table.Lookup
/-! Simulation of 64 patterns at once, one word for each node. The words of the inputs are asked
for in ascending order, in any monad. -/

namespace TechMap

/-- A word read through a signal. -/
def Lit.apply (l : Lit) (w : UInt64) : UInt64 := if l.sign then ~~~ w else w

/-- The word of a signal, if its node has one. -/
def litValue? (values : Array UInt64) (l : Lit) : Option UInt64 := (values[l.id]?).map l.apply

def litValue (values : Array UInt64) (l : Lit) : UInt64 := l.apply (values.getD l.id 0)

namespace Node

/-- The word of a node from those of its operands. An input is asked for elsewhere. -/
def eval (read : Lit → UInt64) : Node → UInt64
  | const => Table.ones
  | and a b => read a &&& read b
  | lut4 a b c d table => Table.lookup table.toUInt64 [read a, read b, read c, read d]
  | lut6 inputs table => Table.lookup table (inputs.map read)
  | mux s t e => (read s &&& read t) ||| (~~~ read s &&& read e)
  | bar a | sel a | delay a _ | po a | seq a => read a
  | pi | ff | box | removed => 0

end Node

namespace Network

/-- The word of every node, in a network whose operands come before their consumers. -/
def evaluate {m : Type → Type} [Monad m] (net : Network) (source : NodeId → m UInt64) :
    m (Array UInt64) :=
  net.nodes.foldlM
    (fun values node => do
      let word ← if node.isInput then source values.size else pure (node.eval (litValue values))
      return values.push word)
    #[]

def simulateM {m : Type → Type} [Monad m] (net : Network) (source : NodeId → m UInt64) :
    m (Except Error (Array UInt64)) :=
  if net.isCanonical then return .ok (← net.evaluate source) else return .error .notCanonical

def simulate (net : Network) (source : NodeId → UInt64) : Except Error (Array UInt64) :=
  Id.run (net.simulateM fun id => pure (source id))

end Network

end TechMap
