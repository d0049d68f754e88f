import TechMap.Network.Basic
/-! The Boolean reading of a network under one assignment of its inputs, gate by gate. -/

namespace TechMap

/-- The row of a table that the inputs spell, input `i` being bit `i`. -/
def rowNumber : List Bool → Nat
  | [] => 0
  | b :: bs => b.toNat + 2 * rowNumber bs

namespace Node

/-- The value of a node from those of its operands. An input gets its value elsewhere. -/
def holds (read : Lit → Bool) : Node → Bool
  | const => true
  | and a b => read a && read b
  | lut4 a b c d table => table.toNat.testBit (rowNumber [read a, read b, read c, read d])
  | lut6 inputs table => table.toNat.testBit (rowNumber (inputs.map read))
  | mux s t e => if read s then read t else read e
  | bar a | sel a | delay a _ | po a | seq a => read a
  | pi | ff | box | removed => false

end Node

namespace Network

/-- The nodes that get their values from outside, in ascending order. -/
def inputs (net : Network) : List NodeId := net.ids.filter fun id => (net.node id).isInput

/-- The value of a node in a network whose operands come before their consumers. -/
def truth (net : Network) (input : NodeId → Bool) (id : NodeId) : Bool :=
  if (net.node id).isInput then input id
  else (net.node id).holds fun l => if _ : l.id < id then net.truth input l.id ^^ l.sign else false
termination_by id

end Network

end TechMap
