import TechMap.Network.Lit
/-! The kinds of nodes. `lut6` and `mux` are what mapping produces, `removed` is a free slot. Input
`i` of a table is bit `i` of the row number. -/

namespace TechMap

inductive Node where
  | const
  | pi
  | ff
  | box
  | and (a b : Lit)
  | lut4 (a b c d : Lit) (table : UInt16)
  | bar (a : Lit)
  | sel (a : Lit)
  /-- The amount is in eighths of a level. -/
  | delay (a : Lit) (amount : UInt32)
  | po (a : Lit)
  | seq (a : Lit)
  | lut6 (inputs : List Lit) (table : UInt64)
  | mux (select thenLit elseLit : Lit)
  | removed
deriving DecidableEq, Inhabited, Repr

namespace Node

def operands : Node → List Lit
  | and a b => [a, b]
  | lut4 a b c d _ => [a, b, c, d]
  | bar a | sel a | delay a _ | po a | seq a => [a]
  | lut6 inputs _ => inputs
  | mux s t e => [s, t, e]
  | const | pi | ff | box | removed => []

/-- Replaces every operand, if each has a replacement. -/
def rename? (f : Lit → Option Lit) : Node → Option Node
  | and a b => do return and (← f a) (← f b)
  | lut4 a b c d table => do return lut4 (← f a) (← f b) (← f c) (← f d) table
  | bar a => return bar (← f a)
  | sel a => return sel (← f a)
  | delay a amount => return delay (← f a) amount
  | po a => return po (← f a)
  | seq a => return seq (← f a)
  | lut6 inputs table => return lut6 (← inputs.mapM f) table
  | mux s t e => do return mux (← f s) (← f t) (← f e)
  | const => some const
  | pi => some pi
  | ff => some ff
  | box => some box
  | removed => some removed

/-- Gates, the nodes that cuts cover. -/
def isLogic : Node → Bool
  | and .. | lut4 .. => true
  | _ => false

def isSource : Node → Bool
  | const | pi | ff | box => true
  | _ => false

/-- Sources whose word comes from outside. -/
def isInput : Node → Bool
  | pi | ff | box => true
  | _ => false

def isSink : Node → Bool
  | po _ | seq _ => true
  | _ => false

/-- One operand, no function of its own, possibly a delay. -/
def isPassThrough : Node → Bool
  | bar _ | sel _ | delay .. => true
  | _ => false

def isMapped : Node → Bool
  | lut6 .. | mux .. => true
  | _ => false

def isLut6 : Node → Bool
  | lut6 .. => true
  | _ => false

def isMux : Node → Bool
  | mux .. => true
  | _ => false

def isRemoved : Node → Bool
  | removed => true
  | _ => false

/-- Eighths of a level that a value picks up on its way through the node. -/
def eighths : Node → UInt32
  | delay _ amount => amount
  | _ => 0

end Node

end TechMap
