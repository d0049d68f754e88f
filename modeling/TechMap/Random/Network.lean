import TechMap.Network.Basic
import TechMap.Random.BitSource
import TechMap.Table.MuxForm
/-! Networks to try a mapper on: random ones, whose operands are biased toward recent signals so
that they grow deep, and chains of ANDs. -/

namespace TechMap.Random

/-- What a random network holds. Chances are out of eight. -/
structure Config where
  inputs : Nat
  flipFlops : Nat
  gates : Nat
  outputs : Nat
  /-- Of a gate being a table rather than an AND. -/
  tableChance : Nat
  /-- Of a table being a multiplexer. -/
  muxChance : Nat
  /-- Of a gate being followed by a pass-through. -/
  passChance : Nat
deriving DecidableEq, Inhabited, Repr

def Config.standard : Config := ⟨8, 2, 60, 6, 2, 4, 1⟩

/-- Why there is no network. -/
inductive Failure where
  /-- An operand is to be picked where no signal is. -/
  | noSignals
  /-- The attempts to draw three distinct inputs are used up. -/
  | noTable
  /-- An input is none of the six variables. -/
  | noVariable
deriving DecidableEq, Repr

/-- A draw: a result, and the bits that are left. -/
abbrev Draw (γ β : Type) : Type := StateT (BitSource γ) (Except Failure) β

variable {γ : Type} [Generator γ]

namespace Draw

def lift {β : Type} (f : BitSource γ → β × BitSource γ) : Draw γ β := fun s => .ok (f s)

def bool : Draw γ Bool := lift BitSource.nextBool

def word32 : Draw γ UInt32 := lift BitSource.next32

def outOf8 (k : Nat) : Draw γ Bool := lift (BitSource.outOf8 k)

def index (n : Nat) : Draw γ Nat :=
  if n = 0 then throw .noSignals else lift (BitSource.index n)

/-- Half of the time one of the last eight signals, with a random polarity. -/
def signal (signals : Array Lit) : Draw γ Lit := do
  let recent ← bool
  let back ← index (if recent then Nat.min signals.size 8 else signals.size)
  let i := if recent then signals.size - 1 - back else back
  return (signals.getD i .zero).xor (← bool)

/-- The number of an input is a byte: the low one of an index below `n`. -/
def input (n : Nat) : Draw γ Nat := (fun i => i % 256) <$> index n

/-- Inputs are drawn until three are distinct, at most `attempts` times. -/
def muxTable (n : Nat) : Nat → Draw γ UInt16
  | 0 => throw .noTable
  | attempts + 1 => do
    let s ← input n
    let t ← input n
    let e ← input n
    if s = t ∨ s = e ∨ t = e then muxTable n attempts
    else
      let thenNeg ← bool
      let elseNeg ← bool
      let form : MuxForm := ⟨s, t, e, thenNeg, elseNeg⟩
      if form.inRange then return form.table else throw .noVariable

/-- The last input of a table that is not full is tied off. -/
def lastInput (full : Bool) (signals : Array Lit) : Draw γ Lit :=
  if full then signal signals else return .zero

/-- A multiplexer of the inputs that are not tied off, or any table. -/
def gateTable (attempts : Nat) (config : Config) (full : Bool) : Draw γ UInt16 := do
  if ← outOf8 config.muxChance then muxTable (if full then 4 else 3) attempts
  else return (← word32).toUInt16

/-- A table or an AND. -/
def gate (attempts : Nat) (config : Config) (signals : Array Lit) : Draw γ Node := do
  if ← outOf8 config.tableChance then
    let full ← bool
    let a ← signal signals
    let b ← signal signals
    let c ← signal signals
    let d ← lastInput full signals
    let table ← gateTable attempts config full
    return .lut4 a b c d table
  else
    let a ← signal signals
    let b ← signal signals
    return .and a b

def passThrough (l : Lit) : Draw γ Node := do
  match ← index 3 with
  | 0 => return .bar l
  | 1 => return .sel l
  | _ => return .delay l ((← word32) % 16 + 1)

/-- A network under construction, and the signals that operands are picked from. -/
structure Growth where
  net : Network
  signals : Array Lit

def Growth.add : Growth → Node → Growth
  | ⟨net, signals⟩, node =>
    let l := Lit.ofNode net.size
    ⟨net.add node, signals.push l⟩

/-- Adds a gate, and sometimes a pass-through that takes its place among the signals. -/
def grow (attempts : Nat) (config : Config) (g : Growth) : Draw γ Growth := do
  let node ← gate attempts config g.signals
  if ← outOf8 config.passChance then
    let pass ← passThrough (.ofNode g.net.size)
    return ({ g with net := g.net.add node }).add pass
  else return g.add node

/-- Does `f` `n` times. -/
def times {β : Type} (f : β → Draw γ β) : Nat → β → Draw γ β
  | 0, x => return x
  | n + 1, x => do times f n (← f x)

/-- The first two outputs take the last two signals, so that not too much is left dangling. -/
def output (signals : Array Lit) (i : Nat) : Draw γ Lit :=
  if i < 2 then
    if i < signals.size then return signals.getD (signals.size - 1 - i) .zero
    else throw .noSignals
  else signal signals

def outputs (signals : Array Lit) : List Nat → Network → Draw γ Network
  | [], net => return net
  | i :: rest, net => do outputs signals rest (net.add (.po (← output signals i)))

/-- A network, with so many attempts at each multiplexer table. -/
def networkWithin (attempts : Nat) (config : Config) : Draw γ Network := do
  let start : Growth := ⟨.empty, #[]⟩
  let start := (List.replicate config.inputs Node.pi).foldl Growth.add start
  let start := (List.replicate config.flipFlops Node.ff).foldl Growth.add start
  let g ← times (grow attempts config) config.gates start
  let net ← outputs g.signals (List.range config.outputs) g.net
  times (fun net => (fun l => net.add (.seq l)) <$> signal g.signals) config.flipFlops net

/-- More attempts than a run of bad luck can use. -/
def attempts : Nat := 65536

def network (config : Config) : Draw γ Network := networkWithin attempts config

end Draw

/-- The signal after `i` ANDs of a chain over inputs `1` to `n + 1`. -/
def chainLit (n i : Nat) : Lit := .ofNode (if i = 0 then 1 else n + 1 + i)

/-- A chain of `n` ANDs over `n + 1` inputs with one output, and the signals of the ANDs. -/
def andChain (n : Nat) : Network × List Lit :=
  let ands := (List.range n).map fun i => Node.and (chainLit n i) (.ofNode (i + 2))
  let nodes := .const :: List.replicate (n + 1) .pi ++ ands ++ [.po (chainLit n n)]
  (⟨nodes.toArray⟩, (List.range n).map fun i => chainLit n (i + 1))

end TechMap.Random
