import TechMap.Extraction
/-! Queries that share their memory. Besides the tables it is the stack of the walk, whose room is
kept from one query to the next; an entry is a node and how many of its operands were looked at. -/

namespace TechMap

namespace Node

/-- Bit `i` tells whether the function of a gate depends on operand `i`. -/
def supportMask? : Node → Option UInt8
  | and .. => some 3
  | lut4 _ _ _ _ table =>
    let full := Table.expand table.toUInt64 4
    some ((List.range 4).foldl
      (fun mask i =>
        if Table.dependsOn full i then mask ||| ((1 : UInt8) <<< i.toUInt8) else mask) 0)
  | _ => none

end Node

/-- Whether a support mask has bit `i`. -/
def matters (mask : UInt8) (i : Nat) : Bool := (mask >>> i.toUInt8) &&& 1 != 0

/-- The first operand from number `i` on that matters and has no table, and the number after it. -/
def Memo.pending? (memo : Memo) (cut : Cut) (mask : UInt8) (operands : List Lit) (i : Nat) :
    Option (NodeId × Nat) :=
  if h : i < operands.length then
    if matters mask i && !memo.isKnown cut operands[i].id then some (operands[i].id, i + 1)
    else memo.pending? cut mask operands (i + 1)
  else none
termination_by operands.length - i

structure Scratch where
  memo : Memo
  stack : List (NodeId × Nat)
deriving DecidableEq, Inhabited, Repr

namespace Scratch

def ofSize (size : Nat) : Scratch := ⟨.ofSize size, []⟩

/-- Forgets the tables of the touched nodes and whatever an aborted walk left on the stack. -/
def reset (s : Scratch) : Scratch := ⟨s.memo.clear, []⟩

end Scratch

namespace Network

/-- Works off the stack. An error leaves on it what is still to be done, and there is no answer if
the steps run out. -/
def walk (net : Network) (cut : Cut) : Nat → Scratch → Option (Scratch × Except Error Unit)
  | _, ⟨memo, []⟩ => some (⟨memo, []⟩, .ok ())
  | 0, _ => none
  | fuel + 1, ⟨memo, (id, i) :: stack⟩ =>
    if memo.isKnown cut id then walk net cut fuel ⟨memo, stack⟩
    else
      match net.get? id with
      | none => some (⟨memo, (id, i) :: stack⟩, .error .outOfRange)
      | some node =>
        match node.supportMask? with
        | none => some (⟨memo, (id, i) :: stack⟩, .error (.outsideCone id cut))
        | some mask =>
          match memo.pending? cut mask node.operands i with
          | some (next, i) => walk net cut fuel ⟨memo, (next, 0) :: (id, i) :: stack⟩
          | none =>
            match net.gateTable cut memo id with
            | .error e => some (⟨memo, stack⟩, .error e)
            | .ok table => walk net cut fuel ⟨memo.record id table, stack⟩

/-- The table of `l` over the leaves of `cut`, found on top of whatever the stack holds. Each node
of an acyclic cone is entered once and left once, so on an empty stack twice the nodes is enough. -/
def ask (net : Network) (l : Lit) (cut : Cut) (s : Scratch) :
    Option (Scratch × Except Error UInt64) := do
  let (s, result) ← net.walk cut (2 * net.size) ⟨s.memo.resize net.size, (l.id, 0) :: s.stack⟩
  return (s.reset, result.bind fun _ => s.memo.knownLit cut l)

end Network

/-- What extraction is asked for. -/
structure Query where
  net : Network
  lit : Lit
  cut : Cut
deriving DecidableEq, Repr

/-- The answers to queries that are asked one after the other. -/
def Scratch.answers : List Query → Scratch → Option (List (Except Error UInt64))
  | [], _ => some []
  | q :: rest, s => do
    let (s, answer) ← q.net.ask q.lit q.cut s
    return answer :: (← answers rest s)

end TechMap
