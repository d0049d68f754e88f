import TechMap.Error
import TechMap.Network.Simulation
import TechMap.Table.Lookup
/-! The function table of a signal over the leaves of a cut, leaf `i` being variable `i`. The cone
is walked with an explicit path, so its depth does not matter, and tables found on the way are
remembered until the query ends. -/

namespace TechMap

namespace Node

/-- The operands that the function of a gate depends on. An ignored input may lie anywhere. -/
def support? : Node → Option (List Lit)
  | and a b => some [a, b]
  | lut4 a b c d table =>
    let full := Table.expand table.toUInt64 4
    some (([a, b, c, d].zipIdx.filter fun e => Table.dependsOn full e.2).map (·.1))
  | _ => none

end Node

/-- Tables found by the current query, and the nodes they belong to. -/
structure Memo where
  tables : Array (Option UInt64)
  touched : List NodeId
deriving DecidableEq, Inhabited, Repr

namespace Memo

def ofSize (size : Nat) : Memo := ⟨Array.replicate size none, []⟩

/-- Grows to hold a table for each of `size` nodes. -/
def resize (memo : Memo) (size : Nat) : Memo :=
  { memo with tables := memo.tables ++ Array.replicate (size - memo.tables.size) none }

def record (memo : Memo) (id : NodeId) (table : UInt64) : Memo :=
  ⟨memo.tables.setIfInBounds id (some table), id :: memo.touched⟩

/-- Forgets the tables of the touched nodes. -/
def clear (memo : Memo) : Memo :=
  ⟨memo.touched.foldl (fun tables id => tables.setIfInBounds id none) memo.tables, []⟩

/-- The constant and the leaves need no walk. -/
def known (memo : Memo) (cut : Cut) (id : NodeId) : Option UInt64 :=
  if id = NodeId.constant then some Table.ones
  else
    match cut.leaves.idxOf? id with
    | some i => some (Table.proj i)
    | none => (memo.tables[id]?).join

def isKnown (memo : Memo) (cut : Cut) (id : NodeId) : Bool := (memo.known cut id).isSome

def knownLit (memo : Memo) (cut : Cut) (l : Lit) : Except Error UInt64 :=
  match memo.known cut l.id with
  | some table => .ok (l.apply table)
  | none => .error (.notExtracted l)

end Memo

namespace Network

/-- The operands to walk below a node that is neither the constant nor a leaf. -/
def below (net : Network) (cut : Cut) (id : NodeId) : Except Error (List NodeId) :=
  match net.get? id with
  | none => .error .outOfRange
  | some node =>
    match node.support? with
    | none => .error (.outsideCone id cut)
    | some operands => .ok (operands.map (·.id))

/-- The table of a gate from those of the operands it depends on. -/
def gateTable (net : Network) (cut : Cut) (memo : Memo) (id : NodeId) : Except Error UInt64 :=
  match net.node id with
  | .and a b => do return (← memo.knownLit cut a) &&& (← memo.knownLit cut b)
  | .lut4 a b c d table => do
    let full := Table.expand table.toUInt64 4
    let words ← [a, b, c, d].zipIdx.mapM fun e =>
      if Table.dependsOn full e.2 then memo.knownLit cut e.1 else pure 0
    return Table.lookup table.toUInt64 words
  | _ => .error (.outsideCone id cut)

/-- Post order walk. The entries of the path carry the operands that are left to look at. -/
def walkCone (net : Network) (cut : Cut) :
    Nat → List (NodeId × List NodeId) → Memo → Memo × Except Error Unit
  | _, [], memo => (memo, .ok ())
  | 0, _, memo => (memo, .ok ())
  | fuel + 1, (id, operands) :: path, memo =>
    match operands.dropWhile (memo.isKnown cut) with
    | next :: rest =>
      match net.below cut next with
      | .error e => (memo, .error e)
      | .ok below => walkCone net cut fuel ((next, below) :: (id, rest) :: path) memo
    | [] =>
      match net.gateTable cut memo id with
      | .error e => (memo, .error e)
      | .ok table => walkCone net cut fuel path (memo.record id table)

/-- Each node of an acyclic cone is entered once and left once, so twice the nodes is enough. -/
def extract (net : Network) (l : Lit) (cut : Cut) (memo : Memo) : Memo × Except Error UInt64 :=
  if memo.isKnown cut l.id then (memo, memo.knownLit cut l)
  else
    match net.below cut l.id with
    | .error e => (memo, .error e)
    | .ok below =>
      match net.walkCone cut (2 * net.size) [(l.id, below)] memo with
      | (memo, .error e) => (memo, .error e)
      | (memo, .ok ()) => (memo, memo.knownLit cut l)

/-- The table of `l` over the leaves of `cut`. The memo holds nothing between queries. -/
def computeTable (net : Network) (l : Lit) (cut : Cut) (memo : Memo) :
    Memo × Except Error UInt64 :=
  let (memo, result) := net.extract l cut (memo.resize net.size)
  (memo.clear, result)

end Network

end TechMap
