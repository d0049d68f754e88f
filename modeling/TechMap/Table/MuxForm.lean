import TechMap.Table.Basic
/-! Four input tables that are 2:1 multiplexers up to negations and the order of the inputs. All of
them are listed once, sorted by table, and looked up by bisection. -/

namespace TechMap

/-- `if in[select] then in[thenIn] ^ thenNeg else in[elseIn] ^ elseNeg`. A negated output is two
negated data inputs, a negated select exchanges them. -/
structure MuxForm where
  select : Nat
  thenIn : Nat
  elseIn : Nat
  thenNeg : Bool
  elseNeg : Bool
deriving DecidableEq, Inhabited, Repr

namespace MuxForm

def negateIf (w : UInt16) (b : Bool) : UInt16 := if b then ~~~ w else w

def table (f : MuxForm) : UInt16 :=
  let s := (Table.proj f.select).toUInt16
  let t := negateIf (Table.proj f.thenIn).toUInt16 f.thenNeg
  let e := negateIf (Table.proj f.elseIn).toUInt16 f.elseNeg
  (s &&& t) ||| (~~~ s &&& e)

/-- Every input is one of the six variables. -/
def inRange (f : MuxForm) : Bool := f.select < 6 && f.thenIn < 6 && f.elseIn < 6

/-- Three distinct inputs below four, with every choice of negations. -/
def all : List MuxForm :=
  (List.range 4).flatMap fun s =>
  ((List.range 4).filter (· ≠ s)).flatMap fun t =>
  ((List.range 4).filter fun e => e ≠ s ∧ e ≠ t).flatMap fun e =>
  [⟨s, t, e, false, false⟩, ⟨s, t, e, true, false⟩, ⟨s, t, e, false, true⟩, ⟨s, t, e, true, true⟩]

/-- Sorted by table, the first form of each. -/
def classes : Array (UInt16 × MuxForm) :=
  (((all.map fun f => (f.table, f)).mergeSort fun a b => a.1 ≤ b.1).eraseRepsBy
    fun a b => a.1 == b.1).toArray

def bisect (entries : Array (UInt16 × MuxForm)) (table : UInt16) (lo hi : Nat) : Option MuxForm :=
  if lo < hi then
    let mid := (lo + hi) / 2
    match entries[mid]? with
    | none => none
    | some (t, f) =>
      if t < table then bisect entries table (mid + 1) hi
      else if table < t then bisect entries table lo mid
      else some f
  else none
termination_by hi - lo

/-- The multiplexer that a table is, if it is one. -/
def ofTable? (table : UInt16) : Option MuxForm := bisect classes table 0 classes.size

end MuxForm

end TechMap
