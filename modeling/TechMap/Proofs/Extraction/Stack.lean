import Mathlib
import TechMap.Extraction.Scratch
import TechMap.Proofs.Extraction.Exact

/-! The stack of extraction against lists of operands. An entry stands for the operands that matter
from its number on, so the walk that counts operands finds and fails as the one that lists them
does. An error leaves entries behind, which are gone before the next query. -/

namespace TechMap

/-- The operands from number `i` on that matter. -/
def remaining (mask : UInt8) (operands : List Lit) (i : Nat) : List NodeId :=
  ((operands.zipIdx.drop i).filter fun e => matters mask e.2).map (·.1.id)

theorem matters_foldl (p : Nat → Bool) {i : Nat} (hi : i < 4) :
    matters ((List.range 4).foldl
      (fun mask i => if p i then mask ||| ((1 : UInt8) <<< i.toUInt8) else mask) 0) i = p i := by
  have hr : List.range 4 = [0, 1, 2, 3] := rfl
  simp only [hr, List.foldl_cons, List.foldl_nil]
  interval_cases i <;> cases p 0 <;> cases p 1 <;> cases p 2 <;> cases p 3 <;> rfl

theorem support?_eq (n : Node) : n.support? = n.supportMask?.map fun mask =>
    (n.operands.zipIdx.filter fun e => matters mask e.2).map (·.1) := by
  cases n with
  | and a b =>
    have h0 : matters 3 0 = true := by decide
    have h1 : matters 3 1 = true := by decide
    simp [Node.support?, Node.supportMask?, Node.operands, h0, h1]
  | lut4 a b c d table =>
    simp only [Node.support?, Node.supportMask?, Option.map_some, Node.operands]
    congr 2
    refine List.filter_congr fun e he => ?_
    exact (matters_foldl _ (by simpa using (List.mem_zipIdx' he).1)).symm
  | _ => rfl

theorem dropWhile_remaining (memo : Memo) (cut : Cut) (mask : UInt8) (operands : List Lit)
    (i : Nat) : (remaining mask operands i).dropWhile (memo.isKnown cut) =
      match memo.pending? cut mask operands i with
      | none => []
      | some (next, j) => next :: remaining mask operands j := by
  have hdrop {i : Nat} (hi : i < operands.length) :
      operands.zipIdx.drop i = (operands[i], i) :: operands.zipIdx.drop (i + 1) := by
    rw [List.drop_eq_getElem_cons (by simpa using hi), List.getElem_zipIdx, Nat.zero_add]
  fun_induction memo.pending? cut mask operands i with
  | case1 i hi hp =>
    simp only [Bool.and_eq_true, Bool.not_eq_true'] at hp
    simp [remaining, hdrop hi, hp]
  | case2 i hi hp ih =>
    rw [← ih]
    simp only [remaining, hdrop hi, List.filter_cons]
    split
    · simp_all
    · rfl
  | case3 i hi =>
    rw [remaining, List.drop_eq_nil_of_le (by simpa using hi)]
    rfl

namespace Network

variable {net : Network} {cut : Cut} {memo memo' : Memo} {id next : NodeId} {i : Nat}
  {stack : List (NodeId × Nat)}

/-- What an entry of the stack leaves to be looked at. -/
def ahead (net : Network) (e : NodeId × Nat) : List NodeId :=
  match (net.node e.1).supportMask? with
  | none => []
  | some mask => remaining mask (net.node e.1).operands e.2

/-- The stack as a path of the walk on lists of operands. -/
def pathOf (net : Network) (stack : List (NodeId × Nat)) : List (NodeId × List NodeId) :=
  stack.map fun e => (e.1, net.ahead e)

theorem below_eq (hlt : id < net.size) : net.below cut id =
    if (net.node id).supportMask?.isSome then .ok (net.ahead (id, 0))
    else .error (.outsideCone id cut) := by
  rw [below, get?_eq_some hlt]
  simp only [support?_eq, ahead]
  cases (net.node id).supportMask? with
  | none => rfl
  | some mask => simp [remaining, Function.comp_def]

theorem walk_done (fuel : Nat) : net.walk cut fuel ⟨memo, []⟩ = some (⟨memo, []⟩, .ok ()) := by
  cases fuel <;> rfl

theorem walk_known (hk : memo.isKnown cut id = true) (fuel : Nat) :
    net.walk cut (fuel + 1) ⟨memo, (id, i) :: stack⟩ = net.walk cut fuel ⟨memo, stack⟩ := by
  rw [walk, if_pos hk]

theorem walk_unknown (hu : memo.isKnown cut id = false) (hlt : id < net.size) (fuel : Nat) :
    net.walk cut (fuel + 1) ⟨memo, (id, i) :: stack⟩ =
      match (net.node id).supportMask? with
      | none => some (⟨memo, (id, i) :: stack⟩, .error (.outsideCone id cut))
      | some mask =>
        match memo.pending? cut mask (net.node id).operands i with
        | some (next, i) => net.walk cut fuel ⟨memo, (next, 0) :: (id, i) :: stack⟩
        | none =>
          match net.gateTable cut memo id with
          | .error e => some (⟨memo, stack⟩, .error e)
          | .ok table => net.walk cut fuel ⟨memo.record id table, stack⟩ := by
  have h := walk.eq_3 net cut fuel memo id i stack
  simp only [hu, Bool.false_eq_true, if_false, get?_eq_some hlt] at h
  exact h

theorem walk_enter {rest : List NodeId} (hu : memo.isKnown cut id = false) (hlt : id < net.size)
    (hd : (net.ahead (id, i)).dropWhile (memo.isKnown cut) = next :: rest)
    (fuel : Nat) (stack : List (NodeId × Nat)) :
    ∃ j, net.ahead (id, j) = rest ∧ net.walk cut (fuel + 1) ⟨memo, (id, i) :: stack⟩ =
      net.walk cut fuel ⟨memo, (next, 0) :: (id, j) :: stack⟩ := by
  rw [walk_unknown hu hlt]
  simp only [ahead] at hd ⊢
  cases hs : (net.node id).supportMask? with
  | none => simp [hs] at hd
  | some mask =>
    simp only [hs, dropWhile_remaining] at hd ⊢
    cases hp : memo.pending? cut mask (net.node id).operands i with
    | none => simp [hp] at hd
    | some e =>
      obtain ⟨first, j⟩ := e
      obtain ⟨rfl, hrest⟩ : first = next ∧ remaining mask (net.node id).operands j = rest := by
        simpa [hp] using hd
      exact ⟨j, hrest, rfl⟩

theorem gateTable_of_supportMask? (hs : (net.node id).supportMask? = none) :
    net.gateTable cut memo id = .error (.outsideCone id cut) := by
  unfold gateTable
  cases hn : net.node id <;> simp_all [Node.supportMask?]

/-- With no operand left to look at it is the gate's table that decides. -/
theorem walk_finish (hu : memo.isKnown cut id = false) (hlt : id < net.size)
    (hd : (net.ahead (id, i)).dropWhile (memo.isKnown cut) = []) (fuel : Nat) :
    (∀ t, net.gateTable cut memo id = .ok t →
      net.walk cut (fuel + 1) ⟨memo, (id, i) :: stack⟩ =
        net.walk cut fuel ⟨memo.record id t, stack⟩) ∧
    ∀ e, net.gateTable cut memo id = .error e →
      ∃ left, net.walk cut (fuel + 1) ⟨memo, (id, i) :: stack⟩ = some (⟨memo, left⟩, .error e) := by
  rw [walk_unknown hu hlt]
  simp only [ahead] at hd
  cases hs : (net.node id).supportMask? with
  | none =>
    rw [gateTable_of_supportMask? hs]
    refine ⟨fun t ht => (by cases ht), fun e he => ?_⟩
    obtain rfl : Error.outsideCone id cut = e := by simpa using he
    exact ⟨_, rfl⟩
  | some mask =>
    simp only [hs, dropWhile_remaining] at hd
    cases hp : memo.pending? cut mask (net.node id).operands i with
    | none => exact ⟨fun t ht => by simp only [hp, ht], fun e he => ⟨stack, by simp only [hp, he]⟩⟩
    | some e => simp [hp] at hd

theorem walk_outside {e : Error} (hu : memo.isKnown cut id = false) (hlt : id < net.size)
    (hb : net.below cut id = .error e) (fuel : Nat) :
    net.walk cut (fuel + 1) ⟨memo, (id, i) :: stack⟩ =
      some (⟨memo, (id, i) :: stack⟩, .error e) := by
  rw [walk_unknown hu hlt]
  rw [below_eq hlt] at hb
  cases hs : (net.node id).supportMask? with
  | none =>
    simp only [hs, Option.isSome_none, Bool.false_eq_true, if_false, Except.error.injEq] at hb
    rw [hb]
  | some mask => simp [hs] at hb

theorem below_pathOf {below : List NodeId} (hlt : id < net.size)
    (hb : net.below cut id = .ok below) : net.ahead (id, 0) = below := by
  rw [below_eq hlt] at hb
  split at hb
  · simpa using hb
  · cases hb

theorem pathOf_eq_cons {operands : List NodeId} {path : List (NodeId × List NodeId)}
    (h : net.pathOf stack = (id, operands) :: path) : ∃ i rest,
      stack = (id, i) :: rest ∧ net.ahead (id, i) = operands ∧ net.pathOf rest = path := by
  obtain ⟨⟨id', i⟩, rest, rfl, he, rfl⟩ := List.map_eq_cons_iff.1 h
  obtain ⟨rfl, rfl⟩ := Prod.mk.inj he
  exact ⟨i, rest, rfl, rfl, rfl⟩

/-- There are steps left while there is a path. -/
theorem Descending.exists_steps {e : NodeId × List NodeId} {path : List (NodeId × List NodeId)}
    (h : net.Descending cut (e :: path) memo) {fuel : Nat}
    (hfuel : 2 * (net.unknown cut memo).card + 1 ≤ fuel + (e :: path).length) :
    ∃ n, fuel = n + 2 ∧ 2 * (net.unknown cut memo).card ≤ n + path.length + 2 := by
  have hlen := h.length_le
  rw [List.length_cons] at hlen hfuel
  exact ⟨fuel - 2, by omega, by omega⟩

/-- The walk on the stack finds and fails as the one on lists does, and may leave entries behind.
Twice the missing tables pay for its steps, and one more for a node that it cannot enter. -/
theorem Walks.walk_eq (hc : net.Canonical) {path : List (NodeId × List NodeId)}
    {r : Memo × Except Error Unit} (h : net.Walks cut path memo r)
    (hdesc : net.Descending cut path memo) (stack : List (NodeId × Nat))
    (hpath : net.pathOf stack = path) (fuel : Nat)
    (hfuel : 2 * (net.unknown cut memo).card + 1 ≤ fuel + path.length) :
    ∃ left, net.walk cut fuel ⟨memo, stack⟩ = some (⟨r.1, left⟩, r.2) := by
  induction h generalizing stack fuel with
  | done =>
    obtain rfl : stack = [] := List.map_eq_nil_iff.1 hpath
    exact ⟨[], walk_done fuel⟩
  | outside hd hb =>
    obtain ⟨i, stack, rfl, rfl, -⟩ := pathOf_eq_cons hpath
    obtain ⟨fuel, rfl, -⟩ := hdesc.exists_steps hfuel
    have hu := hdesc.unknown _ List.mem_cons_self
    have hlt := hdesc.range _ List.mem_cons_self
    obtain ⟨j, -, hw⟩ := walk_enter hu hlt hd (fuel + 1) stack
    rw [hw]
    exact ⟨_, walk_outside (isKnown_of_dropWhile hd) ((hdesc.next_lt hd).trans hlt) hb fuel⟩
  | @enter memo id next _ rest below path _ hd hb _ ih =>
    obtain ⟨i, stack, rfl, rfl, rfl⟩ := pathOf_eq_cons hpath
    obtain ⟨fuel, rfl, hfuel⟩ := hdesc.exists_steps hfuel
    have hlt := hdesc.range _ List.mem_cons_self
    obtain ⟨j, hj, hw⟩ := walk_enter (hdesc.unknown _ List.mem_cons_self) hlt hd (fuel + 1) stack
    have henter := hdesc.enter hc hd hb
    have hb' := below_pathOf (henter.range _ List.mem_cons_self) hb
    rw [hw]
    refine ih henter ((next, 0) :: (id, j) :: stack) (by simp [pathOf, hj, hb']) (fuel + 1) ?_
    simp only [List.length_cons]
    omega
  | missing hd ht =>
    obtain ⟨i, stack, rfl, rfl, -⟩ := pathOf_eq_cons hpath
    obtain ⟨fuel, rfl, -⟩ := hdesc.exists_steps hfuel
    have hu := hdesc.unknown _ List.mem_cons_self
    exact (walk_finish hu (hdesc.range _ List.mem_cons_self) hd (fuel + 1)).2 _ ht
  | @leave memo id _ path t _ hd ht _ ih =>
    obtain ⟨i, stack, rfl, rfl, rfl⟩ := pathOf_eq_cons hpath
    obtain ⟨fuel, rfl, hfuel⟩ := hdesc.exists_steps hfuel
    have hu := hdesc.unknown _ List.mem_cons_self
    have hlt := hdesc.range _ List.mem_cons_self
    have hcard : (net.unknown cut (memo.record id t)).card < (net.unknown cut memo).card :=
      card_unknown_record hlt hdesc.size hu t
    rw [(walk_finish hu hlt hd (fuel + 1)).1 t ht]
    exact ih (hdesc.leave t) stack rfl (fuel + 1) (by omega)

theorem Extracts.walk_eq (hc : net.Canonical) {l : Lit} {r : Memo × Except Error UInt64}
    (h : net.Extracts l cut memo r) (hs : net.size ≤ memo.tables.size) (hl : l.id < net.size) :
    ∃ left result, net.walk cut (2 * net.size) ⟨memo, [(l.id, 0)]⟩ = some (⟨r.1, left⟩, result) ∧
      (result.bind fun _ => r.1.knownLit cut l) = r.2 := by
  have hcard : (net.unknown cut memo).card ≤ net.size := by
    simpa [unknown] using Finset.card_filter_le (Finset.range net.size) _
  have hpos : 0 < net.size := Nat.zero_lt_of_lt hl
  obtain ⟨fuel, hfuel⟩ := Nat.exists_eq_add_of_le' (show 1 ≤ 2 * net.size by omega)
  cases h with
  | known hk =>
    rw [hfuel]
    exact ⟨[], .ok (), by rw [walk_known hk, walk_done], rfl⟩
  | outside hk hb =>
    rw [hfuel]
    exact ⟨_, _, walk_outside hk hl hb fuel, rfl⟩
  | failed hk hb h =>
    obtain ⟨left, hw⟩ := h.walk_eq hc (.start hc hs hk hb) [(l.id, 0)]
      (by simp [pathOf, below_pathOf hl hb]) (2 * net.size) (by simpa using hcard)
    exact ⟨left, _, hw, rfl⟩
  | finished hk hb h =>
    obtain ⟨left, hw⟩ := h.walk_eq hc (.start hc hs hk hb) [(l.id, 0)]
      (by simp [pathOf, below_pathOf hl hb]) (2 * net.size) (by simpa using hcard)
    exact ⟨left, _, hw, rfl⟩

/-- A query that starts with an empty stack ends, and it answers as extraction does. -/
theorem ask_eq (hc : net.Canonical) {l : Lit} (hl : l.id < net.size) (cut : Cut) (memo : Memo) :
    net.ask l cut ⟨memo, []⟩ =
      some (⟨(net.computeTable l cut memo).1, []⟩, (net.computeTable l cut memo).2) := by
  have hs := Memo.size_resize memo net.size
  obtain ⟨left, result, hw, hr⟩ := (extracts_extract hc l cut hs).walk_eq hc hs hl
  rw [ask, hw]
  simp only [Option.bind_eq_bind, Option.bind_some, hr]
  rfl

end Network

end TechMap
