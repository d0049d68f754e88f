import Mathlib
import TechMap.Network.Simulation
import TechMap.Proofs.Network.Basic

/-! The words of a network as a solution of one equation for each node. A canonical network has
exactly one solution for each choice of input words, and simulation computes it. -/

namespace TechMap

/-- A word read through a signal. -/
def readLit (v : NodeId → UInt64) (l : Lit) : UInt64 := l.apply (v l.id)

theorem litValue_eq_readLit (values : Array UInt64) (l : Lit) :
    litValue values l = readLit (fun id => values.getD id 0) l := rfl

theorem Node.eval_congr {n : Node} {f g : Lit → UInt64} (h : ∀ l ∈ n.operands, f l = g l) :
    n.eval f = n.eval g := by
  cases n with
  | lut6 inputs table =>
    simp only [eval]
    rw [List.map_congr_left (l := inputs) h]
  | _ => simp_all [eval, operands]

namespace Network

/-- What the word of node `id` has to be when the others have the words `v`. -/
def wordOf (net : Network) (source : NodeId → UInt64) (v : NodeId → UInt64) (id : NodeId) :
    UInt64 :=
  if (net.node id).isInput then source id else (net.node id).eval (readLit v)

/-- Every node of the table has the word that its kind and operands give. -/
def IsValuation (net : Network) (source v : NodeId → UInt64) : Prop :=
  ∀ id < net.size, v id = net.wordOf source v id

theorem wordOf_congr {net : Network} {source v v' : NodeId → UInt64} {id : NodeId}
    (h : ∀ l ∈ (net.node id).operands, v l.id = v' l.id) :
    net.wordOf source v id = net.wordOf source v' id := by
  unfold wordOf
  split
  · rfl
  · exact Node.eval_congr fun l hl => by rw [readLit, readLit, h l hl]

theorem IsValuation.unique {net : Network} {source v v' : NodeId → UInt64} (hc : net.Canonical)
    (hv : net.IsValuation source v) (hv' : net.IsValuation source v') (id : NodeId)
    (h : id < net.size) : v id = v' id := by
  induction id using Nat.strong_induction_on with
  | _ id ih =>
    rw [hv id h, hv' id h]
    refine wordOf_congr fun l hl => ih _ (hc.lt id l hl) ?_
    exact lt_size_of_isLive (hc.live id l hl)

theorem IsValuation.of_isInput {net : Network} {source v : NodeId → UInt64} {id : NodeId}
    (hv : net.IsValuation source v) (h : (net.node id).isInput = true) : v id = source id := by
  rw [hv id (lt_size_of_isLive (isLive_of_isSource (Node.isSource_of_isInput h))), wordOf, if_pos h]

/-- One more word, for the node after those that have theirs. -/
def evalStep (source : NodeId → UInt64) (values : Array UInt64) (n : Node) : Array UInt64 :=
  values.push (if n.isInput then source values.size else n.eval (litValue values))

theorem evaluate_eq_foldl (net : Network) (source : NodeId → UInt64) :
    Id.run (net.evaluate fun id => pure (source id)) =
      net.nodes.toList.foldl (evalStep source) #[] := by
  have hstep : (fun (values : Array UInt64) (n : Node) => (do
      let word ← if n.isInput then (pure (source values.size) : Id UInt64)
        else pure (n.eval (litValue values))
      return values.push word : Id (Array UInt64))) = fun values n => pure (evalStep source values n) := by
    funext values n
    unfold evalStep
    split <;> rfl
  unfold evaluate
  rw [hstep, Array.foldlM_pure, Array.foldl_toList]
  rfl

theorem getD_push_of_lt {values : Array UInt64} {w : UInt64} {id : NodeId} (h : id < values.size) :
    (values.push w).getD id 0 = values.getD id 0 := by
  simp [Array.getD_eq_getD_getElem?, Array.getElem?_push, h.ne, h]

/-- The words of the first `n` nodes. -/
def firstWords (net : Network) (source : NodeId → UInt64) (n : Nat) : Array UInt64 :=
  (net.nodes.toList.take n).foldl (evalStep source) #[]

theorem firstWords_succ {net : Network} (source : NodeId → UInt64) {n : Nat} (h : n < net.size) :
    net.firstWords source (n + 1) = evalStep source (net.firstWords source n) (net.node n) := by
  have hlt : n < net.nodes.size := h
  have hnode : net.nodes.toList[n]? = some (net.node n) := by
    rw [node_eq_getElem hlt, Array.getElem?_toList, Array.getElem?_eq_getElem hlt]
  unfold firstWords
  rw [List.take_add_one, hnode, Option.toList_some, List.foldl_append]
  rfl

theorem firstWords_spec {net : Network} (hc : net.Canonical) (source : NodeId → UInt64) (n : Nat)
    (hn : n ≤ net.size) : (net.firstWords source n).size = n ∧ ∀ id < n,
      (net.firstWords source n).getD id 0 =
        net.wordOf source (fun i => (net.firstWords source n).getD i 0) id := by
  induction n with
  | zero => simp [firstWords]
  | succ n ih =>
    obtain ⟨hs, ih⟩ := ih (by omega)
    rw [firstWords_succ source hn]
    refine ⟨by simp [evalStep, hs], fun id hid => ?_⟩
    have hkeep (i : NodeId) (hi : i < n) :
        (evalStep source (net.firstWords source n) (net.node n)).getD i 0 =
          (net.firstWords source n).getD i 0 := getD_push_of_lt (by rwa [hs])
    have hsame : net.wordOf source (fun i => (evalStep source (net.firstWords source n)
        (net.node n)).getD i 0) id = net.wordOf source
          (fun i => (net.firstWords source n).getD i 0) id := wordOf_congr
      fun l hl => hkeep l.id (lt_of_lt_of_le (hc.lt id l hl) (Nat.le_of_lt_succ hid))
    rw [hsame]
    rcases Nat.lt_succ_iff_lt_or_eq.1 hid with h | rfl
    · rw [hkeep id h, ih id h]
    · have hlt : id < (evalStep source (net.firstWords source id) (net.node id)).size := by
        simp [evalStep, hs]
      rw [Array.getD_eq_getD_getElem?, Array.getElem?_eq_getElem hlt, Option.getD_some]
      have hpush : (evalStep source (net.firstWords source id) (net.node id))[id] =
          if (net.node id).isInput then source (net.firstWords source id).size
          else (net.node id).eval (litValue (net.firstWords source id)) := by
        simp [evalStep, Array.getElem_push, hs]
      rw [hpush, hs]
      rfl

/-- Simulation of a canonical network succeeds, and its words solve all equations. -/
theorem simulate_canonical {net : Network} (hc : net.Canonical) (source : NodeId → UInt64) :
    ∃ values, net.simulate source = .ok values ∧ values.size = net.size ∧
      net.IsValuation source fun id => values.getD id 0 := by
  obtain ⟨hs, h⟩ := firstWords_spec hc source net.size (Nat.le_refl _)
  refine ⟨net.firstWords source net.size, ?_, hs, h⟩
  have hall : net.firstWords source net.size = Id.run (net.evaluate fun id => pure (source id)) := by
    rw [evaluate_eq_foldl, firstWords, List.take_of_length_le (by simp [size])]
  unfold simulate simulateM
  rw [if_pos (isCanonical_iff.2 hc), hall]
  rfl

theorem simulate_ok {net : Network} {source : NodeId → UInt64} {values : Array UInt64}
    (h : net.simulate source = .ok values) :
    net.Canonical ∧ values.size = net.size ∧ net.IsValuation source fun id => values.getD id 0 := by
  by_cases hc : net.isCanonical = true
  · have hc := isCanonical_iff.1 hc
    obtain ⟨values', h', hs, hv⟩ := simulate_canonical hc source
    obtain rfl : values' = values := by simpa [h'] using h
    exact ⟨hc, hs, hv⟩
  · unfold simulate simulateM at h
    rw [if_neg hc] at h
    cases h

end Network

end TechMap
