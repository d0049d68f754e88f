import Mathlib
import TechMap.Proofs.Network.Compaction

/-! Counts of operands. The fanout of a node is a sum over all nodes, so a compaction, which drops
some of them, does not raise it. -/

namespace TechMap

theorem size_foldl_modify (ids : List NodeId) (counts : Array Nat) :
    (ids.foldl (fun counts id => counts.modify id (· + 1)) counts).size = counts.size := by
  induction ids generalizing counts with
  | nil => rfl
  | cons id ids ih => rw [List.foldl_cons, ih, Array.size_modify]

theorem getD_foldl_modify (ids : List NodeId) (counts : Array Nat) {v : NodeId}
    (h : v < counts.size) :
    (ids.foldl (fun counts id => counts.modify id (· + 1)) counts).getD v 0 =
      counts.getD v 0 + ids.count v := by
  induction ids generalizing counts with
  | nil => simp
  | cons id ids ih =>
    rw [List.foldl_cons, ih _ (by simpa using h)]
    simp only [Array.getD_eq_getD_getElem?, Array.getElem?_modify, List.count_cons]
    by_cases he : id = v
    · subst he
      simp [h]
      omega
    · simp [he]

namespace Network

variable {net net' : Network} {v : NodeId}

theorem toList_nodes (net : Network) : net.nodes.toList = (List.range net.size).map net.node := by
  refine List.ext_getElem (by simp [size]) fun i hi hi' => ?_
  rw [List.getElem_map, List.getElem_range, node_eq_getElem (by simpa using hi), Array.getElem_toList]

/-- How often node `id` has `v` as an operand. -/
def usesOperand (net : Network) (v id : NodeId) : Nat := ((net.node id).operands.map (·.id)).count v

/-- The counts after the first `n` nodes. -/
theorem getD_foldl_nodes (h : v < net.size) (n : Nat) :
    let counts := ((List.range n).map net.node).foldl (fun counts node =>
      node.operands.foldl (fun counts l => counts.modify l.id (· + 1)) counts)
      (Array.replicate net.size 0)
    counts.size = net.size ∧ counts.getD v 0 = ∑ id ∈ Finset.range n, net.usesOperand v id := by
  induction n with
  | zero => exact ⟨Array.size_replicate, getD_replicate net.size 0 v⟩
  | succ n ih =>
    obtain ⟨hs, hg⟩ := ih
    have hnode (counts : Array Nat) :
        (net.node n).operands.foldl (fun counts l => counts.modify l.id (· + 1)) counts =
          ((net.node n).operands.map (·.id)).foldl (fun counts id => counts.modify id (· + 1)) counts := by
      rw [List.foldl_map]
    dsimp only
    rw [List.range_succ, List.map_append, List.foldl_append, List.map_singleton, List.foldl_cons,
      List.foldl_nil, Finset.sum_range_succ, hnode, size_foldl_modify,
      getD_foldl_modify _ _ (by rwa [hs]), hg]
    exact ⟨hs, rfl⟩

theorem getD_fanoutCounts (h : v < net.size) :
    net.fanoutCounts.getD v 0 = ∑ id ∈ Finset.range net.size, net.usesOperand v id := by
  have := (getD_foldl_nodes h net.size).2
  rwa [← toList_nodes, Array.foldl_toList] at this

theorem Renumbered.fanout_le {c : Compaction} (h : Renumbered net net' c) {i : NodeId}
    (hi : c.get v = some i) : net'.fanoutCounts.getD i 0 ≤ net.fanoutCounts.getD v 0 := by
  have hlive := h.live v i hi
  rw [getD_fanoutCounts (h.lt_size v i hi), getD_fanoutCounts (lt_size_of_isLive hlive)]
  choose! old hold using h.surj
  have hold' (j : NodeId) (hj : j ∈ Finset.range net'.size) : c.get (old j) = some j :=
    hold j (Finset.mem_range.1 hj)
  have hcount (j : NodeId) (hj : j ∈ Finset.range net'.size) :
      net'.usesOperand i j = net.usesOperand v (old j) := by
    rw [usesOperand, usesOperand, h.operands (hold' j hj), List.map_map, List.count_eq_countP,
      List.count_eq_countP, List.countP_map, List.countP_map]
    refine List.countP_congr fun l hl => ?_
    have hg := h.get_operand (hold' j hj) hl
    simp only [Function.comp_apply, beq_iff_eq]
    constructor
    · intro he
      rw [he] at hg
      exact h.inj _ _ _ hg hi
    · intro he
      rw [he, hi] at hg
      exact (Option.some.inj hg).symm
  have hinj : Set.InjOn old (Finset.range net'.size) := by
    intro a ha b hb he
    have hca := hold' a ha
    rw [he, hold' b hb] at hca
    exact (Option.some.inj hca).symm
  rw [Finset.sum_congr rfl hcount, ← Finset.sum_image hinj]
  refine Finset.sum_le_sum_of_subset fun x hx => ?_
  obtain ⟨j, hj, rfl⟩ := Finset.mem_image.1 hx
  exact Finset.mem_range.2 (lt_size_of_isLive (h.live _ _ (hold' j hj)))

end Network

end TechMap
