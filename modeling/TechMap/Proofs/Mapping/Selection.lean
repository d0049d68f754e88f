import Mathlib
import TechMap.Mapping.Enumeration
import TechMap.Proofs.Cut.Candidates
import TechMap.Proofs.Mapping.CycleWalk

/-! Selection rearranges a cut list. It adds no cut and loses none, and the only thing that it
changes in one is the depth of a multiplexer cut. -/

namespace TechMap.Mapping

/-- The same leaves and the same kind, at whatever depth. -/
structure SameShape (c d : Cut) : Prop where
  leaves : c.leaves = d.leaves
  mask : c.mask = d.mask
  isMux : c.isMux = d.isMux

theorem SameShape.refl (c : Cut) : SameShape c c := ⟨rfl, rfl, rfl⟩

theorem SameShape.trans {a b c : Cut} (h : SameShape a b) (h' : SameShape b c) : SameShape a c :=
  ⟨h.leaves.trans h'.leaves, h.mask.trans h'.mask, h.isMux.trans h'.isMux⟩

theorem SameShape.forall₂_trans {as bs cs : List Cut} (h : List.Forall₂ SameShape as bs)
    (h' : List.Forall₂ SameShape bs cs) : List.Forall₂ SameShape as cs := by
  induction h generalizing cs with
  | nil => exact h'
  | cons hs _ ih =>
    cases h' with
    | cons hs' ht' => exact .cons (hs.trans hs') (ih ht')

/-- A LUT cut has no depth to change. -/
theorem SameShape.eq_of_lut {c d : Cut} (h : SameShape c d) (hd : d.isMux = false) : c = d := by
  have hc := h.isMux.trans hd
  have hdepth : c.muxDepth = d.muxDepth := by simp_all [Cut.isMux]
  obtain ⟨hl, hm, -⟩ := h
  cases c
  cases d
  simp_all

/-- The same shapes in some order. -/
def Rearranged (cuts cuts' : List Cut) : Prop :=
  ∃ mid, cuts.Perm mid ∧ List.Forall₂ SameShape mid cuts'

namespace Rearranged

variable {cuts cuts' cuts'' : List Cut}

theorem of_perm (h : cuts.Perm cuts') : Rearranged cuts cuts' :=
  ⟨cuts', h, List.forall₂_same.2 fun c _ => .refl c⟩

theorem of_forall₂ (h : List.Forall₂ SameShape cuts cuts') : Rearranged cuts cuts' :=
  ⟨cuts, .refl _, h⟩

theorem trans (h : Rearranged cuts cuts') (h' : Rearranged cuts' cuts'') :
    Rearranged cuts cuts'' := by
  obtain ⟨mid, hp, hs⟩ := h
  obtain ⟨mid', hp', hs'⟩ := h'
  have hcomp : Relation.Comp (List.Forall₂ SameShape) List.Perm mid mid' := ⟨cuts', hs, hp'⟩
  rw [List.forall₂_comp_perm_eq_perm_comp_forall₂] at hcomp
  obtain ⟨mid'', hp'', hs''⟩ := hcomp
  exact ⟨mid'', hp.trans hp'', SameShape.forall₂_trans hs'' hs'⟩

theorem length_eq (h : Rearranged cuts cuts') : cuts.length = cuts'.length := by
  obtain ⟨mid, hp, hs⟩ := h
  exact hp.length_eq.trans hs.length_eq

theorem exists_of_mem (h : Rearranged cuts cuts') {c : Cut} (hc : c ∈ cuts) :
    ∃ d ∈ cuts', SameShape c d := by
  obtain ⟨mid, hp, hs⟩ := h
  have hc := hp.mem_iff.1 hc
  clear hp
  induction hs with
  | nil => cases hc
  | @cons a b _ _ hab _ ih =>
    rcases List.mem_cons.1 hc with rfl | hc
    · exact ⟨b, by simp, hab⟩
    · obtain ⟨d, hd, hs⟩ := ih hc
      exact ⟨d, List.mem_cons_of_mem _ hd, hs⟩

end Rearranged

variable {α : Type}

theorem sameShape_refreshDepth (m : Mapper α) (c : Cut) : SameShape (m.refreshDepth c) c := by
  unfold Mapper.refreshDepth
  split
  · rename_i h
    refine ⟨rfl, rfl, ?_⟩
    rw [h]
    simp only [Cut.isMux, decide_eq_true_eq]
    exact Nat.lt_min.2 ⟨Nat.succ_pos _, by decide⟩
  · exact .refl c

theorem perm_settleDepths (m : Mapper α) (cuts : List Cut) :
    (m.settleDepths cuts).Perm (cuts.map m.refreshDepth) := by
  unfold Mapper.settleDepths
  dsimp only
  split
  · exact Cut.perm_promote _ _
  · exact .refl _

variable [Quantity α]

theorem rearranged_sortCuts (m : Mapper α) (id : NodeId) (cuts : List Cut) :
    Rearranged (m.sortCuts id cuts) cuts := by
  have hr := perm_reorder ((m.rankCosts id cuts).map (·.1)) cuts
  unfold Mapper.sortCuts
  dsimp only
  split
  · refine Rearranged.trans ⟨_, perm_settleDepths m _, ?_⟩ (.of_perm hr)
    exact List.forall₂_map_left_iff.2 (List.forall₂_same.2 fun c _ => sameShape_refreshDepth m c)
  · exact .of_perm hr

theorem truncate_sublist (m : Mapper α) (cuts : List Cut) : (m.truncate cuts).Sublist cuts := by
  unfold Mapper.truncate
  split
  · extract_lets fastest
    refine (List.take_sublist _ _).trans ?_
    cases cuts with
    | nil => exact .slnil
    | cons first rest => exact (List.takeWhile_sublist _).cons_cons first
  · exact List.take_sublist _ _

theorem mem_truncate {m : Mapper α} {cuts : List Cut} {c : Cut} (h : c ∈ m.truncate cuts) :
    c ∈ cuts := (truncate_sublist m cuts).subset h

/-- How many cuts a list may have in this round. -/
def Mapper.capacity (m : Mapper α) : Nat :=
  if m.isProbeRound then 2 * m.params.cutsPerNode else m.params.cutsPerNode

theorem length_truncate_le (m : Mapper α) (cuts : List Cut) :
    (m.truncate cuts).length ≤ m.capacity := by
  unfold Mapper.truncate Mapper.capacity
  split <;> exact List.length_take_le _ _

theorem truncate_ne_nil {m : Mapper α} {cuts : List Cut} (h : cuts ≠ [])
    (hn : 0 < m.params.cutsPerNode) : m.truncate cuts ≠ [] := by
  cases cuts with
  | nil => exact absurd rfl h
  | cons first rest =>
    unfold Mapper.truncate
    split
    · extract_lets fastest
      exact List.ne_nil_of_length_pos (by simp [fastest]; omega)
    · exact List.ne_nil_of_length_pos (by simp; omega)

theorem reselect_promote {m : Mapper α} {id : NodeId} {cuts cuts' : List Cut}
    (h : m.reselect id cuts = some cuts') :
    (∃ i, cuts' = Cut.promote cuts i) ∧ (m.params.reselect = false → cuts' = cuts) := by
  unfold Mapper.reselect at h
  split at h
  · obtain rfl := Option.some.inj h
    exact ⟨⟨0, (Cut.promote_zero _).symm⟩, fun _ => rfl⟩
  · obtain rfl : [] = cuts' := by simpa using h
    exact ⟨⟨0, rfl⟩, fun _ => rfl⟩
  · rename_i hon
    split at h
    · obtain ⟨best, -, h⟩ := Option.bind_eq_some_iff.1 h
      obtain rfl : Cut.promote _ best.2 = cuts' := by simpa using h
      refine ⟨⟨best.2, rfl⟩, fun hoff => ?_⟩
      rw [hoff] at hon
      cases hon
    · cases h

theorem perm_reselect {m : Mapper α} {id : NodeId} {cuts cuts' : List Cut}
    (h : m.reselect id cuts = some cuts') : cuts'.Perm cuts := by
  obtain ⟨⟨i, rfl⟩, -⟩ := reselect_promote h
  exact Cut.perm_promote _ _

theorem scanAreas_isSome {m : Mapper α} {id : NodeId} {depth : Nat} {delay : α}
    {cuts : List (Cut × Nat)} {best : α × Nat} (h : ∀ e ∈ cuts, m.canCost id e.1 = true) :
    (m.scanAreas id depth delay cuts best).isSome := by
  induction cuts generalizing best with
  | nil => rfl
  | cons e rest ih =>
    have ih {best : α × Nat} : (m.scanAreas id depth delay rest best).isSome :=
      ih fun e he => h e (List.mem_cons_of_mem _ he)
    obtain ⟨cut, i⟩ := e
    have hcut : m.canCost id cut = true := h (cut, i) (by simp)
    rw [Mapper.scanAreas]
    simp only [hcut, Bool.not_true, Bool.false_eq_true, if_false]
    split_ifs <;> first | exact ih | rfl

theorem reselect_isSome {m : Mapper α} {id : NodeId} {cuts : List Cut}
    (h : ∀ c ∈ cuts, m.canCost id c = true) : ∃ cuts', m.reselect id cuts = some cuts' := by
  unfold Mapper.reselect
  split
  · exact ⟨_, rfl⟩
  · exact ⟨_, rfl⟩
  · rename_i first rest _
    rw [if_pos (h first (by simp))]
    have hscan : (m.scanAreas id first.muxDepth (m.cutCost id first).delay
        ((first :: rest).zipIdx) (Quantity.infinity, 0)).isSome :=
      scanAreas_isSome fun e he => h e.1 (List.fst_mem_of_mem_zipIdx he)
    obtain ⟨best, hbest⟩ := Option.isSome_iff_exists.1 hscan
    exact ⟨_, by rw [hbest]; rfl⟩

end TechMap.Mapping
