import Mathlib
import TechMap.Proofs.Cut.Product

/-! Cuts as sets of nodes. A well formed LUT cut is its set of leaves, and two cuts have a union exactly
if the union of their sets is small enough. -/

namespace TechMap.Cut

variable {a b c : Cut} {s : Finset NodeId}

def leafSet (c : Cut) : Finset NodeId := c.leaves.toFinset

/-- The LUT cut of a set of nodes. -/
def ofSet (s : Finset NodeId) : Cut := ofSorted (s.sort (· ≤ ·))

/-- The same, if the set is small enough. -/
def ofSet? (s : Finset NodeId) : Option Cut := if s.card ≤ maxSize then some (ofSet s) else none

theorem leafSet_ofSet (s : Finset NodeId) : (ofSet s).leafSet = s := Finset.sort_toFinset s _

theorem size_ofSet (s : Finset NodeId) : (ofSet s).size = s.card := Finset.length_sort _

theorem ofSet_toFinset {ls : List NodeId} (h : ls.Pairwise (· < ·)) :
    ofSet ls.toFinset = ofSorted ls := by
  rw [ofSet, (List.toFinset_sort (· ≤ ·) (h.imp fun h => ne_of_lt h)).2 (h.imp le_of_lt)]

/-- A LUT cut is its set of leaves. -/
theorem WellFormed.ofSet_leafSet (h : c.WellFormed) (hm : c.isMux = false) : ofSet c.leafSet = c := by
  rw [leafSet, ofSet_toFinset h.sorted, ofSorted, ← h.mask]
  have : c.muxDepth = 0 := by simpa [isMux] using hm
  rw [← this]

theorem leafSet_combine (h : a.combine b = some c) : c.leafSet = a.leafSet ∪ b.leafSet := by
  ext x
  simp only [leafSet, List.mem_toFinset, Finset.mem_union, mem_combine h]

/-- Two cuts have a union exactly if it is small enough. -/
theorem combine_eq (ha : a.WellFormed) (hb : b.WellFormed) :
    a.combine b = ofSet? (a.leafSet ∪ b.leafSet) := by
  have hunion : a.leafSet ∪ b.leafSet = (a.leaves ++ b.leaves).toFinset := List.toFinset_append.symm
  cases hc : a.combine b with
  | some c =>
    have hw := wellFormed_combine hc ha.toProper hb.toProper
    have hcard : c.leafSet.card ≤ maxSize := (List.toFinset_card_le _).trans hw.size
    rw [ofSet?, ← leafSet_combine hc, if_pos hcard, hw.ofSet_leafSet (not_isMux_combine hc)]
  | none =>
    rw [ofSet?, if_neg]
    intro hcard
    have hsub (c : Cut) (h : c.leafSet ⊆ a.leafSet ∪ b.leafSet) :
        c.leaves ⊆ (a.leafSet ∪ b.leafSet).sort (· ≤ ·) := fun x hx =>
      (Finset.mem_sort _).2 (h (List.mem_toFinset.2 hx))
    obtain ⟨c, hc'⟩ := combine_isSome_of_subset ha hb (hsub a Finset.subset_union_left)
      (hsub b Finset.subset_union_right) (by rw [Finset.length_sort]; exact hcard)
    rw [hc] at hc'
    cases hc'

theorem foldlM_combine (ids : List NodeId) {c : Cut} (hc : c.WellFormed) (hm : c.isMux = false) :
    ids.foldlM (fun (c : Cut) id => c.combine (trivial id)) c = ofSet? (c.leafSet ∪ ids.toFinset) := by
  induction ids generalizing c with
  | nil =>
    have hcard : c.leafSet.card ≤ maxSize := (List.toFinset_card_le _).trans hc.size
    simp [ofSet?, hcard, hc.ofSet_leafSet hm]
  | cons id ids ih =>
    have hid : (trivial id).leafSet = {id} := rfl
    have hunion : c.leafSet ∪ (id :: ids).toFinset = c.leafSet ∪ {id} ∪ ids.toFinset := by
      rw [List.toFinset_cons, Finset.insert_eq, Finset.union_assoc]
    rw [List.foldlM_cons, hunion]
    cases hu : c.combine (trivial id) with
    | some u =>
      have hw := wellFormed_combine hu hc.toProper (proper_trivial id)
      have hset := leafSet_combine hu
      rw [hid] at hset
      rw [← hset]
      exact ih hw (not_isMux_combine hu)
    | none =>
      -- too many already, and no leaf is dropped again
      rw [combine_eq hc (wellFormed_trivial id), hid, ofSet?, ite_eq_right_iff] at hu
      refine (if_neg fun hcard => ?_).symm
      have hle := (Finset.card_le_card Finset.subset_union_left).trans hcard
      cases hu hle

/-- Leaves make a cut exactly if they are few enough. -/
theorem ofLeaves_eq (ids : List NodeId) : ofLeaves ids = ofSet? ids.toFinset := by
  have hempty : empty.leafSet ∪ ids.toFinset = ids.toFinset := Finset.empty_union _
  rw [ofLeaves, foldlM_combine ids wellFormed_empty rfl, hempty]

theorem leafSet_subset : a.leafSet ⊆ b.leafSet ↔ a.leaves ⊆ b.leaves := by
  simp [leafSet, Finset.subset_iff, List.subset_def]

end TechMap.Cut
