import Mathlib
import TechMap.Extraction
import TechMap.Proofs.Network.Valuation
import TechMap.Proofs.Table.Composition

/-! What a table found by extraction is: it gives the word of its node from the words of the leaves
and depends on no more variables than there are leaves. A memo is sound if all that it records is
such, and clearing it leaves nothing. -/

namespace TechMap

namespace Network

/-- Every walk down from the node through operands that matter ends at a leaf or the constant. -/
inductive Covered (net : Network) (leaves : List NodeId) : NodeId → Prop
  | constant : Covered net leaves NodeId.constant
  | leaf {id : NodeId} (h : id ∈ leaves) : Covered net leaves id
  | gate {id : NodeId} {operands : List Lit} (hs : (net.node id).support? = some operands)
    (h : ∀ l ∈ operands, Covered net leaves l.id) : Covered net leaves id

theorem Covered.mono {net : Network} {leaves leaves' : List NodeId} {id : NodeId}
    (h : net.Covered leaves id) (hsub : ∀ x ∈ leaves, x ∈ leaves') : net.Covered leaves' id := by
  induction h with
  | constant => exact .constant
  | leaf h => exact .leaf (hsub _ h)
  | gate hs _ ih => exact .gate hs ih

/-- The words obey the equations that extraction uses. -/
structure Respects (net : Network) (v : NodeId → UInt64) : Prop where
  constant : v NodeId.constant = Table.ones
  gate : ∀ id, (net.node id).isLogic = true → v id = (net.node id).eval (readLit v)

theorem IsValuation.respects {net : Network} {source v : NodeId → UInt64}
    (h : net.IsValuation source v) (h0 : net.node NodeId.constant = .const) : net.Respects v where
  constant := by
    have hlt : NodeId.constant < net.size :=
      lt_size_of_isLive (by simp [isLive, h0, Node.isRemoved])
    rw [h _ hlt, wordOf, h0]
    rfl
  gate id hid := by
    rw [h id (lt_size_of_isLive (isLive_of_isLogic hid)), wordOf]
    rw [if_neg (by cases hn : net.node id <;> simp_all [Node.isLogic, Node.isInput])]

/-- The table gives the node's word from those of the leaves. -/
structure Computes (net : Network) (cut : Cut) (id : NodeId) (t : UInt64) : Prop where
  word : ∀ v, net.Respects v → v id = Table.lookup t (cut.leaves.map v)
  support : ∀ i, Table.Depends t i → i < cut.leaves.length

end Network

namespace Memo

open Network

variable {net : Network} {cut : Cut} {memo memo' : Memo} {id : NodeId}

/-- What is recorded is right. -/
def Sound (net : Network) (cut : Cut) (memo : Memo) : Prop :=
  ∀ (id : NodeId) t, (memo.tables[id]?).join = some t → net.Computes cut id t

/-- What is recorded is known to be touched. -/
def Tracked (memo : Memo) : Prop :=
  ∀ (id : NodeId) t, (memo.tables[id]?).join = some t → id ∈ memo.touched

/-- Nothing is recorded. -/
structure Clean (memo : Memo) : Prop where
  tables : ∀ id : NodeId, (memo.tables[id]?).join = none
  touched : memo.touched = []

theorem clean_ofSize (n : Nat) : (ofSize n).Clean where
  tables id := by
    simp only [ofSize, Array.getElem?_replicate]
    split <;> rfl
  touched := rfl

theorem Clean.resize (h : memo.Clean) (n : Nat) : (memo.resize n).Clean where
  tables id := by
    have := h.tables id
    simp only [Memo.resize, Array.getElem?_append, Array.getElem?_replicate]
    split
    · exact this
    · split <;> rfl
  touched := h.touched

theorem size_resize (memo : Memo) (n : Nat) : n ≤ (memo.resize n).tables.size := by
  simp [Memo.resize]
  omega

theorem getElem?_foldl_clear (ids : List NodeId) (tables : Array (Option UInt64)) (id : NodeId) :
    ((ids.foldl (fun tables id => tables.setIfInBounds id none) tables)[id]?).join =
      if id ∈ ids then none else (tables[id]?).join := by
  induction ids generalizing tables with
  | nil => simp
  | cons i ids ih =>
    rw [List.foldl_cons, ih, Array.getElem?_setIfInBounds]
    by_cases hm : id ∈ ids
    · simp [hm]
    · by_cases hi : i = id
      · subst hi; simp only [List.mem_cons, true_or, if_true, hm, if_false]; split <;> rfl
      · simp [hm, hi, Ne.symm hi]

theorem Tracked.clear (h : memo.Tracked) : memo.clear.Clean where
  tables id := by
    unfold Memo.clear
    rw [getElem?_foldl_clear]
    split
    · rfl
    · rename_i hm
      cases ht : (memo.tables[id]?).join with
      | none => rfl
      | some t => exact absurd (h id t ht) hm
  touched := rfl

theorem known_record_self (h : id < memo.tables.size) (t : UInt64) :
    (memo.record id t).isKnown cut id = true := by
  unfold isKnown known
  split
  · rfl
  · split
    · rfl
    · simp [record, h]

theorem known_record_of_ne {i : NodeId} (h : i ≠ id) (t : UInt64) :
    (memo.record id t).known cut i = memo.known cut i := by
  unfold known
  simp [record, Array.getElem?_setIfInBounds_ne (Ne.symm h)]

theorem isKnown_record {i : NodeId} (h : memo.isKnown cut i = true) (t : UInt64) :
    (memo.record id t).isKnown cut i = true := by
  by_cases hi : i = id
  · subst hi
    unfold isKnown known at h ⊢
    split
    · rfl
    · split
      · rfl
      · simp_all only [if_false]
        cases ht : memo.tables[i]? with
        | none => simp [ht] at h
        | some t' =>
          have := (Array.getElem?_eq_some_iff.1 ht).1
          simp [record, this]
  · unfold isKnown at h ⊢
    rwa [known_record_of_ne hi]

theorem join_record (i : NodeId) (t s : UInt64)
    (h : ((memo.record id t).tables[i]?).join = some s) :
    (i = id ∧ s = t) ∨ (memo.tables[i]?).join = some s := by
  simp only [record, Array.getElem?_setIfInBounds] at h
  split at h
  · rename_i he
    split at h
    · exact .inl ⟨he.symm, by simpa using h.symm⟩
    · simp at h
  · exact .inr h

theorem Sound.record {t : UInt64} (h : memo.Sound net cut) (ht : net.Computes cut id t) :
    (memo.record id t).Sound net cut := by
  intro i s hs
  rcases join_record i t s hs with ⟨rfl, rfl⟩ | hs
  · exact ht
  · exact h i s hs

theorem Tracked.record {t : UInt64} (h : memo.Tracked) : (memo.record id t).Tracked := by
  intro i s hs
  rcases join_record i t s hs with ⟨rfl, rfl⟩ | hs
  · exact List.mem_cons_self
  · exact List.mem_cons_of_mem _ (h i s hs)

theorem Clean.sound (h : memo.Clean) : memo.Sound net cut := by
  intro id t ht
  rw [h.tables id] at ht
  cases ht

theorem Clean.tracked (h : memo.Clean) : memo.Tracked := by
  intro id t ht
  rw [h.tables id] at ht
  cases ht

theorem computes_of_known (h : memo.Sound net cut) (h6 : cut.leaves.length ≤ 6) {t : UInt64}
    (ht : memo.known cut id = some t) : net.Computes cut id t := by
  unfold known at ht
  split at ht
  · rename_i h0
    obtain rfl : Table.ones = t := by simpa using ht
    refine ⟨fun v hv => ?_, fun i hi => absurd hi (Table.not_depends_ones i)⟩
    rw [h0, hv.constant, Table.lookup_ones (by simpa using h6)]
  · split at ht
    · rename_i i hi
      obtain rfl : Table.proj i = t := by simpa using ht
      obtain ⟨hlt, hget, -⟩ := List.idxOf?_eq_some_iff.1 hi
      refine ⟨fun v _ => ?_, fun j hj => ?_⟩
      · rw [Table.lookup_proj (by simpa using h6) (by simpa using hlt), List.getElem_map]
        congr 1
        exact hget.symm
      · rw [Table.depends_proj hj (by omega)]
        exact hlt
    · exact h id t ht

theorem knownLit_ok {l : Lit} {t : UInt64} (h : memo.knownLit cut l = .ok t) :
    ∃ s, memo.known cut l.id = some s ∧ t = l.apply s := by
  unfold knownLit at h
  split at h
  · rename_i s hs
    exact ⟨s, hs, by simpa using h.symm⟩
  · cases h

theorem knownLit_of_isKnown {l : Lit} (h : memo.isKnown cut l.id = true) :
    ∃ t, memo.knownLit cut l = .ok t := by
  unfold isKnown at h
  obtain ⟨s, hs⟩ := Option.isSome_iff_exists.1 h
  exact ⟨l.apply s, by unfold knownLit; rw [hs]⟩

theorem isKnown_of_mem (h : id ∈ cut.leaves) : memo.isKnown cut id = true := by
  unfold isKnown known
  split
  · rfl
  · cases hi : cut.leaves.idxOf? id with
    | none => exact absurd h (List.idxOf?_eq_none_iff.1 hi)
    | some i => rfl

end Memo

end TechMap
