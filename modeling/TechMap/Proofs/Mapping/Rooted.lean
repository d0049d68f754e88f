import Mathlib
import TechMap.Proofs.Mapping.Lists
import TechMap.Proofs.Network.Search

/-! What the leaves of a cut have to do with its gate. They are unions of the operands and their
leaves, so the gate depends on every one of them, in every list of a run and in every winner that is
retained. -/

namespace TechMap.Mapping

open Network

variable {α : Type} {m m' : Mapper α} {id : NodeId}

/-- Gates depend on all leaves of their cuts. -/
structure Rooted (m : Mapper α) : Prop where
  lists : ∀ id, ∀ c ∈ m.cutsOf id, ∀ l ∈ c.leaves, m.net.Reaches id l
  retained : ∀ id c, (m.retained[id]?).join = some c → ∀ l ∈ c.leaves, m.net.Reaches id l

theorem reaches_enumerate (h : Rooted m) :
    ∀ c ∈ m.enumerate id (m.net.node id), ∀ x ∈ c.leaves, m.net.Reaches id x := by
  intro c hc x hx
  rcases mem_leaves_enumerate hc with hc | hc
  · exact h.retained id c hc x hx
  · obtain ⟨l, hl, rfl | ⟨d, hd, hx⟩⟩ := hc x hx
    · exact .single ⟨l, hl, rfl⟩
    · exact .head ⟨l, hl, rfl⟩ (h.lists l.id d hd x hx)

theorem Rooted.congr (h : Rooted m) (hnet : m'.net = m.net)
    (hlists : ∀ id, ∀ c ∈ m'.cutsOf id, ∀ l ∈ c.leaves, m.net.Reaches id l)
    (hr : m'.retained = m.retained) : Rooted m' := by
  refine ⟨fun id => ?_, fun id c hc => ?_⟩ <;> rw [hnet]
  · exact hlists id
  · exact h.retained id c (hr ▸ hc)

theorem Rooted.rearranged (h : Rooted m) {cuts : List Cut} (hr : Rearranged cuts (m.cutsOf id)) :
    ∀ c ∈ cuts, ∀ l ∈ c.leaves, m.net.Reaches id l := by
  intro c hc l hl
  obtain ⟨d, hd, hs⟩ := hr.exists_of_mem hc
  exact h.lists id d hd l (hs.leaves ▸ hl)

theorem Covered.rooted (h : Covered m m') (hr : Rooted m) : Rooted m' :=
  hr.congr h.steady.net (fun id => hr.rearranged (h.lists id)) h.retained

variable [Quantity α]

theorem Generated.rooted (h : Valid m) (hl : m.net.isLive id = true) (hr : Rooted m)
    (hg : Generated m id m') : Rooted m' := by
  have hm := hg.visited h hl
  refine hr.congr hm.steady.net (fun i => ?_) hm.retained
  by_cases he : i = id
  · subst he
    rcases hg.cutsOf_self h hl with hnil | hlist | ⟨-, -, cuts, hs, hlist⟩
    · simp [hnil]
    · exact hr.rearranged hlist
    · intro c hc l hl
      obtain ⟨d, hd, hshape⟩ := hlist.exists_of_mem (hs.subset hc)
      exact reaches_enumerate hr d hd l (hshape.leaves ▸ hl)
  · rw [hm.others i he]
    exact hr.lists i

theorem generateAll_rooted (h : Valid m) (hr : Rooted m) : m.generateAll.Ensures Rooted := by
  refine (generateAll_keeps (I := fun _ m' => Rooted m') h hr
    fun id rest m' m'' _ hv hst hlive hI hg => ?_).mono fun m' hm => hm.2.2
  have hnet : m'.net = m.net := hst.net
  exact hg.rooted hv (hnet ▸ hlive) hI

theorem Handed.rooted (h : Handed m m') (hr : Rooted m) : Rooted m' := by
  rcases h.lists with ⟨-, hcuts, hret⟩ | ⟨hnil, hret⟩
  · refine hr.congr h.net (fun id => ?_) hret
    rw [Mapper.cutsOf, hcuts]
    exact hr.lists id
  · refine ⟨fun id => by simp [hnil], fun id c hc => ?_⟩
    rw [hret] at hc
    rw [h.net]
    split at hc
    · exact hr.lists id c (List.mem_of_mem_head? hc)
    · cases hc

theorem Fresh.rooted {p : Params α} (h : Fresh p m) : Rooted m :=
  ⟨fun id => by simp [h.lists], fun id c hc => by simp [h.seeds] at hc⟩

theorem Rooted.generateAll (h : Valid m) (hr : Rooted m) :
    (Mapper.generateAll { m with enumerated := 0 }).Ensures Rooted := by
  have h₀ : Valid { m with enumerated := 0 } := { h with }
  exact generateAll_rooted h₀ (hr.congr rfl hr.lists rfl)

/-- The lists and winners that a round starts from. -/
theorem Rounds.rooted [Topped α] {p : Params α} {w : Workspace α} {n : Nat}
    (hs : Started p w m) (hr : Rounds n m m') : Rooted m' :=
  hs.between.rounds_keep hs.fresh.rooted (fun _ _ _ _ _ hb hr hm₁ hcov hnext =>
    hnext.rooted (hcov.rooted ((hr.generateAll hb.valid).of_ok hm₁))) hr

end TechMap.Mapping
