import Mathlib
import TechMap.Proofs.Mapping.Discovery
import TechMap.Proofs.Network.Fanout

/-! The cover with exact counts. After departures are computed every gate is counted as often as the
active nodes use it, and a gate is active exactly if that is at least once. -/

namespace TechMap.Mapping

variable {α : Type}

/-- The counts are those of the cover, and the cover lacks nothing. -/
structure Consistent (m : Mapper α) : Prop where
  sinks : ∀ id, (m.net.node id).isSink = true → m.isActive id = true
  live : ∀ id, m.isActive id = true → m.net.isLive id = true
  counts : ∀ v, (m.net.node v).isLogic = true →
    m.usage.count v = demand m.net.size m.uses m.usage.active v
  used : ∀ v, (m.net.node v).isLogic = true → (m.isActive v = true ↔ 0 < m.usage.count v)
  through : ∀ v, m.isActive v = true → ∀ l ∈ m.uses v, (m.net.node l).isPassThrough = true →
    m.isActive l = true

variable {m : Mapper α} {id : NodeId}

/-- Everything that an active node uses is active, but for sources. -/
theorem Consistent.closed (h : Consistent m) (hv : Valid m) (hid : m.isActive id = true)
    {l : NodeId} (hl : l ∈ m.uses id) :
    m.isActive l = true ∨ (m.net.node l).isSource = true := by
  have hlive := live_uses hv id l hl
  rcases Node.kind_cases (hv.unmapped l) (by simpa [Network.isLive] using hlive) with hk | hk | hk | hk
  · exact .inr hk
  · refine .inl ((h.used l hk).2 ?_)
    rw [h.counts l hk]
    exact demand_pos (Network.lt_size_of_isLive (h.live id hid)) hid hl
  · exact .inl (h.through id hid l hl hk)
  · exact .inl (h.sinks l hk)

theorem Discovered.consistent (h : Discovered m) (hc : ∀ v, (m.net.node v).isLogic = true →
    m.usage.count v = demand m.net.size m.uses m.usage.active v) : Consistent m where
  sinks := h.sinks
  live := h.live
  counts := hc
  used v hv := by
    rw [hc v hv]
    constructor
    · intro ha
      rcases h.used v ha with hs | ⟨u, hu, hm⟩
      · rw [Node.not_isLogic_of_isSink hs] at hv
        cases hv
      · exact demand_pos (Network.lt_size_of_isLive (h.live u hu)) hu hm
    · intro hpos
      obtain ⟨u, -, hu, hm⟩ := exists_of_demand_pos hpos
      exact h.closed u hu v hm
  through v hv l hl _ := h.closed v hv l hl

theorem count_countUses (h : Valid m) (ids : List NodeId) {v : NodeId} (hv : v < m.net.size) :
    (m.countUses ids).usage.count v = m.usage.count v + ids.count v :=
  getD_foldl_modify ids m.usage.fanouts (by rwa [h.fanouts])

variable [Quantity α]

/-- The departures that node `id` passes on. -/
def departStep (m : Mapper α) (id : NodeId) (depart : Array α) : Array α :=
  let node := m.net.node id
  if node.isLogic then
    if m.isActive id then
      let cut := (m.winner? id).getD .empty
      cut.leaves.foldl
        (fun depart l => raise depart l (depart.getD id 0 + leafDelay node cut l)) depart
    else depart.setIfInBounds id Quantity.infinity
  else if !node.isSource && m.isActive id then
    (node.operands.map (·.id)).foldl
      (fun depart' o => raise depart' o (depart.getD id 0 + Mapper.edgeDelay node)) depart
  else depart

theorem departStep_gate {cut : Cut} (hid : (m.net.node id).isLogic = true)
    (ha : m.isActive id = true) (hw : m.winner? id = some cut) :
    departStep m id = fun depart => cut.leaves.foldl
      (fun depart l => raise depart l (depart.getD id 0 + leafDelay (m.net.node id) cut l))
      depart := by
  funext depart
  unfold departStep
  rw [if_pos hid, if_pos ha, hw]
  rfl

theorem departStep_idle (hid : (m.net.node id).isLogic = true) (ha : m.isActive id = false) :
    departStep m id = fun depart => depart.setIfInBounds id Quantity.infinity := by
  funext depart
  unfold departStep
  rw [if_pos hid, ha, if_neg (by simp)]

theorem departStep_node (hid : ¬ (m.net.node id).isLogic = true)
    (hs : ¬ (m.net.node id).isSource = true) (ha : m.isActive id = true) :
    departStep m id = fun depart => ((m.net.node id).operands.map (·.id)).foldl
      (fun depart' o => raise depart' o (depart.getD id 0 + Mapper.edgeDelay (m.net.node id)))
      depart := by
  funext depart
  unfold departStep
  rw [if_neg hid, if_pos (by simp [hs, ha])]

theorem departStep_rest (hid : ¬ (m.net.node id).isLogic = true)
    (h : (m.net.node id).isSource = true ∨ m.isActive id = false) :
    departStep m id = fun depart => depart := by
  funext depart
  unfold departStep
  rw [if_neg hid, if_neg (by rcases h with h | h <;> simp [h])]

theorem size_raise (depart : Array α) (id : NodeId) (d : α) :
    (raise depart id d).size = depart.size := by
  unfold raise
  split
  · exact Array.size_setIfInBounds ..
  · rfl

theorem size_foldl_raise (f : Array α → NodeId → α) (ids : List NodeId) (depart : Array α) :
    (ids.foldl (fun depart l => raise depart l (f depart l)) depart).size = depart.size := by
  induction ids generalizing depart with
  | nil => rfl
  | cons id ids ih => rw [List.foldl_cons, ih, size_raise]

theorem size_departStep (m : Mapper α) (id : NodeId) (depart : Array α) :
    (departStep m id depart).size = depart.size := by
  unfold departStep
  extract_lets node
  split
  · split
    · exact size_foldl_raise _ _ _
    · exact Array.size_setIfInBounds ..
  · split
    · exact size_foldl_raise (fun _ _ => _) _ _
    · rfl

theorem propagate_eq (h : Valid m) (hl : Listed m) (hlive : m.net.isLive id = true)
    (count : Bool) : m.propagate count id =
      .ok ((if count && m.isActive id then m.countUses (m.uses id) else m).mapDepart
        (departStep m id)) := by
  unfold Mapper.propagate
  rw [Network.get?_eq_some (Network.lt_size_of_isLive hlive)]
  dsimp only
  by_cases hid : (m.net.node id).isLogic = true
  · rw [if_pos hid]
    cases ha : m.isActive id with
    | true =>
      cases hw : m.cutsOf id with
      | nil => exact absurd hw (hl id hid)
      | cons winner rest =>
        have hwin : m.winner? id = some winner := by rw [Mapper.winner?, hw]; rfl
        rw [if_pos rfl, Mapper.propagateGate, hwin]
        dsimp only
        rw [if_pos (h.inRange (h.stored id winner (by simp [hw]))), uses_of_isLogic hid hw,
          Bool.and_true, departStep_gate hid ha hwin]
    | false => simp [departStep_idle hid ha]
  · rw [if_neg hid, uses_of_not_isLogic hid]
    by_cases hs : (m.net.node id).isSource = true
    · rw [departStep_rest hid (.inl hs), Node.operands_of_isSource hs, hs]
      cases count <;> cases m.isActive id <;> rfl
    · cases ha : m.isActive id with
      | true =>
        rw [departStep_node hid hs ha, Bool.and_true, if_pos (by simpa using hs),
          Mapper.propagateNode]
        dsimp only
        rw [if_pos (by simpa using fun l hl => h.lt_size (h.canonical.live id l hl))]
        cases count <;> rfl
      | false =>
        rw [departStep_rest hid (.inr ha)]
        simp
        rfl

/-- What departures and counts leave as it is. -/
structure Framed (m m' : Mapper α) : Prop where
  valid : Valid m'
  steady : Steady m m'
  cuts : m'.cuts = m.cuts
  retained : m'.retained = m.retained
  arrival : m'.est.arrival = m.est.arrival
  active : m'.usage.active = m.usage.active

namespace Framed

variable {m' m'' : Mapper α}

omit [Quantity α] in
theorem trans (h : Framed m m') (h' : Framed m' m'') : Framed m m'' where
  valid := h'.valid
  steady := h.steady.trans h'.steady
  cuts := h'.cuts.trans h.cuts
  retained := h'.retained.trans h.retained
  arrival := h'.arrival.trans h.arrival
  active := h'.active.trans h.active

omit [Quantity α] in
theorem net (h : Framed m m') : m'.net = m.net := h.steady.net

omit [Quantity α] in
theorem isActive (h : Framed m m') (i : NodeId) : m'.isActive i = m.isActive i := by
  rw [Mapper.isActive, h.active]
  rfl

omit [Quantity α] in
theorem cutsOf (h : Framed m m') (i : NodeId) : m'.cutsOf i = m.cutsOf i :=
  cutsOf_congr h.cuts i

omit [Quantity α] in
theorem uses (h : Framed m m') (i : NodeId) : m'.uses i = m.uses i := by
  rw [Mapper.uses, Mapper.uses, h.net, h.cuts]

omit [Quantity α] in
theorem listed (h : Framed m m') (hl : Listed m) : Listed m' := fun i hi => by
  rw [h.cutsOf]
  exact hl i (h.net ▸ hi)

omit [Quantity α] in
theorem live (h : Framed m m') (hd : Discovered m) (i : NodeId) (hi : m'.isActive i = true) :
    m'.net.isLive i = true := by
  rw [h.net]
  exact hd.live i (h.isActive i ▸ hi)

omit [Quantity α] in
theorem discovered (h : Framed m m') (hd : Discovered m) : Discovered m' := by
  refine ⟨fun i hi => ?_, h.live hd, fun i hi l hl => ?_, fun i hi => ?_⟩
  · rw [h.isActive]
    exact hd.sinks i (h.net ▸ hi)
  · rw [h.isActive]
    exact hd.closed i (h.isActive i ▸ hi) l (h.uses i ▸ hl)
  · rw [h.net]
    simp only [h.isActive, h.uses]
    exact hd.used i (h.isActive i ▸ hi)

end Framed

/-- What a visit that counts uses changes. -/
structure Counted (m : Mapper α) (id : NodeId) (m' : Mapper α) : Prop extends Framed m m' where
  depart : m'.est.depart = departStep m id m.est.depart
  count : ∀ v < m.net.size, m'.usage.count v =
    m.usage.count v + if m.isActive id then (m.uses id).count v else 0

theorem propagate_counted (h : Valid m) (hl : Listed m) (hlive : m.net.isLive id = true) :
    (m.propagate true id).Ensures (Counted m id) := by
  rw [propagate_eq h hl hlive, Bool.true_and]
  refine .ok ?_
  have hdepart := (size_departStep m id _).trans h.depart
  split
  · rename_i ha
    refine ⟨⟨{ h with depart := hdepart, fanouts := (size_foldl_modify _ _).trans h.fanouts },
      ⟨rfl, rfl, rfl, rfl, rfl, rfl⟩, rfl, rfl, rfl, rfl⟩, rfl, fun v hv => ?_⟩
    rw [if_pos ha]
    exact count_countUses h _ hv
  · rename_i ha
    refine ⟨⟨{ h with depart := hdepart }, ⟨rfl, rfl, rfl, rfl, rfl, rfl⟩, rfl, rfl, rfl, rfl⟩, rfl,
      fun v hv => ?_⟩
    rw [if_neg ha]
    rfl

/-- The uses of the nodes that were visited. -/
def visitedUses (m : Mapper α) (rest : List NodeId) (u : NodeId) : List NodeId :=
  if u ∈ rest then [] else m.uses u

omit [Quantity α] in
theorem demand_visitedUses {rest : List NodeId} (hid : id < m.net.size) (hnot : id ∉ rest)
    (v : NodeId) :
    demand m.net.size (visitedUses m rest) m.usage.active v =
      demand m.net.size (visitedUses m (id :: rest)) m.usage.active v +
        if m.isActive id then (m.uses id).count v else 0 := by
  have hupdate : visitedUses m (id :: rest) = Function.update (visitedUses m rest) id [] := by
    funext u
    by_cases he : u = id
    · simp [he, visitedUses]
    · simp [he, visitedUses]
  rw [hupdate]
  split
  · rename_i ha
    rw [demand_except _ hid ha, visitedUses, if_neg hnot]
  · rename_i ha
    refine (demand_congr (fun u _ => rfl) fun u _ hu => ?_).symm
    have hne : u ≠ id := by
      rintro rfl
      exact ha hu
    rw [Function.update_of_ne hne]

/-- What every visit of the first pass keeps, the pass keeps. -/
theorem computeDepartures_keeps {I : List NodeId → Mapper α → Prop} (h : Valid m) (hl : Listed m)
    (h0 : ∀ m₁, Framed m m₁ → m₁.est = m.clearDepart.est → (∀ v, m₁.usage.count v = 0) →
      I m.net.upOrder.reverse m₁)
    (hstep : ∀ id rest m' m'', id :: rest <:+ m.net.upOrder.reverse → Framed m m' →
      I (id :: rest) m' → Counted m' id m'' → I rest m'') :
    m.computeDepartures.Ensures fun m' => Framed m m' ∧ I [] m' := by
  unfold Mapper.computeDepartures
  extract_lets _ m₁
  rw [h.order]
  have hframed : Framed m m₁.clearDepart :=
    ⟨{ h with depart := Array.size_replicate.trans h.depart
              fanouts := Array.size_replicate.trans h.fanouts },
      ⟨rfl, rfl, rfl, rfl, rfl, rfl⟩, rfl, rfl, rfl, rfl⟩
  have hzero (v : NodeId) : m₁.clearDepart.usage.count v = 0 := getD_replicate _ 0 v
  refine Step.Ensures.visitAll (I := fun rest m' => Framed m m' ∧ I rest m')
    ⟨hframed, h0 _ hframed rfl hzero⟩ fun id rest m' hsuf hm' => ?_
  obtain ⟨hf, hI⟩ := hm'
  have hid : m'.net.isLive id = true := by
    rw [hf.net, ← Network.mem_upOrder, ← List.mem_reverse]
    exact hsuf.subset (by simp)
  exact (propagate_counted hf.valid (hf.listed hl) hid).mono fun m'' hm =>
    ⟨hf.trans hm.toFramed, hstep id rest m' m'' hsuf hf hI hm⟩

/-- With departures come exact counts. -/
theorem computeDepartures_ok (h : Valid m) (hl : Listed m) (hd : Discovered m) :
    m.computeDepartures.Ensures fun m' => Valid m' ∧ Steady m m' ∧ Listed m' ∧ Consistent m' ∧
      m'.cuts = m.cuts ∧ m'.retained = m.retained ∧ m'.est.arrival = m.est.arrival := by
  refine (computeDepartures_keeps (I := fun rest m' => ∀ v < m.net.size,
    m'.usage.count v = demand m.net.size (visitedUses m rest) m.usage.active v) h hl
    (fun m₁ _ _ hzero v _ => ?_)
    fun id rest m' m'' hsuf hf hI hm v hv => ?_).mono fun m' ⟨hf, hI⟩ => ?_
  · rw [hzero]
    by_contra hne
    obtain ⟨u, -, hu, hm⟩ := exists_of_demand_pos (Nat.pos_of_ne_zero (Ne.symm hne))
    rw [visitedUses, if_pos (List.mem_reverse.2 (Network.mem_upOrder.2 (hd.live u hu)))] at hm
    cases hm
  · have hid : id ∈ m.net.upOrder := List.mem_reverse.1 (hsuf.subset (by simp))
    rw [hm.count v (hf.net ▸ hv), hI v hv, hf.uses, hf.isActive, demand_visitedUses
      (Network.lt_size_of_isLive (Network.mem_upOrder.1 hid)) (Network.not_mem_of_suffix hsuf)]
  · refine ⟨hf.valid, hf.steady, hf.listed hl, (hf.discovered hd).consistent fun v hlogic => ?_,
      hf.cuts, hf.retained, hf.arrival⟩
    have hsame : visitedUses m [] = m'.uses := by
      funext u
      rw [hf.uses, visitedUses, if_neg (by simp)]
    have hlt := Network.lt_size_of_isLive (Network.isLive_of_isLogic (hf.net ▸ hlogic))
    rw [hI v hlt, hf.net, hf.active, hsame]

end TechMap.Mapping
