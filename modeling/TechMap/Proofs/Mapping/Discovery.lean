import Mathlib
import TechMap.Mapping.Cover
import TechMap.Proofs.Mapping.Usage
import TechMap.Proofs.Mapping.Valid

/-! Discovery of the active nodes. Every active node is in the work list or what it uses is active,
and every active node but the sinks is used by one that has left the list. -/

namespace TechMap.Mapping

variable {α : Type}

/-- What node `id` uses under the present winners. -/
abbrev Mapper.uses (m : Mapper α) (id : NodeId) : List NodeId := usesOf m.net m.cuts id

/-- The active nodes are the sinks and what active nodes use. -/
structure Discovered (m : Mapper α) : Prop where
  sinks : ∀ id, (m.net.node id).isSink = true → m.isActive id = true
  live : ∀ id, m.isActive id = true → m.net.isLive id = true
  closed : ∀ id, m.isActive id = true → ∀ l ∈ m.uses id, m.isActive l = true
  used : ∀ id, m.isActive id = true →
    (m.net.node id).isSink = true ∨ ∃ u, m.isActive u = true ∧ id ∈ m.uses u

/-- The same while the list is worked off. What `open?` uses is still to be put in. -/
structure Discovering (m₀ : Mapper α) (open? : Option NodeId) (f : Mapper.Frontier α) : Prop where
  valid : Valid f.1
  steady : Steady m₀ f.1
  arrival : f.1.est.arrival = m₀.est.arrival
  retained : f.1.retained = m₀.retained
  lists : ∀ id, (f.1.cutsOf id).Perm (m₀.cutsOf id)
  listed : Listed f.1
  queued : ∀ k ∈ f.2.map (·.id), f.1.isActive k = true
  opened : ∀ id, open? = some id → f.1.isActive id = true ∧ id ∉ f.2.map (·.id)
  nodup : (f.2.map (·.id)).Nodup
  sinks : ∀ id, (f.1.net.node id).isSink = true → f.1.isActive id = true
  live : ∀ id, f.1.isActive id = true → f.1.net.isLive id = true
  closed : ∀ id, f.1.isActive id = true → id ∈ f.2.map (·.id) ∨ open? = some id ∨
    ∀ l ∈ f.1.uses id, f.1.isActive l = true
  used : ∀ id, f.1.isActive id = true → (f.1.net.node id).isSink = true ∨
    ∃ u, f.1.isActive u = true ∧ u ∉ f.2.map (·.id) ∧ open? ≠ some u ∧ id ∈ f.1.uses u

variable {m m₀ : Mapper α} {id : NodeId} {f f' : Mapper.Frontier α}

/-- What putting nodes into the list changes. -/
structure Enqueued (ids : List NodeId) (f f' : Mapper.Frontier α) : Prop where
  valid : Valid f.1 → Valid f'.1
  steady : Steady f.1 f'.1
  arrival : f'.1.est.arrival = f.1.est.arrival
  retained : f'.1.retained = f.1.retained
  cuts : f'.1.cuts = f.1.cuts
  active : ∀ v, f'.1.isActive v = true ↔ f.1.isActive v = true ∨ v ∈ ids
  queue : ∀ v, v ∈ f'.2.map (·.id) ↔ v ∈ f.2.map (·.id) ∨ v ∈ ids ∧ f.1.isActive v = false
  nodup : (∀ k ∈ f.2.map (·.id), f.1.isActive k = true) → (f.2.map (·.id)).Nodup →
    (f'.2.map (·.id)).Nodup

theorem Enqueued.trans {ids ids' : List NodeId} {f₁ f₂ f₃ : Mapper.Frontier α}
    (h : Enqueued ids f₁ f₂) (h' : Enqueued ids' f₂ f₃) : Enqueued (ids ++ ids') f₁ f₃ := by
  refine ⟨h'.valid ∘ h.valid, h.steady.trans h'.steady, h'.arrival.trans h.arrival,
    h'.retained.trans h.retained, h'.cuts.trans h.cuts, fun v => ?_, fun v => ?_,
    fun hq hn => h'.nodup (fun k hk => ?_) (h.nodup hq hn)⟩
  · rw [h'.active, h.active, List.mem_append, or_assoc]
  · rw [h'.queue, h.queue, List.mem_append]
    have := h.active v
    cases h1 : f₁.1.isActive v <;> cases h2 : f₂.1.isActive v <;> simp_all
  · rw [h.active]
    rcases (h.queue k).1 hk with hk | hk
    · exact .inl (hq k hk)
    · exact .inr hk.1

theorem enqueued_foldl {step : Mapper.Frontier α → NodeId → Mapper.Frontier α}
    (hstep : ∀ f id, id < f.1.usage.active.size → Enqueued [id] f (step f id))
    (hsize : ∀ f id, (step f id).1.usage.active.size = f.1.usage.active.size)
    (ids : List NodeId) (f : Mapper.Frontier α) (h : ∀ id ∈ ids, id < f.1.usage.active.size) :
    Enqueued ids f (ids.foldl step f) := by
  induction ids generalizing f with
  | nil => exact ⟨fun h => h, .refl _, rfl, rfl, rfl, by simp, by simp, fun _ h => h⟩
  | cons id rest ih =>
    refine (hstep f id (h id (by simp))).trans (ih _ fun i hi => ?_)
    rw [hsize]
    exact h i (List.mem_cons_of_mem _ hi)

/-- A node that has left the list does not come back. -/
theorem Enqueued.stays {ids : List NodeId} (he : Enqueued ids f f') {u : NodeId}
    (hu : f.1.isActive u = true) (hq : u ∉ f.2.map (·.id)) : u ∉ f'.2.map (·.id) := by
  rw [he.queue]
  rintro (hm | ⟨-, hm⟩)
  · exact hq hm
  · rw [hu] at hm; cases hm

/-- What the open node uses is active now. -/
theorem Discovering.close (h : Discovering m₀ (some id) f) (he : Enqueued (f.1.uses id) f f')
    (hl : ∀ l ∈ f.1.uses id, f.1.net.isLive l = true) : Discovering m₀ none f' := by
  have hnet : f'.1.net = f.1.net := he.steady.net
  have huses (v : NodeId) : f'.1.uses v = f.1.uses v := by
    rw [Mapper.uses, Mapper.uses, hnet, he.cuts]
  obtain ⟨hact, hnq⟩ := h.opened id rfl
  constructor
  case valid => exact he.valid h.valid
  case steady => exact h.steady.trans he.steady
  case arrival => exact he.arrival.trans h.arrival
  case retained => exact he.retained.trans h.retained
  case nodup => exact he.nodup h.queued h.nodup
  case opened => exact fun i hi => by cases hi
  case lists =>
    intro i
    rw [cutsOf_congr he.cuts]
    exact h.lists i
  case listed =>
    intro i hi
    rw [cutsOf_congr he.cuts]
    exact h.listed i (hnet ▸ hi)
  case queued =>
    intro k hk
    rw [he.active]
    rcases (he.queue k).1 hk with hk | hk
    · exact .inl (h.queued k hk)
    · exact .inr hk.1
  case sinks => exact fun i hi => (he.active i).2 (.inl (h.sinks i (hnet ▸ hi)))
  case live =>
    intro i hi
    rw [hnet]
    rcases (he.active i).1 hi with hi | hi
    · exact h.live i hi
    · exact hl i hi
  case closed =>
    intro i hi
    rw [huses]
    cases hold : f.1.isActive i with
    | true =>
      rcases h.closed i hold with hq | ho | hc
      · exact .inl ((he.queue i).2 (.inl hq))
      · obtain rfl : id = i := by simpa using ho
        exact .inr (.inr fun l hl => (he.active l).2 (.inr hl))
      · exact .inr (.inr fun l hl => (he.active l).2 (.inl (hc l hl)))
    | false =>
      rcases (he.active i).1 hi with hi | hi
      · rw [hold] at hi; cases hi
      · exact .inl ((he.queue i).2 (.inr ⟨hi, hold⟩))
  case used =>
    intro i hi
    rw [hnet]
    rcases (he.active i).1 hi with hi | hi
    · rcases h.used i hi with hs | ⟨u, hu, hq, -, hm⟩
      · exact .inl hs
      · exact .inr ⟨u, (he.active u).2 (.inl hu), he.stays hu hq, by simp, huses u ▸ hm⟩
    · exact .inr ⟨id, (he.active id).2 (.inl hact), he.stays hact hnq, by simp, huses id ▸ hi⟩

/-- The first node of the list is taken up. -/
theorem Discovering.pop {key : Priority α} {queue : List (Priority α)}
    (h : Discovering m₀ none (m, key :: queue)) : Discovering m₀ (some key.id) (m, queue) := by
  obtain ⟨hnot, hnodup⟩ := List.nodup_cons.1 h.nodup
  refine { h with queued := fun k hk => h.queued k (by simp [hk]), opened := fun i hi => ?_,
                  nodup := hnodup, closed := fun i hi => ?_, used := fun i hi => ?_ }
  · obtain rfl : key.id = i := by simpa using hi
    exact ⟨h.queued key.id (by simp), hnot⟩
  · rcases h.closed i hi with hm | hm | hm
    · rcases List.mem_cons.1 hm with rfl | hm
      · exact .inr (.inl rfl)
      · exact .inl hm
    · cases hm
    · exact .inr (.inr hm)
  · rcases h.used i hi with hs | ⟨u, hu, hq, -, hm⟩
    · exact .inl hs
    · simp only [List.map_cons, List.mem_cons, not_or] at hq
      exact .inr ⟨u, hu, hq.2, by simpa using Ne.symm hq.1, hm⟩

/-- The open node gets another winner. -/
theorem Discovering.setCuts {queue : List (Priority α)} (h : Discovering m₀ (some id) (m, queue))
    {cuts : List Cut} (hp : cuts.Perm (m.cutsOf id)) :
    Discovering m₀ (some id) (m.setCuts id cuts, queue) := by
  have hlt : id < m.cuts.size := h.valid.lt_size (h.live id (h.opened id rfl).1)
  have huses (v : NodeId) (hv : v ≠ id) : (m.setCuts id cuts).uses v = m.uses v := by
    have : (m.setCuts id cuts).cuts.getD v [] = m.cuts.getD v [] :=
      (cutsOf_setCuts m hlt cuts v).trans (if_neg hv)
    rw [Mapper.uses, usesOf, this]
    rfl
  refine { h with
    valid := h.valid.setCuts fun c hc => h.valid.stored id c (hp.mem_iff.1 hc)
    steady := h.steady.trans ⟨rfl, rfl, rfl, rfl, rfl, rfl⟩
    lists := fun i => ?_, listed := fun i hi => ?_, closed := fun i hi => ?_, used := fun i hi => ?_ }
  · show ((m.setCuts id cuts).cutsOf i).Perm _
    rw [cutsOf_setCuts m hlt]
    split
    · rename_i he
      subst he
      exact hp.trans (h.lists i)
    · exact h.lists i
  · rw [cutsOf_setCuts m hlt]
    split
    · rename_i he
      subst he
      intro hnil
      have := hp.symm
      rw [hnil] at this
      exact h.listed i hi this.eq_nil
    · exact h.listed i hi
  · by_cases he : i = id
    · exact .inr (.inl (by rw [he]))
    · show _ ∨ _ ∨ ∀ l ∈ (m.setCuts id cuts).uses i, _
      rw [huses i he]
      exact h.closed i hi
  · rcases h.used i hi with hs | ⟨u, hu, hq, ho, hm⟩
    · exact .inl hs
    · have he : u ≠ id := fun he => ho (by rw [he])
      refine .inr ⟨u, hu, hq, ho, ?_⟩
      show i ∈ (m.setCuts id cuts).uses u
      rw [huses u he]
      exact hm

theorem uses_of_isLogic {m : Mapper α} {winner : Cut} {rest : List Cut}
    (hid : (m.net.node id).isLogic = true) (h : m.cutsOf id = winner :: rest) :
    m.uses id = winner.leaves := by
  have h : m.cuts.getD id [] = winner :: rest := h
  simp [Mapper.uses, usesOf, hid, h]

theorem uses_of_winner? {m : Mapper α} {cut : Cut} (hid : (m.net.node id).isLogic = true)
    (hw : m.winner? id = some cut) : m.uses id = cut.leaves := by
  obtain ⟨rest, hcuts⟩ : ∃ rest, m.cutsOf id = cut :: rest := List.head?_eq_some_iff.1 hw
  exact uses_of_isLogic hid hcuts

theorem uses_of_not_isLogic {m : Mapper α} (hid : ¬ (m.net.node id).isLogic = true) :
    m.uses id = (m.net.node id).operands.map (·.id) := by
  simp [Mapper.uses, usesOf, hid]

theorem mem_uses {m : Mapper α} {u v : NodeId} (h : v ∈ m.uses u) :
    ((m.net.node u).isLogic = true ∧ ∃ w, m.winner? u = some w ∧ v ∈ w.leaves) ∨
      (m.net.node u).isLogic = false ∧ ∃ l ∈ (m.net.node u).operands, l.id = v := by
  unfold Mapper.uses usesOf at h
  split at h
  · rename_i hlogic
    cases hw : (m.cuts.getD u []).head? with
    | none => rw [hw] at h; cases h
    | some w =>
      rw [hw] at h
      exact .inl ⟨hlogic, w, hw, h⟩
  · rename_i hlogic
    exact .inr ⟨by simpa using hlogic, List.mem_map.1 h⟩

theorem live_uses (h : Valid m) (id : NodeId) : ∀ l ∈ m.uses id, m.net.isLive l = true := by
  intro l hl
  unfold Mapper.uses usesOf at hl
  split at hl
  · cases hw : (m.cuts.getD id []).head? with
    | none => rw [hw] at hl; cases hl
    | some w =>
      rw [hw] at hl
      exact (h.stored id w (List.mem_of_mem_head? hw)).live l hl
  · obtain ⟨o, ho, rfl⟩ := List.mem_map.1 hl
    exact h.canonical.live id o ho

variable [Quantity α]

theorem perm_insert (key : Priority α) (queue : List (Priority α)) :
    (key.insert queue).Perm (key :: queue) := by
  induction queue with
  | nil => exact .refl _
  | cons k rest ih =>
    unfold Priority.insert
    split
    · exact .refl _
    · exact (ih.cons k).trans (.swap key k rest)

theorem enqueued_enqueue (h : id < f.1.usage.active.size) :
    Enqueued [id] f (f.enqueue id) := by
  obtain ⟨m, queue⟩ := f
  have hget : m.usage.active[id]? = some (m.isActive id) := by
    simp [Mapper.isActive, Array.getD_eq_getD_getElem?, Array.getElem?_eq_getElem h]
  unfold Mapper.Frontier.enqueue
  dsimp only
  rw [hget]
  cases ha : m.isActive id with
  | true =>
    rw [if_neg (by simp)]
    refine ⟨fun h => h, .refl m, rfl, rfl, rfl, fun v => ?_, fun v => ?_, fun _ h => h⟩
    · refine ⟨.inl, fun hv => hv.elim (fun h => h) fun hv => ?_⟩
      rw [List.mem_singleton.1 hv]
      exact ha
    · refine ⟨.inl, fun hv => hv.elim (fun h => h) fun hv => ?_⟩
      rw [List.mem_singleton.1 hv.1, ha] at hv
      cases hv.2
  | false =>
    rw [if_pos rfl]
    have hperm (key : Priority α) : ((key.insert queue).map (·.id)).Perm
        (key.id :: queue.map (·.id)) := (perm_insert key queue).map _
    have hactive (v : NodeId) : (m.usage.active.setIfInBounds id true).getD v false = true ↔
        m.isActive v = true ∨ v ∈ [id] := by
      rw [getD_set _ h, List.mem_singleton]
      split <;> simp_all [Mapper.isActive]
    refine ⟨fun h => { h with active := (Array.size_setIfInBounds ..).trans h.active },
      ⟨rfl, rfl, rfl, rfl, rfl, rfl⟩, rfl, rfl, rfl, hactive, fun v => ?_, fun hq hn => ?_⟩
    · rw [(hperm _).mem_iff, List.mem_cons, List.mem_singleton]
      constructor
      · rintro (rfl | hv)
        · exact .inr ⟨rfl, ha⟩
        · exact .inl hv
      · rintro (hv | ⟨rfl, -⟩)
        · exact .inr hv
        · exact .inl rfl
    · rw [(hperm _).nodup_iff, List.nodup_cons]
      refine ⟨fun hm => ?_, hn⟩
      rw [hq id hm] at ha
      cases ha

theorem enqueued_enqueueLeaf (h : id < f.1.usage.active.size) :
    Enqueued [id] f (f.enqueueLeaf id) := by
  have he := enqueued_enqueue
    (f := ({ f.1 with est := { f.1.est with area := f.1.est.area.setIfInBounds id 0 } }, f.2)) h
  exact { he with valid := fun hv => he.valid { hv with }, steady := ⟨he.steady.params,
    he.steady.work, he.steady.round, he.steady.stats, he.steady.finished, he.steady.target⟩ }

theorem size_active_enqueue (f : Mapper.Frontier α) (id : NodeId) :
    (f.enqueue id).1.usage.active.size = f.1.usage.active.size := by
  unfold Mapper.Frontier.enqueue
  dsimp only
  split
  · simp
  · rfl

theorem size_active_enqueueLeaf (f : Mapper.Frontier α) (id : NodeId) :
    (f.enqueueLeaf id).1.usage.active.size = f.1.usage.active.size := size_active_enqueue _ id

omit [Quantity α] in
theorem size_active_foldl {step : Mapper.Frontier α → NodeId → Mapper.Frontier α}
    (h : ∀ f id, (step f id).1.usage.active.size = f.1.usage.active.size) (ids : List NodeId)
    (f : Mapper.Frontier α) : (ids.foldl step f).1.usage.active.size = f.1.usage.active.size := by
  induction ids generalizing f with
  | nil => rfl
  | cons id rest ih => rw [List.foldl_cons, ih, h]

theorem chooseWinner_ok (h : Valid m) (hne : m.cutsOf id ≠ []) : ∃ winner rest,
    m.chooseWinner id = .ok (m.setCuts id (winner :: rest), winner) ∧
      (winner :: rest).Perm (m.cutsOf id) := by
  obtain ⟨cuts, hs⟩ := reselect_isSome (m := m) fun c hc => h.canCost (h.stored id c hc)
  have hp := perm_reselect hs
  cases cuts with
  | nil => exact absurd hp.symm.eq_nil hne
  | cons winner rest => exact ⟨winner, rest, by rw [Mapper.chooseWinner, hs], hp⟩

theorem visit_ok {key : Priority α} {queue : List (Priority α)}
    (h : Discovering m₀ none (m, key :: queue)) :
    ∃ f, m.visit queue key.id = .ok f ∧ Discovering m₀ none f := by
  have hp := h.pop
  have hv := h.valid
  have hlive := hp.live key.id (hp.opened key.id rfl).1
  have hsize (m : Mapper α) (hv : Valid m) (id : NodeId) (hl : m.net.isLive id = true) :
      id < m.usage.active.size := hv.active ▸ Network.lt_size_of_isLive hl
  unfold Mapper.visit
  rw [Network.get?_eq_some (Network.lt_size_of_isLive hlive)]
  dsimp only
  by_cases hid : (m.net.node key.id).isLogic = true
  · obtain ⟨winner, rest, hc, hperm⟩ := chooseWinner_ok hv (h.listed key.id hid)
    have hd := hp.setCuts hperm
    have huses : (m.setCuts key.id (winner :: rest)).uses key.id = winner.leaves :=
      uses_of_isLogic hid ((cutsOf_setCuts m (hv.lt_size hlive) _ _).trans (if_pos rfl))
    have hin : (m.setCuts key.id (winner :: rest)).inRange winner = true :=
      hd.valid.inRange (hv.stored key.id winner (hperm.mem_iff.1 (by simp)))
    rw [if_pos hid, hc]
    dsimp only
    rw [if_pos hin]
    refine ⟨_, rfl, hd.close ?_ (live_uses hd.valid _)⟩
    rw [huses]
    refine enqueued_foldl (fun f id => enqueued_enqueueLeaf) (fun f id => size_active_enqueue _ _)
      _ _ fun l hl => ?_
    exact hsize _ hd.valid l (live_uses hd.valid key.id l (huses ▸ hl))
  · rw [if_neg hid]
    have huses := uses_of_not_isLogic hid
    split
    · rename_i hsource
      refine ⟨_, rfl, hp.close ?_ (live_uses hv _)⟩
      rw [huses, Node.operands_of_isSource hsource]
      exact ⟨fun h => h, .refl _, rfl, rfl, rfl, by simp, by simp, fun _ h => h⟩
    · rw [if_pos (by simpa using fun l hl => hv.lt_size (hv.canonical.live key.id l hl))]
      refine ⟨_, rfl, hp.close ?_ (live_uses hv _)⟩
      rw [huses]
      refine enqueued_foldl (fun f id => enqueued_enqueue) (fun f id => size_active_enqueue _ _)
        _ _ fun l hl => ?_
      exact hsize m hv l (live_uses hv key.id l (huses ▸ hl))

theorem drain_cons (m : Mapper α) (key : Priority α) (queue : List (Priority α)) :
    m.drain (key :: queue) = Except.bind (m.visit queue key.id) fun f => f.1.drain f.2 := by
  rw [Mapper.drain]
  split
  · rename_i e he
    exact (congrArg (Except.bind · fun f => f.1.drain f.2) he).symm
  · rename_i f hf
    exact (congrArg (Except.bind · fun f => f.1.drain f.2) hf).symm

/-- If every turn of the loop succeeds and keeps `I`, so does the loop. -/
theorem drain_ensures {I : Mapper.Frontier α → Prop}
    (hstep : ∀ m key queue, I (m, key :: queue) → ∃ f, m.visit queue key.id = .ok f ∧ I f)
    (m : Mapper α) (queue : List (Priority α)) (h : I (m, queue)) :
    (m.drain queue).Ensures fun m' => I (m', []) := by
  induction m, queue using Mapper.drain.induct with
  | case1 m =>
    rw [Mapper.drain]
    exact .ok h
  | case2 m key queue e he =>
    obtain ⟨f, hf, -⟩ := hstep m key queue h
    rw [he] at hf
    cases hf
  | case3 m key queue f hf _ ih =>
    obtain ⟨f', hf', hI⟩ := hstep m key queue h
    obtain rfl : f = f' := by simpa [hf] using hf'
    rw [drain_cons, hf]
    exact ih hI

theorem drain_ok (m : Mapper α) (queue : List (Priority α))
    (h : Discovering m₀ none (m, queue)) :
    (m.drain queue).Ensures fun m' => Discovering m₀ none (m', []) :=
  drain_ensures (fun _ _ _ h => visit_ok h) m queue h

/-- Where discovery starts: the sinks are active and wait, and nothing else does. -/
structure Launched (m : Mapper α) (f : Mapper.Frontier α) : Prop where
  valid : Valid m → Valid f.1
  steady : Steady m f.1
  arrival : f.1.est.arrival = m.est.arrival
  retained : f.1.retained = m.retained
  cuts : f.1.cuts = m.cuts
  table : f.1.usage.active.size = m.usage.active.size
  active : ∀ v, f.1.isActive v = true ↔ (m.net.node v).isSink = true
  queue : ∀ v, v ∈ f.2.map (·.id) ↔ (m.net.node v).isSink = true
  nodup : (f.2.map (·.id)).Nodup

theorem discoverActive_launched (horder : m.order = m.net.upOrder)
    (hsize : m.usage.active.size = m.net.size) :
    ∃ f, Launched m f ∧ m.discoverActive = f.1.drain f.2 := by
  have hrange : (m.order.all fun id => decide (id < m.net.size)) = true := by
    rw [List.all_eq_true, horder]
    exact fun id hid => by simpa using Network.lt_size_of_isLive (Network.mem_upOrder.1 hid)
  unfold Mapper.discoverActive
  rw [if_pos hrange]
  extract_lets _ usage sinks f
  have hnone (v : NodeId) : ¬ ({ m with usage := usage } : Mapper α).isActive v = true := by
    rw [Mapper.isActive, getD_replicate]
    exact Bool.false_ne_true
  have hmem (v : NodeId) : v ∈ sinks ↔ (m.net.node v).isSink = true := by
    simp only [sinks, horder, List.mem_filter, Network.mem_upOrder]
    exact ⟨fun h => h.2, fun h => ⟨Network.isLive_of_isSink h, h⟩⟩
  have he : Enqueued sinks ({ m with usage := usage }, []) f :=
    enqueued_foldl (fun f id => enqueued_enqueue) size_active_enqueue sinks _ fun v hv => by
      show v < (Array.replicate m.usage.active.size false).size
      rw [Array.size_replicate, hsize]
      exact Network.lt_size_of_isLive (Network.isLive_of_isSink ((hmem v).1 hv))
  refine ⟨f, ⟨fun h => he.valid { h with active := Array.size_replicate.trans h.active },
    ⟨he.steady.params, he.steady.work, he.steady.round, he.steady.stats, he.steady.finished,
      he.steady.target⟩, he.arrival, he.retained, he.cuts,
    (size_active_foldl size_active_enqueue _ _).trans Array.size_replicate, fun v => ?_, fun v => ?_,
    he.nodup (by simp) (by simp)⟩, rfl⟩
  · rw [he.active, or_iff_right (hnone v), hmem]
  · rw [he.queue, hmem]
    simp [hnone v]

/-- Discovery ends with the cover of the winners that it chose. -/
theorem discoverActive_ok (h : Valid m) (hl : Listed m) : m.discoverActive.Ensures fun m' =>
    Valid m' ∧ Steady m m' ∧ Listed m' ∧ Discovered m' ∧ (∀ id, (m'.cutsOf id).Perm (m.cutsOf id)) ∧
      m'.est.arrival = m.est.arrival ∧ m'.retained = m.retained := by
  obtain ⟨f, hf, hdrain⟩ := discoverActive_launched h.order h.active
  have hnet : f.1.net = m.net := hf.steady.net
  have hlist (v : NodeId) : f.1.cutsOf v = m.cutsOf v := cutsOf_congr hf.cuts v
  have hd : Discovering m none f := by
    refine ⟨hf.valid h, hf.steady, hf.arrival, hf.retained, fun i => ?_, fun i hi => ?_,
      fun k hk => (hf.active k).2 ((hf.queue k).1 hk), fun i hi => (by cases hi), hf.nodup,
      fun i hi => (hf.active i).2 (hnet ▸ hi), fun i hi => ?_,
      fun i hi => .inl ((hf.queue i).2 ((hf.active i).1 hi)),
      fun i hi => .inl (hnet ▸ (hf.active i).1 hi)⟩
    · rw [hlist]
    · rw [hlist]
      exact hl i (hnet ▸ hi)
    · rw [hnet]
      exact Network.isLive_of_isSink ((hf.active i).1 hi)
  rw [hdrain]
  refine (drain_ok _ _ hd).mono fun m' hm => ?_
  refine ⟨hm.valid, hm.steady, hm.listed, ⟨hm.sinks, hm.live, fun i hi => ?_, fun i hi => ?_⟩,
    hm.lists, hm.arrival, hm.retained⟩
  · rcases hm.closed i hi with hq | hq | hc
    · cases hq
    · cases hq
    · exact hc
  · rcases hm.used i hi with hs | ⟨u, hu, -, -, hm⟩
    · exact .inl hs
    · exact .inr ⟨u, hu, hm⟩

/-- What the work list leaves alone. -/
structure SameLists (m m' : Mapper α) : Prop where
  arrival : m'.est.arrival = m.est.arrival
  cuts : m'.cuts = m.cuts
  params : m'.params = m.params

omit [Quantity α] in
theorem sameLists_foldl {step : Mapper.Frontier α → NodeId → Mapper.Frontier α}
    (hstep : ∀ f id, SameLists f.1 (step f id).1) (ids : List NodeId) (f : Mapper.Frontier α) :
    SameLists f.1 (ids.foldl step f).1 := by
  induction ids generalizing f with
  | nil => exact ⟨rfl, rfl, rfl⟩
  | cons id rest ih =>
    have h := hstep f id
    have h' := ih (step f id)
    exact ⟨h'.arrival.trans h.arrival, h'.cuts.trans h.cuts, h'.params.trans h.params⟩

theorem sameLists_enqueue (f : Mapper.Frontier α) (id : NodeId) : SameLists f.1 (f.enqueue id).1 := by
  unfold Mapper.Frontier.enqueue
  split
  split <;> exact ⟨rfl, rfl, rfl⟩

theorem sameLists_enqueueLeaf (f : Mapper.Frontier α) (id : NodeId) :
    SameLists f.1 (f.enqueueLeaf id).1 := by
  have h := sameLists_enqueue
    (f := ({ f.1 with est := { f.1.est with area := f.1.est.area.setIfInBounds id 0 } }, f.2)) id
  exact ⟨h.arrival, h.cuts, h.params⟩

section Keeps

variable {P : Mapper α → Prop} {m' : Mapper α} {queue : List (Priority α)}

theorem visit_keeps (hsame : ∀ m m', SameLists m m' → P m → P m')
    (hchoose : ∀ m id r, P m → m.chooseWinner id = .ok r → P r.1) (h : P m)
    (hv : m.visit queue id = .ok f) : P f.1 := by
  unfold Mapper.visit at hv
  split at hv
  · cases hv
  split at hv
  · split at hv
    · cases hv
    rename_i r winner hc
    split at hv
    · cases hv
      exact hsame _ _ (sameLists_foldl sameLists_enqueueLeaf winner.leaves (r, queue))
        (hchoose _ _ _ h hc)
    · cases hv
  split at hv
  · cases hv
    exact h
  split at hv
  · cases hv
    exact hsame _ _ (sameLists_foldl sameLists_enqueue _ (m, queue)) h
  · cases hv

theorem drain_keeps (hsame : ∀ m m', SameLists m m' → P m → P m')
    (hchoose : ∀ m id r, P m → m.chooseWinner id = .ok r → P r.1) (h : P m)
    (hd : m.drain queue = .ok m') : P m' := by
  induction m, queue using Mapper.drain.induct with
  | case1 m =>
    rw [Mapper.drain] at hd
    cases hd
    exact h
  | case2 m key queue e he =>
    rw [drain_cons, he] at hd
    cases hd
  | case3 m key queue f hf _ ih =>
    rw [drain_cons, hf] at hd
    exact ih (visit_keeps hsame hchoose h hf) hd

/-- Discovery keeps what neither its work list nor the choice of a winner changes. -/
theorem discoverActive_keeps (hsame : ∀ m m', SameLists m m' → P m → P m')
    (hchoose : ∀ m id r, P m → m.chooseWinner id = .ok r → P r.1) (h : P m)
    (hd : m.discoverActive = .ok m') : P m' := by
  unfold Mapper.discoverActive at hd
  split at hd
  · extract_lets _ usage sinks f at hd
    have hs := sameLists_foldl sameLists_enqueue sinks ({ m with usage := usage }, [])
    exact drain_keeps hsame hchoose (hsame m _ ⟨hs.arrival, hs.cuts, hs.params⟩ h) hd
  · cases hd

end Keeps

end TechMap.Mapping
