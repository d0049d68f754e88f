import Mathlib
import TechMap.Proofs.Mapping.OrderedArena
import TechMap.Proofs.Mapping.Run

/-! Discovery finds the least cover, whatever the lists and the estimates are. While it runs the
active nodes are those that the sinks reach through nodes that have left the work list. Only such
nodes have had their last winner chosen, so what a node uses does not change once it counts. -/

namespace TechMap.Mapping

open Network

variable {α : Type}

/-- The least set with all sinks, the leaves of its gates' winners and the operands of its
pass-throughs and sinks. -/
inductive InCover (net : Network) (winner? : NodeId → Option Cut) : NodeId → Prop
  | sink {id : NodeId} (h : (net.node id).isSink = true) : InCover net winner? id
  | leaf {u id : NodeId} {winner : Cut} (hu : InCover net winner? u)
    (hkind : (net.node u).isLogic = true) (hw : winner? u = some winner)
    (h : id ∈ winner.leaves) : InCover net winner? id
  | operand {u : NodeId} {l : Lit} (hu : InCover net winner? u)
    (hkind : (net.node u).isPassThrough = true ∨ (net.node u).isSink = true)
    (h : l ∈ (net.node u).operands) : InCover net winner? l.id

/-- A mapper with the network and the tables of a start, and with any lists of cuts whose leaves
come before their gate. -/
structure Stocked (m₀ m : Mapper α) : Prop where
  net : m.net = m₀.net
  order : m.order = m₀.order
  cuts : m.cuts.size = m₀.cuts.size
  active : m.usage.active.size = m₀.usage.active.size
  listed : ∀ id, (m.net.node id).isLogic = true → m.cutsOf id ≠ []
  below : ∀ id, (m.net.node id).isLogic = true → ∀ c ∈ m.cutsOf id, ∀ l ∈ c.leaves, l < id

/-- The sinks, and what a reached node outside the work list uses. -/
inductive Reached (f : Mapper.Frontier α) : NodeId → Prop
  | sink {id : NodeId} (h : (f.1.net.node id).isSink = true) : Reached f id
  | used {u id : NodeId} (hu : Reached f u) (hq : u ∉ f.2.map (·.id)) (h : id ∈ f.1.uses u) :
    Reached f id

/-- Discovery on its way from `m`. -/
structure Spreading (m : Mapper α) (f : Mapper.Frontier α) : Prop where
  net : f.1.net = m.net
  params : f.1.params = m.params
  cuts : f.1.cuts.size = m.cuts.size
  table : f.1.usage.active.size = m.usage.active.size
  promoted : ∀ id, ∃ i, f.1.cutsOf id = Cut.promote (m.cutsOf id) i
  /-- Lists change when their node leaves the work list. -/
  fresh : ∀ id, (f.1.isActive id = true → id ∈ f.2.map (·.id)) → f.1.cutsOf id = m.cutsOf id
  kept : m.params.reselect = false → f.1.cuts = m.cuts
  queued : ∀ v ∈ f.2.map (·.id), f.1.isActive v = true
  nodup : (f.2.map (·.id)).Nodup
  active : ∀ id, f.1.isActive id = true ↔ Reached f id

/-- What the choice of a winner changes. -/
structure Rechosen (id : NodeId) (m m' : Mapper α) : Prop where
  work : m'.work = m.work
  params : m'.params = m.params
  usage : m'.usage = m.usage
  cuts : m'.cuts.size = m.cuts.size
  promoted : ∃ i, m'.cutsOf id = Cut.promote (m.cutsOf id) i
  others : ∀ v, v ≠ id → m'.cutsOf v = m.cutsOf v
  kept : m.params.reselect = false → m'.cuts = m.cuts

variable {m m' m₀ : Mapper α} {id : NodeId} {key : Priority α} {queue : List (Priority α)}
  {f f' : Mapper.Frontier α}

theorem Rechosen.refl (m : Mapper α) (id : NodeId) : Rechosen id m m :=
  ⟨rfl, rfl, rfl, rfl, ⟨0, (Cut.promote_zero _).symm⟩, fun _ _ => rfl, fun _ => rfl⟩

/-- What a turn of the loop does that takes node `id` out of the list. -/
structure Advanced (id : NodeId) (f f' : Mapper.Frontier α) : Prop where
  net : f'.1.net = f.1.net
  opened : f.1.isActive id = true
  others : ∀ v, v ≠ id → f'.1.uses v = f.1.uses v
  active : ∀ v, f'.1.isActive v = true ↔ f.1.isActive v = true ∨ v ∈ f'.1.uses id
  queue : ∀ v, v ∈ f'.2.map (·.id) ↔
    v ≠ id ∧ v ∈ f.2.map (·.id) ∨ v ∈ f'.1.uses id ∧ f.1.isActive v = false

namespace Advanced

variable {v : NodeId}

/-- An active node that is out of the list does not come back. -/
theorem out (h : Advanced id f f') (hv : f.1.isActive v = true)
    (hq : v ≠ id → v ∉ f.2.map (·.id)) : v ∉ f'.2.map (·.id) := by
  rw [h.queue]
  rintro (⟨hne, hm⟩ | ⟨-, hm⟩)
  · exact hq hne hm
  · rw [hv] at hm
    cases hm

/-- What was reached is still reached. -/
theorem mono (h : Advanced id f f') (hid : id ∈ f.2.map (·.id))
    (hactive : ∀ v, Reached f v → f.1.isActive v = true) (hv : Reached f v) : Reached f' v := by
  induction hv with
  | sink hs => exact .sink (h.net ▸ hs)
  | @used u v hu hq hm ih =>
    have hne : u ≠ id := fun he => hq (he ▸ hid)
    exact .used ih (h.out (hactive u hu) fun _ => hq) (h.others u hne ▸ hm)

/-- If the active nodes were those that are reached, they are so after the turn. -/
theorem active_iff_reached (h : Advanced id f f') (hid : id ∈ f.2.map (·.id))
    (hf : ∀ v, f.1.isActive v = true ↔ Reached f v) :
    f'.1.isActive v = true ↔ Reached f' v := by
  have hmono (v : NodeId) : Reached f v → Reached f' v := h.mono hid fun v => (hf v).2
  constructor
  · rw [h.active]
    rintro (hv | hv)
    · exact hmono v ((hf v).1 hv)
    · exact .used (hmono id ((hf id).1 h.opened)) (h.out h.opened fun hne => absurd rfl hne) hv
  · intro hv
    induction hv with
    | sink hs => exact (h.active _).2 (.inl ((hf _).2 (.sink (h.net ▸ hs))))
    | @used u v _ hq hm ih =>
      rw [h.active]
      by_cases hne : u = id
      · exact .inr (hne ▸ hm)
      · -- a node that was just put in is still in the list
        have hu : f.1.isActive u = true := by
          refine ((h.active u).1 ih).elim (fun hu => hu) fun hu => ?_
          by_contra hin
          exact hq ((h.queue u).2 (.inr ⟨hu, by simpa using hin⟩))
        have hq' : u ∉ f.2.map (·.id) := fun hm => hq ((h.queue u).2 (.inl ⟨hne, hm⟩))
        exact .inl ((hf v).2 (.used ((hf u).1 hu) hq' (h.others u hne ▸ hm)))

end Advanced

theorem Rechosen.isActive (hc : Rechosen id m m') (v : NodeId) : m'.isActive v = m.isActive v := by
  rw [Mapper.isActive, hc.usage]
  rfl

theorem Rechosen.advanced (hc : Rechosen key.id m m')
    (he : Enqueued (m'.uses key.id) (m', queue) f') (hkey : m.isActive key.id = true)
    (hnot : key.id ∉ queue.map (·.id)) : Advanced key.id (m, key :: queue) f' := by
  have hnet : f'.1.net = m'.net := he.steady.net
  have hnet' : m'.net = m.net := congrArg Workspace.net hc.work
  have huses (v : NodeId) : f'.1.uses v = m'.uses v := by
    rw [Mapper.uses, Mapper.uses, hnet, he.cuts]
  refine ⟨hnet.trans hnet', hkey, fun v hv => ?_, fun v => ?_, fun v => ?_⟩
  · have hcuts : m'.cuts.getD v [] = m.cuts.getD v [] := hc.others v hv
    rw [huses, Mapper.uses, usesOf, hcuts, hnet']
    rfl
  · rw [he.active, hc.isActive, huses]
  · have hrest : v ∈ queue.map (·.id) ↔ v ≠ key.id ∧ v ∈ (key :: queue).map (·.id) := by
      rw [List.map_cons, List.mem_cons]
      constructor
      · intro hv
        exact ⟨fun hk => hnot (hk ▸ hv), .inr hv⟩
      · rintro ⟨hne, hv⟩
        exact hv.resolve_left hne
    rw [he.queue, hc.isActive, huses, hrest]

/-- One turn of the loop. The node that leaves the list keeps its winner from here on. -/
theorem Spreading.turn (h : Spreading m (m₀, key :: queue)) (hc : Rechosen key.id m₀ m')
    (he : Enqueued (m'.uses key.id) (m', queue) f')
    (hsize : f'.1.usage.active.size = m'.usage.active.size) : Spreading m f' := by
  obtain ⟨hnot, hnodup⟩ := List.nodup_cons.1 h.nodup
  have hqueued (v : NodeId) (hv : v ∈ queue.map (·.id)) : m₀.isActive v = true :=
    h.queued v (List.mem_cons_of_mem _ hv)
  have hlist (v : NodeId) : f'.1.cutsOf v = m'.cutsOf v := cutsOf_congr he.cuts v
  have hadv : Advanced key.id (m₀, key :: queue) f' :=
    hc.advanced he (h.queued key.id (by simp)) hnot
  refine ⟨hadv.net.trans h.net, he.steady.params.trans (hc.params.trans h.params),
    (congrArg Array.size he.cuts).trans (hc.cuts.trans h.cuts),
    hsize.trans ((congrArg (·.active.size) hc.usage).trans h.table), fun v => ?_, fun v hv => ?_,
    fun hr => he.cuts.trans ((hc.kept (h.params ▸ hr)).trans (h.kept hr)), fun v hv => ?_,
    he.nodup (fun v hv => (hc.isActive v).trans (hqueued v hv)) hnodup,
    fun v => hadv.active_iff_reached (by simp) h.active⟩
  · rw [hlist]
    by_cases hk : v = key.id
    · rw [hk, ← h.fresh key.id fun _ => by simp]
      exact hc.promoted
    · rw [hc.others v hk]
      exact h.promoted v
  · have hk : v ≠ key.id := by
      rintro rfl
      exact hadv.out hadv.opened (fun hne => absurd rfl hne) (hv ((hadv.active _).2 (.inl hadv.opened)))
    rw [hlist, hc.others v hk]
    refine h.fresh v fun hact => ?_
    by_contra hq
    exact hadv.out hact (fun _ => hq) (hv ((hadv.active v).2 (.inl hact)))
  · rw [he.active, hc.isActive]
    exact ((he.queue v).1 hv).imp (hqueued v) And.left

theorem Reached.inCover (hun : ∀ id, (m.net.node id).isMapped = false)
    (h : Reached (m, []) id) : InCover m.net m.winner? id := by
  induction h with
  | sink h => exact .sink h
  | @used u v _ _ h ih =>
    rcases mem_uses h with ⟨hlogic, w, hw, hleaf⟩ | ⟨hlogic, l, hl, rfl⟩
    · exact .leaf ih hlogic hw hleaf
    · refine .operand ih ?_ hl
      have hun := hun u
      cases hn : m.net.node u <;> simp_all [Node.operands, Node.isLogic, Node.isMapped,
        Node.isPassThrough, Node.isSink]

theorem InCover.reached (h : InCover m.net m.winner? id) : Reached (m, []) id := by
  induction h with
  | sink h => exact .sink h
  | @leaf u v w _ hlogic hw h ih =>
    refine .used ih (by simp) ?_
    show v ∈ m.uses u
    rw [uses_of_winner? hlogic hw]
    exact h
  | @operand u l _ hkind h ih =>
    refine .used ih (by simp) ?_
    have hlogic : ¬ (m.net.node u).isLogic = true := by
      rcases hkind with hk | hk
      · simp [Node.not_isLogic_of_isPassThrough hk]
      · simp [Node.not_isLogic_of_isSink hk]
    show l.id ∈ m.uses u
    rw [uses_of_not_isLogic hlogic]
    exact List.mem_map_of_mem h

theorem reached_nil_iff (hun : ∀ id, (m.net.node id).isMapped = false) :
    Reached (m, []) id ↔ InCover m.net m.winner? id := ⟨Reached.inCover hun, InCover.reached⟩

variable [Quantity α]

/-- A gate has a winner when it leaves the list. -/
theorem chooseWinner_below (hlt : id < m.cuts.size) (hne : m.cutsOf id ≠ [])
    (hbelow : ∀ c ∈ m.cutsOf id, ∀ l ∈ c.leaves, l < id) : ∃ m' winner,
    m.chooseWinner id = .ok (m', winner) ∧ m'.inRange winner = true ∧ Rechosen id m m' ∧
      m'.winner? id = some winner ∧ ∀ l ∈ winner.leaves, l < id := by
  have hin (c : Cut) (hc : c ∈ m.cutsOf id) : m.inRange c = true := by
    simp only [Mapper.inRange, List.all_eq_true, decide_eq_true_eq]
    exact fun l hl => (hbelow c hc l hl).trans hlt
  have hcost (c : Cut) (hc : c ∈ m.cutsOf id) : m.canCost id c = true := by
    simp only [Mapper.canCost, hin c hc, Bool.true_and, Bool.or_eq_true, decide_eq_true_eq]
    exact .inr hlt
  obtain ⟨cuts, hs⟩ := reselect_isSome hcost
  have hp := perm_reselect hs
  obtain ⟨⟨i, hi⟩, hkept⟩ := reselect_promote hs
  cases cuts with
  | nil => exact absurd hp.symm.eq_nil hne
  | cons winner rest =>
    have hset := cutsOf_setCuts m hlt (winner :: rest)
    have hmem := hp.mem_iff.1 (List.mem_cons_self (a := winner) (l := rest))
    refine ⟨m.setCuts id (winner :: rest), winner, by rw [Mapper.chooseWinner, hs], ?_, ?_, ?_,
      hbelow winner hmem⟩
    · rw [Mapper.inRange, show (m.setCuts id (winner :: rest)).size = m.size from
        Array.size_setIfInBounds ..]
      exact hin winner hmem
    · refine ⟨rfl, rfl, rfl, Array.size_setIfInBounds .., ⟨i, ?_⟩, fun v hv => ?_, fun hoff => ?_⟩
      · rw [hset, if_pos rfl, hi]
      · rw [hset, if_neg hv]
      · rw [hkept hoff]
        exact set_getD m.cuts id []
    · rw [Mapper.winner?, hset, if_pos rfl]
      rfl

/-- A node that leaves the list is visited without an error. -/
theorem Spreading.visit_ok (hv : Valid m₀) (hm : Stocked m₀ m)
    (h : Spreading m (m', key :: queue)) :
    ∃ f, m'.visit queue key.id = .ok f ∧ Spreading m f := by
  have hnet : m'.net = m₀.net := h.net.trans hm.net
  have hcuts : m'.cuts.size = m₀.net.size := (h.cuts.trans hm.cuts).trans hv.cuts
  have hactive : m'.usage.active.size = m₀.net.size := (h.table.trans hm.active).trans hv.active
  have hlt : key.id < m₀.net.size := by
    have hk : m'.isActive key.id = true := h.queued key.id (by simp)
    by_contra hge
    rw [Mapper.isActive, Array.getD_eq_getD_getElem?,
      Array.getElem?_eq_none (hactive.le.trans (Nat.not_lt.1 hge))] at hk
    cases hk
  unfold Mapper.visit
  rw [get?_eq_some (hnet ▸ hlt)]
  dsimp only
  by_cases hlogic : (m'.net.node key.id).isLogic = true
  · have hlogic₀ : (m.net.node key.id).isLogic = true := h.net ▸ hlogic
    have hlist : m'.cutsOf key.id = m.cutsOf key.id := h.fresh key.id fun _ => by simp
    obtain ⟨m₁, winner, hc, hin, hre, hw, hbelow⟩ := chooseWinner_below (m := m')
      (hlt.trans_eq hcuts.symm) (hlist ▸ hm.listed key.id hlogic₀) (hlist ▸ hm.below key.id hlogic₀)
    have huses : m₁.uses key.id = winner.leaves := by
      refine uses_of_winner? ?_ hw
      rwa [show m₁.net = m'.net from congrArg Workspace.net hre.work]
    rw [if_pos hlogic, hc]
    dsimp only
    rw [if_pos hin]
    refine ⟨_, rfl, h.turn hre ?_ (size_active_foldl size_active_enqueueLeaf _ _)⟩
    rw [huses]
    refine enqueued_foldl (fun f id => enqueued_enqueueLeaf) size_active_enqueueLeaf _ _ fun l hl => ?_
    show l < m₁.usage.active.size
    rw [hre.usage]
    exact (hbelow l hl).trans (hlt.trans_eq hactive.symm)
  · rw [if_neg hlogic]
    have huses := uses_of_not_isLogic hlogic
    split
    · rename_i hsource
      refine ⟨_, rfl, h.turn (.refl m' key.id) ?_ rfl⟩
      rw [huses, Node.operands_of_isSource hsource]
      exact ⟨fun h => h, .refl _, rfl, rfl, rfl, by simp, by simp, fun _ h => h⟩
    · have hbelow (l : Lit) (hl : l ∈ (m'.net.node key.id).operands) : l.id < key.id :=
        hv.canonical.lt key.id l (hnet ▸ hl)
      rw [if_pos (by
        simpa [Mapper.size, hcuts] using fun l hl => (hbelow l hl).trans hlt)]
      refine ⟨_, rfl, h.turn (.refl m' key.id) ?_
        (size_active_foldl size_active_enqueue _ _)⟩
      rw [huses]
      refine enqueued_foldl (fun f id => enqueued_enqueue) size_active_enqueue _ _ fun v hv => ?_
      obtain ⟨l, hl, rfl⟩ := List.mem_map.1 hv
      exact (hbelow l hl).trans (hlt.trans_eq hactive.symm)

theorem Spreading.drain_ok (hv : Valid m₀) (hm : Stocked m₀ m) (h : Spreading m (m', queue)) :
    (m'.drain queue).Ensures fun m'' => Spreading m (m'', []) :=
  drain_ensures (fun _ _ _ h => h.visit_ok hv hm) m' queue h

theorem Stocked.spreading (hv : Valid m₀) (hm : Stocked m₀ m) :
    m.discoverActive.Ensures fun m' => Spreading m (m', []) := by
  obtain ⟨f, hf, hdrain⟩ := discoverActive_launched (hm.order.trans (hm.net ▸ hv.order))
    (hm.active.trans (hm.net ▸ hv.active))
  have hnet : f.1.net = m.net := hf.steady.net
  have hlist (v : NodeId) : f.1.cutsOf v = m.cutsOf v := cutsOf_congr hf.cuts v
  -- no node has left the list, so the sinks are all that is reached
  have hreached (v : NodeId) : Reached f v ↔ (m.net.node v).isSink = true := by
    constructor
    · intro h
      induction h with
      | sink hs => exact hnet ▸ hs
      | used _ hq _ ih => exact absurd ((hf.queue _).2 ih) hq
    · exact fun hs => .sink (hnet ▸ hs)
  rw [hdrain]
  refine Spreading.drain_ok hv hm ⟨hnet, hf.steady.params, congrArg Array.size hf.cuts, hf.table,
    fun v => ⟨0, (hlist v).trans (Cut.promote_zero _).symm⟩, fun v _ => hlist v, fun _ => hf.cuts,
    fun v hv => (hf.active v).2 ((hf.queue v).1 hv), hf.nodup,
    fun v => (hf.active v).trans (hreached v).symm⟩

/-- Discovery ends without an error and with an empty work list, whatever ordered map the work list
is. The active nodes are then the least cover of the winners, and each list has at most its first
cut and one other in each other's place. -/
theorem discovery_least (A : OrderedArena Single) (s : A.Store) {p : Params Single}
    {w : Workspace Single} {m₀ m : Mapper Single} (hstart : Mapper.start p w = .ok m₀)
    (hm : Stocked m₀ m) : ∃ m' s',
      m.discoverActive = .ok m' ∧
      (∀ r, A.Discovers m s r ↔ r = .ok (m', s')) ∧ A.entries s' = 0 ∧
      (∀ id, m'.isActive id = true ↔ InCover m.net m'.winner? id) ∧
      (∀ id, ∃ i, m'.cutsOf id = Cut.promote (m.cutsOf id) i) ∧
      (m.params.reselect = false → m'.cuts = m.cuts) := by
  have hv := (Started.of_start hstart).fresh.valid
  obtain ⟨m', hd, hs⟩ := hm.spreading hv
  obtain ⟨s', hdiscovers, hempty⟩ := OrderedArena.discovers_of_ok s hd
  have hnet : m'.net = m.net := hs.net
  have hun (id : NodeId) : (m'.net.node id).isMapped = false := by
    rw [hnet, hm.net]
    exact hv.unmapped id
  refine ⟨m', s', hd, hdiscovers, hempty, fun id => ?_, hs.promoted, hs.kept⟩
  rw [← hnet]
  exact (hs.active id).trans (reached_nil_iff hun)

/-- One gate whose estimates are NaN. Input 1 is a leaf of whichever cut wins. -/
theorem discovery_least_conjunction : ∃ m₀ m : Mapper Single,
    Mapper.start .standard ⟨conjunction, none, #[]⟩ = .ok m₀ ∧ Stocked m₀ m ∧ ∃ m' s',
      m.discoverActive = .ok m' ∧
      (∀ r, OrderedArena.sorted.Discovers m ⟨[], .nil⟩ r ↔ r = .ok (m', s')) ∧
      m'.isActive 1 = true := by
  obtain ⟨m₀, -, hstart, -, hnet⟩ := rounds_conjunction (n := 0) (by decide)
  have hv := (Started.of_start hstart).fresh.valid
  let cuts : List Cut := [.ofSorted [1, 2], .ofSorted [0, 1]]
  let unknown : Array Single := Array.replicate 5 ⟨0x7fc00000⟩
  let m : Mapper Single := { m₀ with
    params := { m₀.params with reselect := true }
    cuts := #[[], [], [], cuts, []]
    est := ⟨unknown, unknown, unknown, unknown⟩ }
  have hnet : m.net = conjunction := hnet
  have hgate (id : NodeId) (h : (m.net.node id).isLogic = true) : id = 3 := by
    have hall : ∀ id < 5, (conjunction.node id).isLogic = true → id = 3 := by decide
    rw [hnet] at h
    exact hall id (lt_size_of_isLive (isLive_of_isLogic h)) h
  have hm : Stocked m₀ m := by
    refine ⟨rfl, rfl, ?_, rfl, fun id h => ?_, fun id h => ?_⟩
    · rw [hv.cuts, show m₀.net = conjunction from hnet]
      rfl
    · rw [hgate id h]
      exact List.cons_ne_nil _ _
    · rw [hgate id h]
      show ∀ c ∈ cuts, ∀ l ∈ c.leaves, l < 3
      decide
  obtain ⟨m', s', hd, hr, -, hactive, hlists, -⟩ :=
    discovery_least .sorted ⟨[], .nil⟩ hstart hm
  refine ⟨m₀, m, hstart, hm, m', s', hd, hr, (hactive 1).2 ?_⟩
  rw [hnet]
  have hout : InCover conjunction m'.winner? 4 := .sink rfl
  have hand : InCover conjunction m'.winner? 3 := .operand (l := .ofNode 3) hout (.inr rfl) (by decide)
  obtain ⟨i, hi⟩ := hlists 3
  have hperm : (m'.cutsOf 3).Perm cuts := hi ▸ Cut.perm_promote cuts i
  cases hw : m'.cutsOf 3 with
  | nil =>
    rw [hw] at hperm
    exact absurd hperm.symm.eq_nil (List.cons_ne_nil _ _)
  | cons winner rest =>
    have hmem : winner ∈ cuts := hperm.mem_iff.1 (hw ▸ List.mem_cons_self)
    have hleaf : ∀ c ∈ cuts, 1 ∈ c.leaves := by decide
    exact .leaf hand rfl (by rw [Mapper.winner?, hw]; rfl) (hleaf winner hmem)

end TechMap.Mapping
