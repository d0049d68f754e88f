import Mathlib
import TechMap.Proofs.Mapping.Arrivals
import TechMap.Proofs.Mapping.Counts
import TechMap.Proofs.Mapping.Lists

/-! The departures of a cover are its longest path times. Both passes go from sinks to sources, so
whatever uses a node is final when the node is visited, and no later visit changes it. -/

namespace TechMap.Mapping

open Clock

variable {α : Type} [Quantity α] {m m' : Mapper α} {id u v : NodeId} {depart : Array α}

/-- The delay from an active node to one that it uses. -/
def useDelay (m : Mapper α) (u v : NodeId) : α :=
  if (m.net.node u).isLogic then leafDelay (m.net.node u) ((m.winner? u).getD .empty) v
  else Mapper.edgeDelay (m.net.node u)

/-- The active nodes that use `v`. -/
def users (m : Mapper α) (v : NodeId) : List NodeId :=
  m.net.ids.filter fun u => m.isActive u && (m.uses u).contains v

section Steps

/-- The later of two departures. -/
def later (x d : α) : α := if Quantity.lt x d then d else x

theorem later_later (x d : α) : later (later x d) d = later x d := by
  unfold later
  split_ifs <;> rfl

theorem getD_raise (h : id < depart.size) (d : α) (v : NodeId) : (raise depart id d).getD v 0 =
    if v = id then later (depart.getD id 0) d else depart.getD v 0 := by
  unfold raise later
  by_cases hlt : Quantity.lt (depart.getD id 0) d = true
  · rw [if_pos hlt, if_pos hlt, getD_set _ h]
  · rw [if_neg hlt, if_neg hlt]
    by_cases he : v = id
    · subst he
      rw [if_pos rfl]
    · rw [if_neg he]

theorem getD_foldl_raise {ids : List NodeId} (f : NodeId → α) (h : ∀ l ∈ ids, l < depart.size)
    (v : NodeId) : (ids.foldl (fun depart l => raise depart l (f l)) depart).getD v 0 =
      if v ∈ ids then later (depart.getD v 0) (f v) else depart.getD v 0 := by
  induction ids generalizing depart with
  | nil => simp
  | cons l ids ih =>
    have hl : l < depart.size := h l (by simp)
    rw [List.foldl_cons, ih fun i hi => by
      rw [size_raise]
      exact h i (List.mem_cons_of_mem _ hi), getD_raise hl]
    by_cases he : v = l
    · subst he
      rw [if_pos rfl, later_later, if_pos List.mem_cons_self, ite_self]
    · rw [if_neg he]
      exact if_congr (by simp [he]) rfl rfl

/-- The departure that is passed on is not one of those that change. -/
theorem foldl_raise_congr {ids : List NodeId} (f : NodeId → α) (hid : id ∉ ids)
    (h : ∀ l ∈ ids, l < depart.size) :
    ids.foldl (fun depart l => raise depart l (depart.getD id 0 + f l)) depart =
      ids.foldl (fun depart' l => raise depart' l (depart.getD id 0 + f l)) depart := by
  generalize hx : depart.getD id 0 = x
  induction ids generalizing depart with
  | nil => rfl
  | cons l ids ih =>
    obtain ⟨hne, hid⟩ := not_or.1 (fun hm => hid (List.mem_cons.2 hm))
    have hl : l < depart.size := h l (by simp)
    rw [List.foldl_cons, List.foldl_cons, hx]
    refine ih hid (fun i hi => ?_) ?_
    · rw [size_raise]
      exact h i (List.mem_cons_of_mem _ hi)
    · rw [getD_raise hl, if_neg hne, hx]

omit [Quantity α] in
/-- What a node uses is an operand of some node. -/
theorem exists_operand_of_mem_uses (h : Valid m) (hv : v ∈ m.uses u) :
    ∃ i, ∃ l ∈ (m.net.node i).operands, l.id = v := by
  rcases mem_uses hv with ⟨-, w, hw, hl⟩ | ⟨-, l, hl, rfl⟩
  · exact (h.stored u w (List.mem_of_mem_head? hw)).referenced v hl
  · exact ⟨u, l, hl, rfl⟩

omit [Quantity α] in
theorem lt_of_mem_uses (h : Valid m) {l : NodeId} (hl : l ∈ m.uses id) : l < id := by
  rcases mem_uses hl with ⟨-, w, hw, hl⟩ | ⟨-, o, ho, rfl⟩
  · exact (h.stored id w (List.mem_of_mem_head? hw)).lt l hl
  · exact h.canonical.lt id o ho

theorem useDelay_winner {w : Cut} (hu : (m.net.node u).isLogic = true) (hw : m.winner? u = some w) :
    useDelay m u v = leafDelay (m.net.node u) w v := by
  rw [useDelay, if_pos hu, hw]
  rfl

/-- A LUT takes a level from each leaf. -/
theorem useDelay_lut {w : Cut} (hu : (m.net.node u).isLogic = true) (hw : m.winner? u = some w)
    (hlut : w.isMux = false) (v : NodeId) : useDelay m u v = 1 := by
  simp [useDelay_winner hu hw, leafDelay, hlut]

theorem getD_departStep (h : Valid m) (hl : Listed m) (ha : m.isActive id = true)
    (hsize : depart.size = m.net.size) (v : NodeId) : (departStep m id depart).getD v 0 =
      if v ∈ m.uses id then later (depart.getD v 0) (depart.getD id 0 + useDelay m id v)
      else depart.getD v 0 := by
  have hlt : ∀ l ∈ m.uses id, l < depart.size := fun l hm =>
    hsize ▸ Network.lt_size_of_isLive (live_uses h id l hm)
  have hself : id ∉ m.uses id := fun hm => lt_irrefl id (lt_of_mem_uses h hm)
  by_cases hid : (m.net.node id).isLogic = true
  · obtain ⟨w, rest, hw, hwin⟩ := hl.exists_winner hid
    have hdelay : useDelay m id = leafDelay (m.net.node id) w :=
      funext fun v => useDelay_winner hid hwin
    rw [uses_of_isLogic hid hw] at hlt hself ⊢
    rw [departStep_gate hid ha hwin, hdelay]
    dsimp only
    rw [foldl_raise_congr _ hself hlt, getD_foldl_raise _ hlt]
  · have hdelay : useDelay m id = fun _ => Mapper.edgeDelay (m.net.node id) := by
      funext v
      rw [useDelay, if_neg hid]
    rw [uses_of_not_isLogic hid] at hlt hself ⊢
    by_cases hs : (m.net.node id).isSource = true
    · rw [departStep_rest hid (.inl hs), Node.operands_of_isSource hs]
      rfl
    · rw [departStep_node hid hs ha, hdelay]
      exact getD_foldl_raise (fun _ => _) hlt v

theorem getD_departStep_idle (ha : m.isActive id = false)
    (hv : v ≠ id ∨ (m.net.node v).isLogic = false) :
    (departStep m id depart).getD v 0 = depart.getD v 0 := by
  by_cases hid : (m.net.node id).isLogic = true
  · have hne : v ≠ id := by
      rcases hv with hv | hv
      · exact hv
      · rintro rfl
        rw [hid] at hv
        cases hv
    rw [departStep_idle hid ha]
    exact getD_setIfInBounds_ne hne _ _
  · rw [departStep_rest hid (.inr ha)]

theorem isDelay_useDelay (m : Mapper α) (u v : NodeId) : IsDelay (useDelay m u v) := by
  unfold useDelay
  split
  · unfold leafDelay
    split
    · split
      · exact .none
      · exact .level
    · exact .level
  · exact isDelay_edgeDelay _

end Steps

variable [Clock α]

theorem later_time {x d : α} (hx : IsTime x) (hd : IsTime d) : IsTime (later x d) ∧
    key x ≤ key (later x d) ∧ key d ≤ key (later x d) ∧ (later x d = x ∨ later x d = d) := by
  unfold later
  rw [lt_eq hx hd]
  by_cases h : key x < key d
  · simp [h, h.le, hd]
  · simp [h, not_lt.1 h, hx]

/-- Node `u` uses `v` and is not among those that are still to be visited. -/
def Asks (m : Mapper α) (rest : List NodeId) (u v : NodeId) : Prop :=
  u ∉ rest ∧ m.isActive u = true ∧ v ∈ m.uses u

omit [Quantity α] [Clock α] in
theorem asks_cons {rest : List NodeId} (hid : id ∉ rest) :
    Asks m rest u v ↔ Asks m (id :: rest) u v ∨ u = id ∧ m.isActive id = true ∧ v ∈ m.uses id := by
  unfold Asks
  by_cases he : u = id
  · simp [he, hid]
  · simp [he]

/-- The departure of `v` is the latest that the visited nodes ask for. -/
structure Latest (m : Mapper α) (rest : List NodeId) (v : NodeId) : Prop where
  time : IsTime (m.est.departAt v)
  le : ∀ u, Asks m rest u v →
    key (m.est.departAt u + useDelay m u v) ≤ key (m.est.departAt v)
  attained : m.est.departAt v = 0 ∨
    ∃ u, Asks m rest u v ∧ m.est.departAt v = m.est.departAt u + useDelay m u v

/-- Only gates that were passed while inactive have no departure. -/
def Departing (m : Mapper α) (rest : List NodeId) : Prop :=
  ∀ v, v ∈ rest ∨ (m.net.node v).isLogic = false ∨ m.isActive v = true → Latest m rest v

omit [Clock α] in
theorem useDelay_congr (hnet : m'.net = m.net) (hcuts : m'.cutsOf u = m.cutsOf u) :
    useDelay m' u = useDelay m u := by
  funext v
  rw [useDelay, useDelay, hnet, Mapper.winner?, Mapper.winner?, hcuts]

/-- The visited nodes use the same nodes as before and depart at the same time. -/
structure SameUsers (m m' : Mapper α) (rest : List NodeId) : Prop where
  net : m'.net = m.net
  active : ∀ u, u ∉ rest → m'.isActive u = m.isActive u
  lists : ∀ u, u ∉ rest → m'.cutsOf u = m.cutsOf u
  depart : ∀ u, u ∉ rest → m.isActive u = true → m'.est.departAt u = m.est.departAt u

omit [Clock α] in
theorem SameUsers.asks {rest : List NodeId} (h : SameUsers m m' rest) :
    Asks m' rest u v ↔ Asks m rest u v := by
  refine and_congr_right fun hu => ?_
  have hlist : m'.cuts.getD u [] = m.cuts.getD u [] := h.lists u hu
  rw [h.active u hu, Mapper.uses, usesOf, h.net, hlist]
  rfl

omit [Clock α] in
theorem SameUsers.demand {rest : List NodeId} (h : SameUsers m m' rest) (hu : Asks m rest u v) :
    m'.est.departAt u + useDelay m' u v = m.est.departAt u + useDelay m u v := by
  rw [h.depart u hu.1 hu.2.1, useDelay_congr h.net (h.lists u hu.1)]

theorem Latest.congr {rest : List NodeId} (h : Latest m rest v) (hs : SameUsers m m' rest)
    (hv : m'.est.departAt v = m.est.departAt v) : Latest m' rest v := by
  refine ⟨hv ▸ h.time, fun u hu => ?_, ?_⟩
  · rw [hv, hs.demand (hs.asks.1 hu)]
    exact h.le u (hs.asks.1 hu)
  · rw [hv]
    refine h.attained.imp_right fun ⟨u, hu, he⟩ => ⟨u, hs.asks.2 hu, ?_⟩
    rw [hs.demand hu, he]

theorem Departing.congr {rest : List NodeId} (h : Departing m rest) (hnet : m'.net = m.net)
    (hdepart : m'.est.depart = m.est.depart) (hcuts : m'.cuts = m.cuts)
    (hactive : m'.usage.active = m.usage.active) : Departing m' rest := by
  have hflag (u : NodeId) : m'.isActive u = m.isActive u := by rw [Mapper.isActive, hactive]; rfl
  have hlist (u : NodeId) : m'.cutsOf u = m.cutsOf u := cutsOf_congr hcuts u
  have htime (u : NodeId) : m'.est.departAt u = m.est.departAt u := departAt_congr hdepart u
  intro v hv
  rw [hnet, hflag] at hv
  exact (h v hv).congr ⟨hnet, fun u _ => hflag u, fun u _ => hlist u, fun u _ _ => htime u⟩ (htime v)

/-- At the start nothing was visited and everything departs at 0. -/
theorem Departing.clear (hlive : ∀ i, m.isActive i = true → m.net.isLive i = true) :
    Departing m.clearDepart m.net.upOrder.reverse := by
  have hzero (v : NodeId) : m.clearDepart.est.departAt v = 0 := getD_replicate _ 0 v
  intro v _
  refine ⟨(hzero v).symm ▸ zero, fun u hu => ?_, .inl (hzero v)⟩
  exact absurd (List.mem_reverse.2 (Network.mem_upOrder.2 (hlive u hu.2.1))) hu.1

omit [Clock α] in
/-- What a visit changes is not the departure of a node that was passed: such a node has a larger
number than all that the visited one uses. -/
theorem sameUsers_visit {rest : List NodeId} (hm : Valid m) (hl : Listed m)
    (hlive : ∀ i, m.isActive i = true → m.net.isLive i = true)
    (hsuf : id :: rest <:+ m.net.upOrder.reverse) :
    SameUsers m (m.mapDepart (departStep m id)) rest := by
  refine ⟨rfl, fun _ _ => rfl, fun _ _ => rfl, fun u hu hact => ?_⟩
  show (departStep m id m.est.depart).getD u 0 = m.est.depart.getD u 0
  cases ha : m.isActive id with
  | false =>
    refine getD_departStep_idle ha (.inl ?_)
    rintro rfl
    exact Bool.false_ne_true (ha.symm.trans hact)
  | true =>
    rw [getD_departStep hm hl ha hm.depart, if_neg fun hmem => ?_]
    have hlt := lt_of_mem_uses hm hmem
    have hne := ne_of_lt hlt
    exact lt_asymm hlt
      (Network.gt_of_not_mem_suffix hsuf (hlive u hact) (by simp [hne, hu]) (by simp))

/-- The node that is visited adds what it asks for. -/
theorem Latest.visit {rest : List NodeId} {f : Array α → Array α} (h : Latest m (id :: rest) v)
    (hid : id ∉ rest) (hown : m.isActive id = true → IsTime (m.est.departAt id))
    (hs : SameUsers m (m.mapDepart f) rest)
    (hv : (m.mapDepart f).est.departAt v = if m.isActive id = true ∧ v ∈ m.uses id then
      later (m.est.departAt v) (m.est.departAt id + useDelay m id v) else m.est.departAt v) :
    Latest (m.mapDepart f) rest v := by
  have hold (u : NodeId) (hu : Asks m (id :: rest) u v) : Asks m rest u v :=
    (asks_cons hid).2 (.inl hu)
  by_cases huse : m.isActive id = true ∧ v ∈ m.uses id
  · rw [if_pos huse] at hv
    obtain ⟨ht, hle, hle', hsel⟩ :=
      later_time h.time (Clock.add (hown huse.1) (isDelay_useDelay m id v))
    rw [← hv] at ht hle hle' hsel
    refine ⟨ht, fun u hu => ?_, ?_⟩
    · rw [hs.demand (hs.asks.1 hu)]
      rcases (asks_cons hid).1 (hs.asks.1 hu) with hu | ⟨rfl, -⟩
      · exact (h.le u hu).trans hle
      · exact hle'
    · rcases hsel with hsel | hsel
      · refine (h.attained.imp hsel.trans) fun ⟨u, hu, he⟩ => ⟨u, hs.asks.2 (hold u hu), ?_⟩
        exact (hsel.trans he).trans (hs.demand (hold u hu)).symm
      · have hu : Asks m rest id v := ⟨hid, huse⟩
        exact .inr ⟨id, hs.asks.2 hu, hsel.trans (hs.demand hu).symm⟩
  · rw [if_neg huse] at hv
    have hrest (u : NodeId) (hu : Asks m rest u v) : Asks m (id :: rest) u v :=
      ((asks_cons hid).1 hu).resolve_right fun hid => huse hid.2
    refine ⟨hv ▸ h.time, fun u hu => ?_, ?_⟩
    · rw [hs.demand (hs.asks.1 hu), hv]
      exact h.le u (hrest u (hs.asks.1 hu))
    · refine (h.attained.imp hv.trans) fun ⟨u, hu, he⟩ => ⟨u, hs.asks.2 (hold u hu), ?_⟩
      exact (hv.trans he).trans (hs.demand (hold u hu)).symm

theorem Departing.visit {rest : List NodeId} (h : Departing m (id :: rest)) (hm : Valid m)
    (hl : Listed m) (hlive : ∀ i, m.isActive i = true → m.net.isLive i = true)
    (hsuf : id :: rest <:+ m.net.upOrder.reverse) :
    Departing (m.mapDepart (departStep m id)) rest := by
  have hid : id ∉ rest := Network.not_mem_of_suffix hsuf
  have hs := sameUsers_visit hm hl hlive hsuf
  have hown (v : NodeId) (hv : v ∈ rest ∨ (m.net.node v).isLogic = false ∨ m.isActive v = true) :=
    h v (hv.imp_left (List.mem_cons_of_mem _))
  intro v hv
  refine (hown v hv).visit hid (fun hact => (hown id (.inr (.inr hact))).time) hs ?_
  show (departStep m id m.est.depart).getD v 0 = _
  cases ha : m.isActive id with
  | false =>
    -- only the departure of the node itself can change, and it does if it is a gate
    rw [if_neg (by simp)]
    refine getD_departStep_idle ha ?_
    rcases hv with hv | hv | hv
    · exact .inl fun he => hid (he ▸ hv)
    · exact .inr hv
    · refine .inl ?_
      rintro rfl
      exact Bool.false_ne_true (ha.symm.trans hv)
  | true =>
    rw [getD_departStep hm hl ha hm.depart]
    exact if_congr (by simp) rfl rfl

omit [Clock α] in
/-- Refinement leaves the nodes that were passed alone. -/
theorem Refined.sameUsers {rest : List NodeId} (hr : Refined m id m')
    (hsuf : id :: rest <:+ m.net.upOrder.reverse) : SameUsers m m' (id :: rest) := by
  refine ⟨hr.steady.net, fun u hu => hr.flags u ?_,
    fun u hu => hr.others u fun he => hu (by simp [he]), fun u _ _ => by rw [hr.est]⟩
  cases hlogic : (m.net.node u).isLogic with
  | false => exact .inl rfl
  | true => exact .inr (Network.gt_of_not_mem_suffix hsuf (Network.isLive_of_isLogic hlogic) hu
      (by simp)).le

theorem Departing.refined {rest : List NodeId} (h : Departing m (id :: rest))
    (hsuf : id :: rest <:+ m.net.upOrder.reverse) (hr : Refined m id m') :
    Departing m' (id :: rest) := by
  have hs := hr.sameUsers hsuf
  intro v hv
  have hold : v ∈ id :: rest ∨ (m.net.node v).isLogic = false ∨ m.isActive v = true := by
    by_cases hm : v ∈ id :: rest
    · exact .inl hm
    · rwa [hs.net, hs.active v hm] at hv
  exact (h v hold).congr hs (by rw [hr.est])

omit [Clock α] in
theorem sameUsers_counted {rest : List NodeId} (hm : Valid m) (hl : Listed m)
    (hlive : ∀ i, m.isActive i = true → m.net.isLive i = true)
    (hsuf : id :: rest <:+ m.net.upOrder.reverse) (hc : Counted m id m') :
    SameUsers m m' rest := by
  have hs := sameUsers_visit hm hl hlive hsuf
  refine ⟨hc.net, fun u _ => hc.isActive u, fun u _ => hc.cutsOf u, fun u hu ha => ?_⟩
  rw [Estimates.departAt, hc.depart]
  exact hs.depart u hu ha

/-- The first pass makes every departure final. -/
theorem computeDepartures_departing (h : Valid m) (hl : Listed m) (hd : Discovered m) :
    m.computeDepartures.Ensures fun m' => Departing m' [] := by
  refine (computeDepartures_keeps (I := fun rest m' => Departing m' rest) h hl
    (fun m₁ hf hest _ => ?_) fun id rest m' m'' hsuf hf hdep hc => ?_).mono fun _ hm => hm.2
  · exact (Departing.clear hd.live).congr hf.net (congrArg Estimates.depart hest) hf.cuts hf.active
  · exact (hdep.visit hf.valid (hf.listed hl) (hf.live hd) (hf.net ▸ hsuf)).congr hc.net hc.depart
      hc.cuts hc.active

/-- The pass that refines does too, although it changes winners and activity on the way. -/
theorem exactLocalArea_departing [Topped α] (h : Valid m) (hl : Listed m) (hc : Consistent m) :
    m.exactLocalArea.Ensures fun m' => Departing m' [] := by
  refine (exactLocalArea_keeps (I := fun rest m' => Departing m' rest) h hl hc
    (Departing.clear hc.live) fun id rest m' m₁ hsuf hm' hdep hr _ => ?_).mono fun _ hm => hm.2
  have hnet : m'.net = m.net := hm'.steady.net
  have hnet₁ : m₁.net = m'.net := hr.steady.net
  have hsuf' : id :: rest <:+ m'.net.upOrder.reverse := hnet ▸ hsuf
  exact (hdep.refined hsuf' hr).visit hr.valid hr.listed hr.consistent.live (hnet₁ ▸ hsuf')

omit [Quantity α] [Clock α] in
theorem getD_zipWith {f : α → α → α} {d : α} (hd : f d d = d) {xs ys : Array α}
    (hsize : ys.size = xs.size) (i : Nat) :
    (xs.zipWith f ys).getD i d = f (xs.getD i d) (ys.getD i d) := by
  by_cases hi : i < xs.size
  · simp [Array.getD, hsize, hi]
  · simp [Array.getD, hsize, hi, hd]

omit [Clock α] in
/-- A departure that was filled in counts where there was none. -/
theorem departAt_backfillDepartures (m : Mapper α) (v : NodeId) :
    m.backfillDepartures.est.departAt v =
      let filled := (Mapper.backfill m.net m.est.depart m.order).getD v 0
      if Quantity.isInfinite (m.est.departAt v) && !Quantity.isInfinite filled then filled
      else m.est.departAt v :=
  getD_zipWith (f := fun d filled =>
    if Quantity.isInfinite d && !Quantity.isInfinite filled then filled else d) (ite_self _)
    (size_backfill ..) v

omit [Clock α] in
/-- Only what has no departure is filled. -/
theorem departAt_backfill (h : Quantity.isInfinite (m.est.departAt v) = false) :
    m.backfillDepartures.est.departAt v = m.est.departAt v := by
  rw [departAt_backfillDepartures]
  exact if_neg (by simp [h])

/-- All departures in use are final, and the delay is the latest departure of a source. -/
def Departed (m : Mapper α) : Prop :=
  Departing m [] ∧ m.delay = m.net.sources.foldl (fun acc v => max acc (m.est.departAt v)) 0

theorem measure_departed (h : Valid m) (hl : Listed m) (hc : Consistent m) (hd : Departing m []) :
    m.measureDelay.backfillDepartures.measureArea.Ensures Departed := by
  refine (measure_ok h hl hc).mono fun m' ⟨hm', hdelay, hest, hcuts, husage⟩ => ?_
  have hnet : m'.net = m.net := hm'.steady.net
  have hsame (v : NodeId) (hv : (m.net.node v).isLogic = false ∨ m.isActive v = true) :
      m'.est.departAt v = m.est.departAt v := by
    rw [hest]
    exact departAt_backfill (m := m.measureDelay) (finite (hd v (.inr hv)).time)
  have hflag (u : NodeId) : m'.isActive u = m.isActive u := by rw [Mapper.isActive, husage]; rfl
  have hlist (u : NodeId) : m'.cutsOf u = m.cutsOf u := cutsOf_congr hcuts u
  refine ⟨fun v hv => ?_, ?_⟩
  · rw [hnet, hflag] at hv
    have hv' := hv.resolve_left (by simp)
    exact (hd v hv).congr ⟨hnet, fun u _ => hflag u, fun u _ => hlist u,
      fun u _ hu => hsame u (.inr hu)⟩ (hsame v hv')
  · have hsources : (m.order.filter fun id => (m.net.node id).isSource) = m.net.sources := by
      rw [h.order, Network.upOrder, Network.sources, List.filter_filter]
      refine List.filter_congr fun i _ => ?_
      cases hi : m.net.node i <;> simp [Node.isSource, Network.isLive, Node.isRemoved, hi]
    rw [hdelay, hnet]
    show (m.order.filter _).foldl _ 0 = _
    rw [hsources]
    refine List.foldl_ext _ _ _ fun acc v hv => ?_
    have hv := (List.mem_filter.1 hv).2
    rw [hsame v (.inl (Node.not_isLogic_of_isSource hv))]

/-- With refinement or without, the cover of a round departs as it should. -/
theorem cover_departed [Topped α] (h : Valid m) (hl : Listed m) : m.cover.Ensures Departed :=
  cover_keeps (P := fun m' => Departing m' []) h hl
    (fun _ _ hv hl hd => computeDepartures_departing hv hl hd) (fun _ hd => hd)
    (fun _ hc => exactLocalArea_departing hc.valid hc.listed hc.consistent)
    fun _ hc => measure_departed hc.valid hc.listed hc.consistent hc.holds

end TechMap.Mapping
