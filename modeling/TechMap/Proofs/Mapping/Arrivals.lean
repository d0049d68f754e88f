import Mathlib
import TechMap.Proofs.Mapping.Ranking
import TechMap.Proofs.Mapping.Valid

/-! The arrivals that generation settles, without multiplexers. Nodes are visited from inputs to
outputs, so what the estimate of a node is made of is final when the node is visited: a gate arrives
a level after the latest leaf of its winner. -/

namespace TechMap.Mapping

open Clock

variable {α : Type} [Quantity α] {m m' m₀ : Mapper α} {id : NodeId} {cuts : List Cut}
  {first : Cut}

/-- The cuts that a gate chooses from: the list that it kept, or all cuts. -/
def pool (m₀ m : Mapper α) (id : NodeId) : List Cut :=
  if m₀.cutsOf id = [] then m.enumerate id (m.net.node id) else m₀.cutsOf id

/-- When the node would arrive with a LUT cut. -/
def delayOf (m : Mapper α) (c : Cut) : α := m.est.latest c + 1

theorem latest_congr (h : ∀ l ∈ first.leaves, m'.est.arrivalAt l = m.est.arrivalAt l) :
    m'.est.latest first = m.est.latest first :=
  List.foldl_ext _ _ _ fun acc l hl => by rw [h l hl]

theorem head?_truncate (h : 0 < m.params.cutsPerNode) (first : Cut) (rest : List Cut) :
    (m.truncate (first :: rest)).head? = some first := by
  obtain ⟨n, hn⟩ := Nat.exists_eq_succ_of_ne_zero h.ne'
  obtain ⟨k, hk⟩ := Nat.exists_eq_succ_of_ne_zero (Nat.mul_pos two_pos h).ne'
  unfold Mapper.truncate
  split
  · rw [hk]
    rfl
  · rw [hn]
    rfl

/-- The second state agrees with the first in all that node `id` depends on. -/
structure Agrees (m m' : Mapper α) (id : NodeId) : Prop where
  steady : Steady m m'
  retained : m'.retained = m.retained
  depart : m'.est.depart = m.est.depart
  lists : ∀ i ≤ id, m'.cutsOf i = m.cutsOf i
  arrivals : ∀ i ≤ id, m'.est.arrivalAt i = m.est.arrivalAt i

theorem Visited.agrees (h : Visited m id m') {i : NodeId} (hi : i < id) : Agrees m m' i :=
  ⟨h.steady, h.retained, h.depart, fun j hj => h.others j (ne_of_lt (hj.trans_lt hi)),
    fun j hj => h.arrivals j (ne_of_lt (hj.trans_lt hi))⟩

omit [Quantity α] in
/-- Enumeration reads the lists of the operands. -/
theorem enumerate_congr (hc : m.net.Canonical) (hs : Steady m m') (hr : m'.retained = m.retained)
    (hlists : ∀ i < id, m'.cutsOf i = m.cutsOf i) :
    m'.enumerate id (m'.net.node id) = m.enumerate id (m.net.node id) := by
  have hnet : m'.net = m.net := hs.net
  have hops : ((m.net.node id).operands.map fun l => operandCut l :: m'.cutsOf l.id) =
      (m.net.node id).operands.map fun l => operandCut l :: m.cutsOf l.id :=
    List.map_congr_left fun l hl => by rw [hlists l.id (hc.lt id l hl)]
  rw [Mapper.enumerate, Mapper.enumerate, hnet, hr, hs.params, hops]

theorem timely_congr (hs : Steady m m') (hd : m'.est.depart = m.est.depart) (d : α) :
    Timely m' id d ↔ Timely m id d := by
  rw [Timely, Timely, Mapper.isDelayRound, Mapper.isDelayRound, Mapper.required, Mapper.required,
    hs.round, hs.params, hs.target, Estimates.departAt, Estimates.departAt, hd]

theorem pool_congr (hc : m.net.Canonical) (ha : Agrees m m' id) :
    pool m₀ m' id = pool m₀ m id := by
  rw [pool, pool, enumerate_congr hc ha.steady ha.retained fun i hi => ha.lists i hi.le]

variable [Clock α]

/-- The winner of a gate and why it won. -/
structure Won (m₀ m : Mapper α) (id : NodeId) (first : Cut) : Prop where
  winner : m.winner? id = some first
  below : ∀ c ∈ pool m₀ m id, ∀ l ∈ c.leaves, l < id
  order : ∃ rest, (first :: rest).Perm (pool m₀ m id) ∧ (m.isProbeRound = false → m.cutsOf id =
    if m₀.cutsOf id = [] then (first :: rest).take m.params.cutsPerNode else first :: rest)
  arrival : m.est.arrivalAt id = delayOf m first
  choice : Timely m id (delayOf m first) ∨
    ∀ c ∈ pool m₀ m id, key (delayOf m first) ≤ key (delayOf m c)

/-- How node `id` arrives in a round that started from `m₀`. -/
inductive Arrived (m₀ m : Mapper α) (id : NodeId) : Prop
  | source (hid : (m.net.node id).isSource = true) (h : m.est.arrivalAt id = 0)
  | through {l : Lit} (hid : (m.net.node id).isPassThrough = true)
    (hops : (m.net.node id).operands = [l])
    (h : m.est.arrivalAt id = m.est.arrivalAt l.id + Mapper.edgeDelay (m.net.node id))
  | sink (hid : (m.net.node id).isSink = true) (h : m.est.arrivalAt id = m₀.est.arrivalAt id)
  | gate {first : Cut} (hid : (m.net.node id).isLogic = true) (h : Won m₀ m id first)

theorem Won.mem (h : Won m₀ m id first) : first ∈ pool m₀ m id := by
  obtain ⟨rest, hp, -⟩ := h.order
  exact hp.mem_iff.1 (by simp)

/-- A list that is not cut off holds all that was enumerated. -/
theorem Won.perm_enumerate (h : Won m₀ m id first) (hnil : m₀.cutsOf id = [])
    (hprobe : m.isProbeRound = false)
    (hroom : (m.enumerate id (m.net.node id)).length ≤ m.params.cutsPerNode) :
    (m.cutsOf id).Perm (m.enumerate id (m.net.node id)) := by
  obtain ⟨rest, hp, hlist⟩ := h.order
  rw [pool, if_pos hnil] at hp
  rw [hlist hprobe, if_pos hnil, List.take_of_length_le (hp.length_eq.trans_le hroom)]
  exact hp

theorem Arrived.exists_won (h : Arrived m₀ m id) (hid : (m.net.node id).isLogic = true) :
    ∃ first, Won m₀ m id first := by
  cases h with
  | gate _ h => exact ⟨_, h⟩
  | source hn => rw [Node.not_isLogic_of_isSource hn] at hid; cases hid
  | through hn => rw [Node.not_isLogic_of_isPassThrough hn] at hid; cases hid
  | sink hn => rw [Node.not_isLogic_of_isSink hn] at hid; cases hid

theorem Arrived.exists_operand (h : Arrived m₀ m id) (hid : (m.net.node id).isPassThrough = true) :
    ∃ l, (m.net.node id).operands = [l] ∧
      m.est.arrivalAt id = m.est.arrivalAt l.id + Mapper.edgeDelay (m.net.node id) := by
  cases h with
  | through _ hops h => exact ⟨_, hops, h⟩
  | source hn => rw [Node.not_isSource_of_isPassThrough hid] at hn; cases hn
  | gate hn => rw [Node.not_isLogic_of_isPassThrough hid] at hn; cases hn
  | sink hn => rw [Node.not_isSink_of_isPassThrough hid] at hn; cases hn

theorem Won.congr (h : Won m₀ m id first) (hc : m.net.Canonical) (ha : Agrees m m' id) :
    Won m₀ m' id first := by
  have hpool : pool m₀ m' id = pool m₀ m id := pool_congr hc ha
  have hdelay (c : Cut) (hcm : c ∈ pool m₀ m id) : delayOf m' c = delayOf m c := by
    rw [delayOf, latest_congr fun l hl => ha.arrivals l (h.below c hcm l hl).le]
    rfl
  have hfirst := hdelay first h.mem
  refine ⟨?_, ?_, ?_, ?_, ?_⟩
  · rw [Mapper.winner?, ha.lists id le_rfl]
    exact h.winner
  · rw [hpool]
    exact h.below
  · obtain ⟨rest, hp, hlist⟩ := h.order
    refine ⟨rest, hpool ▸ hp, fun hprobe => ?_⟩
    rw [ha.lists id le_rfl, ha.steady.params]
    refine hlist ?_
    rwa [Mapper.isProbeRound, ha.steady.params, ha.steady.round] at hprobe
  · rw [ha.arrivals id le_rfl, hfirst]
    exact h.arrival
  · rw [hfirst, hpool, timely_congr ha.steady ha.depart]
    refine h.choice.imp_right fun hall c hcm => ?_
    rw [hdelay c hcm]
    exact hall c hcm

theorem Arrived.congr (h : Arrived m₀ m id) (hc : m.net.Canonical) (ha : Agrees m m' id) :
    Arrived m₀ m' id := by
  have hnet : m'.net = m.net := ha.steady.net
  cases h with
  | source hid h => exact .source (hnet ▸ hid) (by rw [ha.arrivals id le_rfl, h])
  | @through l hid hops h =>
    have hlt : l.id < id := hc.lt id l (by simp [hops])
    refine .through (hnet ▸ hid) (hnet ▸ hops) ?_
    rw [ha.arrivals id le_rfl, ha.arrivals l.id hlt.le, hnet, h]
  | sink hid h => exact .sink (hnet ▸ hid) (by rw [ha.arrivals id le_rfl, h])
  | gate hid h => exact .gate (hnet ▸ hid) (h.congr hc ha)

theorem Fits.lut {net : Network} {muxes : Bool} {c : Cut} (hf : Fits net muxes id c)
    (hm : muxes = false) : c.isMux = false := by
  by_contra hne
  have := (hf.mux (by simpa using hne)).1
  rw [hm] at this
  cases this

omit [Clock α] in
theorem delay_cutCost {c : Cut} (hlut : c.isMux = false) :
    (m.cutCost id c).delay = delayOf m c := by
  simp [Mapper.cutCost, cutCost, hlut, delayOf]

theorem isTime_delayOf (ht : ∀ i, IsTime (m.est.arrivalAt i)) (c : Cut) : IsTime (delayOf m c) :=
  Clock.add (foldl_max (fun l _ => ht l) zero).1 .level

/-- The first cut of the sorted pool wins. -/
theorem Visited.won {rest : List Cut} (hv : Visited m id m') (hm : m.params.muxes = false)
    (hpool : pool m₀ m' id = cuts) (hfit : ∀ c ∈ cuts, Fits m.net m.params.muxes id c)
    (ht : ∀ i, IsTime (m.est.arrivalAt i)) (hperm : (first :: rest).Perm cuts)
    (hwin : m'.winner? id = some first)
    (hlist : m'.isProbeRound = false → m'.cutsOf id =
      if m₀.cutsOf id = [] then (first :: rest).take m'.params.cutsPerNode else first :: rest)
    (harr : m'.est.arrivalAt id = (m.cutCost id first).delay)
    (hsort : (∀ c ∈ cuts, IsTime (m.cutCost id c).delay) →
      Timely m id (m.cutCost id first).delay ∨
        ∀ c ∈ cuts, key (m.cutCost id first).delay ≤ key (m.cutCost id c).delay) :
    Won m₀ m' id first := by
  have hdelay (c : Cut) (hc : c ∈ cuts) : delayOf m' c = (m.cutCost id c).delay := by
    rw [delay_cutCost ((hfit c hc).lut hm), delayOf,
      latest_congr fun l hl => hv.arrivals l (ne_of_lt ((hfit c hc).lt l hl))]
    rfl
  have hmem : first ∈ cuts := hperm.mem_iff.1 (by simp)
  refine ⟨hwin, ?_, ⟨rest, hpool ▸ hperm, hlist⟩, ?_, ?_⟩
  · rw [hpool]
    exact fun c hc => (hfit c hc).lt
  · rw [harr, hdelay first hmem]
  · rw [hpool, hdelay first hmem, timely_congr hv.steady hv.depart]
    refine (hsort fun c hc => ?_).imp_right fun hall c hc => ?_
    · rw [delay_cutCost ((hfit c hc).lut hm)]
      exact isTime_delayOf ht c
    · rw [hdelay c hc]
      exact hall c hc

/-- A visit settles the arrival of its node. -/
theorem Generated.arrived (hg : Generated m id m') (h : Valid m) (hl : m.net.isLive id = true)
    (hm : m.params.muxes = false) (ht : ∀ i, IsTime (m.est.arrivalAt i))
    (hlist : m.cutsOf id = m₀.cutsOf id) (harr : m.est.arrivalAt id = m₀.est.arrivalAt id) :
    Arrived m₀ m' id := by
  have hv := hg.visited h hl
  have hnet : m'.net = m.net := hv.steady.net
  have hlt : id < m.cuts.size := h.lt_size hl
  have hset {xs : Array α} (hx : xs.size = m.net.size) (x : α) :
      (xs.setIfInBounds id x).getD id 0 = x := by
    rw [getD_set _ (hx ▸ Network.lt_size_of_isLive hl), if_pos rfl]
  have hgrown : m'.enumerate id (m'.net.node id) = m.enumerate id (m.net.node id) :=
    enumerate_congr h.canonical hv.steady hv.retained fun i hi => hv.others i (ne_of_lt hi)
  cases hg with
  | @grown first rest settled hid hnil hs hsettled =>
    have hnil₀ : m₀.cutsOf id = [] := hlist ▸ hnil
    have hperm : (first :: rest).Perm (m.enumerate id (m.net.node id)) :=
      hs ▸ perm_sortCuts hm _ _
    have hcuts := (cutsOf_setCuts settled (by rw [hsettled]; exact hlt)
      (settled.truncate (first :: rest)) id).trans (if_pos rfl)
    subst hsettled
    refine .gate hid (hv.won hm ((if_pos hnil₀).trans hgrown)
      (fits_enumerate h.canonical hid h.stored (h.retained id)) ht hperm ?_ (fun hprobe => ?_)
      (hset h.arrival _) fun hc => first_sortCuts hm hc hs)
    · rw [Mapper.winner?, hcuts]
      exact head?_truncate (by exact h.slots) first rest
    · rw [hcuts, if_pos hnil₀]
      exact if_neg (Bool.eq_false_iff.1 hprobe)
  | @ordered first rest hid hne hs =>
    have hne₀ : m₀.cutsOf id ≠ [] := hlist ▸ hne
    have hperm : (first :: rest).Perm (m.cutsOf id) :=
      hs ▸ perm_sortCuts (m := m.setCuts id []) hm _ _
    have hcuts := (cutsOf_setCuts ((m.setCuts id []).settleCost id
      ((m.setCuts id []).cutCost id first)) (lt_of_lt_of_eq hlt (Array.size_setIfInBounds ..).symm)
      (first :: rest) id).trans (if_pos rfl)
    refine .gate hid (hv.won hm ((if_neg hne₀).trans hlist.symm) (h.stored id) ht hperm ?_
      (fun _ => ?_) (hset h.arrival _) fun hc => first_sortCuts (m := m.setCuts id []) hm hc hs)
    · rw [Mapper.winner?, hcuts]
      rfl
    · rw [hcuts, if_neg hne₀]
  | source hid => exact .source hid (hset h.arrival 0)
  | @through l hid hops =>
    have hne : l.id ≠ id := ne_of_lt (h.canonical.lt id l (by simp [hops]))
    refine .through hid hops ((hset h.arrival _).trans ?_)
    rw [hv.arrivals l.id hne]
    rfl
  | sink hid => exact .sink hid harr

omit [Clock α] in
theorem isDelay_edgeDelay (node : Node) : IsDelay (Mapper.edgeDelay node : α) := by
  cases node with
  | delay a amount => exact .eighths amount.toNat_lt
  | _ => exact .none

omit [Clock α] in
theorem edgeDelay_of_isSink {node : Node} (h : node.isSink = true) :
    Mapper.edgeDelay node = (0 : α) := by
  cases node <;> simp_all [Node.isSink, Mapper.edgeDelay]

theorem Arrived.time (h : Arrived m₀ m id) (hc : m.net.Canonical)
    (h₀ : IsTime (m₀.est.arrivalAt id)) (hlt : ∀ i < id, IsTime (m.est.arrivalAt i)) :
    IsTime (m.est.arrivalAt id) := by
  cases h with
  | source hid h => exact h ▸ zero
  | @through l hid hops h =>
    rw [h]
    exact Clock.add (hlt l.id (hc.lt id l (by simp [hops]))) (isDelay_edgeDelay _)
  | sink hid h => exact h ▸ h₀
  | gate hid h =>
    rw [h.arrival]
    exact Clock.add (foldl_max (fun l hl => hlt l (h.below _ h.mem l hl)) zero).1 .level

/-- Generation settles all arrivals. -/
theorem generateAll_arrived (h : Valid m) (hm : m.params.muxes = false)
    (ht : ∀ i, IsTime (m.est.arrivalAt i)) : m.generateAll.Ensures fun m' =>
      (∀ i, IsTime (m'.est.arrivalAt i)) ∧ m'.retained = m.retained ∧
      m'.est.depart = m.est.depart ∧ ∀ id, m.net.isLive id = true → Arrived m m' id := by
  let I (rest : List NodeId) (m' : Mapper α) : Prop :=
    (∀ i, IsTime (m'.est.arrivalAt i)) ∧ m'.retained = m.retained ∧
    m'.est.depart = m.est.depart ∧
    (∀ i ∈ rest, m'.cutsOf i = m.cutsOf i ∧ m'.est.arrivalAt i = m.est.arrivalAt i) ∧
    ∀ i, m.net.isLive i = true → i ∉ rest → Arrived m m' i
  have h0 : I m.order m := ⟨ht, rfl, rfl, fun _ _ => ⟨rfl, rfl⟩, fun i hi hnot =>
    absurd (h.order ▸ Network.mem_upOrder.2 hi) hnot⟩
  refine (generateAll_keeps h h0 fun id rest m' m'' hsuf hv hst hlive hI hg => ?_).mono
    fun m' ⟨_, _, ht, hr, hd, _, ha⟩ => ⟨ht, hr, hd, fun id hid => ha id hid (by simp)⟩
  obtain ⟨ht, hr, hd, hsame, ha⟩ := hI
  have hnet : m'.net = m.net := hst.net
  have hlive' : m'.net.isLive id = true := hnet ▸ hlive
  have hvis := hg.visited hv hlive'
  have hnet' : m''.net = m'.net := hvis.steady.net
  have hnodup : (id :: rest).Nodup := m.net.nodup_upOrder.sublist hsuf.sublist
  have hself : Arrived m m'' id := hg.arrived hv hlive' (by rw [hst.params]; exact hm) ht
    (hsame id (by simp)).1 (hsame id (by simp)).2
  refine ⟨fun i => ?_, hvis.retained.trans hr, hvis.depart.trans hd, fun i hi => ?_,
    fun i hi hnot => ?_⟩
  · by_cases he : i = id
    · subst he
      refine hself.time (hnet' ▸ hv.canonical) ((hsame i (by simp)).2 ▸ ht i) fun j hj => ?_
      rw [hvis.arrivals j (ne_of_lt hj)]
      exact ht j
    · rw [hvis.arrivals i he]
      exact ht i
  · have hne : i ≠ id := by
      rintro rfl
      exact (List.nodup_cons.1 hnodup).1 hi
    rw [hvis.others i hne, hvis.arrivals i hne]
    exact hsame i (List.mem_cons_of_mem _ hi)
  · by_cases he : i = id
    · exact he ▸ hself
    · have hlt := Network.lt_of_not_mem_suffix hsuf hi (by simp [he, hnot]) (j := id) (by simp)
      exact (ha i hi (by simp [he, hnot])).congr hv.canonical (hvis.agrees hlt)

/-- Arrivals are longest paths through winners. -/
structure Forward (m : Mapper α) : Prop where
  times : ∀ i, IsTime (m.est.arrivalAt i)
  luts : m.params.muxes = false
  source : ∀ i, (m.net.node i).isSource = true → m.est.arrivalAt i = 0
  through : ∀ i, (m.net.node i).isPassThrough = true → ∀ l ∈ (m.net.node i).operands,
    m.est.arrivalAt i = m.est.arrivalAt l.id + Mapper.edgeDelay (m.net.node i)
  gate : ∀ i w, m.winner? i = some w → m.est.arrivalAt i = delayOf m w

theorem Forward.congr (h : Forward m) (hs : Steady m m') (hcuts : m'.cuts = m.cuts)
    (ha : m'.est.arrival = m.est.arrival) : Forward m' := by
  have hnet : m'.net = m.net := hs.net
  have hat (i : NodeId) : m'.est.arrivalAt i = m.est.arrivalAt i := arrivalAt_congr ha i
  refine ⟨fun i => hat i ▸ h.times i, hs.params ▸ h.luts, fun i hi => ?_, fun i hi l hl => ?_,
    fun i w hw => ?_⟩
  · rw [hat, h.source i (hnet ▸ hi)]
  · rw [hnet] at hi hl ⊢
    rw [hat, hat, h.through i hi l hl]
  · rw [Mapper.winner?, cutsOf_congr hcuts] at hw
    rw [hat, h.gate i w hw, delayOf, delayOf, latest_congr fun l _ => hat l]

/-- Generation leaves such arrivals. -/
theorem forward_of_arrived (hv : Valid m) (hm : m.params.muxes = false)
    (ht : ∀ i, IsTime (m.est.arrivalAt i))
    (ha : ∀ id, m.net.isLive id = true → Arrived m₀ m id) : Forward m := by
  refine ⟨ht, hm, fun i hi => ?_, fun i hi l hl => ?_, fun i w hw => ?_⟩
  · cases ha i (Network.isLive_of_isSource hi) with
    | source _ h => exact h
    | through hid => rw [Node.not_isSource_of_isPassThrough hid] at hi; cases hi
    | sink hid => cases hn : m.net.node i <;> simp_all [Node.isSource, Node.isSink]
    | gate hid => rw [Node.not_isSource_of_isLogic hid] at hi; cases hi
  · obtain ⟨o, hops, harr⟩ := (ha i (Network.isLive_of_operand hl)).exists_operand hi
    obtain rfl : l = o := by simpa [hops] using hl
    exact harr
  · have hlogic := (hv.stored i w (List.mem_of_mem_head? hw)).logic
    obtain ⟨first, hwon⟩ := (ha i (Network.isLive_of_isLogic hlogic)).exists_won hlogic
    obtain rfl : first = w := Option.some.inj (hwon.winner.symm.trans hw)
    exact hwon.arrival

end TechMap.Mapping
