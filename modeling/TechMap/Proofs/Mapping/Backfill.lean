import Mathlib
import TechMap.Proofs.Mapping.Fill
import TechMap.Proofs.Mapping.Rooted
import TechMap.Proofs.Mapping.Slack

/-! Which gates have a departure. A gate that nothing active uses has none until it is filled in from
its consumers, of whatever kind, and a pass-through departs even if nothing needs it. So a gate has a
departure exactly if a sink or a pass-through depends on it. -/

namespace TechMap.Mapping

open Network

section Idle

variable {α : Type} [Quantity α] {m m' : Mapper α} {id : NodeId} {rest : List NodeId}

/-- Gates that were passed while inactive never depart. -/
def Idle (m : Mapper α) (rest : List NodeId) : Prop :=
  ∀ v, (m.net.node v).isLogic = true → v ∉ rest → m.isActive v = false →
    m.est.departAt v = Quantity.infinity

theorem Idle.of_upOrder (m : Mapper α) : Idle m m.net.upOrder.reverse := fun _ hv hnot _ =>
  absurd (List.mem_reverse.2 (mem_upOrder.2 (isLive_of_isLogic hv))) hnot

theorem Idle.congr (h : Idle m rest) (hnet : m'.net = m.net)
    (hactive : ∀ v ∉ rest, (m.net.node v).isLogic = true → m'.isActive v = m.isActive v)
    (hdepart : m'.est.depart = m.est.depart) : Idle m' rest := by
  intro v hv hnot ha
  rw [hnet] at hv
  rw [hactive v hnot hv] at ha
  rw [departAt_congr hdepart]
  exact h v hv hnot ha

variable [Topped α]

theorem later_infinity (d : α) : later Quantity.infinity d = Quantity.infinity :=
  if_neg (by simp [Topped.not_lt])

theorem Idle.visit (h : Idle m (id :: rest)) (hm : Valid m) (hl : Listed m) :
    Idle (m.mapDepart (departStep m id)) rest := by
  intro v hv hnot ha
  replace hv : (m.net.node v).isLogic = true := hv
  replace ha : m.isActive v = false := ha
  show (departStep m id m.est.depart).getD v 0 = _
  by_cases he : v = id
  · subst he
    have hlt : v < m.est.depart.size := hm.depart ▸ lt_size_of_isLive (isLive_of_isLogic hv)
    rw [departStep_idle hv ha]
    exact (getD_set _ hlt _ 0 v).trans (if_pos rfl)
  · have hv' : m.est.depart.getD v 0 = Quantity.infinity := h v hv (by simp [he, hnot]) ha
    cases hid : m.isActive id with
    | false => exact (getD_departStep_idle hid (.inl he)).trans hv'
    | true =>
      rw [getD_departStep hm hl hid hm.depart, hv', later_infinity, ite_self]

theorem computeDepartures_idle (h : Valid m) (hl : Listed m) :
    m.computeDepartures.Ensures fun m' => Idle m' [] := by
  refine (computeDepartures_keeps (I := fun rest m' => Idle m' rest) h hl
    (fun m₁ hf _ _ => hf.net ▸ Idle.of_upOrder m₁) fun id rest m' m'' _ hf hidle hc => ?_).mono
      fun _ hm => hm.2
  exact (hidle.visit hf.valid (hf.listed hl)).congr hc.net (fun v _ _ => hc.isActive v) hc.depart

theorem exactLocalArea_idle (h : Valid m) (hl : Listed m) (hc : Consistent m) :
    m.exactLocalArea.Ensures fun m' => Idle m' [] := by
  refine (exactLocalArea_keeps (I := fun rest m' => Idle m' rest) h hl hc
    (Idle.of_upOrder m.clearDepart) fun id rest m' m₁ hsuf hm' hidle hr _ => ?_).mono
      fun _ hm => hm.2
  have hnet : m'.net = m.net := hm'.steady.net
  have hs := hr.sameUsers (hnet ▸ hsuf)
  exact (hidle.congr hs.net (fun v hv _ => hs.active v hv)
    (congrArg Estimates.depart hr.est)).visit hr.valid hr.listed

end Idle

section Held

open Clock

variable {net : Network} {depart filled : Array Single} {v : NodeId} {rest : List NodeId} {x : Single}

/-- A time, or none. -/
def Held (x : Single) : Prop := IsTime x ∨ x = .infinity

theorem Held.isTime_iff (h : Held x) : IsTime x ↔ x ≠ .infinity := by
  rcases h with h | rfl
  · exact iff_of_true h fun he => by
      have := finite h
      rw [he] at this
      cases this
  · exact iff_of_false (fun h => by cases (finite h)) (by simp)

theorem Held.isNaN (h : Held x) : x.isNaN = false := by
  rcases h with h | rfl
  · exact Single.isNaN_eq h
  · decide

theorem Filling.held (h : Filling net depart filled rest) (hd : ∀ v, Held (depart.getD v 0))
    (v : NodeId) : Held (filled.getD v 0) := by
  obtain ⟨u, hu⟩ := h.source v
  rw [hu]
  exact hd u

theorem Filling.found (h : Filling net depart filled rest) (hd : ∀ v, Held (depart.getD v 0))
    (hv : Lacks net depart v) : IsTime (filled.getD v 0) ↔
      ∃ u, u ∉ rest ∧ net.Feeds u v ∧ IsTime (filled.getD u 0) := by
  have hearliest := h.earliest v hv
  rw [(h.held hd v).isTime_iff]
  constructor
  · intro hne
    obtain ⟨u, ⟨hu, hfeeds⟩, he⟩ := hearliest.attained.resolve_left hne
    refine ⟨u, hu, hfeeds, (h.held hd u).isTime_iff.2 ?_⟩
    rwa [← he]
  · rintro ⟨u, hu, hfeeds, ht⟩ hinf
    have hle := hearliest.le u ⟨hu, hfeeds⟩
    rw [hinf] at hle
    exact (h.held hd u).isTime_iff.1 ht (Single.eq_infinity_of_le hle)

end Held

open Clock

variable {m m' : Mapper Single} {v : NodeId}

/-- A gate has a departure if it is active or one of its consumers has one, and every other node has
one. -/
structure Backfilled (m : Mapper Single) : Prop where
  held : ∀ v, Held (m.est.departAt v)
  rest : ∀ v, (m.net.node v).isLogic = false → IsTime (m.est.departAt v)
  gate : ∀ v, (m.net.node v).isLogic = true → (IsTime (m.est.departAt v) ↔
    m.isActive v = true ∨ ∃ u, m.net.Feeds u v ∧ IsTime (m.est.departAt u))

theorem measure_backfilled (h : Valid m) (hl : Listed m) (hc : Consistent m) (hd : Departing m [])
    (hi : Idle m []) : m.measureDelay.backfillDepartures.measureArea.Ensures Backfilled := by
  have htime (v : NodeId) (hv : (m.net.node v).isLogic = false ∨ m.isActive v = true) :
      IsTime (m.est.departAt v) := (hd v (.inr hv)).time
  have hheld (v : NodeId) : Held (m.est.departAt v) := by
    by_cases hv : (m.net.node v).isLogic = false ∨ m.isActive v = true
    · exact .inl (htime v hv)
    · simp only [not_or, Bool.not_eq_false, Bool.not_eq_true] at hv
      exact .inr (hi v hv.1 (by simp) hv.2)
  have hrun := filling_backfill h.canonical h.order h.depart fun v => (hheld v).isNaN
  refine (measure_ok h hl hc).mono fun m' ⟨hm', _, hest, _, husage⟩ => ?_
  have hnet : m'.net = m.net := hm'.steady.net
  have hflag (u : NodeId) : m'.isActive u = m.isActive u := by rw [Mapper.isActive, husage]; rfl
  have hget (v : NodeId) : m'.est.departAt v =
      (Mapper.backfill m.net m.est.depart m.order).getD v 0 := by
    rw [hest]
    exact departAt_of_filling (m := m.measureDelay) hrun v
  have hkept (v : NodeId) (hv : (m.net.node v).isLogic = false ∨ m.isActive v = true) :
      IsTime (m'.est.departAt v) := by
    rw [hget, hrun.kept v fun hlack => (hheld v).isTime_iff.1 (htime v hv) hlack.2]
    exact htime v hv
  refine ⟨fun v => hget v ▸ hrun.held hheld v, fun v hv => hkept v (.inl (hnet ▸ hv)), fun v hv => ?_⟩
  rw [hnet] at hv
  rw [hflag, hnet]
  cases ha : m.isActive v with
  | true => exact iff_of_true (hkept v (.inr ha)) (.inl rfl)
  | false =>
    have hlack : Lacks m.net m.est.depart v := ⟨hv, hi v hv (by simp) ha⟩
    rw [hget, hrun.found hheld hlack]
    simp only [hget, List.not_mem_nil, not_false_eq_true, true_and, Bool.false_eq_true, false_or]

theorem updateFanouts_backfilled (h : Valid m) (hl : Listed m) :
    (m.updateFanouts false).Ensures Backfilled := by
  have hcover : m.cover.Ensures Backfilled :=
    cover_keeps (P := fun m' => Departing m' [] ∧ Idle m' []) h hl
      (fun _ _ hv hl hd => (computeDepartures_departing hv hl hd).and (computeDepartures_idle hv hl))
      (fun _ hd => hd)
      (fun _ ⟨hv, hl, hc, _⟩ => (exactLocalArea_departing hv hl hc).and (exactLocalArea_idle hv hl hc))
      fun _ ⟨hv, hl, hc, hd⟩ => measure_backfilled hv hl hc hd.1 hd.2
  exact updateFanouts_keeps hcover fun _ hm' => ⟨hm'.held, hm'.rest, hm'.gate⟩

/-- A gate has its departure from the use of its cover or from a consumer, and either is larger. -/
theorem Backfilled.exists_end (h : Backfilled m) (hv : Valid m) (hc : Consistent m) (hr : Rooted m)
    (hlogic : (m.net.node v).isLogic = true) (ht : IsTime (m.est.departAt v)) :
    ∃ s, ((m.net.node s).isSink = true ∨ (m.net.node s).isPassThrough = true) ∧
      m.net.Reaches s v := by
  induction hn : m.net.size - v using Nat.strong_induction_on generalizing v with
  | _ n ih =>
    have hup {u : NodeId} (hlt : v < u) (hu : m.net.isLive u = true)
        (ht : IsTime (m.est.departAt u)) (hlogic : (m.net.node u).isLogic = true) :
        ∃ s, ((m.net.node s).isSink = true ∨ (m.net.node s).isPassThrough = true) ∧
          m.net.Reaches s u := by
      have hsize := lt_size_of_isLive hu
      exact ih (m.net.size - u) (hn ▸ Nat.sub_lt_sub_left (hlt.trans hsize) hlt) hlogic ht rfl
    have hfeeds {u : NodeId} (hf : m.net.Feeds u v) (htu : IsTime (m.est.departAt u)) :
        ∃ s, ((m.net.node s).isSink = true ∨ (m.net.node s).isPassThrough = true) ∧
          m.net.Reaches s v := by
      obtain ⟨l, hl, rfl⟩ := hf
      rcases Node.kind_of_operand (hv.unmapped u) hl with hu | hu | hu
      · obtain ⟨s, hs, hreach⟩ := hup (hv.canonical.lt u l hl) (isLive_of_operand hl) htu hu
        exact ⟨s, hs, hreach.tail ⟨l, hl, rfl⟩⟩
      · exact ⟨u, .inr hu, .single ⟨l, hl, rfl⟩⟩
      · exact ⟨u, .inl hu, .single ⟨l, hl, rfl⟩⟩
    rcases (h.gate v hlogic).1 ht with ha | ⟨u, hf, hu⟩
    · obtain ⟨u, hlt, hu, huse⟩ := hc.exists_user hv ha hlogic
      have hlive := hc.live u hu
      rcases mem_uses huse with ⟨hgate, w, hw, hleaf⟩ | ⟨hother, l, hl, rfl⟩
      · obtain ⟨s, hs, hreach⟩ := hup hlt hlive ((h.gate u hgate).2 (.inl hu)) hgate
        exact ⟨s, hs, hreach.trans (hr.lists u w (List.mem_of_mem_head? hw) v hleaf)⟩
      · exact hfeeds ⟨l, hl, rfl⟩ (h.rest u hother)
    · exact hfeeds hf hu

theorem Backfilled.isTime_of_reaches (h : Backfilled m) {s : NodeId}
    (hs : (m.net.node s).isSink = true ∨ (m.net.node s).isPassThrough = true)
    (hreach : m.net.Reaches s v) : IsTime (m.est.departAt v) := by
  induction hreach with
  | refl =>
    exact h.rest s (hs.elim Node.not_isLogic_of_isSink Node.not_isLogic_of_isPassThrough)
  | @tail a b _ hstep ih =>
    cases hb : (m.net.node b).isLogic with
    | false => exact h.rest b hb
    | true => exact (h.gate b hb).2 (.inr ⟨a, hstep, ih⟩)

/-- A departure starts at a sink or a pass-through and goes down through consumers. -/
theorem Backfilled.isTime_iff (h : Backfilled m) (hv : Valid m) (hc : Consistent m) (hr : Rooted m)
    (hlogic : (m.net.node v).isLogic = true) : IsTime (m.est.departAt v) ↔
      ∃ s, ((m.net.node s).isSink = true ∨ (m.net.node s).isPassThrough = true) ∧
        m.net.Reaches s v :=
  ⟨h.exists_end hv hc hr hlogic, fun ⟨_, hs, hreach⟩ => h.isTime_of_reaches hs hreach⟩

/-- In every round a gate has a departure exactly if a sink or a pass-through depends on it. Where
every pass-through leads to a sink, that is exactly if a sink does. -/
theorem departs_iff (p : Params Single) (w : Workspace Single) {m m' : Mapper Single} {n : Nat}
    (hm : Mapper.start p w = .ok m) (hr : Rounds n m m') : ∃ m₁ m₂,
      Mapper.generateAll { m' with enumerated := 0 } = .ok m₁ ∧
      m₁.updateFanouts false = .ok m₂ ∧ m₂.net = m.net ∧
      (∀ v, (m₂.net.node v).isLogic = true → (m₂.est.departAt v ≠ .infinity ↔
        ∃ s, ((m₂.net.node s).isSink = true ∨ (m₂.net.node s).isPassThrough = true) ∧
          m₂.net.Reaches s v)) ∧
      ((∀ s, (m₂.net.node s).isPassThrough = true →
          ∃ t, (m₂.net.node t).isSink = true ∧ m₂.net.Reaches t s) →
        ∀ v, (m₂.net.node v).isLogic = true → (m₂.est.departAt v ≠ .infinity ↔
          ∃ s, (m₂.net.node s).isSink = true ∧ m₂.net.Reaches s v)) := by
  have hs := Started.of_start hm
  have hb := hs.between.rounds_ok hr
  obtain ⟨m₁, m₂, hm₁, hm₂, hv₁, hl₁, hs₁, hc₂⟩ := hb.survey_ok
  have hfilled := (updateFanouts_backfilled hv₁ hl₁).of_ok hm₂
  have hroot := hc₂.rooted (((hr.rooted hs).generateAll hb.valid).of_ok hm₁)
  have hiff (v : NodeId) (hv : (m₂.net.node v).isLogic = true) :=
    (hfilled.held v).isTime_iff.symm.trans (hfilled.isTime_iff hc₂.valid hc₂.consistent hroot hv)
  refine ⟨m₁, m₂, hm₁, hm₂, hb.net_survey hs₁ hc₂, hiff, fun hthrough v hv => (hiff v hv).trans ?_⟩
  constructor
  · rintro ⟨s, hsink | hpass, hreach⟩
    · exact ⟨s, hsink, hreach⟩
    · obtain ⟨t, ht, hts⟩ := hthrough s hpass
      exact ⟨t, ht, hts.trans hreach⟩
  · exact fun ⟨s, hsink, hreach⟩ => ⟨s, .inl hsink, hreach⟩

/-- A gate that is read by a pass-through that nothing reads. -/
def unread : Network := ⟨#[.const, .pi, .pi, .and (.ofNode 1) (.ofNode 2), .bar (.ofNode 3)]⟩

/-- The gate has a departure although there is no sink. -/
theorem departs_iff_unread : ∃ m m₁ m₂ : Mapper Single,
    Mapper.start .standard ⟨unread, none, #[]⟩ = .ok m ∧
      Mapper.generateAll { m with enumerated := 0 } = .ok m₁ ∧ m₁.updateFanouts false = .ok m₂ ∧
      m₂.est.departAt 3 ≠ .infinity ∧ ∀ s, (m₂.net.node s).isSink = false := by
  have hcanonical : unread.Canonical := isCanonical_iff.1 (by decide)
  obtain ⟨m, hm⟩ := start_ok (p := (.standard : Params Single)) (w := ⟨unread, none, #[]⟩)
    (by decide) (by decide) hcanonical (show ∀ n ∈ unread.nodes.toList, n.isMapped = false by decide)
  have hnet : m.net = unread := by
    rcases (Started.of_start hm).work with ⟨-, hw⟩ | ⟨hnot, -⟩
    · rw [Mapper.net, hw]
      rfl
    · exact absurd hcanonical hnot
  obtain ⟨m₁, m₂, hm₁, hm₂, hnet₂, hiff, -⟩ := departs_iff _ _ hm (.none m)
  rw [hnet₂, hnet] at hiff
  refine ⟨m, m₁, m₂, hm, hm₁, hm₂, (hiff 3 rfl).2 ⟨4, .inr rfl, .single ⟨.ofNode 3, by decide, rfl⟩⟩,
    fun s => ?_⟩
  rw [hnet₂, hnet]
  rcases Nat.lt_or_ge s 5 with hlt | hge
  · interval_cases s <;> rfl
  · rw [node_of_ge hge]
    rfl

end TechMap.Mapping
