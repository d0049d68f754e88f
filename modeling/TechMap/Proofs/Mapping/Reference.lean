import Mathlib
import TechMap.Proofs.Mapping.Cone

/-! The two reference walks. While a walk goes, the counts of the gates differ from the demand of the
active nodes by what is still pending, so at its end they agree. A walk that stops early is taken
back by its log. -/

namespace TechMap.Mapping

/-- The counts of the gates, with `minus` still to be added and `plus` to be taken off, are what the
active nodes demand. Pass-throughs that active nodes use are active, unless they are in `minus`. -/
structure Tally (net : Network) (uses : NodeId → List NodeId) (u : Usage)
    (plus minus : List NodeId) : Prop where
  active : u.active.size = net.size
  fanouts : u.fanouts.size = net.size
  balance : ∀ v, (net.node v).isLogic = true →
    u.count v + minus.count v = demand net.size uses u.active v + plus.count v
  used : ∀ v, (net.node v).isLogic = true → (u.active.getD v false = true ↔ 0 < u.count v)
  through : ∀ v, u.active.getD v false = true → ∀ l ∈ uses v, (net.node l).isPassThrough = true →
    u.active.getD l false = true ∨ l ∈ minus

namespace Tally

variable {net : Network} {uses : NodeId → List NodeId} {u : Usage} {plus minus : List NodeId}

/-- Nothing is used from outside. -/
theorem counted (h : Tally net uses u plus minus) :
    Balance net (fun _ => 0) uses u plus minus :=
  ⟨h.active, h.fanouts, fun v hv => by rw [Nat.zero_add]; exact h.balance v hv, h.used⟩

theorem of_counted (h : Balance net (fun _ => 0) uses u plus minus)
    (hthrough : ∀ v, u.active.getD v false = true → ∀ l ∈ uses v,
      (net.node l).isPassThrough = true → u.active.getD l false = true ∨ l ∈ minus) :
    Tally net uses u plus minus :=
  ⟨h.active, h.fanouts, fun v hv => by simpa using h.counts v hv, h.used, hthrough⟩

theorem congr {u' : Usage} (h : Tally net uses u plus minus) (hactive : u'.active = u.active)
    (hfanouts : u'.fanouts = u.fanouts) : Tally net uses u' plus minus := by
  have hcount (v : NodeId) : u'.count v = u.count v := by rw [Usage.count, hfanouts]; rfl
  refine ⟨hactive ▸ h.active, hfanouts ▸ h.fanouts, fun v hv => ?_, fun v hv => ?_,
    hactive ▸ h.through⟩
  · rw [hcount, hactive]; exact h.balance v hv
  · rw [hcount, hactive]; exact h.used v hv

theorem clearUndo (h : Tally net uses u plus minus) : Tally net uses u.clearUndo plus minus :=
  h.congr rfl rfl

end Tally

namespace Cones

variable {α : Type} {c : Cones α} {uses : NodeId → List NodeId} {root id : NodeId} {u : Usage}
  {plus pending : List NodeId} {limit acc : α}

/-- Below `root` every gate has a winner, whose leaves are what it uses. -/
def Winning (c : Cones α) (uses : NodeId → List NodeId) (root : NodeId) : Prop :=
  ∀ v < root, (c.net.node v).isLogic = true → ∃ w, c.winner? v = some w ∧ uses v = w.leaves ∧
    ∀ l ∈ w.leaves, l < v ∧ c.net.isLive l = true

/-- Below `root`, and in the table. -/
def Below (c : Cones α) (root : NodeId) (pending : List NodeId) : Prop :=
  ∀ x ∈ pending, x < root ∧ c.net.isLive x = true

theorem Winning.ranked (h : c.Winning uses root) : c.Ranked uses root := by
  intro v hv hl
  obtain ⟨w, hs, hu, hw⟩ := h v hv hl
  exact ⟨w, hs, hu, fun l hl => (hw l hl).1⟩

theorem Below.within (h : c.Below root pending) : c.Within root pending :=
  fun x hx => ⟨(h x hx).1, Network.lt_size_of_isLive (h x hx).2⟩

/-- A walk changes gates below its root only. -/
theorem same_of_outside {net : Network} {v : NodeId} {same : Prop}
    (h : v < root ∧ (net.node v).isLogic = true ∨ same)
    (hv : (net.node v).isLogic = false ∨ root ≤ v) : same := by
  refine h.resolve_left fun ⟨hlt, hlogic⟩ => ?_
  rcases hv with hv | hv
  · rw [hv] at hlogic
    cases hlogic
  · exact absurd hlt (Nat.not_lt.2 hv)

/-- What a walk that releases leaves. -/
structure Freed (c : Cones α) (uses : NodeId → List NodeId) (root : NodeId) (u : Usage)
    (r : Usage × Except Refusal α) : Prop where
  reverts : Usage.Reverts Usage.unrelease u r.1
  refusal : ∀ e, r.2 = .error e → e = .overLimit
  tally : ∀ a, r.2 = .ok a → Tally c.net uses r.1 [] []
  flags : ∀ v, v < root ∧ (c.net.node v).isLogic = true ∨
    r.1.active.getD v false = u.active.getD v false

theorem free_spec [Quantity α] (hw : c.Winning uses root) (h : Tally c.net uses u pending [])
    (hp : c.Below root pending) : Freed c uses root u (c.free limit pending acc u) := by
  have hr : c.Released (fun _ => 0) uses root limit acc u (c.free limit pending acc u) :=
    free_released hw.ranked h.counted hp.within
  refine ⟨hr.reverts, fun e he => (hr.refusal e he).1, fun a ha => ?_,
    fun v => (hr.frame v).imp_right And.left⟩
  refine .of_counted (hr.balance a ha) fun v hv l hl hpass => .inl ?_
  have hon := (h.through v (hr.falls v hv) l hl hpass).resolve_right (List.not_mem_nil)
  rcases hr.frame l with hlogic | hsame
  · exact absurd rfl (ne_of_isPassThrough hpass hlogic.2)
  · exact hsame.1.trans hon

/-- What a walk that retains leaves. -/
structure Used (c : Cones α) (uses : NodeId → List NodeId) (root : NodeId) (u : Usage)
    (plus pending : List NodeId) (r : Usage × Except Refusal α) : Prop where
  reverts : Usage.Reverts Usage.unretain u r.1
  refusal : r.2 ≠ .error .outOfRange
  tally : ∀ a, r.2 = .ok a → Tally c.net uses r.1 plus []
  through : ∀ a, r.2 = .ok a → ∀ l ∈ pending, (c.net.node l).isPassThrough = true →
    r.1.active.getD l false = true
  flags : ∀ v, v < root ∧ (c.net.node v).isLogic = true ∨
    r.1.active.getD v false = u.active.getD v false

theorem use_spec [Quantity α] (hw : c.Winning uses root) (h : Tally c.net uses u plus pending)
    (hp : c.Below root pending) : Used c uses root u plus pending (c.use limit pending acc u) := by
  have hr : c.Retained (fun _ => 0) uses root plus pending acc u (c.use limit pending acc u) :=
    use_retained hw.ranked h.counted hp.within
  generalize c.use limit pending acc u = r at hr
  have hsame (l : NodeId) (hpass : (c.net.node l).isPassThrough = true) :
      r.1.active.getD l false = u.active.getD l false := by
    rcases hr.frame l with hlogic | hsame
    · exact absurd rfl (ne_of_isPassThrough hpass hlogic.2)
    · exact hsame.1
  refine ⟨hr.reverts, hr.refusal, fun a ha => ?_, fun a ha l hl hpass => ?_,
    fun v => (hr.frame v).imp_right And.left⟩
  · obtain ⟨added, ⟨-, hmem⟩, -, hthrough⟩ := hr.added a ha
    refine .of_counted (hr.balance a ha) fun v hv l hl hpass => .inl ?_
    rw [hsame l hpass]
    cases hold : u.active.getD v false with
    | true =>
      rcases h.through v hold l hl hpass with hon | hpend
      · exact hon
      · exact hthrough l (List.mem_append_left _ hpend) hpass
    | false =>
      have hv' : v ∈ added := by
        rcases hr.frame v with hlogic | he
        · exact (hmem v).2 ⟨hlogic.2, hv, hold⟩
        · rw [he.1, hold] at hv
          cases hv
      exact hthrough l (List.mem_append_right _ (List.mem_flatMap.2 ⟨v, hv', hl⟩)) hpass
  · obtain ⟨added, -, -, hthrough⟩ := hr.added a ha
    exact (hsame l hpass).trans (hthrough l (List.mem_append_left _ hl) hpass)

theorem deref_spec [Quantity α] {cut : Cut} (limit : α) (hw : c.Winning uses root)
    (h : Tally c.net uses u cut.leaves []) (hp : c.Below root cut.leaves) :
    Freed c uses root u.clearUndo (c.deref cut limit u) := by
  unfold deref
  extract_lets u₁ acc
  split
  · exact ⟨.refl _, by simp, by simp, fun v => .inr rfl⟩
  · exact free_spec hw h.clearUndo hp

/-- A walk empties the log before it starts. -/
theorem reference_congr [Quantity α] {cut : Cut} {u' : Usage} (h : u.clearUndo = u'.clearUndo) :
    c.reference cut limit u = c.reference cut limit u' := by
  rw [reference, reference, h]

theorem reference_spec [Quantity α] {cut : Cut} (limit : α) (hw : c.Winning uses root)
    (h : Tally c.net uses u [] []) (hp : c.Below root cut.leaves) :
    Used c uses root u.clearUndo cut.leaves cut.leaves (c.reference cut limit u) := by
  have h' : Tally c.net uses u cut.leaves cut.leaves :=
    { h with balance := fun v hv => by have := h.balance v hv; simp at this; omega
             through := fun v hv l hl hpass => (h.through v hv l hl hpass).imp_right (by simp) }
  unfold reference
  extract_lets u₁ acc
  split
  · exact ⟨.refl _, by simp, by simp, by simp, fun v => .inr rfl⟩
  · exact use_spec hw h'.clearUndo hp

/-- The cover would be consistent with this cut put in. -/
def Fitting (net : Network) (uses : NodeId → List NodeId) (u : Usage) (cut : Cut) : Prop :=
  ∃ u', Tally net uses u' cut.leaves [] ∧
    (∀ l ∈ cut.leaves, (net.node l).isPassThrough = true → u'.active.getD l false = true) ∧
    ∀ v, (net.node v).isPassThrough = true → u'.active.getD v false = u.active.getD v false

theorem Fitting.congr {net : Network} {u' : Usage} {cut : Cut} (h : Fitting net uses u cut)
    (hactive : u'.active = u.active) : Fitting net uses u' cut := by
  obtain ⟨u₀, ht, hthrough, hsame⟩ := h
  exact ⟨u₀, ht, hthrough, fun v hv => by rw [hactive]; exact hsame v hv⟩

theorem Used.fitting {cut : Cut} {r : Usage × Except Refusal α} {a : α}
    (h : Used c uses root u cut.leaves cut.leaves r) (hr : r.2 = .ok a) :
    Fitting c.net uses u cut := by
  refine ⟨r.1, h.tally a hr, h.through a hr, fun v hv => ?_⟩
  rcases h.flags v with hf | hf
  · exact absurd rfl (ne_of_isPassThrough hv hf.2)
  · exact hf

/-- A fitting cut can be put in, if there is no limit. -/
theorem reference_ok [Quantity α] {cut : Cut} (hlim : ∀ a : α, Quantity.lt limit a = false)
    (hw : c.Winning uses root) (h : Tally c.net uses u [] [])
    (hp : c.Below root cut.leaves) (hfit : Fitting c.net uses u cut) :
    ∃ u' a, c.reference cut limit u = (u', .ok a) := by
  obtain ⟨u', ht, hthrough, hflags⟩ := hfit
  have hgate (v : NodeId) (hv : (c.net.node v).isLogic = true) (h0 : 0 < u'.count v) :
      u'.active.getD v false = true := (ht.used v hv).2 h0
  have hclosed (v : NodeId) (hv : c.Runs u' v) (hid : (c.net.node v).isLogic = true) (l : NodeId)
      (hl : l ∈ uses v) : c.Runs u' l := by
    have ha := hv (.inl hid)
    rintro (hlogic | hpass)
    · have hpos := demand_pos (ht.counted.lt_active hid).1 ha hl
      have hb := ht.balance l hlogic
      simp only [List.count_nil] at hb
      exact hgate l hlogic (by omega)
    · rcases ht.through v ha l hl hpass with h | h
      · exact h
      · cases h
  have hleaves (l : NodeId) (hl : l ∈ cut.leaves) : c.Runs u' l := by
    rintro (hlogic | hpass)
    · have hpos := List.count_pos_iff.2 hl
      have hb := ht.balance l hlogic
      simp only [List.count_nil] at hb
      exact hgate l hlogic (by omega)
    · exact hthrough l hl hpass
  unfold reference
  extract_lets u₁ acc
  rw [if_neg (by simp [hlim])]
  exact use_succeeds hlim hw.ranked (fun v hv hid _ => hclosed v hv hid) h.fanouts
    (fun v hv hpass => (hflags v hpass).symm.trans (hv (.inr hpass))) hp.within hleaves

/-- An attempt leaves the counts as they were. -/
theorem attempt_spec [Quantity α] {cut : Cut} (hw : c.Winning uses root)
    (h : Tally c.net uses u [] []) (hp : c.Below root cut.leaves) :
    (c.attempt cut limit u).1 = u.clearUndo ∧ (c.attempt cut limit u).2 ≠ .error .outOfRange ∧
      ∀ a, (c.attempt cut limit u).2 = .ok a → Fitting c.net uses u cut := by
  have hused := reference_spec limit hw h hp
  unfold attempt
  exact ⟨hused.reverts.foldl, hused.refusal, fun a ha => hused.fitting ha⟩

end Cones

end TechMap.Mapping
