import Mathlib
import TechMap.Proofs.Mapping.Rollback
import TechMap.Proofs.Numeric.Growth

/-! Limits on walks. Areas from zero up never make a sum smaller, so a walk that stops above its limit
would have answered more than the limit had it gone on. A limit only filters what the walk answers
without one. -/

namespace TechMap.Mapping.Cones

variable {α : Type} [Quantity α] {c : Cones α} {ext : NodeId → Nat} {root id : NodeId} {u : Usage}
  {cut w : Cut} {pending rest : List NodeId} {limit acc next : α} {r full : Except Refusal α}

/-- The answer `r` of a walk that has come to `acc` is the answer `full` that it gives without a
limit, filtered. -/
structure Filtered (limit acc : α) (r full : Except Refusal α) : Prop where
  grows : ∀ a, full = .ok a → Quantity.le acc a = true
  filters : ¬ Quantity.lt limit acc = true → ∀ a, r = .ok a ↔ full = .ok a ∧ Quantity.le a limit = true

variable [Growing α]

namespace Filtered

theorem done (hn : Quantity.le limit limit = true) (hacc : Quantity.le acc acc = true) :
    Filtered limit acc (.ok acc) (.ok acc) := by
  refine ⟨fun a ha => ?_, fun hunder a => ⟨fun ha => ⟨ha, ?_⟩, And.left⟩⟩
  · cases ha
    exact hacc
  · cases ha
    rwa [Growing.lt_iff hacc hn, not_not] at hunder

omit [Growing α] in
theorem stopped {e : Refusal} : Filtered limit acc (.error e) (.error e) :=
  ⟨by simp, by simp⟩

/-- What goes on from above the limit stays above it. -/
theorem checked (h : Filtered limit acc r full) (hn : Quantity.le limit limit = true)
    (hacc : Quantity.le acc acc = true) (a : α) :
    (if Quantity.lt limit acc = true then .error .overLimit else r) = .ok a ↔
      full = .ok a ∧ Quantity.le a limit = true := by
  split
  · rename_i hover
    rw [Growing.lt_iff hacc hn] at hover
    refine iff_of_false (by simp) fun ⟨ha, hle⟩ => ?_
    exact hover (Growing.trans (h.grows a ha) hle)
  · rename_i hunder
    exact h.filters hunder a

/-- A walk begins with a check, which always passes where there is no limit. -/
theorem started {r full : Usage × Except Refusal α} (h : Filtered limit acc r.2 full.2)
    (hn : Quantity.le limit limit = true) (hacc : Quantity.le acc acc = true) (u : Usage) (a : α) :
    (if Quantity.lt limit acc = true then (u, .error .overLimit) else r).2 = .ok a ↔
      (if Quantity.lt Quantity.infinity acc = true then (u, .error .overLimit) else full).2 = .ok a ∧
        Quantity.le a limit = true := by
  have hopen : ¬ Quantity.lt Quantity.infinity acc = true := by simp [Topped.not_lt]
  rw [apply_ite Prod.snd, if_neg hopen]
  exact h.checked hn hacc a

theorem spend (h : Filtered limit next r full) (hn : Quantity.le limit limit = true)
    (hle : Quantity.le acc next = true) : Filtered limit acc
      (if Quantity.lt limit next = true then .error .overLimit else r) full :=
  ⟨fun a ha => Growing.trans hle (h.grows a ha), fun _ => h.checked hn (Growing.le_self hle)⟩

end Filtered

/-- Every winner has an area from zero up. -/
def Priced (c : Cones α) : Prop :=
  ∀ v w, c.winner? v = some w → Quantity.le 0 (c.area w) = true

theorem use_filtered (hc : c.Falling) (hprice : c.Priced) (hn : Quantity.le limit limit = true)
    (hacc : Quantity.le 0 acc = true) (hp : c.Within root pending) :
    Filtered limit acc (c.use limit pending acc u).2 (c.use Quantity.infinity pending acc u).2 := by
  induction pending, acc, u using use_induction c Quantity.infinity with
  | done acc u =>
    rw [use, use]
    exact .done hn (Growing.le_self hacc)
  | dangling acc u id rest hn => exact absurd hn hp.get?_ne_none
  | inactive acc u id rest hlt hid hthrough =>
    rw [use_inactive hlt hid hthrough, use_inactive hlt hid hthrough]
    exact .stopped
  | skip acc u id rest hlt hid hthrough ih =>
    rw [use_skip hlt hid hthrough, use_skip hlt hid hthrough]
    exact ih hacc hp.tail
  | bare acc u id rest hid hlt h0 hnone =>
    rw [use_bare hid hlt h0 hnone, use_bare hid hlt h0 hnone]
    exact .stopped
  | overLimit acc u id rest w hid hlt h0 hw hover =>
    rw [Topped.not_lt] at hover
    cases hover
  | first acc u id rest w hid hlt h0 hw hunder ih =>
    have hle : Quantity.le acc (acc + c.area w) = true := Growing.le_add hacc (hprice id w hw)
    rw [use_charge hid hlt h0 hw, use_first hid hlt h0 hw hunder, apply_ite Prod.snd]
    exact (ih (Growing.trans hacc hle) (hc.within_append hp hid hw)).spend hn hle
  | more acc u id rest hid hlt h0 ih =>
    rw [use_more hid hlt h0, use_more hid hlt h0]
    exact ih hacc hp.tail
  | outOfRange acc u id rest hid hge =>
    rw [use_outOfRange hid hge, use_outOfRange hid hge]
    exact .stopped

theorem free_filtered (hc : c.Falling) (hprice : c.Priced) (hn : Quantity.le limit limit = true)
    (hacc : Quantity.le 0 acc = true) (hp : c.Within root pending) :
    Filtered limit acc (c.free limit pending acc u).2
      (c.free Quantity.infinity pending acc u).2 := by
  induction pending, acc, u using free_induction c Quantity.infinity with
  | done acc u =>
    rw [free, free]
    exact .done hn (Growing.le_self hacc)
  | dangling acc u id rest hn => exact absurd hn hp.get?_ne_none
  | skip acc u id rest hlt hid ih =>
    rw [free_skip hlt hid, free_skip hlt hid]
    exact ih hacc hp.tail
  | outOfRange acc u id rest hid hge =>
    rw [free_outOfRange hid hge, free_outOfRange hid hge]
    exact .stopped
  | bare acc u id rest hid hge hpos h0 hnone =>
    rw [free_bare hid hge hpos h0 hnone, free_bare hid hge hpos h0 hnone]
    exact .stopped
  | overLimit acc u id rest w hid hge hpos h0 hw hover =>
    rw [Topped.not_lt] at hover
    cases hover
  | last acc u id rest w hid hge hpos h0 hw hunder ih =>
    have hle : Quantity.le acc (acc + c.area w) = true := Growing.le_add hacc (hprice id w hw)
    rw [free_charge hid hge hpos h0 hw, free_last hid hge hpos h0 hw hunder, apply_ite Prod.snd]
    exact (ih (Growing.trans hacc hle) (hc.within_append hp hid hw)).spend hn hle
  | more acc u id rest hid hge hpos h0 ih =>
    rw [free_more hid hge hpos h0, free_more hid hge hpos h0]
    exact ih hacc hp.tail
  | idle acc u id rest hid hge h0 ih =>
    rw [free_idle hid hge h0, free_idle hid hge h0]
    exact ih hacc hp.tail

theorem zero_le_area (hlut : ∀ cost ∈ c.params.lutCost.toArray, Quantity.le 0 cost = true)
    (hmux : Quantity.le 0 c.params.muxCost = true) (hdepth : cut.muxDepth < 256) :
    Quantity.le 0 (c.area cut) = true := by
  unfold area Params.cutArea
  split
  · rename_i hpos
    exact Growing.zero_le_mul hmux hpos hdepth
  · rw [Array.getD_eq_getD_getElem?]
    cases hcost : c.params.lutCost.toArray[cut.size]? with
    | none => exact Growing.zero_le_zero
    | some cost => exact hlut cost (Array.mem_of_getElem? hcost)

theorem reference_filters (hc : c.Falling) (hprice : c.Priced)
    (hn : Quantity.le limit limit = true) (harea : Quantity.le 0 (c.area cut) = true)
    (hcut : ∀ l ∈ cut.leaves, l < c.net.size) (a : α) : (c.reference cut limit u).2 = .ok a ↔
      (c.reference cut Quantity.infinity u).2 = .ok a ∧ Quantity.le a limit = true := by
  have hle : Quantity.le 0 (0 + c.area cut) = true := Growing.le_add Growing.zero_le_zero harea
  have hp : c.Within c.net.size cut.leaves := fun l hl => ⟨hcut l hl, hcut l hl⟩
  exact (use_filtered hc hprice hn hle hp).started hn (Growing.le_self hle) _ a

theorem deref_filters (hc : c.Falling) (hprice : c.Priced) (hn : Quantity.le limit limit = true)
    (harea : Quantity.le 0 (c.area cut) = true) (hp : c.Within root cut.leaves) (a : α) :
    (c.deref cut limit u).2 = .ok a ↔
      (c.deref cut Quantity.infinity u).2 = .ok a ∧ Quantity.le a limit = true := by
  have hle : Quantity.le 0 (0 + c.area cut) = true := Growing.le_add Growing.zero_le_zero harea
  exact (free_filtered hc hprice hn hle hp).started hn (Growing.le_self hle) _ a

/-- Neither walk leaves the tables, under any limit. With a limit an attempt answers what it answers
without one if that is within the limit, and else refuses. So does taking out the winner of an active
gate where the counts are exact. -/
theorem budget_filters (c : Cones α) (u : Usage) (cut : Cut) (limit : α) (hc : c.Falling)
    (hf : u.fanouts.size = c.net.size) (hcut : ∀ l ∈ cut.leaves, l < c.net.size)
    (hlut : ∀ cost ∈ c.params.lutCost.toArray, Quantity.le 0 cost = true)
    (hmux : Quantity.le 0 c.params.muxCost = true) (hdepth : cut.muxDepth < 256)
    (hdepths : ∀ v w, c.winner? v = some w → w.muxDepth < 256)
    (hn : Quantity.le limit limit = true) :
    (u.Idle c.net → (∀ bound, (c.attempt cut bound u).2 ≠ .error .outOfRange) ∧
      ∀ a, (c.attempt cut limit u).2 = .ok a ↔
        (c.attempt cut Quantity.infinity u).2 = .ok a ∧ Quantity.le a limit = true) ∧
    ∀ ext root, c.Settled ext ∅ u → (c.net.node root).isLogic = true →
      u.active.getD root false = true → c.winner? root = some cut →
      (∀ bound, (c.deref cut bound u).2 ≠ .error .outOfRange) ∧
      ∀ a, (c.deref cut limit u).2 = .ok a ↔
        (c.deref cut Quantity.infinity u).2 = .ok a ∧ Quantity.le a limit = true := by
  have hprice : c.Priced := fun v w hw => zero_le_area hlut hmux (hdepths v w hw)
  have harea : Quantity.le 0 (c.area cut) = true := zero_le_area hlut hmux hdepth
  constructor
  · intro hi
    refine ⟨fun bound => ?_, fun a => reference_filters hc hprice hn harea hcut a⟩
    have hlogged : Logged Usage.unretain u.clearUndo (c.reference cut bound u) :=
      reference_logged hc hi hf hcut
    exact hlogged.inRange
  · intro ext root hu hroot hon hw
    refine ⟨fun bound => ?_, fun a => deref_filters hc hprice hn harea (hc.within hroot hw) a⟩
    have hlogged : Logged Usage.unrelease u.clearUndo (c.deref cut bound u) :=
      deref_logged hc hu hroot hon hw
    exact hlogged.inRange

/-- Gate 3 is a leaf of the two gates after it. -/
def shared : Cones Single where
  net := ⟨#[.const, .pi, .pi, .and (.ofNode 1) (.ofNode 2), .and (.ofNode 3) ⟨1, true⟩,
    .and (.ofNode 3) (.ofNode 4)]⟩
  cuts := #[[], [], [], [.ofSorted [1, 2]], [.ofSorted [1, 3]], [.ofSorted [3, 4]]]
  params := .standard

/-- Without a limit the cone of gate 5 costs 3, each of its gates once. -/
theorem attempt_shared : (shared.attempt (.ofSorted [3, 4]) Quantity.infinity
    ⟨Array.replicate 6 false, Array.replicate 6 0, []⟩).2 = .ok 3 := by
  have hopen (a : Single) : ¬ Quantity.lt Quantity.infinity a = true := by simp [Topped.not_lt]
  unfold attempt reference
  dsimp only
  rw [if_neg (hopen _)]
  show (shared.use _ [3, 4] _ _).2 = _
  rw [use_first (w := .ofSorted [1, 2]) rfl (by decide) (by decide) rfl (hopen _)]
  show (shared.use _ [1, 2, 4] _ _).2 = _
  rw [use_skip (by decide) (by decide) (by decide), use_skip (by decide) (by decide) (by decide),
    use_first (w := .ofSorted [1, 3]) rfl (by decide) (by decide) rfl (hopen _)]
  show (shared.use _ [1, 3] _ _).2 = _
  rw [use_skip (by decide) (by decide) (by decide), use_more rfl (by decide) (by decide), use]
  decide +kernel

/-- A limit of 3 lets the cone through, and one of 2 does not. -/
theorem budget_filters_shared : ∃ u v : Usage,
    u.fanouts = #[0, 0, 0, 0, 0, 0] ∧ v.fanouts = #[0, 0, 0, 2, 1, 1] ∧
      (shared.attempt (.ofSorted [3, 4]) 3 u).2 = .ok 3 ∧
      (∀ a, (shared.attempt (.ofSorted [3, 4]) 2 u).2 ≠ .ok a) ∧
      ∀ a, (shared.deref (.ofSorted [3, 4]) 2 v).2 = .ok a ↔
        (shared.deref (.ofSorted [3, 4]) .infinity v).2 = .ok a ∧ a.le 2 = true := by
  have hgate (v : NodeId) (hv : (shared.net.node v).isLogic = true) : v = 3 ∨ v = 4 ∨ v = 5 := by
    have hlt : v < 6 := Network.lt_size_of_isLive (Network.isLive_of_isLogic hv)
    interval_cases v
    iterate 3 cases hv
    iterate 3 decide
  have hfalling : shared.Falling := by
    intro v hv w hw
    rcases hgate v hv with rfl | rfl | rfl <;>
      · cases hw
        decide
  have hdepths (v : NodeId) (w : Cut) (hw : shared.winner? v = some w) : w.muxDepth < 256 := by
    have hlists : ∀ list ∈ shared.cuts, ∀ w ∈ list, w.muxDepth < 256 := by decide
    have hlt : v < 6 := by
      by_contra hge
      rw [winner?, Array.getD_eq_getD_getElem?, Array.getElem?_eq_none
        (show shared.cuts.size ≤ v from Nat.not_lt.1 hge)] at hw
      cases hw
    refine hlists _ ?_ w (List.mem_of_mem_head? hw)
    rw [Array.getD_eq_getD_getElem?, Array.getElem?_eq_getElem (show v < shared.cuts.size from hlt)]
    exact Array.getElem_mem _
  let u : Usage := ⟨Array.replicate 6 false, Array.replicate 6 0, []⟩
  let v : Usage := ⟨#[false, false, false, true, true, true], #[0, 0, 0, 2, 1, 1], []⟩
  have hidle : u.Idle shared.net := by
    intro v hv _
    rcases hgate v hv with rfl | rfl | rfl <;> rfl
  have hsettled : shared.Settled (fun v => if v = 5 then 1 else 0) ∅ v := by
    refine ⟨rfl, rfl, fun v hv => ?_, fun v hv => ?_⟩
    · rcases hgate v hv with rfl | rfl | rfl <;> decide
    · rcases hgate v hv with rfl | rfl | rfl <;> decide
  have hfilter (u : Usage) (limit : Single) (hf : u.fanouts.size = 6)
      (hlimit : Quantity.le limit limit = true) :=
    budget_filters shared u (.ofSorted [3, 4]) limit hfalling hf (by decide) (by decide +kernel)
      (by decide +kernel) (by decide) hdepths hlimit
  have htry (limit : Single) (hlimit : Quantity.le limit limit = true) (a : Single) :
      (shared.attempt (.ofSorted [3, 4]) limit u).2 = .ok a ↔ 3 = a ∧ Quantity.le a limit = true := by
    rw [((hfilter u limit rfl hlimit).1 hidle).2 a, attempt_shared, Except.ok.injEq]
  refine ⟨u, v, rfl, rfl, ?_, fun a ha => ?_, ?_⟩
  · exact (htry 3 (by decide +kernel) 3).2 ⟨rfl, by decide +kernel⟩
  · obtain ⟨rfl, hle⟩ := (htry 2 (by decide +kernel) a).1 ha
    exact absurd hle (by decide +kernel)
  · exact ((hfilter v 2 rfl (by decide +kernel)).2 _ 5 hsettled rfl rfl rfl).2

end TechMap.Mapping.Cones
