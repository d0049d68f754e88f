import Mathlib
import TechMap.Proofs.Mapping.Balance

/-! The two reference walks over any counts that balance. Each move of a walk has its equation. What a
walk takes out or puts in is a list without repetition of the gates whose flag it changes, and it sums
their areas in that order. -/

namespace TechMap.Mapping

theorem ne_of_isPassThrough {net : Network} {l id : NodeId}
    (hp : (net.node l).isPassThrough = true) (hid : (net.node id).isLogic = true) : l ≠ id := by
  rintro rfl
  cases hn : net.node l <;> simp_all [Node.isPassThrough, Node.isLogic]

/-- The gates that are active in `a` and not in `b`, each once. -/
def Dropped (net : Network) (a b : Array Bool) (ids : List NodeId) : Prop :=
  ids.Nodup ∧ ∀ v, v ∈ ids ↔
    (net.node v).isLogic = true ∧ a.getD v false = true ∧ b.getD v false = false

namespace Usage

theorem getD_active_release {id : NodeId} (u : Usage) {v : NodeId} (h : v ≠ id) :
    (u.release id).active.getD v false = u.active.getD v false := by
  rw [active_release]
  split
  · simp only [Array.getD_eq_getD_getElem?]
    rw [Array.getElem?_setIfInBounds_ne (Ne.symm h)]
  · rfl

theorem getD_active_retain {id : NodeId} (u : Usage) {v : NodeId} (h : v ≠ id) :
    (u.retain id).active.getD v false = u.active.getD v false := by
  rw [active_retain]
  split
  · simp only [Array.getD_eq_getD_getElem?]
    rw [Array.getElem?_setIfInBounds_ne (Ne.symm h)]
  · rfl

/-- A count that is zero after a retain was so before. -/
theorem count_of_retain {id v : NodeId} (u : Usage) (h : (u.retain id).count v = 0) :
    u.count v = 0 := by
  by_cases hf : id < u.fanouts.size
  · rw [u.count_retain_eq hf] at h
    omega
  · rwa [count, fanouts_retain, Array.setIfInBounds, dif_neg hf] at h

end Usage

namespace Cones

variable {α : Type} {c : Cones α} {ext : NodeId → Nat} {uses : NodeId → List NodeId}
  {root id : NodeId} {u : Usage} {plus pending rest : List NodeId} {limit acc acc' : α}
  {r : Usage × Except Refusal α}

/-- Below `root` every gate has a winner. Its leaves are what the gate uses, and come before it. -/
def Ranked (c : Cones α) (uses : NodeId → List NodeId) (root : NodeId) : Prop :=
  ∀ v < root, (c.net.node v).isLogic = true → ∃ w, c.winner? v = some w ∧ uses v = w.leaves ∧
    ∀ l ∈ w.leaves, l < v

/-- Below `root`, and in the table. -/
def Within (c : Cones α) (root : NodeId) (pending : List NodeId) : Prop :=
  ∀ x ∈ pending, x < root ∧ x < c.net.size

theorem Within.winner (hw : c.Ranked uses root) (h : c.Within root (id :: rest))
    (hid : (c.net.node id).isLogic = true) :
    ∃ w, c.winner? id = some w ∧ uses id = w.leaves ∧ c.Within root (w.leaves ++ rest) := by
  obtain ⟨hlt, hsize⟩ := h id (by simp)
  obtain ⟨w, hs, hu, hl⟩ := hw id hlt hid
  refine ⟨w, hs, hu, fun x hx => ?_⟩
  rcases List.mem_append.1 hx with hx | hx
  · exact ⟨lt_trans (hl x hx) hlt, lt_trans (hl x hx) hsize⟩
  · exact h x (List.mem_cons_of_mem _ hx)

theorem Within.get?_ne_none (h : c.Within root (id :: rest)) : c.net.get? id ≠ none := by
  simp [Network.get?_eq_some (h id (by simp)).2]

theorem Within.tail (h : c.Within root (id :: rest)) : c.Within root rest :=
  fun x hx => h x (List.mem_cons_of_mem _ hx)

section Steps

variable [Quantity α] {w : Cut}

theorem free_skip (hlt : id < c.net.size) (hid : ¬ (c.net.node id).isLogic = true) :
    c.free limit (id :: rest) acc u = c.free limit rest acc u := by
  rw [free, Network.get?_eq_some hlt]
  simp [hid]

theorem use_skip (hlt : id < c.net.size) (hid : ¬ (c.net.node id).isLogic = true)
    (hthrough : ¬ ((c.net.node id).isPassThrough && !u.active.getD id false) = true) :
    c.use limit (id :: rest) acc u = c.use limit rest acc u := by
  rw [use, Network.get?_eq_some hlt]
  dsimp only
  rw [if_pos (by simpa using hid), if_neg hthrough]

theorem use_inactive (hlt : id < c.net.size) (hid : ¬ (c.net.node id).isLogic = true)
    (hthrough : ((c.net.node id).isPassThrough && !u.active.getD id false) = true) :
    c.use limit (id :: rest) acc u = (u, .error (.inactiveLeaf id)) := by
  rw [use, Network.get?_eq_some hlt]
  dsimp only
  rw [if_pos (by simpa using hid), if_pos hthrough]

variable (hid : (c.net.node id).isLogic = true)
include hid

omit [Quantity α] in
theorem get?_of_isLogic : c.net.get? id = some (c.net.node id) :=
  Network.get?_eq_some (Network.lt_size_of_isLive (Network.isLive_of_isLogic hid))

theorem free_outOfRange (hf : u.fanouts.size ≤ id) :
    c.free limit (id :: rest) acc u = (u, .error .outOfRange) := by
  rw [free, get?_of_isLogic hid]
  simp [hid, hf]

theorem free_idle (hf : ¬ u.fanouts.size ≤ id) (h0 : ¬ 0 < u.count id) :
    c.free limit (id :: rest) acc u = c.free limit rest acc u := by
  rw [free, get?_of_isLogic hid]
  simp [hid, hf, h0]

section Free

variable (hf : ¬ u.fanouts.size ≤ id) (hpos : 0 < u.count id)
include hf hpos

theorem free_bare (h0 : (u.release id).count id = 0) (hw : c.winner? id = none) :
    c.free limit (id :: rest) acc u = (u.release id, .error (.noCuts id)) := by
  rw [free, get?_of_isLogic hid]
  simp [hid, hf, hpos, h0, hw]

/-- A gate that loses its last use is paid for, if the limit allows it. -/
theorem free_charge (h0 : (u.release id).count id = 0) (hw : c.winner? id = some w) :
    c.free limit (id :: rest) acc u =
      if Quantity.lt limit (acc + c.area w) = true then (u.release id, .error .overLimit)
      else c.free limit (w.leaves ++ rest) (acc + c.area w) (u.release id) := by
  rw [free, get?_of_isLogic hid]
  simp [hid, hf, hpos, h0, hw]

theorem free_over (h0 : (u.release id).count id = 0) (hw : c.winner? id = some w)
    (hover : Quantity.lt limit (acc + c.area w) = true) :
    c.free limit (id :: rest) acc u = (u.release id, .error .overLimit) := by
  rw [free_charge hid hf hpos h0 hw, if_pos hover]

theorem free_last (h0 : (u.release id).count id = 0) (hw : c.winner? id = some w)
    (hunder : ¬ Quantity.lt limit (acc + c.area w) = true) :
    c.free limit (id :: rest) acc u =
      c.free limit (w.leaves ++ rest) (acc + c.area w) (u.release id) := by
  rw [free_charge hid hf hpos h0 hw, if_neg hunder]

theorem free_more (h0 : ¬ (u.release id).count id = 0) :
    c.free limit (id :: rest) acc u = c.free limit rest acc (u.release id) := by
  rw [free, get?_of_isLogic hid]
  simp [hid, hf, hpos, h0]

end Free

theorem use_outOfRange (hf : ¬ id < u.fanouts.size) :
    c.use limit (id :: rest) acc u = (u, .error .outOfRange) := by
  rw [use, get?_of_isLogic hid]
  simp [hid, hf]

section Use

variable (hf : id < u.fanouts.size)
include hf

theorem use_bare (h0 : u.count id = 0) (hw : c.winner? id = none) :
    c.use limit (id :: rest) acc u = (u.retain id, .error (.noCuts id)) := by
  rw [use, get?_of_isLogic hid]
  simp [hid, hf, h0, hw]

/-- A gate with its first use is paid for, if the limit allows it. -/
theorem use_charge (h0 : u.count id = 0) (hw : c.winner? id = some w) :
    c.use limit (id :: rest) acc u =
      if Quantity.lt limit (acc + c.area w) = true then (u.retain id, .error .overLimit)
      else c.use limit (w.leaves ++ rest) (acc + c.area w) (u.retain id) := by
  rw [use, get?_of_isLogic hid]
  simp [hid, hf, h0, hw]

theorem use_over (h0 : u.count id = 0) (hw : c.winner? id = some w)
    (hover : Quantity.lt limit (acc + c.area w) = true) :
    c.use limit (id :: rest) acc u = (u.retain id, .error .overLimit) := by
  rw [use_charge hid hf h0 hw, if_pos hover]

theorem use_first (h0 : u.count id = 0) (hw : c.winner? id = some w)
    (hunder : ¬ Quantity.lt limit (acc + c.area w) = true) :
    c.use limit (id :: rest) acc u =
      c.use limit (w.leaves ++ rest) (acc + c.area w) (u.retain id) := by
  rw [use_charge hid hf h0 hw, if_neg hunder]

theorem use_more (h0 : ¬ u.count id = 0) :
    c.use limit (id :: rest) acc u = c.use limit rest acc (u.retain id) := by
  rw [use, get?_of_isLogic hid]
  simp [hid, hf, h0]

end Use

end Steps

section Induction

variable [Quantity α] {motive : List NodeId → α → Usage → Prop}

/-- The moves of a walk that releases. -/
@[elab_as_elim]
theorem free_induction (c : Cones α) (limit : α) (done : ∀ acc u, motive [] acc u)
    (dangling : ∀ acc u id rest, c.net.get? id = none → motive (id :: rest) acc u)
    (skip : ∀ acc u id rest, id < c.net.size → ¬ (c.net.node id).isLogic = true →
      motive rest acc u → motive (id :: rest) acc u)
    (outOfRange : ∀ acc u id rest, (c.net.node id).isLogic = true → u.fanouts.size ≤ id →
      motive (id :: rest) acc u)
    (bare : ∀ acc u id rest, (c.net.node id).isLogic = true → ¬ u.fanouts.size ≤ id →
      0 < u.count id → (u.release id).count id = 0 → c.winner? id = none → motive (id :: rest) acc u)
    (overLimit : ∀ acc u id rest w, (c.net.node id).isLogic = true → ¬ u.fanouts.size ≤ id →
      0 < u.count id → (u.release id).count id = 0 → c.winner? id = some w →
      Quantity.lt limit (acc + c.area w) = true → motive (id :: rest) acc u)
    (last : ∀ acc u id rest w, (c.net.node id).isLogic = true → ¬ u.fanouts.size ≤ id →
      0 < u.count id → (u.release id).count id = 0 → c.winner? id = some w →
      ¬ Quantity.lt limit (acc + c.area w) = true →
      motive (w.leaves ++ rest) (acc + c.area w) (u.release id) → motive (id :: rest) acc u)
    (more : ∀ acc u id rest, (c.net.node id).isLogic = true → ¬ u.fanouts.size ≤ id →
      0 < u.count id → ¬ (u.release id).count id = 0 → motive rest acc (u.release id) →
      motive (id :: rest) acc u)
    (idle : ∀ acc u id rest, (c.net.node id).isLogic = true → ¬ u.fanouts.size ≤ id →
      ¬ 0 < u.count id → motive rest acc u → motive (id :: rest) acc u)
    (pending : List NodeId) (acc : α) (u : Usage) : motive pending acc u := by
  induction pending, acc, u using free.induct c limit with
  | case1 acc u => exact done acc u
  | case2 acc u id rest hn => exact dangling acc u id rest hn
  | case3 acc u id rest node hn hl ih =>
    obtain ⟨hlt, rfl⟩ := Network.get?_eq_some_iff.1 hn
    exact skip acc u id rest hlt (by simpa using hl) ih
  | case4 acc u id rest node hn hl hge =>
    obtain ⟨-, rfl⟩ := Network.get?_eq_some_iff.1 hn
    exact outOfRange acc u id rest (by simpa using hl) hge
  | case5 acc u id rest node hn hl hge hpos _ u₁ h0 hw =>
    obtain ⟨-, rfl⟩ := Network.get?_eq_some_iff.1 hn
    exact bare acc u id rest (by simpa using hl) hge hpos h0 hw
  | case6 acc u id rest node hn hl hge hpos _ u₁ h0 w hw next hover =>
    obtain ⟨-, rfl⟩ := Network.get?_eq_some_iff.1 hn
    exact overLimit acc u id rest w (by simpa using hl) hge hpos h0 hw hover
  | case7 acc u id rest node hn hl hge hpos _ u₁ h0 w hw next hunder ih =>
    obtain ⟨-, rfl⟩ := Network.get?_eq_some_iff.1 hn
    exact last acc u id rest w (by simpa using hl) hge hpos h0 hw hunder ih
  | case8 acc u id rest node hn hl hge hpos _ u₁ h0 ih =>
    obtain ⟨-, rfl⟩ := Network.get?_eq_some_iff.1 hn
    exact more acc u id rest (by simpa using hl) hge hpos h0 ih
  | case9 acc u id rest node hn hl hge h0 ih =>
    obtain ⟨-, rfl⟩ := Network.get?_eq_some_iff.1 hn
    exact idle acc u id rest (by simpa using hl) hge h0 ih

/-- The moves of a walk that retains. -/
@[elab_as_elim]
theorem use_induction (c : Cones α) (limit : α) (done : ∀ acc u, motive [] acc u)
    (dangling : ∀ acc u id rest, c.net.get? id = none → motive (id :: rest) acc u)
    (inactive : ∀ acc u id rest, id < c.net.size → ¬ (c.net.node id).isLogic = true →
      ((c.net.node id).isPassThrough && !u.active.getD id false) = true → motive (id :: rest) acc u)
    (skip : ∀ acc u id rest, id < c.net.size → ¬ (c.net.node id).isLogic = true →
      ¬ ((c.net.node id).isPassThrough && !u.active.getD id false) = true →
      motive rest acc u → motive (id :: rest) acc u)
    (bare : ∀ acc u id rest, (c.net.node id).isLogic = true → id < u.fanouts.size →
      u.count id = 0 → c.winner? id = none → motive (id :: rest) acc u)
    (overLimit : ∀ acc u id rest w, (c.net.node id).isLogic = true → id < u.fanouts.size →
      u.count id = 0 → c.winner? id = some w → Quantity.lt limit (acc + c.area w) = true →
      motive (id :: rest) acc u)
    (first : ∀ acc u id rest w, (c.net.node id).isLogic = true → id < u.fanouts.size →
      u.count id = 0 → c.winner? id = some w → ¬ Quantity.lt limit (acc + c.area w) = true →
      motive (w.leaves ++ rest) (acc + c.area w) (u.retain id) → motive (id :: rest) acc u)
    (more : ∀ acc u id rest, (c.net.node id).isLogic = true → id < u.fanouts.size →
      ¬ u.count id = 0 → motive rest acc (u.retain id) → motive (id :: rest) acc u)
    (outOfRange : ∀ acc u id rest, (c.net.node id).isLogic = true → ¬ id < u.fanouts.size →
      motive (id :: rest) acc u)
    (pending : List NodeId) (acc : α) (u : Usage) : motive pending acc u := by
  induction pending, acc, u using use.induct c limit with
  | case1 acc u => exact done acc u
  | case2 acc u id rest hn => exact dangling acc u id rest hn
  | case3 acc u id rest node hn hl hthrough =>
    obtain ⟨hlt, rfl⟩ := Network.get?_eq_some_iff.1 hn
    exact inactive acc u id rest hlt (by simpa using hl) hthrough
  | case4 acc u id rest node hn hl hthrough ih =>
    obtain ⟨hlt, rfl⟩ := Network.get?_eq_some_iff.1 hn
    exact skip acc u id rest hlt (by simpa using hl) hthrough ih
  | case5 acc u id rest node hn hl hlt h0 _ hw =>
    obtain ⟨-, rfl⟩ := Network.get?_eq_some_iff.1 hn
    exact bare acc u id rest (by simpa using hl) hlt h0 hw
  | case6 acc u id rest node hn hl hlt h0 _ w hw next hover =>
    obtain ⟨-, rfl⟩ := Network.get?_eq_some_iff.1 hn
    exact overLimit acc u id rest w (by simpa using hl) hlt h0 hw hover
  | case7 acc u id rest node hn hl hlt h0 _ u₁ w hw next hunder ih =>
    obtain ⟨-, rfl⟩ := Network.get?_eq_some_iff.1 hn
    exact first acc u id rest w (by simpa using hl) hlt h0 hw hunder ih
  | case8 acc u id rest node hn hl hlt h0 _ ih =>
    obtain ⟨-, rfl⟩ := Network.get?_eq_some_iff.1 hn
    exact more acc u id rest (by simpa using hl) hlt h0 ih
  | case9 acc u id rest node hn hl hge =>
    obtain ⟨-, rfl⟩ := Network.get?_eq_some_iff.1 hn
    exact outOfRange acc u id rest (by simpa using hl) hge

end Induction

/-- The area of a node's winner. -/
def areaAt [Quantity α] (c : Cones α) (id : NodeId) : α := ((c.winner? id).map c.area).getD 0

/-- The areas of the nodes added to `acc` in turn. -/
def total [Quantity α] (c : Cones α) (acc : α) (ids : List NodeId) : α :=
  ids.foldl (fun acc id => acc + c.areaAt id) acc

theorem total_cons [Quantity α] {w : Cut} (h : c.winner? id = some w) (acc : α)
    (ids : List NodeId) : c.total acc (id :: ids) = c.total (acc + c.area w) ids := by
  simp [total, areaAt, h]

/-- What a walk that releases leaves. -/
structure Released [Quantity α] (c : Cones α) (ext : NodeId → Nat) (uses : NodeId → List NodeId)
    (root : NodeId) (limit acc : α) (u : Usage) (r : Usage × Except Refusal α) : Prop where
  reverts : Usage.Reverts Usage.unrelease u r.1
  refusal : ∀ e, r.2 = .error e → e = .overLimit ∧ ∃ a, Quantity.lt limit a = true
  balance : ∀ a, r.2 = .ok a → Balance c.net ext uses r.1 [] []
  freed : ∀ a, r.2 = .ok a → ∃ freed, Dropped c.net u.active r.1.active freed ∧
    a = c.total acc freed
  falls : ∀ v, r.1.active.getD v false = true → u.active.getD v false = true
  frame : ∀ v, v < root ∧ (c.net.node v).isLogic = true ∨
    r.1.active.getD v false = u.active.getD v false ∧ r.1.count v = u.count v

variable [Quantity α]

theorem Released.done (h : Balance c.net ext uses u [] []) :
    Released c ext uses root limit acc u (u, .ok acc) where
  reverts := .refl u
  refusal := by simp
  balance _ _ := h
  freed a ha := ⟨[], ⟨List.nodup_nil, by simp⟩, by simpa [total] using ha.symm⟩
  falls _ hv := hv
  frame _ := .inr ⟨rfl, rfl⟩

theorem Released.refused (h : ∃ a, Quantity.lt limit a = true) :
    Released c ext uses root limit acc u (u, .error .overLimit) where
  reverts := .refl u
  refusal e he := ⟨by simpa using he.symm, h⟩
  balance := by simp
  freed := by simp
  falls _ hv := hv
  frame _ := .inr ⟨rfl, rfl⟩

/-- A step back over one release, but for the freed gates. -/
theorem Released.release (h : Balance c.net ext uses u (id :: rest) [])
    (hid : (c.net.node id).isLogic = true) (hlt : id < root)
    (hr : Released c ext uses root limit acc' (u.release id) r)
    (hfreed : ∀ a, r.2 = .ok a → ∃ freed, Dropped c.net u.active r.1.active freed ∧
      a = c.total acc freed) :
    Released c ext uses root limit acc u r := by
  obtain ⟨-, -, hf⟩ := h.lt_active hid
  have hpos := h.count_pos hid
  have hold := (h.used id hid).2 hpos
  refine ⟨hr.reverts.step rfl ?_, hr.refusal, hr.balance, hfreed, fun v hv => ?_, fun v => ?_⟩
  · exact Usage.unrelease_release hf hpos fun _ => hold
  · by_cases he : v = id
    · exact he ▸ hold
    · rw [← u.getD_active_release he]
      exact hr.falls v hv
  · by_cases he : v = id
    · exact .inl (he ▸ ⟨hlt, hid⟩)
    · rw [← u.getD_active_release he, show u.count v = (u.release id).count v by
        rw [u.count_release hf, if_neg he]]
      exact hr.frame v

/-- The gates that are freed after the last use of `id` is released, and `id`. -/
theorem Released.freed_last {w : Cut} (h : Balance c.net ext uses u (id :: rest) [])
    (hid : (c.net.node id).isLogic = true) (h0 : (u.release id).count id = 0)
    (hw : c.winner? id = some w) (hr : Released c ext uses root limit (acc + c.area w) (u.release id) r) :
    ∀ a, r.2 = .ok a → ∃ freed, Dropped c.net u.active r.1.active freed ∧
      a = c.total acc freed := by
  intro a ha
  obtain ⟨-, hact, hf⟩ := h.lt_active hid
  obtain ⟨freed, ⟨hnodup, hmem⟩, rfl⟩ := hr.freed a ha
  have hoff : (u.release id).active.getD id false = false := by
    rw [Usage.active_release_of_zero hf h0, getD_set _ hact, if_pos rfl]
  have hnew : id ∉ freed := fun hin => by simpa [hoff] using ((hmem id).1 hin).2.1
  refine ⟨id :: freed, ⟨List.nodup_cons.2 ⟨hnew, hnodup⟩, fun v => ?_⟩, (total_cons hw _ _).symm⟩
  by_cases he : v = id
  · subst he
    refine iff_of_true List.mem_cons_self ⟨hid, (h.used v hid).2 (h.count_pos hid), ?_⟩
    by_contra hon
    simpa [hoff] using hr.falls v (by simpa using hon)
  · rw [List.mem_cons, or_iff_right he, hmem, u.getD_active_release he]

theorem free_released (hw : c.Ranked uses root) (h : Balance c.net ext uses u pending [])
    (hp : c.Within root pending) :
    Released c ext uses root limit acc u (c.free limit pending acc u) := by
  induction pending, acc, u using free_induction c limit with
  | done acc u => rw [free]; exact .done h
  | dangling acc u id rest hn => exact absurd hn hp.get?_ne_none
  | skip acc u id rest hlt hid ih =>
    rw [free_skip hlt hid]
    exact ih (h.drop_plus hid) hp.tail
  | outOfRange acc u id rest hid hge =>
    exact absurd (hp id (by simp)).2 (Nat.not_lt.2 (h.fanouts ▸ hge))
  | bare acc u id rest hid hge hpos h0 hnone =>
    obtain ⟨w, hs, -, -⟩ := hp.winner hw hid
    rw [hs] at hnone
    cases hnone
  | overLimit acc u id rest next hid hge hpos h0 hnext hover =>
    rw [free_over hid hge hpos h0 hnext hover]
    have hr : Released c ext uses root limit acc (u.release id) (u.release id, .error .overLimit) :=
      .refused ⟨_, hover⟩
    exact .release h hid (hp id (by simp)).1 hr (by simp)
  | last acc u id rest next hid hge hpos h0 hnext hunder ih =>
    obtain ⟨w, hs, hu, hb⟩ := hp.winner hw hid
    obtain rfl : w = next := by simpa [hs] using hnext
    rw [free_last hid hge hpos h0 hs hunder]
    have ih := ih (hu ▸ h.release_last hid h0) hb
    exact .release h hid (hp id (by simp)).1 ih (ih.freed_last h hid h0 hs)
  | more acc u id rest hid hge hpos h0 ih =>
    rw [free_more hid hge hpos h0]
    have ih := ih (h.release hid h0) hp.tail
    have hact := Usage.active_release_of_pos (h.lt_active hid).2.2 h0
    exact .release h hid (hp id (by simp)).1 ih fun a ha => hact ▸ ih.freed a ha
  | idle acc u id rest hid hge hpos ih =>
    exact absurd (h.count_pos hid) hpos

/-- What a walk that retains leaves. It meets the pass-throughs of `pending` and of the gates that it
puts in. -/
structure Retained (c : Cones α) (ext : NodeId → Nat) (uses : NodeId → List NodeId)
    (root : NodeId) (plus pending : List NodeId) (acc : α) (u : Usage)
    (r : Usage × Except Refusal α) : Prop where
  reverts : Usage.Reverts Usage.unretain u r.1
  refusal : r.2 ≠ .error .outOfRange
  balance : ∀ a, r.2 = .ok a → Balance c.net ext uses r.1 plus []
  added : ∀ a, r.2 = .ok a → ∃ added, Dropped c.net r.1.active u.active added ∧
    a = c.total acc added ∧ ∀ l ∈ pending ++ added.flatMap uses,
      (c.net.node l).isPassThrough = true → u.active.getD l false = true
  grows : ∀ v, u.active.getD v false = true → r.1.active.getD v false = true
  frame : ∀ v, v < root ∧ (c.net.node v).isLogic = true ∨
    r.1.active.getD v false = u.active.getD v false ∧ r.1.count v = u.count v

theorem Retained.done (h : Balance c.net ext uses u plus []) :
    Retained c ext uses root plus [] acc u (u, .ok acc) where
  reverts := .refl u
  refusal := by simp
  balance _ _ := h
  added a ha := ⟨[], ⟨List.nodup_nil, by simp⟩, by simpa [total] using ha.symm, by simp⟩
  grows _ hv := hv
  frame _ := .inr ⟨rfl, rfl⟩

theorem Retained.refused {e : Refusal} (he : e ≠ .outOfRange) :
    Retained c ext uses root plus pending acc u (u, .error e) where
  reverts := .refl u
  refusal := by simpa using he
  balance := by simp
  added := by simp
  grows _ hv := hv
  frame _ := .inr ⟨rfl, rfl⟩

/-- A step back over a node that is not counted. -/
theorem Retained.skip (hthrough : (c.net.node id).isPassThrough = true → u.active.getD id false = true)
    (hr : Retained c ext uses root plus rest acc u r) :
    Retained c ext uses root plus (id :: rest) acc u r := by
  refine { hr with added := fun a ha => ?_ }
  obtain ⟨added, hdrop, htotal, hpass⟩ := hr.added a ha
  refine ⟨added, hdrop, htotal, ?_⟩
  rw [List.cons_append, List.forall_mem_cons]
  exact ⟨hthrough, hpass⟩

/-- A step back over one retain, but for the gates that are put in. -/
theorem Retained.retain {pending' : List NodeId} (h : Balance c.net ext uses u plus (id :: rest))
    (hid : (c.net.node id).isLogic = true) (hlt : id < root)
    (hr : Retained c ext uses root plus pending' acc' (u.retain id) r)
    (hadded : ∀ a, r.2 = .ok a → ∃ added, Dropped c.net r.1.active u.active added ∧
      a = c.total acc added ∧ ∀ l ∈ rest ++ added.flatMap uses,
        (c.net.node l).isPassThrough = true → u.active.getD l false = true) :
    Retained c ext uses root plus (id :: rest) acc u r := by
  obtain ⟨-, -, hf⟩ := h.lt_active hid
  have hiff := h.used id hid
  refine ⟨hr.reverts.step rfl ?_, hr.refusal, hr.balance, fun a ha => ?_, fun v hv => ?_,
    fun v => ?_⟩
  · refine Usage.unretain_retain hf fun h0 => ?_
    rw [h0] at hiff
    simpa using hiff
  · obtain ⟨added, hdrop, htotal, hpass⟩ := hadded a ha
    refine ⟨added, hdrop, htotal, ?_⟩
    rw [List.cons_append, List.forall_mem_cons]
    exact ⟨fun hp => absurd rfl (ne_of_isPassThrough hp hid), hpass⟩
  · by_cases he : v = id
    · subst he
      refine hr.grows v ?_
      rw [Usage.active_retain_of_pos (Nat.pos_iff_ne_zero.1 (hiff.1 hv))]
      exact hv
    · exact hr.grows v (u.getD_active_retain he ▸ hv)
  · by_cases he : v = id
    · exact .inl (he ▸ ⟨hlt, hid⟩)
    · rw [← u.getD_active_retain he, show u.count v = (u.retain id).count v by
        rw [u.count_retain hf, if_neg he]]
      exact hr.frame v

/-- The gates that are put in after the first use of `id` is retained, and `id`. -/
theorem Retained.added_first {w : Cut} (h : Balance c.net ext uses u plus (id :: rest))
    (hid : (c.net.node id).isLogic = true) (h0 : u.count id = 0) (hw : c.winner? id = some w)
    (hu : uses id = w.leaves)
    (hr : Retained c ext uses root plus (w.leaves ++ rest) (acc + c.area w) (u.retain id) r) :
    ∀ a, r.2 = .ok a → ∃ added, Dropped c.net r.1.active u.active added ∧
      a = c.total acc added ∧ ∀ l ∈ rest ++ added.flatMap uses,
        (c.net.node l).isPassThrough = true → u.active.getD l false = true := by
  intro a ha
  obtain ⟨-, hact, -⟩ := h.lt_active hid
  obtain ⟨added, ⟨hnodup, hmem⟩, rfl, hpass⟩ := hr.added a ha
  have hon : (u.retain id).active.getD id false = true := by
    rw [Usage.active_retain_of_zero h0, getD_set _ hact, if_pos rfl]
  have hoff : u.active.getD id false = false := by
    have hiff := h.used id hid
    rw [h0] at hiff
    simpa using hiff
  have hnew : id ∉ added := fun hin => by simpa [hon] using ((hmem id).1 hin).2.2
  refine ⟨id :: added, ⟨List.nodup_cons.2 ⟨hnew, hnodup⟩, fun v => ?_⟩, (total_cons hw _ _).symm,
    fun l hl hp => ?_⟩
  · by_cases he : v = id
    · subst he
      exact iff_of_true List.mem_cons_self ⟨hid, hr.grows v hon, hoff⟩
    · rw [List.mem_cons, or_iff_right he, hmem, u.getD_active_retain he]
  · rw [← u.getD_active_retain (ne_of_isPassThrough hp hid)]
    refine hpass l ?_ hp
    simp only [List.flatMap_cons, hu, List.mem_append] at hl ⊢
    tauto

theorem use_retained (hw : c.Ranked uses root) (h : Balance c.net ext uses u plus pending)
    (hp : c.Within root pending) :
    Retained c ext uses root plus pending acc u (c.use limit pending acc u) := by
  induction pending, acc, u using use_induction c limit with
  | done acc u => rw [use]; exact .done h
  | dangling acc u id rest hn => exact absurd hn hp.get?_ne_none
  | inactive acc u id rest hlt hid hthrough =>
    rw [use_inactive hlt hid hthrough]
    exact .refused (by simp)
  | skip acc u id rest hlt hid hthrough ih =>
    rw [use_skip hlt hid hthrough]
    exact .skip (fun hpass => by simpa [hpass] using hthrough) (ih (h.drop_minus hid) hp.tail)
  | bare acc u id rest hid hlt h0 hnone =>
    obtain ⟨w, hs, -, -⟩ := hp.winner hw hid
    rw [hs] at hnone
    cases hnone
  | overLimit acc u id rest next hid hlt h0 hnext hover =>
    rw [use_over hid hlt h0 hnext hover]
    have hr : Retained c ext uses root plus rest acc (u.retain id)
        (u.retain id, .error .overLimit) := .refused (by simp)
    exact .retain h hid (hp id (by simp)).1 hr (by simp)
  | first acc u id rest next hid hlt h0 hnext hunder ih =>
    obtain ⟨w, hs, hu, hb⟩ := hp.winner hw hid
    obtain rfl : w = next := by simpa [hs] using hnext
    rw [use_first hid hlt h0 hs hunder]
    have ih := ih (hu ▸ h.retain_first hid h0) hb
    exact .retain h hid (hp id (by simp)).1 ih (ih.added_first h hid h0 hs hu)
  | more acc u id rest hid hlt h0 ih =>
    rw [use_more hid hlt h0]
    have ih := ih (h.retain hid h0) hp.tail
    exact .retain h hid (hp id (by simp)).1 ih
      fun a ha => Usage.active_retain_of_pos h0 ▸ ih.added a ha
  | outOfRange acc u id rest hid hge =>
    exact absurd (h.lt_active hid).2.2 hge

theorem deref_released {cut : Cut} (hw : c.Ranked uses root)
    (h : Balance c.net ext uses u.clearUndo cut.leaves []) (hp : c.Within root cut.leaves) :
    Released c ext uses root limit (0 + c.area cut) u.clearUndo (c.deref cut limit u) := by
  unfold deref
  extract_lets u₁ acc
  split
  · rename_i hlim
    exact .refused ⟨acc, hlim⟩
  · exact free_released hw h hp

theorem reference_retained {cut : Cut} (hw : c.Ranked uses root)
    (h : Balance c.net ext uses u [] []) (hp : c.Within root cut.leaves) :
    Retained c ext uses root cut.leaves cut.leaves (0 + c.area cut) u.clearUndo
      (c.reference cut limit u) := by
  have hpend := h.clearUndo.add cut.leaves
  rw [List.append_nil] at hpend
  unfold reference
  extract_lets u₁ acc
  split
  · exact .refused (by simp)
  · exact use_retained hw hpend hp

/-- As a gate or as a pass-through `v` is active. -/
def Runs (c : Cones α) (u : Usage) (v : NodeId) : Prop :=
  (c.net.node v).isLogic = true ∨ (c.net.node v).isPassThrough = true →
    u.active.getD v false = true

/-- Without a limit a walk only stops at a pass-through that is not active. It meets none in a set
that has active pass-throughs only and everything that its gates without uses would use. -/
theorem use_succeeds {S : NodeId → Prop} (hlim : ∀ a : α, Quantity.lt limit a = false)
    (hw : c.Ranked uses root) (hclosed : ∀ v, S v → (c.net.node v).isLogic = true →
      u.count v = 0 → ∀ l ∈ uses v, S l)
    (hf : u.fanouts.size = c.net.size)
    (hthrough : ∀ v, S v → (c.net.node v).isPassThrough = true → u.active.getD v false = true)
    (hp : c.Within root pending) (hS : ∀ x ∈ pending, S x) :
    ∃ u' a, c.use limit pending acc u = (u', .ok a) := by
  induction pending, acc, u using use_induction c limit with
  | done acc u => exact ⟨u, acc, by rw [use]⟩
  | dangling acc u id rest hn => exact absurd hn hp.get?_ne_none
  | inactive acc u id rest hlt hid hno =>
    simp only [Bool.and_eq_true, Bool.not_eq_true'] at hno
    rw [hthrough id (hS id (by simp)) hno.1] at hno
    cases hno.2
  | skip acc u id rest hlt hid hno ih =>
    rw [use_skip hlt hid hno]
    exact ih hclosed hf hthrough hp.tail fun x hx => hS x (List.mem_cons_of_mem _ hx)
  | bare acc u id rest hid hlt h0 hnone =>
    obtain ⟨w, hs, -, -⟩ := hp.winner hw hid
    rw [hs] at hnone
    cases hnone
  | overLimit acc u id rest next hid hlt h0 hnext hlim' =>
    rw [hlim] at hlim'
    cases hlim'
  | first acc u id rest next hid hlt h0 hnext hunder ih =>
    obtain ⟨w, hs, hu, hb⟩ := hp.winner hw hid
    obtain rfl : w = next := by simpa [hs] using hnext
    rw [use_first hid hlt h0 hs hunder]
    refine ih (fun v hv hl hc => hclosed v hv hl (u.count_of_retain hc))
      (by simpa [Usage.fanouts_retain] using hf) (fun v hv hpass => ?_) hb fun x hx => ?_
    · rw [u.getD_active_retain (ne_of_isPassThrough hpass hid)]
      exact hthrough v hv hpass
    · rcases List.mem_append.1 hx with hx | hx
      · exact hclosed id (hS id (by simp)) hid h0 x (hu ▸ hx)
      · exact hS x (List.mem_cons_of_mem _ hx)
  | more acc u id rest hid hlt h0 ih =>
    rw [use_more hid hlt h0]
    refine ih (fun v hv hl hc => hclosed v hv hl (u.count_of_retain hc))
      (by simpa [Usage.fanouts_retain] using hf) (fun v hv hpass => ?_) hp.tail
      fun x hx => hS x (List.mem_cons_of_mem _ hx)
    rw [u.getD_active_retain (ne_of_isPassThrough hpass hid)]
    exact hthrough v hv hpass
  | outOfRange acc u id rest hid hge => exact absurd (hf ▸ (hp id (by simp)).2) hge

end Cones

end TechMap.Mapping
