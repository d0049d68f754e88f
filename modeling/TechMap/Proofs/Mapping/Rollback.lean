import Mathlib
import TechMap.Proofs.Mapping.FreeCone

/-! Rollback. The log of a walk is enough to take the walk back, wherever it stopped: each entry is
one change of a count, and the count says whether a flag changed with it. A walk that retains needs no
more for that than that gates without uses are not active, one that releases needs counts that are
exact. -/

namespace TechMap.Mapping

namespace Usage

/-- No gate without uses is active. -/
def Idle (net : Network) (u : Usage) : Prop :=
  ∀ v, (net.node v).isLogic = true → u.count v = 0 → u.active.getD v false = false

theorem Idle.retain {net : Network} {u : Usage} {id : NodeId} (h : Idle net u)
    (hf : id < u.fanouts.size) : Idle net (u.retain id) := by
  intro v hv h0
  rw [u.count_retain hf] at h0
  split at h0
  · cases h0
  · rename_i hne
    rw [u.getD_active_retain hne]
    exact h v hv h0

end Usage

namespace Cones

variable {α : Type} {c : Cones α} {ext : NodeId → Nat} {root id : NodeId} {u u₁ : Usage} {cut w : Cut}
  {pending rest : List NodeId} {revert : Usage → NodeId → Usage} {limit acc : α}
  {r : Usage × Except Refusal α}

/-- A walk that found every node in the table, and that its log takes back. -/
structure Logged (revert : Usage → NodeId → Usage) (u : Usage) (r : Usage × Except Refusal α) :
    Prop where
  reverts : Usage.Reverts revert u r.1
  inRange : r.2 ≠ .error .outOfRange

namespace Logged

theorem done : Logged revert u (u, .ok acc) := ⟨.refl u, by simp⟩

theorem stopped {e : Refusal} (he : e ≠ .outOfRange) :
    Logged revert u ((u, .error e) : Usage × Except Refusal α) := ⟨.refl u, by simpa using he⟩

/-- One logged change before the rest of the walk. -/
theorem step (hlog : u₁.undo = id :: u.undo) (h1 : revert u₁.clearUndo id = u.clearUndo)
    (h : Logged revert u₁ r) : Logged revert u r := ⟨h.reverts.step hlog h1, h.inRange⟩

end Logged

variable [Quantity α]

theorem use_logged (hc : c.Falling) (hi : u.Idle c.net) (hf : u.fanouts.size = c.net.size)
    (hp : c.Within root pending) :
    Logged Usage.unretain u (c.use limit pending acc u) := by
  induction pending, acc, u using use_induction c limit with
  | done acc u => rw [use]; exact .done
  | dangling acc u id rest hn => exact absurd hn hp.get?_ne_none
  | inactive acc u id rest hlt hid hthrough =>
    rw [use_inactive hlt hid hthrough]
    exact .stopped (by simp)
  | skip acc u id rest hlt hid hthrough ih =>
    rw [use_skip hlt hid hthrough]
    exact ih hi hf hp.tail
  | bare acc u id rest hid hlt h0 hnone =>
    rw [use_bare hid hlt h0 hnone]
    exact .step rfl (Usage.unretain_retain hlt fun _ => hi id hid h0) (.stopped (by simp))
  | overLimit acc u id rest next hid hlt h0 hnext hover =>
    rw [use_over hid hlt h0 hnext hover]
    exact .step rfl (Usage.unretain_retain hlt fun _ => hi id hid h0) (.stopped (by simp))
  | first acc u id rest next hid hlt h0 hnext hunder ih =>
    rw [use_first hid hlt h0 hnext hunder]
    refine .step rfl (Usage.unretain_retain hlt fun _ => hi id hid h0) ?_
    exact ih (hi.retain hlt) (by simpa [Usage.fanouts_retain] using hf) (hc.within_append hp hid hnext)
  | more acc u id rest hid hlt h0 ih =>
    rw [use_more hid hlt h0]
    refine .step rfl (Usage.unretain_retain hlt fun h => absurd h h0) ?_
    exact ih (hi.retain hlt) (by simpa [Usage.fanouts_retain] using hf) hp.tail
  | outOfRange acc u id rest hid hge => exact absurd (hf ▸ (hp id (by simp)).2) hge

/-- Counts that are exact never run out: every pending gate has a use to release. -/
theorem free_logged (hc : c.Falling) (h : Balance c.net ext (c.gateLeaves {root}) u pending [])
    (hp : c.Within root pending) : Logged Usage.unrelease u (c.free limit pending acc u) := by
  have hback {id : NodeId} {rest : List NodeId} {u : Usage}
      (h : Balance c.net ext (c.gateLeaves {root}) u (id :: rest) [])
      (hid : (c.net.node id).isLogic = true) :
      (u.release id).clearUndo.unrelease id = u.clearUndo :=
    Usage.unrelease_release (h.lt_active hid).2.2 (h.count_pos hid)
      fun _ => (h.used id hid).2 (h.count_pos hid)
  induction pending, acc, u using free_induction c limit with
  | done acc u => rw [free]; exact .done
  | dangling acc u id rest hn => exact absurd hn hp.get?_ne_none
  | skip acc u id rest hlt hid ih =>
    rw [free_skip hlt hid]
    exact ih (h.drop_plus hid) hp.tail
  | outOfRange acc u id rest hid hge =>
    exact absurd (hp id (by simp)).2 (Nat.not_lt.2 (h.fanouts ▸ hge))
  | bare acc u id rest hid hge hpos h0 hnone =>
    rw [free_bare hid hge hpos h0 hnone]
    exact .step rfl (hback h hid) (.stopped (by simp))
  | overLimit acc u id rest next hid hge hpos h0 hnext hover =>
    rw [free_over hid hge hpos h0 hnext hover]
    exact .step rfl (hback h hid) (.stopped (by simp))
  | last acc u id rest next hid hge hpos h0 hnext hunder ih =>
    have hne : id ≠ root := ne_of_lt (hp id (by simp)).1
    have hleaves : c.gateLeaves {root} id = next.leaves := by
      rw [gateLeaves, if_pos ⟨by simpa using hne, hid⟩, leavesAt_of_winner hnext]
    rw [free_last hid hge hpos h0 hnext hunder]
    exact .step rfl (hback h hid)
      (ih (hleaves ▸ h.release_last hid h0) (hc.within_append hp hid hnext))
  | more acc u id rest hid hge hpos h0 ih =>
    rw [free_more hid hge hpos h0]
    exact .step rfl (hback h hid) (ih (h.release hid h0) hp.tail)
  | idle acc u id rest hid hge hpos ih =>
    exact absurd (h.count_pos hid) hpos

theorem reference_logged (hc : c.Falling) (hi : u.Idle c.net) (hf : u.fanouts.size = c.net.size)
    (hcut : ∀ l ∈ cut.leaves, l < c.net.size) :
    Logged Usage.unretain u.clearUndo (c.reference cut limit u) := by
  have hp : c.Within c.net.size cut.leaves := fun l hl => ⟨hcut l hl, hcut l hl⟩
  unfold reference
  extract_lets u₁ acc
  split
  · exact .stopped (by simp)
  · exact use_logged hc hi hf hp

theorem deref_logged (hc : c.Falling) (hu : c.Settled ext ∅ u)
    (hroot : (c.net.node root).isLogic = true) (hon : u.active.getD root false = true)
    (hcut : c.winner? root = some cut) :
    Logged Usage.unrelease u.clearUndo (c.deref cut limit u) := by
  unfold deref
  extract_lets u₁ acc
  split
  · exact .stopped (by simp)
  · exact free_logged hc (hc.pending hu hroot hon hcut) (hc.within hroot hcut)

end Cones

end TechMap.Mapping
