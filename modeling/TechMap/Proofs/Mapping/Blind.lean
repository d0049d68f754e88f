import Mathlib
import TechMap.Proofs.Mapping.Round

/-! The rounds of a run do not look at the remap. Started with another one they take the same steps,
and end in the same state but for the remap, or with the same error. -/

namespace TechMap.Mapping

variable {α β : Type} {q : Option Remap}

/-- The same state with another remap. -/
def Mapper.withRemap (m : Mapper α) (q : Option Remap) : Mapper α :=
  { m with work := { m.work with remap := q } }

/-- The same outcome with another remap. -/
def carry (q : Option Remap) (f : β → β) :
    Except (Halted (Mapper α)) β → Except (Halted (Mapper α)) β
  | .ok b => .ok (f b)
  | .error e => .error ⟨e.error, e.state.withRemap q⟩

/-- A result beside a state with another remap. -/
def beside (q : Option Remap) (r : Mapper α × β) : Mapper α × β := (r.1.withRemap q, r.2)

theorem carry_ite {c : Prop} [Decidable c] {f : β → β} {s s' t t' : Except (Halted (Mapper α)) β}
    (hs : s' = carry q f s) (ht : t' = carry q f t) :
    (if c then s' else t') = carry q f (if c then s else t) := by
  split
  · exact hs
  · exact ht

/-- A step that does not look at the remap. -/
def Blind (step : Mapper α → Step α) : Prop :=
  ∀ m q, step (m.withRemap q) = carry q (·.withRemap q) (step m)

theorem Blind.bind {f g : Mapper α → Step α} (hf : Blind f) (hg : Blind g) :
    Blind fun m => Except.bind (f m) g := by
  intro m q
  dsimp only
  rw [hf m q]
  cases f m with
  | error e => rfl
  | ok m' => exact hg m' q

theorem Blind.visitAll {visit : Mapper α → NodeId → Step α} (h : ∀ id, Blind (visit · id))
    (ids : List NodeId) : Blind (visitAll visit ids) := by
  induction ids with
  | nil => exact fun _ _ => rfl
  | cons id rest ih => exact (h id).bind ih

variable [Quantity α]

section Generation

theorem prioritize_withRemap (m : Mapper α) (id : NodeId) (cuts : List Cut) :
    (m.withRemap q).prioritize id cuts = beside q (m.prioritize id cuts) := by
  -- both sides match on the same list, once it is written in the same way
  unfold Mapper.prioritize
  rw [show (m.withRemap q).sortCuts id cuts = m.sortCuts id cuts from rfl]
  cases m.sortCuts id cuts <;> rfl

theorem generateLogic_blind (id : NodeId) (node : Node) :
    Blind fun m : Mapper α => m.generateLogic id node := by
  intro m q
  refine carry_ite ?_ rfl
  exact congrArg (fun r => Except.ok (r.1.setCuts id (r.1.truncate r.2)))
    (prioritize_withRemap { m with enumerated := m.enumerated + (m.enumerate id node).length } id
      (m.enumerate id node))

theorem regenerate_blind (id : NodeId) (cuts : List Cut) :
    Blind fun m : Mapper α => m.regenerate id cuts := by
  intro m q
  refine carry_ite ?_ rfl
  exact congrArg (fun r => Except.ok (r.1.setCuts id r.2))
    (prioritize_withRemap (m.setCuts id []) id cuts)

theorem generateCuts_blind (id : NodeId) : Blind fun m : Mapper α => m.generateCuts id := by
  intro m q
  dsimp only
  unfold Mapper.generateCuts
  rw [show (m.withRemap q).net.get? id = m.net.get? id from rfl,
    show (m.withRemap q).cutsOf id = m.cutsOf id from rfl]
  cases m.net.get? id with
  | none => rfl
  | some node =>
    cases node with
    | and | lut4 =>
      cases m.cutsOf id with
      | nil => exact generateLogic_blind id _ m q
      | cons c rest => exact regenerate_blind id (c :: rest) m q
    | _ => rfl

theorem generateAll_blind : Blind (Mapper.generateAll (α := α)) := fun m q =>
  Blind.visitAll generateCuts_blind m.order m q

end Generation

section Discovery

theorem enqueue_beside (f : Mapper.Frontier α) (id : NodeId) :
    Mapper.Frontier.enqueue (beside q f) id = beside q (f.enqueue id) := by
  obtain ⟨m, queue⟩ := f
  symm
  exact apply_ite (beside q) (m.usage.active[id]? = some false) _ _

theorem enqueueLeaf_beside (f : Mapper.Frontier α) (id : NodeId) :
    Mapper.Frontier.enqueueLeaf (beside q f) id = beside q (f.enqueueLeaf id) :=
  enqueue_beside
    ({ f.1 with est := { f.1.est with area := f.1.est.area.setIfInBounds id 0 } }, f.2) id

theorem scanAreas_withRemap (m : Mapper α) (id : NodeId) (depth : Nat) (delay : α)
    (cuts : List (Cut × Nat)) (best : α × Nat) :
    (m.withRemap q).scanAreas id depth delay cuts best = m.scanAreas id depth delay cuts best := by
  induction cuts generalizing best with
  | nil => rfl
  | cons e rest ih =>
    simp only [Mapper.scanAreas, ih]
    rfl

theorem reselect_withRemap (m : Mapper α) (id : NodeId) (cuts : List Cut) :
    (m.withRemap q).reselect id cuts = m.reselect id cuts := by
  unfold Mapper.reselect
  simp only [scanAreas_withRemap]
  rfl

omit [Quantity α] in
theorem foldl_beside {step : Mapper.Frontier α → NodeId → Mapper.Frontier α}
    (h : ∀ f id, step (beside q f) id = beside q (step f id)) (ids : List NodeId)
    (f : Mapper.Frontier α) : ids.foldl step (beside q f) = beside q (ids.foldl step f) := by
  induction ids generalizing f with
  | nil => rfl
  | cons id rest ih => rw [List.foldl_cons, h, ih, List.foldl_cons]

theorem chooseWinner_withRemap (m : Mapper α) (id : NodeId) :
    (m.withRemap q).chooseWinner id = carry q (beside q) (m.chooseWinner id) := by
  unfold Mapper.chooseWinner
  rw [show (m.withRemap q).cutsOf id = m.cutsOf id from rfl, reselect_withRemap]
  cases m.reselect id (m.cutsOf id) with
  | none => rfl
  | some cuts => cases cuts <;> rfl

theorem visit_withRemap (m : Mapper α) (queue : List (Priority α)) (id : NodeId) :
    (m.withRemap q).visit queue id = carry q (beside q) (m.visit queue id) := by
  unfold Mapper.visit
  rw [show (m.withRemap q).net.get? id = m.net.get? id from rfl, chooseWinner_withRemap]
  cases m.net.get? id with
  | none => rfl
  | some node =>
    refine carry_ite ?_ (carry_ite rfl (carry_ite ?_ rfl))
    · cases m.chooseWinner id with
      | error e => rfl
      | ok r =>
        obtain ⟨m', winner⟩ := r
        refine carry_ite (congrArg Except.ok ?_) rfl
        exact foldl_beside enqueueLeaf_beside winner.leaves (m', queue)
    · exact congrArg Except.ok (foldl_beside enqueue_beside _ (m, queue))

theorem drain_withRemap (m : Mapper α) (queue : List (Priority α)) :
    (m.withRemap q).drain queue = carry q (·.withRemap q) (m.drain queue) := by
  induction m, queue using Mapper.drain.induct with
  | case1 m =>
    rw [Mapper.drain, Mapper.drain]
    rfl
  | case2 m key queue e he =>
    rw [drain_cons, drain_cons, visit_withRemap, he]
    rfl
  | case3 m key queue f hf _ ih =>
    rw [drain_cons, drain_cons, visit_withRemap, hf]
    exact ih

theorem discoverActive_blind : Blind (Mapper.discoverActive (α := α)) := by
  intro m q
  refine carry_ite ?_ rfl
  let f : Mapper.Frontier α := ({ m with usage := { m.usage with
    active := Array.replicate m.usage.active.size false } }, [])
  refine Eq.trans ?_ (drain_withRemap _ _)
  have h := foldl_beside (q := q) enqueue_beside (m.order.filter fun id => (m.net.node id).isSink) f
  exact congrArg (fun f : Mapper.Frontier α => f.1.drain f.2) h

end Discovery

section Departures

theorem propagateGate_blind (count : Bool) (id : NodeId) (node : Node) :
    Blind fun m : Mapper α => m.propagateGate count id node := by
  intro m q
  dsimp only
  unfold Mapper.propagateGate
  rw [show (m.withRemap q).winner? id = m.winner? id from rfl]
  cases m.winner? id with
  | none => rfl
  | some cut =>
    refine carry_ite ?_ rfl
    cases count <;> rfl

theorem propagateNode_blind (count : Bool) (id : NodeId) (node : Node) :
    Blind fun m : Mapper α => m.propagateNode count id node := by
  intro m q
  refine carry_ite ?_ rfl
  cases count <;> rfl

theorem propagate_blind (count : Bool) (id : NodeId) :
    Blind fun m : Mapper α => m.propagate count id := by
  intro m q
  dsimp only
  unfold Mapper.propagate
  rw [show (m.withRemap q).net.get? id = m.net.get? id from rfl]
  cases m.net.get? id with
  | none => rfl
  | some node =>
    exact carry_ite (carry_ite (propagateGate_blind count id node m q) rfl)
      (carry_ite (propagateNode_blind count id node m q) rfl)

theorem computeDepartures_blind : Blind (Mapper.computeDepartures (α := α)) := fun m q =>
  Blind.visitAll (propagate_blind true) m.order.reverse
    (Mapper.clearDepart { m with usage := { m.usage with
      fanouts := Array.replicate m.usage.fanouts.size 0 } }) q

end Departures

section Refinement

omit [Quantity α] in
theorem withUsage_withRemap (m : Mapper α) (f : Cones α → Usage → Usage × Except Refusal α) :
    (m.withRemap q).withUsage f = beside q (m.withUsage f) := rfl

theorem tryCuts_withRemap (m : Mapper α) (id : NodeId) (depth : Nat) (cuts : List (Cut × Nat))
    (best : α × Nat) : Mapper.tryCuts id depth cuts best (m.withRemap q) =
      carry q (beside q) (Mapper.tryCuts id depth cuts best m) := by
  induction cuts generalizing best m with
  | nil => rfl
  | cons e rest ih =>
    obtain ⟨cut, i⟩ := e
    rw [Mapper.tryCuts, Mapper.tryCuts, withUsage_withRemap]
    refine carry_ite (ih m best) (carry_ite rfl (carry_ite (ih m best) ?_))
    obtain ⟨m', result⟩ := m.withUsage fun c => c.attempt cut best.1
    cases result with
    | error e =>
      cases e with
      | outOfRange => rfl
      | _ => exact ih m' best
    | ok cost => exact ih m' _

theorem installWinner_blind (id : NodeId) (i : Nat) :
    Blind fun m : Mapper α => m.installWinner id i := by
  intro m q
  dsimp only
  unfold Mapper.installWinner
  rw [show (m.withRemap q).setCuts id (Cut.promote ((m.withRemap q).cutsOf id) i) =
    (m.setCuts id (Cut.promote (m.cutsOf id) i)).withRemap q from rfl]
  generalize m.setCuts id (Cut.promote (m.cutsOf id) i) = m
  dsimp only
  rw [show (m.withRemap q).winner? id = m.winner? id from rfl]
  cases m.winner? id with
  | none => rfl
  | some winner =>
    dsimp only
    rw [withUsage_withRemap]
    obtain ⟨m', result⟩ := m.withUsage fun c => c.reference winner Quantity.infinity
    cases result with
    | error e => cases e <;> rfl
    | ok cost => rfl

omit [Quantity α] in
theorem refreshOthers_withRemap (m : Mapper α) (id : NodeId) :
    (m.withRemap q).refreshOthers id = (m.refreshOthers id).map (·.withRemap q) := by
  unfold Mapper.refreshOthers
  rw [show (m.withRemap q).cutsOf id = m.cutsOf id from rfl]
  cases m.cutsOf id with
  | nil => rfl
  | cons winner others =>
    symm
    exact apply_ite (Option.map (Mapper.withRemap · q))
      (others.all (fun c => !c.isMux || m.inRange c) = true) _ _

theorem refineWinner_blind (id : NodeId) : Blind fun m : Mapper α => m.refineWinner id := by
  intro m q
  dsimp only
  unfold Mapper.refineWinner
  rw [refreshOthers_withRemap]
  cases m.refreshOthers id with
  | none => rfl
  | some m =>
    dsimp only [Option.map]
    rw [show (m.withRemap q).cutsOf id = m.cutsOf id from rfl]
    cases m.cutsOf id with
    | nil => rfl
    | cons winner others =>
      dsimp only
      rw [withUsage_withRemap]
      obtain ⟨m', result⟩ := m.withUsage fun c => c.deref winner (Quantity.ofNat refineLimit)
      cases result with
      | error e => cases e <;> rfl
      | ok cost =>
        refine carry_ite ?_ rfl
        dsimp only
        rw [tryCuts_withRemap]
        cases Mapper.tryCuts id winner.muxDepth (others.zipIdx 1) (cost, 0) m' with
        | error e => rfl
        | ok r => exact installWinner_blind id r.2 r.1 q

theorem refineNode_blind (id : NodeId) : Blind fun m : Mapper α => m.refineNode id := fun m q =>
  carry_ite (((refineWinner_blind id).bind (propagate_blind false id)) m q)
    (propagate_blind false id m q)

theorem exactLocalArea_blind : Blind (Mapper.exactLocalArea (α := α)) := fun m q =>
  Blind.visitAll refineNode_blind m.order.reverse m.clearDepart q

end Refinement

theorem measureArea_blind : Blind (Mapper.measureArea (α := α)) := by
  intro m q
  refine Blind.visitAll (fun id m q => ?_) m.order { m with area := 0 } q
  refine carry_ite ?_ rfl
  rw [show (m.withRemap q).winner? id = m.winner? id from rfl]
  cases m.winner? id <;> rfl

/-- The cover of a round is the same whatever the remap. -/
theorem coverRound_blind : Blind (Mapper.coverRound (α := α)) := by
  have hrefine : Blind fun m : Mapper α =>
      if 0 < m.round && m.params.refine then m.exactLocalArea else .ok m :=
    fun m q => carry_ite (exactLocalArea_blind m q) rfl
  have hmeasure : Blind fun m : Mapper α => m.measureDelay.backfillDepartures.measureArea :=
    fun m q => measureArea_blind m.measureDelay.backfillDepartures q
  intro m q
  exact (((generateAll_blind.bind (discoverActive_blind.bind computeDepartures_blind)).bind
    hrefine).bind hmeasure) { m with enumerated := 0 } q

omit [Quantity α] in
theorem report_withRemap (m : Mapper α) (e : Event α) :
    (m.withRemap q).report e = (m.report e).withRemap q := by
  symm
  exact apply_ite (Mapper.withRemap · q) (m.params.quiet = true) _ _

theorem closeRound_withRemap (m : Mapper α) :
    (m.withRemap q).closeRound = m.closeRound.withRemap q := by
  symm
  exact (report_withRemap _ _).symm

omit [Quantity α] in
theorem finish_withRemap (m : Mapper α) : (m.withRemap q).finish = m.finish.withRemap q := by
  symm
  exact (report_withRemap _ _).symm

omit [Quantity α] in
theorem endRound_blind (instantiate : Bool) :
    Blind fun m : Mapper α => m.endRound instantiate := fun _ _ =>
  carry_ite rfl (carry_ite rfl rfl)

theorem nextRound_blind : Blind (Mapper.nextRound (α := α)) := by
  have hblend (m : Mapper α) (q : Option Remap) :
      (if (m.withRemap q).isProbeRound then m.withRemap q else (m.withRemap q).blendFanouts) =
        (if m.isProbeRound then m else m.blendFanouts).withRemap q := by
    symm
    exact apply_ite (Mapper.withRemap · q) (m.isProbeRound = true) _ _
  have hnext : Blind fun m : Mapper α => .ok { m with round := m.round + 1 } := fun _ _ => rfl
  intro m q
  unfold Mapper.nextRound
  rw [hblend, closeRound_withRemap]
  exact ((endRound_blind false).bind hnext) _ q

end TechMap.Mapping
