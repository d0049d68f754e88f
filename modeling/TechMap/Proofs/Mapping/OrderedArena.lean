import Mathlib
import TechMap.Proofs.Mapping.Discovery

/-! Discovery over any ordered map of keys. Two nodes never have equal keys, because a key ends in
the number of its node, and a node is put in once. So the first key is unique, whatever the spans and
arrivals are, and every ordered map serves the nodes in the order of the mapper's own list. -/

namespace TechMap.Mapping

instance : Std.TransCmp (Quantity.order : Single → Single → Ordering) :=
  inferInstanceAs (Std.TransCmp (compareOn Single.rank))

section Keys

variable {α : Type} [Quantity α] {a b key : Priority α} {queue : List (Priority α)}

namespace Priority

/-- No later than. -/
def Before (a b : Priority α) : Prop := (a.compare b).isLE = true

theorem id_eq_of_compare (h : a.compare b = .eq) : a.id = b.id :=
  Nat.compare_eq_eq.1 (Ordering.then_eq_eq.1 (Ordering.then_eq_eq.1 h).2).2

variable [Std.TransCmp (Quantity.order : α → α → Ordering)]

theorem transCmp_on {β γ : Type} {cmp : γ → γ → Ordering} [Std.TransCmp cmp] (f : β → γ) :
    Std.TransCmp fun a b => cmp (f a) (f b) :=
  { eq_swap := fun {a b} => @Std.OrientedCmp.eq_swap γ cmp _ (f a) (f b)
    isLE_trans := fun {a b c} => @Std.TransCmp.isLE_trans γ cmp _ (f a) (f b) (f c) }

instance : Std.TransCmp (Priority.compare : Priority α → Priority α → Ordering) :=
  have : Std.TransCmp fun a b : Priority α => Quantity.order a.span b.span := transCmp_on span
  have : Std.TransCmp fun a b : Priority α => Quantity.order b.span a.span :=
    Std.TransCmp.opposite
  have : Std.TransCmp fun a b : Priority α => Quantity.order a.arrival b.arrival :=
    transCmp_on arrival
  have : Std.TransCmp fun a b : Priority α => Ord.compare a.id b.id := transCmp_on id
  inferInstanceAs (Std.TransCmp (compareLex (fun a b : Priority α => Quantity.order b.span a.span)
    (compareLex (fun a b => Quantity.order a.arrival b.arrival)
      fun a b => Ord.compare a.id b.id)))

theorem Before.trans {c : Priority α} (h : a.Before b) (h' : b.Before c) : a.Before c :=
  Std.TransCmp.isLE_trans h h'

theorem Before.id_eq (h : a.Before b) (h' : b.Before a) : a.id = b.id :=
  id_eq_of_compare (Std.OrientedCmp.isLE_antisymm h h')

theorem before_of_not_lt (h : a.compare b ≠ .lt) : b.Before a := by
  rw [Before, @Std.OrientedCmp.eq_swap _ compare]
  cases hc : a.compare b <;> simp_all

/-- Insertion keeps the keys in order. -/
theorem pairwise_insert (h : queue.Pairwise Before) : (key.insert queue).Pairwise Before := by
  induction queue with
  | nil => exact List.pairwise_singleton _ key
  | cons k rest ih =>
    obtain ⟨hk, hrest⟩ := List.pairwise_cons.1 h
    unfold insert
    split
    · rename_i hlt
      have hfirst : key.Before k := by rw [Before, hlt]; rfl
      exact List.pairwise_cons.2 ⟨fun c hc => (List.mem_cons.1 hc).elim (fun he => he ▸ hfirst)
        fun hc => hfirst.trans (hk c hc), h⟩
    · rename_i hge
      refine List.pairwise_cons.2 ⟨fun c hc => ?_, ih hrest⟩
      rcases List.mem_cons.1 ((perm_insert key rest).mem_iff.1 hc) with rfl | hc
      · exact before_of_not_lt hge
      · exact hk c hc

end Priority

end Keys

/-- An ordered map whose keys are priorities, as far as discovery uses it. It is left open what
becomes of a key that compares equal to one of the map. -/
structure OrderedArena (α : Type) [Quantity α] where
  Store : Type
  Ptr : Type
  clear : Store → Store
  insert : Priority α → Store → Store
  first : Store → Option Ptr
  remove : Ptr → Store → Option (Priority α × Store)
  /-- What the map holds. -/
  entries : Store → Multiset (Priority α)
  entries_clear : ∀ s, entries (clear s) = 0
  entries_insert : ∀ key s, (∀ k ∈ entries s, key.compare k ≠ .eq) →
    entries (insert key s) = key ::ₘ entries s
  first_eq_none : ∀ s, first s = none ↔ entries s = 0
  remove_first : ∀ s p, first s = some p → ∃ key s', remove p s = some (key, s') ∧
    entries s = key ::ₘ entries s' ∧ ∀ k ∈ entries s, key.Before k

namespace OrderedArena

variable {α : Type} [Quantity α]

/-- The list of the mapper. -/
def sorted [Std.TransCmp (Quantity.order : α → α → Ordering)] : OrderedArena α where
  Store := { queue : List (Priority α) // queue.Pairwise Priority.Before }
  Ptr := Unit
  clear _ := ⟨[], .nil⟩
  insert key queue := ⟨key.insert queue.1, Priority.pairwise_insert queue.2⟩
  first queue := if queue.1.isEmpty then none else some ()
  remove _ queue :=
    match queue with
    | ⟨[], _⟩ => none
    | ⟨key :: rest, h⟩ => some (key, ⟨rest, h.of_cons⟩)
  entries queue := queue.1
  entries_clear _ := rfl
  entries_insert key queue _ := Multiset.coe_eq_coe.2 (perm_insert key queue.1)
  first_eq_none queue := by
    rw [ite_eq_left_iff, Multiset.coe_eq_zero, ← List.isEmpty_iff]
    simp
  remove_first queue _ h := by
    match queue with
    | ⟨[], _⟩ => cases h
    | ⟨key :: rest, hsorted⟩ =>
      refine ⟨key, ⟨rest, hsorted.of_cons⟩, rfl, rfl, fun k hk => ?_⟩
      rcases List.mem_cons.1 hk with rfl | hk
      · exact Std.ReflCmp.isLE_rfl
      · exact (List.pairwise_cons.1 hsorted).1 k hk

variable (A : OrderedArena α)

/-- Activates a node, once. -/
def enqueue (f : Mapper α × A.Store) (id : NodeId) : Mapper α × A.Store :=
  let (m, s) := f
  if m.usage.active[id]? = some false then
    let key : Priority α :=
      { span := m.est.arrivalAt id + m.est.departAt id, arrival := m.est.arrivalAt id, id := id }
    ({ m with usage := { m.usage with active := m.usage.active.setIfInBounds id true } },
      A.insert key s)
  else f

def enqueueLeaf (f : Mapper α × A.Store) (id : NodeId) : Mapper α × A.Store :=
  A.enqueue ({ f.1 with est := { f.1.est with area := f.1.est.area.setIfInBounds id 0 } }, f.2) id

/-- Activates what a node that left the map needs. -/
def visit (m : Mapper α) (s : A.Store) (id : NodeId) :
    Except (Halted (Mapper α)) (Mapper α × A.Store) :=
  match m.net.get? id with
  | none => .error ⟨.outOfRange, m⟩
  | some node =>
    if node.isLogic then
      match m.chooseWinner id with
      | .error e => .error e
      | .ok (m, winner) =>
        if m.inRange winner then .ok (winner.leaves.foldl A.enqueueLeaf (m, s))
        else .error ⟨.outOfRange, m⟩
    else if node.isSource then .ok (m, s)
    else if node.operands.all fun l => l.id < m.size then
      .ok ((node.operands.map (·.id)).foldl A.enqueue (m, s))
    else .error ⟨.outOfRange, m⟩

/-- The loop. It takes out the first key until there is none or the map does not give it. A loop
that goes on for ever ends in nothing. -/
inductive Drains : Mapper α → A.Store → Except (Halted (Mapper α)) (Mapper α × A.Store) → Prop
  | empty {m : Mapper α} {s : A.Store} (h : A.first s = none) : Drains m s (.ok (m, s))
  | missing {m : Mapper α} {s : A.Store} {p : A.Ptr} (h : A.first s = some p)
    (hp : A.remove p s = none) : Drains m s (.ok (m, s))
  | halts {m : Mapper α} {s s' : A.Store} {p : A.Ptr} {key : Priority α}
    {e : Halted (Mapper α)} (h : A.first s = some p) (hp : A.remove p s = some (key, s'))
    (hv : A.visit m s' key.id = .error e) : Drains m s (.error e)
  | visits {m : Mapper α} {s s' : A.Store} {p : A.Ptr} {key : Priority α}
    {f : Mapper α × A.Store} {r : Except (Halted (Mapper α)) (Mapper α × A.Store)}
    (h : A.first s = some p) (hp : A.remove p s = some (key, s'))
    (hv : A.visit m s' key.id = .ok f) (hr : Drains f.1 f.2 r) : Drains m s r

/-- Discovery with a map that an earlier round may have left entries in. -/
def Discovers (m : Mapper α) (s : A.Store)
    (r : Except (Halted (Mapper α)) (Mapper α × A.Store)) : Prop :=
  if m.order.all fun id => id < m.net.size then
    let usage := { m.usage with active := Array.replicate m.usage.active.size false }
    let sinks := m.order.filter fun id => (m.net.node id).isSink
    let f := sinks.foldl A.enqueue ({ m with usage := usage }, A.clear s)
    A.Drains f.1 f.2 r
  else r = .error ⟨.outOfRange, m⟩

variable {A} {m m' : Mapper α} {s : A.Store} {key : Priority α} {queue : List (Priority α)}
  {r r' : Except (Halted (Mapper α)) (Mapper α × A.Store)}

/-- The loop has one result at most. -/
theorem Drains.unique (h : A.Drains m s r) (h' : A.Drains m s r') : r = r' := by
  induction h with
  | empty h => cases h' <;> simp_all
  | missing h hp => cases h' <;> simp_all
  | halts h hp hv => cases h' <;> simp_all
  | visits h hp hv _ ih =>
    cases h' with
    | empty h' => simp_all
    | missing h' hp' => simp_all
    | halts h' hp' hv' => simp_all
    | visits h' hp' hv' hr' => exact ih (by simp_all)

/-- The map holds the keys of the list, and no two of them are of one node. -/
structure Mirrors (A : OrderedArena α) (g : Mapper α × A.Store) (f : Mapper.Frontier α) : Prop where
  mapper : g.1 = f.1
  entries : A.entries g.2 = f.2
  sorted : f.2.Pairwise Priority.Before
  queued : ∀ v ∈ f.2.map (·.id), f.1.isActive v = true
  nodup : (f.2.map (·.id)).Nodup

namespace Mirrors

variable [Std.TransCmp (Quantity.order : α → α → Ordering)] {g : Mapper α × A.Store}
  {f : Mapper.Frontier α}

theorem enqueue (h : A.Mirrors g f) (id : NodeId) : A.Mirrors (A.enqueue g id) (f.enqueue id) := by
  obtain ⟨m, s⟩ := g
  obtain ⟨m, queue⟩ := f
  obtain rfl := h.mapper
  unfold OrderedArena.enqueue Mapper.Frontier.enqueue
  dsimp only
  split
  · rename_i hfree
    have hinactive : m.isActive id = false := by
      rw [Mapper.isActive, Array.getD_eq_getD_getElem?, hfree]
      rfl
    obtain ⟨hid, -⟩ := Array.getElem?_eq_some_iff.1 hfree
    have hnot : id ∉ queue.map (·.id) := fun hm => by
      rw [h.queued id hm] at hinactive
      cases hinactive
    refine ⟨rfl, ?_, Priority.pairwise_insert h.sorted, fun v hv => ?_, ?_⟩
    · -- the number of the node tells its key from all others
      rw [A.entries_insert _ _ fun k hk he => hnot ?_, h.entries]
      · exact (Multiset.coe_eq_coe.2 (perm_insert _ queue)).symm
      · rw [show A.entries s = queue from h.entries] at hk
        exact List.mem_map.2 ⟨k, hk, (Priority.id_eq_of_compare he).symm⟩
    · rw [((perm_insert _ queue).map _).mem_iff, List.map_cons, List.mem_cons] at hv
      rw [Mapper.isActive, getD_set _ hid]
      split
      · rfl
      · exact h.queued v (hv.resolve_left ‹_›)
    · rw [((perm_insert _ queue).map _).nodup_iff]
      exact List.nodup_cons.2 ⟨hnot, h.nodup⟩
  · exact h

theorem enqueueLeaf (h : A.Mirrors g f) (id : NodeId) :
    A.Mirrors (A.enqueueLeaf g id) (f.enqueueLeaf id) := by
  have h' : A.Mirrors
      ({ g.1 with est := { g.1.est with area := g.1.est.area.setIfInBounds id 0 } }, g.2)
      ({ f.1 with est := { f.1.est with area := f.1.est.area.setIfInBounds id 0 } }, f.2) :=
    { h with mapper := by rw [h.mapper] }
  exact h'.enqueue id

omit [Std.TransCmp (Quantity.order : α → α → Ordering)] in
theorem foldl {step : Mapper α × A.Store → NodeId → Mapper α × A.Store}
    {step' : Mapper.Frontier α → NodeId → Mapper.Frontier α}
    (hstep : ∀ g f id, A.Mirrors g f → A.Mirrors (step g id) (step' f id)) (ids : List NodeId)
    (h : A.Mirrors g f) : A.Mirrors (ids.foldl step g) (ids.foldl step' f) := by
  induction ids generalizing g f with
  | nil => exact h
  | cons id rest ih => exact ih (hstep g f id h)

theorem visit {id : NodeId} (h : A.Mirrors (m, s) (m, queue)) (hv : m.visit queue id = .ok f) :
    ∃ g, A.visit m s id = .ok g ∧ A.Mirrors g f := by
  rw [Mapper.visit] at hv
  rw [OrderedArena.visit]
  cases hn : m.net.get? id with
  | none =>
    rw [hn] at hv
    cases hv
  | some node =>
    rw [hn] at hv
    dsimp only at hv ⊢
    split_ifs at hv ⊢
    · cases hc : m.chooseWinner id with
      | error e =>
        rw [hc] at hv
        cases hv
      | ok choice =>
        obtain ⟨m', winner⟩ := choice
        rw [hc] at hv
        dsimp only at hv ⊢
        split_ifs at hv ⊢
        cases hv
        have h' : A.Mirrors (m', s) (m', queue) := by
          refine { h with mapper := rfl, queued := fun v hm => ?_ }
          rw [Mapper.isActive, Mapper.usage_chooseWinner hc]
          exact h.queued v hm
        exact ⟨_, rfl, h'.foldl (fun _ _ id h => h.enqueueLeaf id) _⟩
    · cases hv
      exact ⟨_, rfl, h⟩
    · cases hv
      exact ⟨_, rfl, h.foldl (fun _ _ id h => h.enqueue id) _⟩

/-- The first key of the map is that of the list. -/
theorem pop (h : A.Mirrors (m, s) (m, key :: queue)) : ∃ p s', A.first s = some p ∧
    A.remove p s = some (key, s') ∧ A.Mirrors (m, s') (m, queue) := by
  have hentries : A.entries s = ↑(key :: queue) := h.entries
  cases hp : A.first s with
  | none =>
    rw [A.first_eq_none, hentries, Multiset.coe_eq_zero] at hp
    cases hp
  | some p =>
    obtain ⟨k, s', hr, hs', hmin⟩ := A.remove_first s p hp
    have hmem : k ∈ key :: queue := by
      rw [← Multiset.mem_coe, ← hentries, hs']
      exact Multiset.mem_cons_self k _
    obtain ⟨hnot, hnodup⟩ := List.nodup_cons.1 h.nodup
    obtain ⟨hfirst, hsorted⟩ := List.pairwise_cons.1 h.sorted
    -- both are first, so they belong to one node
    obtain rfl : k = key := by
      rcases List.mem_cons.1 hmem with he | hmem
      · exact he
      · have he := (hmin key (by rw [hentries]; exact List.mem_cons_self)).id_eq (hfirst k hmem)
        exact absurd (List.mem_map.2 ⟨k, hmem, he⟩) hnot
    refine ⟨p, s', rfl, hr, rfl, ?_, hsorted, fun v hv => h.queued v (by simp_all), hnodup⟩
    rw [hentries, ← Multiset.cons_coe] at hs'
    exact ((Multiset.cons_inj_right k).1 hs').symm

/-- The loop does with the map what it does with the list, and leaves the map empty. -/
theorem drains (h : A.Mirrors (m, s) (m, queue)) (hd : m.drain queue = .ok m') :
    ∃ s', A.Drains m s (.ok (m', s')) ∧ A.entries s' = 0 := by
  induction m, queue using Mapper.drain.induct generalizing s with
  | case1 m =>
    rw [Mapper.drain] at hd
    cases hd
    exact ⟨s, .empty ((A.first_eq_none s).2 h.entries), h.entries⟩
  | case2 m key queue e he =>
    rw [drain_cons, he] at hd
    cases hd
  | case3 m key queue f hf _ ih =>
    rw [drain_cons, hf] at hd
    obtain ⟨p, s', hp, hr, hpop⟩ := h.pop
    obtain ⟨⟨m₁, s₁⟩, hv, hvisit⟩ := hpop.visit hf
    obtain rfl : m₁ = f.1 := hvisit.mapper
    obtain ⟨s'', hdrains, hempty⟩ := ih hvisit hd
    exact ⟨s'', .visits hp hr hv hdrains, hempty⟩

end Mirrors

/-- Where the list of the mapper ends discovery, every ordered map ends it in the same state and is
empty then. -/
theorem discovers_of_ok [Std.TransCmp (Quantity.order : α → α → Ordering)] (s : A.Store)
    (hd : m.discoverActive = .ok m') :
    ∃ s', (∀ r, A.Discovers m s r ↔ r = .ok (m', s')) ∧ A.entries s' = 0 := by
  unfold Mapper.discoverActive at hd
  split at hd
  · rename_i hrange
    extract_lets _ usage sinks f at hd
    have h₀ : A.Mirrors ({ m with usage := usage }, A.clear s) ({ m with usage := usage }, []) :=
      ⟨rfl, A.entries_clear s, .nil, by simp, .nil⟩
    have h := h₀.foldl (fun _ _ id h => h.enqueue id) sinks
    generalize hg : sinks.foldl A.enqueue ({ m with usage := usage }, A.clear s) = g at h
    obtain ⟨m₁, s₁⟩ := g
    obtain rfl : m₁ = f.1 := h.mapper
    obtain ⟨s', hdrains, hempty⟩ := h.drains hd
    have hdiscovers (r) : A.Discovers m s r ↔ A.Drains f.1 s₁ r := by
      rw [Discovers, if_pos hrange]
      dsimp only
      rw [hg]
    refine ⟨s', fun r => (hdiscovers r).trans ⟨fun h => h.unique hdrains, ?_⟩, hempty⟩
    rintro rfl
    exact hdrains
  · cases hd

end OrderedArena

end TechMap.Mapping
