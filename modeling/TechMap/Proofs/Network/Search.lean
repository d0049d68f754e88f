import Mathlib
import TechMap.Network.Compaction
import TechMap.Proofs.Network.Basic

/-! The depth first search of compaction. An invariant ties the colours to the path and to the
finished nodes, one lemma for each move of the walk keeps it, and at the end the finished nodes are
exactly those worth keeping, each after its operands. -/

namespace TechMap.Network

/-- Node `a` has `b` as an operand. -/
def Feeds (net : Network) (a b : NodeId) : Prop := ∃ l ∈ (net.node a).operands, l.id = b

def Reaches (net : Network) : NodeId → NodeId → Prop := Relation.ReflTransGen net.Feeds

/-- Sources, and whatever some sink needs. -/
def Kept (net : Network) (id : NodeId) : Prop :=
  (net.node id).isSource = true ∨ ∃ s, (net.node s).isSink = true ∧ net.Reaches s id

theorem Kept.of_isSink {net : Network} {id : NodeId} (h : (net.node id).isSink = true) :
    net.Kept id := .inr ⟨id, h, .refl⟩

theorem Kept.operand {net : Network} {id : NodeId} {l : Lit} (h : net.Kept id)
    (hl : l ∈ (net.node id).operands) : net.Kept l.id := by
  rcases h with h | ⟨s, hs, hr⟩
  · rw [Node.operands_of_isSource h] at hl
    cases hl
  · exact .inr ⟨s, hs, hr.tail ⟨l, hl, rfl⟩⟩

/-- Each entry's operands are left, finished, or the node that the walk went on to. -/
def Waiting (net : Network) (order : Array NodeId) :
    Option NodeId → List (NodeId × List Lit) → Prop
  | _, [] => True
  | child, (id, rest) :: path =>
    (∀ l ∈ (net.node id).operands, l ∈ rest ∨ l.id ∈ order ∨ child = some l.id) ∧
      (∀ l ∈ rest, l ∈ (net.node id).operands) ∧ Waiting net order (some id) path

/-- What holds of the search while it walks `path` and is about to go on to `child`. -/
structure Exploring (net : Network) (child : Option NodeId) (path : List (NodeId × List Lit))
    (s : Search) : Prop where
  size : s.colours.size = net.size
  onPath : ∀ id : NodeId, s.colours[id]? = some .onPath ↔ id ∈ path.map (·.1)
  done : ∀ id : NodeId, s.colours[id]? = some .done ↔ id ∈ s.order
  nodup : s.order.toList.Nodup
  nodupPath : (path.map (·.1)).Nodup
  live : ∀ id, id ∈ s.order ∨ id ∈ path.map (·.1) → net.isLive id = true
  kept : ∀ id, id ∈ s.order ∨ id ∈ path.map (·.1) → net.Kept id
  sorted : ∀ (i : Nat) (id : NodeId), s.order[i]? = some id → ∀ l ∈ (net.node id).operands,
    ∃ j < i, s.order[j]? = some l.id
  waiting : net.Waiting s.order child path

variable {net : Network} {s : Search} {path : List (NodeId × List Lit)} {id : NodeId}

theorem Waiting.mono {order order' : Array NodeId} (hsub : ∀ x ∈ order, x ∈ order')
    {child : Option NodeId} (h : net.Waiting order child path) : net.Waiting order' child path := by
  induction path generalizing child with
  | nil => trivial
  | cons e path ih =>
    obtain ⟨h1, h2, h3⟩ := h
    exact ⟨fun l hl => (h1 l hl).imp_right (Or.imp_left (hsub _)), h2, ih h3⟩

theorem Waiting.finish {order : Array NodeId} (h : net.Waiting order (some id) path)
    (child : Option NodeId) : net.Waiting (order.push id) child path := by
  cases path with
  | nil => trivial
  | cons e path =>
    obtain ⟨h, hsub, hrest⟩ := h
    refine ⟨fun l hl => ?_, hsub, hrest.mono fun x hx => Array.mem_push_of_mem _ hx⟩
    rcases h l hl with h | h | h
    · exact .inl h
    · exact .inr (.inl (Array.mem_push_of_mem _ h))
    · obtain rfl : id = l.id := by simpa using h
      exact .inr (.inl Array.mem_push_self)

namespace Exploring

theorem start (net : Network) : net.Exploring none [] (.start net.size) where
  size := by simp [Search.start]
  onPath id := by simp [Search.start, Array.getElem?_replicate]
  done id := by simp [Search.start, Array.getElem?_replicate]
  nodup := by simp [Search.start]
  nodupPath := by simp
  live id := by simp [Search.start]
  kept id := by simp [Search.start]
  sorted i id h := by simp [Search.start] at h
  waiting := trivial

/-- A finished node comes after its operands. -/
theorem sorted_finish (h : net.Exploring none ((id, []) :: path) s) (i : Nat) (x : NodeId)
    (hx : (s.finish id).order[i]? = some x) (l : Lit) (hl : l ∈ (net.node x).operands) :
    ∃ j < i, (s.finish id).order[j]? = some l.id := by
  simp only [Search.finish, Array.getElem?_push] at hx ⊢
  split at hx
  · obtain rfl : id = x := by simpa using hx
    rcases h.waiting.1 l hl with hm | hm | hm
    · cases hm
    · obtain ⟨j, hj⟩ := Array.mem_iff_getElem?.1 hm
      have hjs := (Array.getElem?_eq_some_iff.1 hj).1
      exact ⟨j, by omega, by rw [if_neg (by omega)]; exact hj⟩
    · cases hm
  · obtain ⟨j, hj, hjx⟩ := h.sorted i x hx l hl
    have hjs := (Array.getElem?_eq_some_iff.1 hjx).1
    exact ⟨j, hj, by rw [if_neg (by omega)]; exact hjx⟩

/-- All operands of the last entry are finished. -/
theorem finish (h : net.Exploring none ((id, []) :: path) s) :
    net.Exploring none path (s.finish id) := by
  have hon : s.colours[id]? = some .onPath := (h.onPath id).2 (by simp)
  have hlt : id < s.colours.size := (Array.getElem?_eq_some_iff.1 hon).1
  have hnot : id ∉ s.order := fun hm => by
    have := (h.done id).2 hm
    rw [hon] at this
    cases this
  obtain ⟨hid, hnodup⟩ := List.nodup_cons.1 h.nodupPath
  have hcol (i : NodeId) : (s.finish id).colours[i]? =
      if id = i then some .done else s.colours[i]? := by
    rw [Search.finish, Array.getElem?_setIfInBounds]
    split <;> simp_all
  have hmem (i : NodeId) : i ∈ (s.finish id).order ↔ i ∈ s.order ∨ i = id := Array.mem_push
  have hback (i : NodeId) (hi : i ∈ (s.finish id).order ∨ i ∈ path.map (·.1)) :
      i ∈ s.order ∨ i ∈ ((id, []) :: path).map (·.1) := by
    rw [hmem] at hi
    rcases hi with (hi | rfl) | hi <;> simp_all
  constructor
  case size => simp [Search.finish, h.size]
  case onPath =>
    intro i
    rw [hcol]
    split
    · rename_i he; subst he; simpa using hid
    · rename_i hne; rw [h.onPath]; simp [Ne.symm hne]
  case done =>
    intro i
    rw [hcol, hmem]
    split
    · rename_i he; simp [he]
    · rename_i hne; rw [h.done]; simp [Ne.symm hne]
  case nodup =>
    simp only [Search.finish, Array.toList_push]
    refine List.Nodup.append h.nodup (List.nodup_singleton id) ?_
    simpa using hnot
  case nodupPath => exact hnodup
  case live => exact fun i hi => h.live i (hback i hi)
  case kept => exact fun i hi => h.kept i (hback i hi)
  case sorted => exact h.sorted_finish
  case waiting => exact h.waiting.2.2.finish none

/-- The next operand of the last entry. -/
theorem advance {l : Lit} {rest : List Lit} (h : net.Exploring none ((id, l :: rest) :: path) s) :
    net.Exploring (some l.id) ((id, rest) :: path) s := by
  refine { h with waiting := ?_ }
  obtain ⟨h1, h2, h3⟩ := h.waiting
  refine ⟨fun l' hl' => ?_, fun l' hl' => h2 l' (List.mem_cons_of_mem _ hl'), h3⟩
  rcases h1 l' hl' with hm | hm | hm
  · rcases List.mem_cons.1 hm with rfl | hm
    · exact .inr (.inr rfl)
    · exact .inl hm
  · exact .inr (.inl hm)
  · cases hm

/-- The walk goes on to a node that no search has reached. -/
theorem enter (h : net.Exploring (some id) path s) (hl : net.isLive id = true)
    (hk : net.Kept id) (hf : s.colours[id]? = some .fresh) :
    net.Exploring none ((id, (net.node id).operands) :: path) (s.enter id) := by
  have hlt : id < s.colours.size := (Array.getElem?_eq_some_iff.1 hf).1
  have hcol (i : NodeId) : (s.enter id).colours[i]? =
      if id = i then some .onPath else s.colours[i]? := by
    rw [Search.enter, Array.getElem?_setIfInBounds]
    split <;> simp_all
  have hpath : id ∉ path.map (·.1) := fun hm => by
    have := (h.onPath _).2 hm
    rw [hf] at this
    cases this
  have horder : id ∉ s.order := fun hm => by
    have := (h.done _).2 hm
    rw [hf] at this
    cases this
  constructor
  case size => simp [Search.enter, h.size]
  case onPath =>
    intro i
    rw [hcol]
    split
    · rename_i he; simp [he]
    · rename_i hne; rw [h.onPath]; simp [Ne.symm hne]
  case done =>
    intro i
    rw [hcol]
    split
    · rename_i he; subst he; simp [Search.enter, horder]
    · exact h.done i
  case nodup => exact h.nodup
  case nodupPath => exact List.nodup_cons.2 ⟨hpath, h.nodupPath⟩
  case live =>
    intro i hi
    rcases hi with hi | hi
    · exact h.live i (.inl hi)
    · rcases List.mem_cons.1 hi with rfl | hi
      · exact hl
      · exact h.live i (.inr hi)
  case kept =>
    intro i hi
    rcases hi with hi | hi
    · exact h.kept i (.inl hi)
    · rcases List.mem_cons.1 hi with rfl | hi
      · exact hk
      · exact h.kept i (.inr hi)
  case sorted => exact h.sorted
  case waiting => exact ⟨fun l hl => .inl hl, fun _ hl => hl, h.waiting⟩

/-- A node that is finished already is passed over. -/
theorem pass (h : net.Exploring (some id) path s) (hd : id ∈ s.order) :
    net.Exploring none path s := by
  refine { h with waiting := ?_ }
  have hw := h.waiting
  cases path with
  | nil => trivial
  | cons e path =>
    obtain ⟨h1, h2, h3⟩ := hw
    refine ⟨fun l hl => ?_, h2, h3⟩
    rcases h1 l hl with hm | hm | hm
    · exact .inl hm
    · exact .inr (.inl hm)
    · obtain rfl : id = l.id := by simpa using hm
      exact .inr (.inl hd)

/-- A node that is neither fresh nor on the path is finished. -/
theorem mem_order {child : Option NodeId} (h : net.Exploring child path s)
    (hl : net.isLive id = true) (hf : s.colours[id]? ≠ some .fresh)
    (hp : s.colours[id]? ≠ some .onPath) : id ∈ s.order := by
  have hlt : id < s.colours.size := by rw [h.size]; exact lt_size_of_isLive hl
  rw [← h.done]
  rw [Array.getElem?_eq_getElem hlt] at hf hp ⊢
  cases hc : s.colours[id] <;> simp_all

end Exploring

section Moves

variable {l : Lit} {rest : List Lit}

theorem explore_finish : net.explore ((id, []) :: path) s = net.explore path (s.finish id) := by
  rw [explore]

theorem explore_enter (hl : net.isLive l.id = true) (hf : s.colours[l.id]? = some .fresh) :
    net.explore ((id, l :: rest) :: path) s =
      net.explore ((l.id, (net.node l.id).operands) :: (id, rest) :: path) (s.enter l.id) := by
  rw [explore, if_pos hl]
  split <;> simp_all

theorem explore_cycle (hl : net.isLive l.id = true) (hp : s.colours[l.id]? = some .onPath) :
    net.explore ((id, l :: rest) :: path) s = .error (.cycle id l.id) := by
  rw [explore, if_pos hl]
  split <;> simp_all

theorem explore_pass (hl : net.isLive l.id = true) (hf : s.colours[l.id]? ≠ some .fresh)
    (hp : s.colours[l.id]? ≠ some .onPath) :
    net.explore ((id, l :: rest) :: path) s = net.explore ((id, rest) :: path) s := by
  rw [explore, if_pos hl]
  split <;> simp_all

theorem explore_dangling (hl : ¬ net.isLive l.id = true) :
    net.explore ((id, l :: rest) :: path) s = .error (.dangling id l.id) := by
  rw [explore, if_neg hl]

end Moves

/-- The moves of a search that goes through to `s'`. -/
@[elab_as_elim]
theorem explore_ok_induction {s' : Search}
    {motive : (path : List (NodeId × List Lit)) → (s : Search) → net.explore path s = .ok s' → Prop}
    (done : ∀ h, motive [] s' h)
    (finish : ∀ s id path h h', motive path (s.finish id) h → motive ((id, []) :: path) s h')
    (enter : ∀ s id l rest path h h', net.isLive l.id = true → s.colours[l.id]? = some .fresh →
      motive ((l.id, (net.node l.id).operands) :: (id, rest) :: path) (s.enter l.id) h →
      motive ((id, l :: rest) :: path) s h')
    (pass : ∀ s id l rest path h h', net.isLive l.id = true → s.colours[l.id]? ≠ some .fresh →
      s.colours[l.id]? ≠ some .onPath → motive ((id, rest) :: path) s h →
      motive ((id, l :: rest) :: path) s h')
    (path : List (NodeId × List Lit)) (s : Search) (hs : net.explore path s = .ok s') :
    motive path s hs := by
  induction path, s using explore.induct net with
  | case1 s =>
    obtain rfl : s = s' := by simpa [explore] using hs
    exact done hs
  | case2 s id path ih => exact finish s id path (explore_finish ▸ hs) hs (ih _)
  | case3 s id l rest path hl hf _ ih =>
    exact enter s id l rest path (explore_enter hl hf ▸ hs) hs hl hf (ih _)
  | case4 s id l rest path hl hp =>
    have := hs
    rw [explore_cycle hl hp] at this
    cases this
  | case5 s id l rest path hl hf hp ih =>
    exact pass s id l rest path (explore_pass hl hf hp ▸ hs) hs hl hf hp (ih _)
  | case6 s id l rest path hl =>
    have := hs
    rw [explore_dangling hl] at this
    cases this

/-- A walk that ends has finished all of its path, and nothing that was finished is lost. -/
theorem explore_spec {s' : Search} (h : net.Exploring none path s)
    (hs : net.explore path s = .ok s') : net.Exploring none [] s' ∧
      ∀ id, id ∈ s.order ∨ id ∈ path.map (·.1) → id ∈ s'.order := by
  induction path, s, hs using explore_ok_induction with
  | done _ => exact ⟨h, fun id hid => by simpa using hid⟩
  | finish s id path _ _ ih =>
    obtain ⟨he, hsub⟩ := ih h.finish
    refine ⟨he, fun i hi => hsub i ?_⟩
    simp only [Search.finish, Array.mem_push]
    rcases hi with hi | hi
    · exact .inl (.inl hi)
    · rcases List.mem_cons.1 hi with rfl | hi
      · exact .inl (.inr rfl)
      · exact .inr hi
  | enter s id l rest path _ _ hl hf ih =>
    have hk : net.Kept l.id := (h.kept id (.inr (by simp))).operand (h.waiting.2.1 l (by simp))
    obtain ⟨he, hsub⟩ := ih (h.advance.enter hl hk hf)
    refine ⟨he, fun i hi => hsub i ?_⟩
    rcases hi with hi | hi
    · exact .inl hi
    · exact .inr (List.mem_cons_of_mem _ hi)
  | pass s id l rest path _ _ hl hf hp ih => exact ih (h.advance.pass (h.mem_order hl hf hp))

/-- Nodes only get finished, one after the other. -/
theorem explore_extends {s' : Search} (hs : net.explore path s = .ok s') :
    s.order.toList <+: s'.order.toList := by
  induction path, s, hs using explore_ok_induction with
  | done _ => exact List.prefix_rfl
  | finish s id path _ _ ih =>
    refine List.IsPrefix.trans ?_ ih
    simp [Search.finish]
  | enter s id l rest path _ _ hl hf ih => exact ih
  | pass s id l rest path _ _ hl hf hp ih => exact ih

theorem searchFrom_extends {s' : Search} (hs : net.searchFrom s id = .ok s') :
    s.order.toList <+: s'.order.toList := by
  unfold searchFrom at hs
  dsimp only at hs
  split at hs
  · exact explore_extends (s := s.enter id) hs
  · obtain rfl : s = s' := by simpa using hs
    exact List.prefix_rfl

theorem foldlM_cons_ok {ids : List NodeId} {s' : Search}
    (hs : (id :: ids).foldlM net.searchFrom s = .ok s') :
    ∃ t, net.searchFrom s id = .ok t ∧ ids.foldlM net.searchFrom t = .ok s' := by
  rw [List.foldlM_cons] at hs
  cases h : net.searchFrom s id with
  | error e => rw [h] at hs; cases hs
  | ok t => rw [h] at hs; exact ⟨t, rfl, hs⟩

theorem foldlM_append_ok {ids ids' : List NodeId} {s' : Search}
    (hs : (ids ++ ids').foldlM net.searchFrom s = .ok s') :
    ∃ t, ids.foldlM net.searchFrom s = .ok t ∧ ids'.foldlM net.searchFrom t = .ok s' := by
  rw [List.foldlM_append] at hs
  cases h : ids.foldlM net.searchFrom s with
  | error e => rw [h] at hs; cases hs
  | ok t => rw [h] at hs; exact ⟨t, rfl, hs⟩

theorem foldlM_extends {ids : List NodeId} {s' : Search}
    (hs : ids.foldlM net.searchFrom s = .ok s') : s.order.toList <+: s'.order.toList := by
  induction ids generalizing s with
  | nil =>
    obtain rfl : s = s' := by simpa [pure, Except.pure] using hs
    exact List.prefix_rfl
  | cons id rest ih =>
    obtain ⟨t, h1, hs⟩ := foldlM_cons_ok hs
    exact (searchFrom_extends h1).trans (ih hs)

/-- A set of nodes whose operands are live nodes of smaller number in the set. A search from its
members meets neither a missing operand nor a cycle. -/
structure Grounded (net : Network) (P : NodeId → Prop) : Prop where
  live : ∀ id, P id → ∀ l ∈ (net.node id).operands, net.isLive l.id = true
  lt : ∀ id, P id → ∀ l ∈ (net.node id).operands, l.id < id
  closed : ∀ id, P id → ∀ l ∈ (net.node id).operands, P l.id

theorem Canonical.grounded (h : net.Canonical) : net.Grounded fun _ => True :=
  ⟨fun id _ => h.live id, fun id _ => h.lt id, fun _ _ _ _ => trivial⟩

/-- In a grounded set the numbers fall along the operands. -/
theorem Grounded.reaches {P : NodeId → Prop} (hP : net.Grounded P) {a b : NodeId} (ha : P a)
    (hab : net.Reaches a b) : P b ∧ b ≤ a := by
  induction hab with
  | refl => exact ⟨ha, le_refl a⟩
  | tail _ hstep ih =>
    obtain ⟨l, hl, rfl⟩ := hstep
    exact ⟨hP.closed _ ih.1 l hl, le_trans (le_of_lt (hP.lt _ ih.1 l hl)) ih.2⟩

theorem Grounded.kept {P : NodeId → Prop} (hP : net.Grounded P)
    (hroots : ∀ id, (net.node id).isSource = true ∨ (net.node id).isSink = true → P id)
    (h : net.Kept id) : P id := by
  rcases h with h | ⟨s, hs, hr⟩
  · exact hroots id (.inl h)
  · exact (hP.reaches (hroots s (.inr hs)) hr).1

/-- What a search can stop at: a node worth keeping with an operand that is not there, or with one
that needs the node itself. -/
inductive Fault (net : Network) : Error → Prop
  | dangling {id : NodeId} {l : Lit} (hk : net.Kept id) (hl : l ∈ (net.node id).operands)
    (hd : ¬ net.isLive l.id = true) : Fault net (.dangling id l.id)
  | cycle {id : NodeId} {l : Lit} (hk : net.Kept id) (hl : l ∈ (net.node id).operands)
    (hr : net.Reaches l.id id) : Fault net (.cycle id l.id)

theorem Grounded.no_fault {P : NodeId → Prop} (hP : net.Grounded P)
    (hroots : ∀ id, (net.node id).isSource = true ∨ (net.node id).isSink = true → P id)
    (e : Error) : ¬ net.Fault e := by
  intro h
  cases h with
  | dangling hk hl hd => exact hd (hP.live _ (hP.kept hroots hk) _ hl)
  | cycle hk hl hr =>
    have hid := hP.kept hroots hk
    exact absurd (hP.lt _ hid _ hl) (Nat.not_lt.2 (hP.reaches (hP.closed _ hid _ hl) hr).2)

/-- Each entry of the path needs the ones that were entered after it. -/
def Trail (net : Network) (path : List (NodeId × List Lit)) : Prop :=
  (path.map (·.1)).Pairwise fun later earlier => net.Reaches earlier later

theorem Trail.enter {l : Lit} {rest : List Lit} (h : net.Trail ((id, l :: rest) :: path))
    (hl : l ∈ (net.node id).operands) (ops : List Lit) :
    net.Trail ((l.id, ops) :: (id, rest) :: path) := by
  have hstep : net.Feeds id l.id := ⟨l, hl, rfl⟩
  refine List.pairwise_cons.2 ⟨fun i hi => ?_, h⟩
  rcases List.mem_cons.1 hi with rfl | hi
  · exact .single hstep
  · exact ((List.pairwise_cons.1 h).1 i hi).tail hstep

/-- A search stops at nothing but a fault. -/
theorem explore_error {e : Error} (h : net.Exploring none path s) (ht : net.Trail path)
    (hs : net.explore path s = .error e) : net.Fault e := by
  induction path, s using explore.induct net with
  | case1 s =>
    rw [explore] at hs
    cases hs
  | case2 s id path ih =>
    rw [explore_finish] at hs
    exact ih h.finish (List.pairwise_cons.1 ht).2 hs
  | case3 s id l rest path hl hf _ ih =>
    rw [explore_enter hl hf] at hs
    have hop : l ∈ (net.node id).operands := h.waiting.2.1 l (by simp)
    have hk : net.Kept l.id := (h.kept id (.inr (by simp))).operand hop
    exact ih (h.advance.enter hl hk hf) (ht.enter hop _) hs
  | case4 s id l rest path hl hp =>
    rw [explore_cycle hl hp] at hs
    cases hs
    refine .cycle (h.kept id (.inr (by simp))) (h.waiting.2.1 l (by simp)) ?_
    rcases List.mem_cons.1 ((h.onPath l.id).1 hp) with he | hm
    · exact he ▸ .refl
    · exact (List.pairwise_cons.1 ht).1 _ hm
  | case5 s id l rest path hl hf hp ih =>
    rw [explore_pass hl hf hp] at hs
    exact ih (h.advance.pass (h.mem_order hl hf hp)) ht hs
  | case6 s id l rest path hl =>
    rw [explore_dangling hl] at hs
    cases hs
    exact .dangling (h.kept id (.inr (by simp))) (h.waiting.2.1 l (by simp)) hl

/-- The search after all roots in `ids`. -/
structure Searched (net : Network) (ids : List NodeId) (s : Search) : Prop where
  exploring : net.Exploring none [] s
  roots : ∀ id ∈ ids, (net.node id).isSource = true ∨ (net.node id).isSink = true → id ∈ s.order

theorem isLive_of_root (h : (net.node id).isSource = true ∨ (net.node id).isSink = true) :
    net.isLive id = true := h.elim isLive_of_isSource isLive_of_isSink

theorem Kept.of_root (h : (net.node id).isSource = true ∨ (net.node id).isSink = true) :
    net.Kept id := h.elim .inl .of_isSink

namespace Searched

variable {ids : List NodeId}

theorem start (net : Network) : net.Searched [] (.start net.size) := ⟨.start net, by simp⟩

theorem enterRoot (h : net.Searched ids s)
    (hr : ((net.node id).isSource || (net.node id).isSink) = true)
    (hf : s.colours[id]? = some .fresh) :
    net.Exploring none [(id, (net.node id).operands)] (s.enter id) := by
  have hr : (net.node id).isSource = true ∨ (net.node id).isSink = true := by simpa using hr
  exact Exploring.enter { h.exploring with waiting := trivial } (isLive_of_root hr) (.of_root hr) hf

theorem searchFrom {s' : Search} (h : net.Searched ids s) (hs : net.searchFrom s id = .ok s') :
    net.Searched (ids ++ [id]) s' := by
  unfold Network.searchFrom at hs
  simp only [Bool.and_eq_true] at hs
  split at hs
  · rename_i hc
    obtain ⟨hr, hf⟩ := hc
    obtain ⟨he, hsub⟩ := explore_spec (h.enterRoot hr (by simpa using hf)) hs
    refine ⟨he, fun i hi hroot => ?_⟩
    rcases List.mem_append.1 hi with hi | hi
    · exact hsub i (.inl (h.roots i hi hroot))
    · exact hsub i (.inr (by simpa using hi))
  · rename_i hc
    obtain rfl : s = s' := by simpa using hs
    refine ⟨h.exploring, fun i hi hroot => ?_⟩
    rcases List.mem_append.1 hi with hi | hi
    · exact h.roots i hi hroot
    · obtain rfl : i = id := by simpa using hi
      refine h.exploring.mem_order (isLive_of_root hroot) (fun hf => hc ⟨?_, by simpa using hf⟩) ?_
      · simpa using hroot
      · rw [Ne, h.exploring.onPath]
        simp

theorem foldlM {rest : List NodeId} {s' : Search} (h : net.Searched ids s)
    (hs : rest.foldlM net.searchFrom s = .ok s') : net.Searched (ids ++ rest) s' := by
  induction rest generalizing ids s with
  | nil =>
    obtain rfl : s = s' := by simpa [pure, Except.pure] using hs
    simpa using h
  | cons id rest ih =>
    obtain ⟨t, h1, hs⟩ := foldlM_cons_ok hs
    simpa using ih (h.searchFrom h1) hs

theorem searchFrom_error {e : Error} (h : net.Searched ids s)
    (hs : net.searchFrom s id = .error e) : net.Fault e := by
  unfold Network.searchFrom at hs
  simp only [Bool.and_eq_true] at hs
  split at hs
  · rename_i hc
    exact explore_error (h.enterRoot hc.1 (by simpa using hc.2)) (List.pairwise_singleton _ _) hs
  · cases hs

theorem foldlM_error {e : Error} {rest : List NodeId} (h : net.Searched ids s)
    (hs : rest.foldlM net.searchFrom s = .error e) : net.Fault e := by
  induction rest generalizing ids s with
  | nil => cases hs
  | cons id rest ih =>
    rw [List.foldlM_cons] at hs
    cases h1 : net.searchFrom s id with
    | error e₁ =>
      rw [h1] at hs
      cases hs
      exact h.searchFrom_error h1
    | ok s1 =>
      rw [h1] at hs
      exact ih (h.searchFrom h1) hs

end Searched

/-- The survivors: those worth keeping, each once and after its operands. -/
structure SurvivalOrder (net : Network) (order : Array NodeId) : Prop where
  nodup : order.toList.Nodup
  live : ∀ id ∈ order, net.isLive id = true
  mem_iff : ∀ id, id ∈ order ↔ net.Kept id
  sorted : ∀ (i : Nat) (id : NodeId), order[i]? = some id → ∀ l ∈ (net.node id).operands,
    ∃ j < i, order[j]? = some l.id
  first : (net.node NodeId.constant).isSource = true → order[0]? = some NodeId.constant

/-- A source at the start of the table is the first root, and finished at once. -/
theorem first_of_foldlM {s : Search} (h0 : (net.node NodeId.constant).isSource = true)
    (hs : net.ids.foldlM net.searchFrom (.start net.size) = .ok s) :
    s.order[0]? = some NodeId.constant := by
  have hlt : 0 < net.size := lt_size_of_isLive (isLive_of_isSource h0)
  obtain ⟨rest, hids⟩ : ∃ rest, net.ids = NodeId.constant :: rest := by
    obtain ⟨n, hn⟩ := Nat.exists_eq_succ_of_ne_zero hlt.ne'
    exact ⟨_, by rw [ids, hn, List.range_succ_eq_map]; rfl⟩
  have hfirst : net.searchFrom (.start net.size) NodeId.constant =
      .ok (((Search.start net.size).enter NodeId.constant).finish NodeId.constant) := by
    have hfresh : (Search.start net.size).colours[NodeId.constant]? = some .fresh := by
      simp [Search.start, NodeId.constant, hlt]
    unfold searchFrom
    dsimp only
    rw [if_pos (by simp [h0, hfresh]), Node.operands_of_isSource h0, explore, explore]
  rw [hids, List.foldlM_cons, hfirst] at hs
  obtain ⟨t, ht⟩ := foldlM_extends hs
  rw [← Array.getElem?_toList, ← ht]
  rfl

theorem survivors_ok {order : Array NodeId} (h : net.survivors = .ok order) :
    ∃ s, net.ids.foldlM net.searchFrom (.start net.size) = .ok s ∧ s.order = order := by
  unfold survivors at h
  cases hs : net.ids.foldlM net.searchFrom (.start net.size) with
  | error e => rw [hs] at h; cases h
  | ok s =>
    rw [hs] at h
    exact ⟨s, rfl, by simpa [bind, Except.bind, pure, Except.pure] using h⟩

theorem survivors_spec {order : Array NodeId} (h : net.survivors = .ok order) :
    net.SurvivalOrder order := by
  obtain ⟨s, hs, rfl⟩ := survivors_ok h
  obtain ⟨he, hroots⟩ := (Searched.start net).foldlM hs
  have hclosed (a b : NodeId) (ha : a ∈ s.order) (hab : net.Feeds a b) : b ∈ s.order := by
    obtain ⟨l, hl, rfl⟩ := hab
    obtain ⟨i, hi⟩ := Array.mem_iff_getElem?.1 ha
    obtain ⟨j, _, hj⟩ := he.sorted i a hi l hl
    exact Array.mem_of_getElem? hj
  have hroot (id : NodeId) (hr : (net.node id).isSource = true ∨ (net.node id).isSink = true) :
      id ∈ s.order :=
    hroots id (by simpa using mem_ids.2 (lt_size_of_isLive (isLive_of_root hr))) hr
  refine ⟨he.nodup, fun id hid => he.live id (.inl hid), fun id => ⟨fun hid => ?_, fun hk => ?_⟩,
    he.sorted, fun h0 => first_of_foldlM h0 hs⟩
  · exact he.kept id (.inl hid)
  · rcases hk with hk | ⟨r, hr, hreach⟩
    · exact hroot id (.inl hk)
    · induction hreach with
      | refl => exact hroot r (.inr hr)
      | tail _ hab ih => exact hclosed _ _ ih hab

theorem survivors_error {e : Error} (h : net.survivors = .error e) : net.Fault e := by
  unfold survivors at h
  cases hs : net.ids.foldlM net.searchFrom (.start net.size) with
  | error e₁ =>
    rw [hs] at h
    cases h
    exact (Searched.start net).foldlM_error hs
  | ok s =>
    rw [hs] at h
    cases h

end TechMap.Network
