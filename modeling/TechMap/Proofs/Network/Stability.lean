import Mathlib
import TechMap.Proofs.Network.Renaming

/-! Compacting once more. A search of the new network makes the moves that the search of the old one
made at the nodes with their new numbers, as long as it starts from the same roots. Everything in a
compacted network is kept, so the second compaction permutes it. If the first network was canonical
the roots kept their order, and then the second search finishes the nodes as they are numbered. -/

namespace TechMap

theorem Node.mapLits_eq_self {g : Lit → Lit} {n : Node} (h : ∀ l ∈ n.operands, g l = l) :
    n.mapLits g = n := by
  cases n with
  | lut6 inputs table =>
    have hmap : inputs.map g = inputs.map id := List.map_congr_left h
    rw [mapLits, hmap, List.map_id]
  | _ => simp_all [mapLits, operands]

namespace Compaction

variable {c : Compaction} {id i : NodeId}

/-- The new number of a survivor. -/
def number (c : Compaction) (id : NodeId) : NodeId := (c.get id).getD 0

theorem number_eq (h : c.get id = some i) : c.number id = i := by simp [number, h]

/-- The entries of a path at their new numbers. -/
def movePath (c : Compaction) (path : List (NodeId × List Lit)) : List (NodeId × List Lit) :=
  path.map fun e => (c.number e.1, e.2.map c.move)

/-- Every node keeps its number. -/
def identity (size : Nat) : Compaction := ⟨(Array.range size).map some⟩

theorem get_identity {size : Nat} : (identity size).get id = if id < size then some id else none := by
  simp only [get, identity, Array.getElem?_map, Array.getElem?_range]
  split <;> rfl

theorem ext_get {c' : Compaction} (hsize : c'.map.size = c.map.size)
    (h : ∀ id < c.map.size, ∃ i, c'.get id = some i ∧ c.get id = some i) : c' = c := by
  have hsome {c : Compaction} {id i : NodeId} (hlt : id < c.map.size) (hi : c.get id = some i) :
      c.map[id] = some i := by
    simpa [get, Array.getElem?_eq_getElem hlt] using hi
  cases c; cases c'
  congr 1
  refine Array.ext hsize fun id hlt' hlt => ?_
  obtain ⟨i, hi', hi⟩ := h id hlt
  exact (hsome hlt' hi').trans (hsome hlt hi).symm

end Compaction

namespace Network

variable {net net' : Network} {c : Compaction} {s s' t : Search} {id i : NodeId}

/-- The second search has done to the new numbers what the first did to the nodes. -/
structure Follows (c : Compaction) (s s' : Search) : Prop where
  colours : ∀ id i, c.get id = some i → s'.colours[i]? = s.colours[id]?
  order : s'.order.toList = s.order.toList.map c.number

namespace Follows

theorem paint (hr : Renumbered net net' c) (h : Follows c s s') (hi : c.get id = some i)
    (colour : Colour) (j k : NodeId) (hj : c.get j = some k) :
    (s'.colours.setIfInBounds i colour)[k]? = (s.colours.setIfInBounds id colour)[j]? := by
  have hsame := h.colours j k hj
  rw [Array.getElem?_setIfInBounds, Array.getElem?_setIfInBounds]
  by_cases he : i = k
  · obtain rfl : id = j := hr.inj id j k (he ▸ hi) hj
    have hbound : i < s'.colours.size ↔ id < s.colours.size := by
      rw [← not_iff_not, not_lt, not_lt, ← Array.getElem?_eq_none_iff, ← Array.getElem?_eq_none_iff,
        he, hsame]
    rw [if_pos he, if_pos rfl]
    simp only [hbound]
  · have hne : id ≠ j := by
      rintro rfl
      exact he (Option.some_inj.1 (hi.symm.trans hj))
    rw [if_neg he, if_neg hne, hsame]

theorem enter (hr : Renumbered net net' c) (h : Follows c s s') (hi : c.get id = some i) :
    Follows c (s.enter id) (s'.enter i) :=
  ⟨h.paint hr hi .onPath, h.order⟩

theorem finish (hr : Renumbered net net' c) (h : Follows c s s') (hi : c.get id = some i) :
    Follows c (s.finish id) (s'.finish i) := by
  refine ⟨h.paint hr hi .done, ?_⟩
  simp only [Search.finish, Array.toList_push, List.map_append, h.order, List.map_singleton,
    Compaction.number_eq hi]

/-- The second search goes through a path of survivors as the first did. -/
theorem explore (hr : Renumbered net net' c) {path : List (NodeId × List Lit)}
    (hpath : ∀ e ∈ path, (∃ i, c.get e.1 = some i) ∧ ∀ l ∈ e.2, ∃ j, c.get l.id = some j)
    (h : Follows c s s') (hs : net.explore path s = .ok t) :
    ∃ t', net'.explore (c.movePath path) s' = .ok t' ∧ Follows c t t' := by
  induction path, s, hs using explore_ok_induction generalizing s' with
  | done _ => exact ⟨s', by simp [Compaction.movePath, Network.explore], h⟩
  | finish s id path _ _ ih =>
    obtain ⟨⟨⟨i, hi⟩, -⟩, hpath⟩ := List.forall_mem_cons.1 hpath
    obtain ⟨t', ht', hf⟩ := ih hpath (h.finish hr hi)
    refine ⟨t', ?_, hf⟩
    rw [← ht']
    simp only [Compaction.movePath, List.map_cons, List.map_nil, Compaction.number_eq hi]
    exact explore_finish
  | enter s id l rest path _ _ hl hf ih =>
    obtain ⟨⟨hid, hops⟩, hpath⟩ := List.forall_mem_cons.1 hpath
    obtain ⟨⟨j, hj⟩, hrest⟩ := List.forall_mem_cons.1 hops
    have hnext : ∀ l' ∈ (net.node l.id).operands, ∃ k, c.get l'.id = some k :=
      fun l' hl' => ⟨_, hr.get_operand hj hl'⟩
    obtain ⟨t', ht', hft⟩ := ih (List.forall_mem_cons.2 ⟨⟨⟨j, hj⟩, hnext⟩,
      List.forall_mem_cons.2 ⟨⟨hid, hrest⟩, hpath⟩⟩) (h.enter hr hj)
    refine ⟨t', ?_, hft⟩
    have hmove : c.move l = ⟨j, l.sign⟩ := Compaction.move_eq hj
    rw [← ht']
    simp only [Compaction.movePath, List.map_cons, hmove, Compaction.number_eq hj,
      ← hr.operands hj]
    exact explore_enter (hr.isLive (hr.lt_size _ _ hj)) ((h.colours _ _ hj).trans hf)
  | pass s id l rest path _ _ hl hf hp ih =>
    obtain ⟨⟨hid, hops⟩, hpath⟩ := List.forall_mem_cons.1 hpath
    obtain ⟨⟨j, hj⟩, hrest⟩ := List.forall_mem_cons.1 hops
    obtain ⟨t', ht', hft⟩ := ih (List.forall_mem_cons.2 ⟨⟨hid, hrest⟩, hpath⟩) h
    refine ⟨t', ?_, hft⟩
    have hmove : c.move l = ⟨j, l.sign⟩ := Compaction.move_eq hj
    have hsame := h.colours _ _ hj
    rw [← ht']
    simp only [Compaction.movePath, List.map_cons, hmove]
    exact explore_pass (hr.isLive (hr.lt_size _ _ hj)) (hsame ▸ hf) (hsame ▸ hp)

theorem searchFrom (hr : Renumbered net net' c) (h : Follows c s s') (hi : c.get id = some i)
    (hs : net.searchFrom s id = .ok t) :
    ∃ t', net'.searchFrom s' i = .ok t' ∧ Follows c t t' := by
  unfold Network.searchFrom at hs ⊢
  dsimp only at hs ⊢
  rw [h.colours id i hi, hr.node id i hi, Node.isSource_mapLits, Node.isSink_mapLits,
    Node.operands_mapLits]
  split at hs
  · rename_i hc
    rw [if_pos hc]
    have hpath : ∀ e ∈ [(id, (net.node id).operands)],
        (∃ i, c.get e.1 = some i) ∧ ∀ l ∈ e.2, ∃ j, c.get l.id = some j := by
      simpa using ⟨⟨i, hi⟩, fun l hl => ⟨_, hr.get_operand hi hl⟩⟩
    obtain ⟨t', ht', hf⟩ := (h.enter hr hi).explore hr hpath hs
    refine ⟨t', ?_, hf⟩
    rw [← ht']
    simp only [Compaction.movePath, List.map_cons, List.map_nil, Compaction.number_eq hi]
  · rename_i hc
    obtain rfl : s = t := by simpa using hs
    exact ⟨s', if_neg hc, h⟩

theorem foldlM (hr : Renumbered net net' c) {ids : List NodeId}
    (hids : ∀ id ∈ ids, ∃ i, c.get id = some i) (h : Follows c s s')
    (hs : ids.foldlM net.searchFrom s = .ok t) :
    ∃ t', (ids.map c.number).foldlM net'.searchFrom s' = .ok t' ∧ Follows c t t' := by
  induction ids generalizing s s' with
  | nil =>
    obtain rfl : s = t := by simpa [pure, Except.pure] using hs
    exact ⟨s', rfl, h⟩
  | cons id rest ih =>
    obtain ⟨s₁, h₁, hs⟩ := foldlM_cons_ok hs
    obtain ⟨⟨i, hi⟩, hrest⟩ := List.forall_mem_cons.1 hids
    obtain ⟨s₁', h₁', hf⟩ := h.searchFrom hr hi h₁
    obtain ⟨t', ht', hft⟩ := ih hrest hf hs
    refine ⟨t', ?_, hft⟩
    rw [List.map_cons, List.foldlM_cons, Compaction.number_eq hi, h₁']
    exact ht'

end Follows

def isRoot (net : Network) (id : NodeId) : Bool := (net.node id).isSource || (net.node id).isSink

/-- Where the searches start, in ascending order. -/
def roots (net : Network) : List NodeId := net.ids.filter net.isRoot

theorem mem_roots : id ∈ net.roots ↔ (net.node id).isSource = true ∨ (net.node id).isSink = true := by
  rw [roots, List.mem_filter, mem_ids, isRoot, Bool.or_eq_true]
  exact ⟨fun h => h.2, fun h => ⟨lt_size_of_isLive (isLive_of_root h), h⟩⟩

theorem pairwise_roots (net : Network) : net.roots.Pairwise (· < ·) := List.pairwise_lt_range.filter _

/-- Only the roots are searched from. -/
theorem foldlM_roots (net : Network) (s : Search) :
    net.ids.foldlM net.searchFrom s = net.roots.foldlM net.searchFrom s := by
  unfold roots
  induction net.ids generalizing s with
  | nil => rfl
  | cons id rest ih =>
    rw [List.filter_cons]
    by_cases hroot : net.isRoot id = true
    · rw [if_pos hroot, List.foldlM_cons, List.foldlM_cons]
      congr 1
      funext t
      exact ih t
    · have hpass : net.searchFrom s id = .ok s := by
        unfold isRoot at hroot
        unfold searchFrom
        dsimp only
        rw [if_neg (by simp [hroot])]
      rw [if_neg hroot, List.foldlM_cons, hpass]
      exact ih s

/-- The roots of the new network are the old ones, and in a canonical network in their old order. -/
theorem roots_compact (hc : net.Canonical) (h : net.compact = (net', .ok c)) :
    net'.roots = net.roots.map c.number := by
  have hr := compact_spec h
  have hget (id : NodeId) (hid : id ∈ net.roots) : ∃ i, c.get id = some i :=
    (hr.kept id).2 (.of_root (mem_roots.1 hid))
  have hsorted : (net.roots.map c.number).Pairwise (· < ·) := by
    refine List.pairwise_map.2 (net.pairwise_roots.imp_of_mem fun {a b} ha hb hab => ?_)
    obtain ⟨i, hi⟩ := hget a ha
    obtain ⟨j, hj⟩ := hget b hb
    rw [Compaction.number_eq hi, Compaction.number_eq hj]
    exact (root_lt_iff hc h (mem_roots.1 ha) (mem_roots.1 hb) hi hj).2 hab
  have hmem (i : NodeId) : i ∈ net'.roots ↔ i ∈ net.roots.map c.number := by
    rw [mem_roots, List.mem_map]
    constructor
    · intro hroot
      obtain ⟨id, hid⟩ := hr.surj i (lt_size_of_isLive (isLive_of_root hroot))
      rw [hr.node id i hid, Node.isSource_mapLits, Node.isSink_mapLits] at hroot
      exact ⟨id, mem_roots.2 hroot, Compaction.number_eq hid⟩
    · rintro ⟨id, hid, rfl⟩
      obtain ⟨i, hi⟩ := hget id hid
      rw [Compaction.number_eq hi, hr.node id i hi, Node.isSource_mapLits, Node.isSink_mapLits]
      exact mem_roots.1 hid
  have hnodup {l : List NodeId} (h : l.Pairwise (· < ·)) : l.Nodup := h.imp fun h => ne_of_lt h
  refine List.Perm.eq_of_pairwise (fun a b _ _ hab hba => absurd hab (lt_asymm hba))
    net'.pairwise_roots hsorted ?_
  exact (List.perm_ext_iff_of_nodup (hnodup net'.pairwise_roots) (hnodup hsorted)).2 hmem

theorem Follows.start (hr : Renumbered net net' c) :
    Follows c (.start net.size) (.start net'.size) := by
  refine ⟨fun id i hi => ?_, rfl⟩
  simp only [Search.start, Array.getElem?_replicate]
  rw [if_pos (hr.lt_size id i hi), if_pos (lt_size_of_isLive (hr.live id i hi))]

/-- The second search finishes the nodes as they are numbered. -/
theorem survivors_compact (hc : net.Canonical) (h : net.compact = (net', .ok c)) :
    net'.survivors = .ok (Array.range net'.size) := by
  have hr := compact_spec h
  obtain ⟨order, hsurvive, hnumbers⟩ := compact_order h
  have hget (id i : NodeId) : c.get id = some i ↔ order[i]? = some id := by
    rw [hnumbers]
    exact get_renumbering (survivors_spec hsurvive) id i
  obtain ⟨t, ht, rfl⟩ := survivors_ok hsurvive
  rw [foldlM_roots] at ht
  obtain ⟨t', ht', hfollow⟩ := (Follows.start hr).foldlM hr
    (fun id hid => (hr.kept id).2 (.of_root (mem_roots.1 hid))) ht
  rw [← roots_compact hc h, ← foldlM_roots] at ht'
  have horder : t'.order = Array.range net'.size := by
    refine Array.toList_inj.1 ?_
    rw [hfollow.order, Array.toList_range]
    refine List.ext_getElem? fun k => ?_
    rw [List.getElem?_map, Array.getElem?_toList]
    cases hk : t.order[k]? with
    | some id =>
      have hid := (hget id k).2 hk
      rw [Option.map_some, Compaction.number_eq hid, List.getElem?_range (hr.lt_size id k hid)]
    | none =>
      have hge : ¬ k < net'.size := fun hlt => by
        obtain ⟨id, hid⟩ := hr.surj k hlt
        rw [(hget id k).1 hid] at hk
        cases hk
      rw [Option.map_none, List.getElem?_eq_none (by simpa using hge)]
  unfold survivors
  rw [ht']
  exact congrArg Except.ok horder

theorem size_foldl_number (os : List NodeId) (p : Array (Option NodeId) × Nat) :
    (os.foldl (fun (p : Array (Option NodeId) × Nat) old =>
      (p.1.setIfInBounds old (some p.2), p.2 + 1)) p).1.size = p.1.size := by
  induction os generalizing p with
  | nil => rfl
  | cons o os ih => rw [List.foldl_cons, ih, Array.size_setIfInBounds]

theorem size_renumbering (net : Network) (order : Array NodeId) :
    (net.renumbering order).map.size = net.size := by
  unfold renumbering
  rw [← Array.foldl_toList]
  exact (size_foldl_number _ _).trans Array.size_replicate

theorem size_of_compact (h : net.compact = (net', .ok c)) : c.map.size = net.size := by
  obtain ⟨order, -, rfl⟩ := compact_order h
  exact size_renumbering net order

namespace Renumbered

/-- If all nodes are worth keeping, they are permuted. -/
theorem exists_perm (hr : Renumbered net net' c) (hkept : ∀ i < net.size, net.Kept i) :
    net'.size = net.size ∧ ∃ σ : Equiv.Perm (Fin net.size), ∀ i : Fin net.size,
      c.get i = some (σ i).val := by
  choose f hf using fun i : Fin net.size => (hr.kept i).2 (hkept i i.isLt)
  let g : Fin net.size → Fin net'.size := fun i => ⟨f i, hr.lt_size _ _ (hf i)⟩
  have hg : Function.Bijective g := by
    constructor
    · intro i j hij
      have hval : f i = f j := congrArg Fin.val hij
      exact Fin.ext (hr.inj i j (f i) (hf i) (hval ▸ hf j))
    · intro k
      obtain ⟨id, hid⟩ := hr.surj k k.isLt
      let i : Fin net.size := ⟨id, lt_size_of_isLive (hr.live id k hid)⟩
      exact ⟨i, Fin.ext (Option.some_inj.1 ((hf i).symm.trans hid))⟩
  have hsize : net'.size = net.size := by
    simpa using (Fintype.card_congr (Equiv.ofBijective g hg)).symm
  exact ⟨hsize, (Equiv.ofBijective g hg).trans (finCongr hsize), hf⟩

/-- A renumbering that changes no number changes no node. -/
theorem eq_of_get (hr : Renumbered net net' c) (hc : net.Canonical)
    (hsize : net'.size = net.size) (hget : ∀ i < net.size, c.get i = some i) : net' = net := by
  refine ext_node hsize fun i => ?_
  rcases Nat.lt_or_ge i net.size with hi | hi
  · have hmove (l : Lit) (hl : l ∈ (net.node i).operands) : c.move l = l :=
      Compaction.move_eq (hget l.id (lt_size_of_isLive (hc.live i l hl)))
    rw [hr.node i i (hget i hi)]
    exact Node.mapLits_eq_self hmove
  · rw [node_of_ge hi, node_of_ge (hsize ▸ hi)]

end Renumbered

/-- Compaction of what a compaction left goes through. It loses no node, so its map is a permutation.
If the first network was canonical, the map is the identity and nothing changes. -/
theorem compact_stable (h : net.compact = (net', .ok c)) :
    (∃ net'' c', net'.compact = (net'', .ok c') ∧ net''.size = net'.size ∧
      c'.map.size = net'.size ∧ ∃ σ : Equiv.Perm (Fin net'.size), ∀ i : Fin net'.size,
        c'.get i = some (σ i).val ∧ net''.node (σ i) = (net'.node i).mapLits c'.move) ∧
    (net.Canonical → net'.compact = (net', .ok (.identity net'.size))) := by
  have hr := compact_spec h
  obtain ⟨net'', c', h', hr'⟩ := compact_ok hr.canonical.grounded fun _ _ => trivial
  obtain ⟨hsize, σ, hσ⟩ := hr'.exists_perm fun i hi => hr.kept_new hi
  refine ⟨⟨net'', c', h', hsize, size_of_compact h', σ, fun i => ⟨hσ i, ?_⟩⟩, fun hc => ?_⟩
  · exact hr'.node i (σ i) (hσ i)
  · obtain ⟨order, horder, hnumbers⟩ := compact_order h'
    rw [survivors_compact hc h, Except.ok.injEq] at horder
    have hget (i : NodeId) (hi : i < net'.size) : c'.get i = some i := by
      rw [hnumbers, ← horder, get_renumbering (survivors_spec (survivors_compact hc h))]
      simp [hi]
    have hident : c' = .identity net'.size := by
      refine Compaction.ext_get ?_ fun i hi => ?_
      · rw [size_of_compact h']
        simp [Compaction.identity]
      · have hi : i < net'.size := by simpa [Compaction.identity] using hi
        exact ⟨i, hget i hi, by rw [Compaction.get_identity, if_pos hi]⟩
    rw [h', hident, hr'.eq_of_get hr.canonical hsize hget]

/-- Output 2 feeds a gate, and nothing reads gate 4. -/
def tapped : Network :=
  ⟨#[.const, .pi, .po (.ofNode 1), .pi, .and (.ofNode 3) ⟨1, true⟩, .and ⟨2, true⟩ (.ofNode 3),
    .po (.ofNode 5), .seq (.ofNode 5)]⟩

theorem compact_stable_tapped : ∃ net' c, tapped.compact = (net', .ok c) ∧
    net'.compact = (net', .ok (.identity net'.size)) := by
  have hcanonical : tapped.Canonical := isCanonical_iff.1 (by decide)
  obtain ⟨net', c, h, -⟩ := compact_ok hcanonical.grounded fun _ _ => trivial
  exact ⟨net', c, h, (compact_stable h).2 hcanonical⟩

end Network

end TechMap
