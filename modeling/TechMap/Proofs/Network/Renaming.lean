import Mathlib
import TechMap.Proofs.Network.Compaction

/-! Compaction as a renaming. What is left is the old network with new numbers, one for each node worth
keeping. In a canonical network a search from a root reaches nothing of greater number, so the roots
finish in their old order. -/

namespace TechMap.Network

variable {net net' : Network} {c : Compaction} {s s' : Search} {id : NodeId}

/-- Everything a search finishes lies in a set that holds its path and with each node its operands. -/
theorem explore_within {P : NodeId → Prop} {path : List (NodeId × List Lit)}
    (hP : ∀ id, P id → ∀ l ∈ (net.node id).operands, P l.id)
    (hpath : ∀ e ∈ path, P e.1 ∧ ∀ l ∈ e.2, P l.id) (horder : ∀ id ∈ s.order, P id)
    (hs : net.explore path s = .ok s') : ∀ id ∈ s'.order, P id := by
  induction path, s, hs using explore_ok_induction with
  | done _ => exact horder
  | finish s id path _ _ ih =>
    obtain ⟨⟨hid, -⟩, hpath⟩ := List.forall_mem_cons.1 hpath
    refine ih hpath fun i hi => ?_
    rcases Array.mem_push.1 hi with hi | rfl
    · exact horder i hi
    · exact hid
  | enter s id l rest path _ _ hl hf ih =>
    obtain ⟨⟨hid, hops⟩, hpath⟩ := List.forall_mem_cons.1 hpath
    obtain ⟨hnext, hrest⟩ := List.forall_mem_cons.1 hops
    exact ih (List.forall_mem_cons.2 ⟨⟨hnext, hP _ hnext⟩,
      List.forall_mem_cons.2 ⟨⟨hid, hrest⟩, hpath⟩⟩) horder
  | pass s id l rest path _ _ hl hf hp ih =>
    obtain ⟨⟨hid, hops⟩, hpath⟩ := List.forall_mem_cons.1 hpath
    have hrest := (List.forall_mem_cons.1 hops).2
    exact ih (List.forall_mem_cons.2 ⟨⟨hid, hrest⟩, hpath⟩) horder

theorem searchFrom_within {P : NodeId → Prop}
    (hP : ∀ id, P id → ∀ l ∈ (net.node id).operands, P l.id) (hid : P id)
    (horder : ∀ i ∈ s.order, P i) (hs : net.searchFrom s id = .ok s') : ∀ i ∈ s'.order, P i := by
  unfold searchFrom at hs
  dsimp only at hs
  split at hs
  · exact explore_within (s := s.enter id) hP (by simpa using ⟨hid, hP id hid⟩) horder hs
  · obtain rfl : s = s' := by simpa using hs
    exact horder

/-- The roots below `n` reach nothing from `n` on. -/
theorem foldlM_lt (hc : net.Canonical) {n : Nat}
    (hs : (List.range n).foldlM net.searchFrom (.start net.size) = .ok s) :
    ∀ i ∈ s.order, i < n := by
  induction n generalizing s with
  | zero =>
    obtain rfl : Search.start net.size = s := by simpa [pure, Except.pure] using hs
    simp [Search.start]
  | succ n ih =>
    rw [List.range_succ] at hs
    obtain ⟨t, ht, hs⟩ := foldlM_append_ok hs
    obtain ⟨s', hlast, hs⟩ := foldlM_cons_ok hs
    obtain rfl : s' = s := by simpa [pure, Except.pure] using hs
    refine searchFrom_within (P := (· < n + 1)) (fun id hid l hl => ?_) (Nat.lt_succ_self n)
      (fun i hi => Nat.lt_succ_of_lt (ih ht i hi)) hlast
    exact lt_trans (hc.lt id l hl) hid

/-- In a canonical network a root finishes before the nodes of greater number. -/
theorem root_before (hc : net.Canonical) {order : Array NodeId} (h : net.survivors = .ok order)
    {a b : NodeId} (ha : (net.node a).isSource = true ∨ (net.node a).isSink = true) (hab : a < b)
    {i j : Nat} (hi : order[i]? = some a) (hj : order[j]? = some b) : i < j := by
  have hnodup := (survivors_spec h).nodup
  have hb : b < net.size :=
    lt_size_of_isLive ((survivors_spec h).live b (Array.mem_of_getElem? hj))
  obtain ⟨t, ht, rfl⟩ := survivors_ok h
  have hids : net.ids = List.range b ++ net.ids.drop b := by
    have htake : net.ids.take b = List.range b := by
      rw [ids, List.take_range, Nat.min_eq_left (le_of_lt hb)]
    rw [← htake, List.take_append_drop]
  -- when the search has gone through the roots below `b`, it has met `a` and not `b`
  rw [hids] at ht
  obtain ⟨s, hs, hrest⟩ := foldlM_append_ok ht
  have hmem : a ∈ s.order := ((Searched.start net).foldlM hs).roots a (by simpa using hab) ha
  have hnot : b ∉ s.order := fun hm => lt_irrefl b (foldlM_lt hc hs b hm)
  obtain ⟨rest, hprefix⟩ := foldlM_extends hrest
  rw [← Array.getElem?_toList, ← hprefix] at hi hj
  rw [← hprefix] at hnodup
  have hlt : i < s.order.toList.length := by
    by_contra hge
    rw [List.getElem?_append_right (Nat.le_of_not_lt hge)] at hi
    exact (List.nodup_append.1 hnodup).2.2 a (by simpa using hmem) a (List.mem_of_getElem? hi) rfl
  have hge : s.order.toList.length ≤ j := by
    by_contra hlt
    rw [List.getElem?_append_left (Nat.lt_of_not_le hlt)] at hj
    exact hnot (by simpa using List.mem_of_getElem? hj)
  exact lt_of_lt_of_le hlt hge

theorem compact_order (h : net.compact = (net', .ok c)) :
    ∃ order, net.survivors = .ok order ∧ c = net.renumbering order := by
  unfold compact at h
  cases hs : net.survivors with
  | error e => rw [hs] at h; cases h
  | ok order =>
    rw [hs] at h
    dsimp only at h
    split at h
    · cases h
    · cases h
      exact ⟨order, rfl, rfl⟩

/-- The roots keep their order. -/
theorem root_lt_iff (hc : net.Canonical) (h : net.compact = (net', .ok c)) {a b i j : NodeId}
    (ha : (net.node a).isSource = true ∨ (net.node a).isSink = true)
    (hb : (net.node b).isSource = true ∨ (net.node b).isSink = true)
    (hi : c.get a = some i) (hj : c.get b = some j) : i < j ↔ a < b := by
  obtain ⟨order, hs, rfl⟩ := compact_order h
  have hget := get_renumbering (survivors_spec hs)
  rw [hget] at hi hj
  refine ⟨fun hij => ?_, fun hab => root_before hc hs ha hab hi hj⟩
  by_contra hle
  rcases Nat.lt_or_eq_of_le (Nat.le_of_not_lt hle) with hlt | rfl
  · exact lt_asymm hij (root_before hc hs hb hlt hj hi)
  · obtain rfl : i = j := Option.some_inj.1 (((hget b i).2 hi).symm.trans ((hget b j).2 hj))
    exact lt_irrefl i hij

namespace Renumbered

theorem existsUnique (h : Renumbered net net' c) {i : NodeId} (hi : i < net'.size) :
    ∃! id, c.get id = some i := by
  obtain ⟨id, hid⟩ := h.surj i hi
  exact ⟨id, hid, fun id' hid' => h.inj id' id i hid' hid⟩

/-- Both networks compute the same words, if their inputs are given the same ones. -/
theorem simulate (h : Renumbered net net' c) (hc : net.Canonical)
    {source source' : NodeId → UInt64}
    (hsource : ∀ id i, c.get id = some i → (net.node id).isInput = true → source' i = source id) :
    ∃ values values', net.simulate source = .ok values ∧ net'.simulate source' = .ok values' ∧
      ∀ id i, c.get id = some i → ∃ w, values[id]? = some w ∧ values'[i]? = some w := by
  obtain ⟨values, hs, hsize, hv⟩ := simulate_canonical hc source
  obtain ⟨values', hs', hsize', hv'⟩ := simulate_canonical h.canonical source'
  have hlt (id i : NodeId) (hi : c.get id = some i) : id < net.size :=
    lt_size_of_isLive (h.live id i hi)
  have hkept (id : NodeId) (hk : net.Kept id) :
      values.getD id 0 = net.wordOf source (fun i => values.getD i 0) id := by
    obtain ⟨i, hi⟩ := (h.kept id).2 hk
    exact hv id (hlt id i hi)
  refine ⟨values, values', hs, hs', fun id i hi => ⟨values.getD id 0, ?_, ?_⟩⟩
  · have hid : id < values.size := hsize ▸ hlt id i hi
    simp [Array.getD_eq_getD_getElem?, hid]
  · have hi' : i < values'.size := hsize' ▸ h.lt_size id i hi
    rw [← h.valuation hkept hv' hsource id i hi]
    simp [Array.getD_eq_getD_getElem?, hi']

end Renumbered

/-- A compaction renames what is worth keeping, and nothing else is left. Each kept node has one new
number and each new number one node, the old one with its operands renamed. Operands come before
their consumers and are there, and the constant at the start stays. From a canonical network sources
and sinks keep their order, and each kept node its word under every choice of input words. -/
theorem compact_renames (h : net.compact = (net', .ok c)) :
    ((∀ id, (∃ i, c.get id = some i) ↔ net.Kept id) ∧
      (∀ id i, c.get id = some i → i < net'.size) ∧ ∀ i < net'.size, ∃! id, c.get id = some i) ∧
    (∀ id i, c.get id = some i → net'.node i = (net.node id).mapLits c.move ∧
      ∀ l ∈ (net.node id).operands, c.get l.id = some (c.move l).id ∧ (c.move l).sign = l.sign) ∧
    (net'.Canonical ∧ (∀ i < net'.size, net'.node i ≠ .removed) ∧
      (net.node NodeId.constant = .const →
        c.get NodeId.constant = some NodeId.constant ∧ net'.node NodeId.constant = .const)) ∧
    (net.Canonical →
      (∀ a b i j, c.get a = some i → c.get b = some j →
        (net.node a).isSource = true ∧ (net.node b).isSource = true ∨
          (net.node a).isSink = true ∧ (net.node b).isSink = true → (i < j ↔ a < b)) ∧
      ∀ source source' : NodeId → UInt64,
        (∀ id i, c.get id = some i → (net.node id).isInput = true → source' i = source id) →
        ∃ values values', net.simulate source = .ok values ∧ net'.simulate source' = .ok values' ∧
          ∀ id i, c.get id = some i → ∃ w, values[id]? = some w ∧ values'[i]? = some w) := by
  have hr := compact_spec h
  refine ⟨⟨hr.kept, hr.lt_size, fun i hi => hr.existsUnique hi⟩, fun id i hi => ?_,
    ⟨hr.canonical, fun i hi he => ?_, fun h0 => ?_⟩, fun hc => ⟨?_, fun source source' => hr.simulate hc⟩⟩
  · exact ⟨hr.node id i hi, fun l hl => ⟨hr.get_operand hi hl, rfl⟩⟩
  · have hlive := hr.isLive hi
    rw [isLive, he] at hlive
    cases hlive
  · have hfirst := hr.first (by rw [h0]; rfl)
    exact ⟨hfirst, by rw [hr.node _ _ hfirst, h0]; rfl⟩
  · rintro a b i j hi hj (⟨ha, hb⟩ | ⟨ha, hb⟩)
    · exact root_lt_iff hc h (.inl ha) (.inl hb) hi hj
    · exact root_lt_iff hc h (.inr ha) (.inr hb) hi hj

/-- Nothing reads gate 3. -/
def spare : Network :=
  ⟨#[.const, .pi, .pi, .and (.ofNode 1) (.ofNode 2), .and (.ofNode 1) ⟨2, true⟩, .po (.ofNode 4)]⟩

theorem compact_renames_spare : ∃ net' c i j, spare.compact = (net', .ok c) ∧ c.get 3 = none ∧
    c.get 1 = some i ∧ c.get 2 = some j ∧ i < j ∧ net'.Canonical := by
  have hcanonical : spare.Canonical := isCanonical_iff.1 (by decide)
  obtain ⟨net', c, h, -⟩ := compact_ok hcanonical.grounded fun _ _ => trivial
  obtain ⟨⟨hkept, -, -⟩, -, ⟨hnew, -, -⟩, hrest⟩ := compact_renames h
  have hread : ∀ a < 6, ∀ l ∈ (spare.node a).operands, l.id ≠ 3 := by decide
  have hnone : c.get 3 = none := by
    by_contra hsome
    obtain ⟨i, hi⟩ := Option.ne_none_iff_exists'.1 hsome
    rcases (hkept 3).1 ⟨i, hi⟩ with hsource | ⟨s, hsink, hreach⟩
    · cases hsource
    · rcases Relation.ReflTransGen.cases_tail hreach with rfl | ⟨a, -, l, hl, hid⟩
      · cases hsink
      · exact hread a (lt_size_of_isLive (isLive_of_operand hl)) l hl hid
  obtain ⟨i, hi⟩ := (hkept 1).2 (.inl rfl)
  obtain ⟨j, hj⟩ := (hkept 2).2 (.inl rfl)
  exact ⟨net', c, i, j, h, hnone, hi, hj,
    ((hrest hcanonical).1 1 2 i j hi hj (.inl ⟨rfl, rfl⟩)).2 (by decide), hnew⟩

end TechMap.Network
