import Mathlib
import TechMap.Proofs.Extraction.Walk

/-! Queries whose walk is run to its end. In a canonical network every query has such a run, also where
the leaves do not cover the node, and it finds a table exactly where they do. -/

namespace TechMap

namespace Network

variable {net : Network} {cut : Cut} {memo memo' : Memo} {id : NodeId}

/-- The query with its walk run to the end. -/
inductive Extracts (net : Network) (l : Lit) (cut : Cut) (memo : Memo) :
    Memo × Except Error UInt64 → Prop
  | known (hk : memo.isKnown cut l.id = true) : Extracts net l cut memo (memo, memo.knownLit cut l)
  | outside {e : Error} (hk : memo.isKnown cut l.id = false)
    (hb : net.below cut l.id = .error e) : Extracts net l cut memo (memo, .error e)
  | failed {below : List NodeId} {memo' : Memo} {e : Error} (hk : memo.isKnown cut l.id = false)
    (hb : net.below cut l.id = .ok below)
    (h : net.Walks cut [(l.id, below)] memo (memo', .error e)) :
    Extracts net l cut memo (memo', .error e)
  | finished {below : List NodeId} {memo' : Memo} (hk : memo.isKnown cut l.id = false)
    (hb : net.below cut l.id = .ok below)
    (h : net.Walks cut [(l.id, below)] memo (memo', .ok ())) :
    Extracts net l cut memo (memo', memo'.knownLit cut l)

/-- A query ends within the steps that it is given. -/
theorem extracts_extract (hc : net.Canonical) (l : Lit) (cut : Cut) (hs : net.size ≤ memo.tables.size) :
    net.Extracts l cut memo (net.extract l cut memo) := by
  unfold extract
  cases hk : memo.isKnown cut l.id with
  | true => exact .known hk
  | false =>
    cases hb : net.below cut l.id with
    | error e => exact .outside hk hb
    | ok below =>
      have hcard : (net.unknown cut memo).card ≤ net.size := by
        simpa [unknown] using Finset.card_filter_le (Finset.range net.size) _
      have hw := walks_walkCone hc (2 * net.size) (.start hc hs hk hb) (by simp; omega)
      rcases he : net.walkCone cut (2 * net.size) [(l.id, below)] memo with ⟨memo', _ | _⟩
      · simpa only [he] using .failed hk hb (he ▸ hw)
      · simpa only [he] using .finished hk hb (he ▸ hw)

theorem isKnown_of_knownLit {l : Lit} {t : UInt64} (h : memo.knownLit cut l = .ok t) :
    memo.isKnown cut l.id = true := by
  obtain ⟨s, hs, -⟩ := Memo.knownLit_ok h
  simp [Memo.isKnown, hs]

/-- A gate that has a table has known operands, as far as they matter. -/
theorem known_of_gateTable {t : UInt64} (h : net.gateTable cut memo id = .ok t) :
    ∃ operands, (net.node id).support? = some operands ∧
      ∀ l ∈ operands, memo.isKnown cut l.id = true := by
  unfold gateTable at h
  split at h
  · rename_i a b hn
    refine ⟨[a, b], by rw [hn]; rfl, ?_⟩
    cases ha : memo.knownLit cut a with
    | error e => rw [ha] at h; cases h
    | ok s =>
      cases hb : memo.knownLit cut b with
      | error e => rw [ha, hb] at h; cases h
      | ok s' => simp [isKnown_of_knownLit ha, isKnown_of_knownLit hb]
  · rename_i a b c d table hn
    refine ⟨_, by rw [hn]; rfl, fun l hl => ?_⟩
    obtain ⟨e, he, rfl⟩ := List.mem_map.1 hl
    obtain ⟨he, hd⟩ := List.mem_filter.1 he
    dsimp only at h
    cases hm : [a, b, c, d].zipIdx.mapM fun e =>
        if Table.dependsOn (Table.expand table.toUInt64 4) e.2 then memo.knownLit cut e.1
        else pure 0 with
    | error e => rw [hm] at h; cases h
    | ok words =>
      obtain ⟨w, -, hw⟩ := getElem?_of_mapM_zipIdx hm (List.mem_zipIdx_iff_getElem?.1 he)
      rw [if_pos hd] at hw
      exact isKnown_of_knownLit hw
  · cases h

/-- Tables are found for covered nodes only. -/
theorem Walks.covered {path : List (NodeId × List NodeId)} {r : Memo × Except Error Unit}
    (h : net.Walks cut path memo r)
    (hm : ∀ i, memo.isKnown cut i = true → net.Covered cut.leaves i) :
    ∀ i, r.1.isKnown cut i = true → net.Covered cut.leaves i := by
  induction h with
  | done => exact hm
  | outside => exact hm
  | missing => exact hm
  | enter _ _ _ ih => exact ih hm
  | @leave memo id _ _ t _ _ ht _ ih =>
    obtain ⟨operands, hs, hops⟩ := known_of_gateTable ht
    refine ih fun i hi => ?_
    by_cases he : i = id
    · exact he ▸ .gate hs fun l hl => hm l.id (hops l hl)
    · rw [Memo.isKnown, Memo.known_record_of_ne he] at hi
      exact hm i hi

theorem Walks.tracked {path : List (NodeId × List NodeId)} {r : Memo × Except Error Unit}
    (h : net.Walks cut path memo r) (hm : memo.Tracked) : r.1.Tracked := by
  induction h with
  | done => exact hm
  | outside => exact hm
  | missing => exact hm
  | enter _ _ _ ih => exact ih hm
  | leave _ _ _ ih => exact ih hm.record

theorem Extracts.tracked {l : Lit} {r : Memo × Except Error UInt64}
    (h : net.Extracts l cut memo r) (hm : memo.Tracked) : r.1.Tracked := by
  cases h with
  | known => exact hm
  | outside => exact hm
  | failed _ _ h => exact h.tracked hm
  | finished _ _ h => exact h.tracked hm

theorem covered_of_clean (h : memo.Clean) {i : NodeId} (hi : memo.isKnown cut i = true) :
    net.Covered cut.leaves i := by
  unfold Memo.isKnown Memo.known at hi
  split at hi
  · rename_i h0
    exact h0 ▸ .constant
  · split at hi
    · rename_i j hj
      obtain ⟨hlt, hget, -⟩ := List.idxOf?_eq_some_iff.1 hj
      refine .leaf ?_
      rw [← hget]
      exact List.getElem_mem hlt
    · rw [h.tables i] at hi
      cases hi

/-- A query that finds a table is one for a covered node. -/
theorem Extracts.covered {l : Lit} {r : Memo × Except Error UInt64} {t : UInt64}
    (h : net.Extracts l cut memo r) (hm : memo.Clean) (ht : r.2 = .ok t) :
    net.Covered cut.leaves l.id := by
  have hstart (i : NodeId) (hi : memo.isKnown cut i = true) : net.Covered cut.leaves i :=
    covered_of_clean hm hi
  cases h with
  | known hk => exact hstart _ hk
  | outside => cases ht
  | failed => cases ht
  | finished _ _ h => exact h.covered hstart _ (isKnown_of_knownLit ht)

/-- The sign of a signal only inverts its table. -/
theorem computeTable_lit {l : Lit} {t : UInt64}
    (h : net.computeTable (.ofNode l.id) cut memo = (memo', .ok t)) :
    net.computeTable l cut memo = (memo', .ok (l.apply t)) := by
  have hlit {m : Memo} {s : UInt64} (hs : m.knownLit cut (.ofNode l.id) = .ok s) :
      m.knownLit cut l = .ok (l.apply s) := by
    obtain ⟨known, hknown, he⟩ := Memo.knownLit_ok hs
    obtain rfl : s = known := he
    rw [Memo.knownLit, show m.known cut l.id = some s from hknown]
  unfold computeTable extract at h ⊢
  rw [show (Lit.ofNode l.id).id = l.id from rfl] at h
  cases hk : (memo.resize net.size).isKnown cut l.id with
  | true =>
    simp only [hk, if_true, Prod.mk.injEq] at h ⊢
    exact ⟨h.1, hlit h.2⟩
  | false =>
    simp only [hk, Bool.false_eq_true, if_false] at h ⊢
    cases hb : net.below cut l.id with
    | error e => rw [hb] at h; cases h
    | ok below =>
      rw [hb] at h
      dsimp only at h ⊢
      rcases hw : net.walkCone cut (2 * net.size) [(l.id, below)] (memo.resize net.size) with
        ⟨m, e | _⟩
      · rw [hw] at h; cases h
      · simp only [hw, Prod.mk.injEq] at h ⊢
        exact ⟨h.1, hlit h.2⟩

/-- Extraction from a canonical network ends. It succeeds exactly on what the leaves cover, and then
the table depends on leaves only and reads the signal's simulated word off theirs. -/
theorem computeTable_exact (net : Network) (l : Lit) (cut : Cut) (memo : Memo)
    (hc : net.isCanonical = true) (h0 : net.node NodeId.constant = .const)
    (h6 : cut.leaves.length ≤ 6) (hm : memo.Clean) :
    net.Extracts l cut (memo.resize net.size) (net.extract l cut (memo.resize net.size)) ∧
      (net.computeTable l cut memo).1.Clean ∧
      ((∃ t, (net.computeTable l cut memo).2 = .ok t) ↔ net.Covered cut.leaves l.id) ∧
      ∀ t, (net.computeTable l cut memo).2 = .ok t →
        (∀ i, Table.Depends t i → i < cut.size) ∧
        ∀ source, ∃ values, net.simulate source = .ok values ∧
          Table.lookup t (cut.leaves.map fun i => values.getD i 0) = litValue values l := by
  have hc := isCanonical_iff.1 hc
  have hclean := hm.resize net.size
  have hends := extracts_extract hc l cut (Memo.size_resize memo net.size)
  have hcovered {t : UInt64} (ht : (net.computeTable l cut memo).2 = .ok t) :
      net.Covered cut.leaves l.id := hends.covered hclean ht
  have hfound (hcov : net.Covered cut.leaves l.id) :
      ∃ t, (net.computeTable l cut memo).2 = .ok (l.apply t) ∧ net.Computes cut l.id t := by
    obtain ⟨memo', t, ht, -, hcomp⟩ := computeTable_spec hc hm h6 hcov
    exact ⟨t, by rw [computeTable_lit ht], hcomp⟩
  refine ⟨hends, (hends.tracked hclean.tracked).clear,
    ⟨fun ⟨_, ht⟩ => hcovered ht, fun hcov => ?_⟩, fun t ht => ?_⟩
  · obtain ⟨t, ht, -⟩ := hfound hcov
    exact ⟨_, ht⟩
  · obtain ⟨s, hs, hcomp⟩ := hfound (hcovered ht)
    obtain rfl : l.apply s = t := by simpa [hs] using ht
    refine ⟨fun i hi => hcomp.support i hi.of_apply, fun source => ?_⟩
    obtain ⟨values, hv, -, hval⟩ := simulate_canonical hc source
    refine ⟨values, hv, ?_⟩
    rw [Table.lookup_apply _ _ (by simpa using h6), ← hcomp.word _ (hval.respects h0)]
    rfl

/-- Leaf 1 lies in the cone of leaf 3. -/
def nested : Network :=
  ⟨#[.const, .pi, .pi, .and (.ofNode 1) (.ofNode 2), .and (.ofNode 3) ⟨1, true⟩]⟩

theorem computeTable_exact_nested : ∃ t,
    (nested.computeTable ⟨4, true⟩ (.ofSorted [1, 3]) (.ofSize 5)).2 = .ok t ∧
      (∀ i, Table.Depends t i → i < 2) ∧
      ∀ source, ∃ values, nested.simulate source = .ok values ∧
        Table.lookup t [values.getD 1 0, values.getD 3 0] = litValue values ⟨4, true⟩ := by
  obtain ⟨-, -, hiff, hword⟩ := computeTable_exact nested ⟨4, true⟩
    (.ofSorted [1, 3]) (.ofSize 5) (by decide) rfl (by decide) (Memo.clean_ofSize 5)
  have hcov : nested.Covered [1, 3] 4 := by
    have hs : (nested.node 4).support? = some [.ofNode 3, ⟨1, true⟩] := rfl
    refine .gate hs fun l hl => .leaf ?_
    simp only [List.mem_cons, List.not_mem_nil, or_false] at hl
    rcases hl with rfl | rfl <;> decide
  obtain ⟨t, ht⟩ := hiff.2 hcov
  exact ⟨t, ht, hword t ht⟩

end Network

end TechMap
