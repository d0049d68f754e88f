import Mathlib
import TechMap.Proofs.Extraction.Memo

/-! The walk of extraction. Each gate's table computes it if the memo is sound, so whatever a query
returns is right. In a canonical network the walk ends within its steps, and it succeeds whenever the
leaves cover the node. The walk without a bound is a relation, so that it can be said to end. -/

namespace TechMap

theorem mapM_ok_of_forall {ε β γ : Type} {f : β → Except ε γ} {l : List β}
    (h : ∀ x ∈ l, ∃ y, f x = .ok y) : ∃ ys, l.mapM f = .ok ys := by
  induction l with
  | nil => exact ⟨[], rfl⟩
  | cons x l ih =>
    obtain ⟨y, hy⟩ := h x (by simp)
    obtain ⟨ys, hys⟩ := ih fun z hz => h z (List.mem_cons_of_mem _ hz)
    exact ⟨y :: ys, by rw [List.mapM_cons, hy, hys]; rfl⟩

theorem forall₂_of_mapM_ok {ε β γ : Type} {f : β → Except ε γ} {l : List β} {ys : List γ}
    (h : l.mapM f = .ok ys) : List.Forall₂ (fun x y => f x = .ok y) l ys := by
  induction l generalizing ys with
  | nil =>
    obtain rfl : [] = ys := by simpa [pure, Except.pure] using h
    exact .nil
  | cons x l ih =>
    rw [List.mapM_cons] at h
    cases hx : f x with
    | error e => rw [hx] at h; cases h
    | ok y =>
      cases hl : l.mapM f with
      | error e => rw [hx, hl] at h; cases h
      | ok zs =>
        rw [hx, hl] at h
        obtain rfl : y :: zs = ys := by simpa [bind, Except.bind, pure, Except.pure] using h
        exact .cons hx (ih hl)

theorem getElem?_of_mapM_zipIdx {ε β γ : Type} {f : β × Nat → Except ε γ} {l : List β}
    {ys : List γ} (h : l.zipIdx.mapM f = .ok ys) {i : Nat} {x : β} (hx : l[i]? = some x) :
    ∃ y, ys[i]? = some y ∧ f (x, i) = .ok y := by
  have hall := forall₂_of_mapM_ok h
  obtain ⟨hi, rfl⟩ := List.getElem?_eq_some_iff.1 hx
  have hi' : i < ys.length := by simpa using hall.length_eq ▸ (by simpa using hi)
  have := hall.get (i := i) (by simpa using hi) hi'
  exact ⟨ys[i], List.getElem?_eq_getElem hi', by simpa using this⟩

namespace Network

open Table

variable {net : Network} {cut : Cut} {memo memo' : Memo} {id : NodeId}

/-- The word that a table input is given: that of the operand, or nothing where it is ignored. -/
theorem lookup_gate (table : UInt64) (h6 : cut.leaves.length ≤ 6) {v : NodeId → UInt64}
    (operands : List Lit) {words : List UInt64} (h4 : operands.length = 4)
    (hw : words.length = 4)
    (h : ∀ i, Depends (expand table 4) i →
      ∀ l ∈ operands[i]?, lookup (words.getD i 0) (cut.leaves.map v) = readLit v l) :
    lookup (lookup table words) (cut.leaves.map v) = lookup table (operands.map (readLit v)) := by
  have hlen : (words.map fun u => lookup u (cut.leaves.map v)).length = 4 := by simpa using hw
  rw [lookup_lookup _ (by omega) (by simpa using h6),
    ← lookup_expand table (n := 4) (by omega) hlen,
    ← lookup_expand table (n := 4) (by omega) (by simpa using h4)]
  refine lookup_congr _ (by omega) (by simp [h4]) fun i hi => ?_
  rcases Nat.lt_or_ge i 4 with hlt | hge
  · have hl : operands[i]? = some (operands.get ⟨i, by omega⟩) :=
      List.getElem?_eq_getElem (by omega)
    have := h i hi _ hl
    simpa [hw, h4, hlt] using this
  · rw [List.getD_eq_default _ _ (by omega), List.getD_eq_default _ _ (by simpa [h4] using hge)]

theorem computes_and {a b : Lit} {s s' : UInt64} (hn : net.node id = .and a b)
    (h6 : cut.leaves.length ≤ 6) (ha : net.Computes cut a.id s) (hb : net.Computes cut b.id s') :
    net.Computes cut id (a.apply s &&& b.apply s') := by
  refine ⟨fun v hv => ?_, fun i hi => ?_⟩
  · have h6' : (cut.leaves.map v).length ≤ 6 := by simpa using h6
    rw [hv.gate id (by rw [hn]; rfl), hn, lookup_and _ _ h6', lookup_apply _ _ h6',
      lookup_apply _ _ h6', ← ha.word v hv, ← hb.word v hv]
    rfl
  · rcases hi.of_and with hi | hi
    · exact ha.support i hi.of_apply
    · exact hb.support i hi.of_apply

/-- Each word is that of an operand, or zero where the table ignores it. -/
theorem computes_lut4 {a b c d : Lit} {table : UInt16} {words : List UInt64}
    (hn : net.node id = .lut4 a b c d table) (h6 : cut.leaves.length ≤ 6)
    (hlen : words.length = 4)
    (hword : ∀ i l, [a, b, c, d][i]? = some l →
      (dependsOn (expand table.toUInt64 4) i = true ∧
        ∃ s, net.Computes cut l.id s ∧ words[i]? = some (l.apply s)) ∨
      (dependsOn (expand table.toUInt64 4) i = false ∧ words[i]? = some 0)) :
    net.Computes cut id (lookup table.toUInt64 words) := by
  refine ⟨fun v hv => ?_, fun i hi => ?_⟩
  · rw [lookup_gate table.toUInt64 h6 [a, b, c, d] rfl hlen fun i hi l hl => ?_]
    · rw [hv.gate id (by rw [hn]; rfl), hn]
      rfl
    · rcases hword i l hl with ⟨_, s, hs, hw⟩ | ⟨hd, _⟩
      · rw [List.getD_eq_getElem?_getD, hw, Option.getD_some, lookup_apply _ _ (by simpa using h6),
          ← hs.word v hv]
        rfl
      · rw [← dependsOn_iff hi.lt, hd] at hi
        cases hi
  · obtain ⟨w, hw, hi⟩ := hi.of_lookup (by omega)
    obtain ⟨j, hj⟩ := List.mem_iff_getElem?.1 hw
    have hj4 : j < 4 := by
      have := (List.getElem?_eq_some_iff.1 hj).1
      omega
    have hl : [a, b, c, d][j]? = some ([a, b, c, d][j]) := List.getElem?_eq_getElem hj4
    rcases hword j _ hl with ⟨_, s, hs, hw'⟩ | ⟨_, hw'⟩
    · obtain rfl : _ = w := by simpa [hw'] using hj
      exact hs.support i hi.of_apply
    · obtain rfl : 0 = w := by simpa [hw'] using hj
      exact absurd hi (not_depends_zero i)

theorem computes_gateTable {t : UInt64} (h : memo.Sound net cut) (h6 : cut.leaves.length ≤ 6)
    (ht : net.gateTable cut memo id = .ok t) : net.Computes cut id t := by
  unfold gateTable at ht
  split at ht
  · rename_i a b hn
    cases ha : memo.knownLit cut a with
    | error e => rw [ha] at ht; cases ht
    | ok s =>
      cases hb : memo.knownLit cut b with
      | error e => rw [ha, hb] at ht; cases ht
      | ok s' =>
        rw [ha, hb] at ht
        obtain rfl : s &&& s' = t := by simpa [bind, Except.bind, pure, Except.pure] using ht
        obtain ⟨sa, hsa, rfl⟩ := Memo.knownLit_ok ha
        obtain ⟨sb, hsb, rfl⟩ := Memo.knownLit_ok hb
        exact computes_and hn h6 (Memo.computes_of_known h h6 hsa) (Memo.computes_of_known h h6 hsb)
  · rename_i a b c d table hn
    dsimp only at ht
    cases hm : [a, b, c, d].zipIdx.mapM fun e =>
        if dependsOn (expand table.toUInt64 4) e.2 then memo.knownLit cut e.1 else pure 0 with
    | error e => rw [hm] at ht; cases ht
    | ok words =>
      rw [hm] at ht
      obtain rfl : lookup table.toUInt64 words = t := by
        simpa [bind, Except.bind, pure, Except.pure] using ht
      have hlen : words.length = 4 := by simpa using (forall₂_of_mapM_ok hm).length_eq.symm
      refine computes_lut4 hn h6 hlen fun i l hl => ?_
      obtain ⟨w, hw, he⟩ := getElem?_of_mapM_zipIdx hm hl
      dsimp only at he
      split at he
      · rename_i hd
        obtain ⟨s, hs, rfl⟩ := Memo.knownLit_ok he
        exact .inl ⟨hd, s, Memo.computes_of_known h h6 hs, hw⟩
      · rename_i hd
        obtain rfl : 0 = w := by simpa [pure, Except.pure] using he
        exact .inr ⟨by simpa using hd, hw⟩
  · cases ht

/-- The operands that matter are known, so the gate's table can be made. -/
theorem gateTable_ok {operands : List Lit} (hs : (net.node id).support? = some operands)
    (h : ∀ l ∈ operands, memo.isKnown cut l.id = true) : ∃ t, net.gateTable cut memo id = .ok t := by
  unfold gateTable
  cases hn : net.node id with
  | and a b =>
    obtain rfl : [a, b] = operands := by simpa [Node.support?, hn] using hs
    obtain ⟨s, hs⟩ := Memo.knownLit_of_isKnown (h a (by simp))
    obtain ⟨s', hs'⟩ := Memo.knownLit_of_isKnown (h b (by simp))
    exact ⟨s &&& s', by simp only [hs, hs']; rfl⟩
  | lut4 a b c d table =>
    rw [hn] at hs
    simp only [Node.support?, Option.some.injEq] at hs
    obtain ⟨words, hw⟩ := mapM_ok_of_forall (l := [a, b, c, d].zipIdx)
      (f := fun e => if dependsOn (expand table.toUInt64 4) e.2 then memo.knownLit cut e.1
        else pure 0) fun e he => by
        split
        · rename_i hd
          refine Memo.knownLit_of_isKnown (h e.1 ?_)
          rw [← hs]
          exact List.mem_map.2 ⟨e, List.mem_filter.2 ⟨he, hd⟩, rfl⟩
        · exact ⟨0, rfl⟩
    exact ⟨lookup table.toUInt64 words, by simp only [hw]; rfl⟩
  | _ => simp [Node.support?, hn] at hs

/-- Whatever the walk records is right, also if it fails. -/
theorem sound_walkCone (h6 : cut.leaves.length ≤ 6) (fuel : Nat) (path : List (NodeId × List NodeId))
    (h : memo.Sound net cut ∧ memo.Tracked) :
    (net.walkCone cut fuel path memo).1.Sound net cut ∧
      (net.walkCone cut fuel path memo).1.Tracked := by
  induction fuel generalizing path memo with
  | zero => cases path <;> exact h
  | succ fuel ih =>
    match path with
    | [] => exact h
    | (id, operands) :: path =>
      rw [walkCone]
      split
      · split
        · exact h
        · exact ih _ h
      · split
        · exact h
        · rename_i t ht
          exact ih _ ⟨h.1.record (computes_gateTable h.1 h6 ht), h.2.record⟩

/-- A node that is covered and not known is a gate whose operands that matter are covered. -/
theorem Covered.operands (h : net.Covered cut.leaves id) (hu : memo.isKnown cut id = false) :
    ∃ operands, (net.node id).support? = some operands ∧
      net.below cut id = .ok (operands.map (·.id)) ∧
      ∀ l ∈ operands, net.Covered cut.leaves l.id := by
  cases h with
  | constant => cases hu
  | leaf h => rw [Memo.isKnown_of_mem h] at hu; cases hu
  | @gate _ operands hs h =>
    have hlt : id < net.size := lt_size_of_isLive <| by
      cases hn : net.node id <;> simp_all [Node.support?, isLive, Node.isRemoved]
    exact ⟨operands, hs, by rw [Network.below, get?_eq_some hlt]; simp only [hs], h⟩

theorem mem_operands_of_support? {n : Node} {operands : List Lit}
    (h : n.support? = some operands) : ∀ l ∈ operands, l ∈ n.operands := by
  intro l hl
  cases n with
  | and a b =>
    obtain rfl : [a, b] = operands := by simpa [Node.support?] using h
    exact hl
  | lut4 a b c d table =>
    simp only [Node.support?, Option.some.injEq] at h
    subst h
    obtain ⟨e, he, rfl⟩ := List.mem_map.1 hl
    exact (List.mem_zipIdx' (List.mem_filter.1 he).1).2 ▸ List.getElem_mem _
  | _ => simp [Node.support?] at h

/-- The walk without a bound. It ends with an empty path, at a node that it cannot enter, or at a
gate that has no table. -/
inductive Walks (net : Network) (cut : Cut) :
    List (NodeId × List NodeId) → Memo → Memo × Except Error Unit → Prop
  | done {memo : Memo} : Walks net cut [] memo (memo, .ok ())
  | outside {memo : Memo} {id next : NodeId} {operands rest : List NodeId}
    {path : List (NodeId × List NodeId)} {e : Error}
    (hd : operands.dropWhile (memo.isKnown cut) = next :: rest)
    (hb : net.below cut next = .error e) :
    Walks net cut ((id, operands) :: path) memo (memo, .error e)
  | enter {memo : Memo} {id next : NodeId} {operands rest below : List NodeId}
    {path : List (NodeId × List NodeId)} {r : Memo × Except Error Unit}
    (hd : operands.dropWhile (memo.isKnown cut) = next :: rest)
    (hb : net.below cut next = .ok below)
    (h : Walks net cut ((next, below) :: (id, rest) :: path) memo r) :
    Walks net cut ((id, operands) :: path) memo r
  | missing {memo : Memo} {id : NodeId} {operands : List NodeId}
    {path : List (NodeId × List NodeId)} {e : Error}
    (hd : operands.dropWhile (memo.isKnown cut) = [])
    (ht : net.gateTable cut memo id = .error e) :
    Walks net cut ((id, operands) :: path) memo (memo, .error e)
  | leave {memo : Memo} {id : NodeId} {operands : List NodeId}
    {path : List (NodeId × List NodeId)} {t : UInt64} {r : Memo × Except Error Unit}
    (hd : operands.dropWhile (memo.isKnown cut) = [])
    (ht : net.gateTable cut memo id = .ok t)
    (h : Walks net cut path (memo.record id t) r) :
    Walks net cut ((id, operands) :: path) memo r

theorem below_ok {operands : List NodeId} (h : net.below cut id = .ok operands) :
    ∃ support, (net.node id).support? = some support ∧ operands = support.map (·.id) := by
  unfold below at h
  split at h
  · cases h
  · rename_i n hn
    have hnode : net.node id = n := by
      rw [get?] at hn
      rw [node, Array.getD_eq_getD_getElem?, hn, Option.getD_some]
    split at h
    · cases h
    · rename_i support hs
      exact ⟨support, hnode ▸ hs, by simpa using h.symm⟩

theorem lt_size_of_support? {operands : List Lit} (h : (net.node id).support? = some operands) :
    id < net.size :=
  lt_size_of_isLive <| by cases hn : net.node id <;> simp_all [Node.support?, isLive, Node.isRemoved]

/-- The nodes whose tables are still missing. -/
def unknown (net : Network) (cut : Cut) (memo : Memo) : Finset NodeId :=
  {i ∈ Finset.range net.size | memo.isKnown cut i = false}

theorem card_unknown_record (h : id < net.size) (hs : net.size ≤ memo.tables.size)
    (hu : memo.isKnown cut id = false) (t : UInt64) :
    (net.unknown cut (memo.record id t)).card < (net.unknown cut memo).card := by
  refine Finset.card_lt_card ⟨fun i hi => ?_, fun hsub => ?_⟩
  · obtain ⟨hr, hi⟩ := Finset.mem_filter.1 hi
    refine Finset.mem_filter.2 ⟨hr, ?_⟩
    by_contra hn
    rw [Memo.isKnown_record (by simpa using hn)] at hi
    cases hi
  · have := hsub (Finset.mem_filter.2 ⟨Finset.mem_range.2 h, hu⟩)
    rw [unknown, Finset.mem_filter, Memo.known_record_self (lt_of_lt_of_le h hs)] at this
    cases this.2

theorem isKnown_of_dropWhile {operands rest : List NodeId} {next : NodeId}
    (hd : operands.dropWhile (memo.isKnown cut) = next :: rest) : memo.isKnown cut next = false := by
  have := List.head?_dropWhile_not (memo.isKnown cut) operands
  rw [hd] at this
  simpa using this

/-- The path goes down through gates whose tables are missing. -/
structure Descending (net : Network) (cut : Cut) (path : List (NodeId × List NodeId))
    (memo : Memo) : Prop where
  size : net.size ≤ memo.tables.size
  unknown : ∀ e ∈ path, memo.isKnown cut e.1 = false
  range : ∀ e ∈ path, e.1 < net.size
  sorted : (path.map (·.1)).Pairwise (· < ·)
  operands : ∀ e ∈ path, ∀ i ∈ e.2, i < e.1

namespace Descending

variable {path : List (NodeId × List NodeId)} {operands : List NodeId}

theorem length_le (h : net.Descending cut path memo) :
    path.length ≤ (net.unknown cut memo).card := by
  have hnodup : (path.map (·.1)).Nodup := h.sorted.imp fun hlt => (ne_of_lt hlt)
  rw [← List.length_map (f := (·.1)), ← List.toFinset_card_of_nodup hnodup]
  refine Finset.card_le_card fun i hi => ?_
  obtain ⟨e, he, rfl⟩ := List.mem_map.1 (List.mem_toFinset.1 hi)
  exact Finset.mem_filter.2 ⟨Finset.mem_range.2 (h.range e he), h.unknown e he⟩

theorem start (hc : net.Canonical) (hs : net.size ≤ memo.tables.size)
    (hu : memo.isKnown cut id = false) {below : List NodeId} (hb : net.below cut id = .ok below) :
    net.Descending cut [(id, below)] memo := by
  obtain ⟨support, hsup, rfl⟩ := below_ok hb
  refine ⟨hs, by simpa using hu, by simpa using lt_size_of_support? hsup, by simp, ?_⟩
  simp only [List.mem_singleton, forall_eq, List.forall_mem_map]
  exact fun l hl => hc.lt id l (mem_operands_of_support? hsup l hl)

theorem next_lt (h : net.Descending cut ((id, operands) :: path) memo) {next : NodeId}
    {rest : List NodeId} (hd : operands.dropWhile (memo.isKnown cut) = next :: rest) : next < id := by
  have hsuffix : next :: rest <:+ operands := hd ▸ List.dropWhile_suffix _
  exact h.operands (id, operands) (by simp) next (hsuffix.subset (by simp))

theorem enter (hc : net.Canonical) (h : net.Descending cut ((id, operands) :: path) memo)
    {next : NodeId} {rest below : List NodeId}
    (hd : operands.dropWhile (memo.isKnown cut) = next :: rest)
    (hb : net.below cut next = .ok below) :
    net.Descending cut ((next, below) :: (id, rest) :: path) memo := by
  obtain ⟨support, hs, rfl⟩ := below_ok hb
  have hsuffix : next :: rest <:+ operands := hd ▸ List.dropWhile_suffix _
  have hlt : next < id := h.next_lt hd
  have hsorted := h.sorted
  simp only [List.map_cons, List.pairwise_cons] at hsorted
  refine ⟨h.size, ?_, ?_, ?_, ?_⟩
  · simp only [List.forall_mem_cons]
    exact ⟨isKnown_of_dropWhile hd, h.unknown (id, operands) (by simp),
      fun e he => h.unknown e (by simp [he])⟩
  · simp only [List.forall_mem_cons]
    exact ⟨lt_size_of_support? hs, h.range (id, operands) (by simp),
      fun e he => h.range e (by simp [he])⟩
  · simp only [List.map_cons, List.pairwise_cons, List.forall_mem_cons]
    exact ⟨⟨hlt, fun i hi => lt_trans hlt (hsorted.1 i hi)⟩, hsorted⟩
  · simp only [List.forall_mem_cons, List.forall_mem_map]
    exact ⟨fun l hl => hc.lt next l (mem_operands_of_support? hs l hl),
      fun i hi => h.operands (id, operands) (by simp) i (hsuffix.subset (List.mem_cons_of_mem _ hi)),
      fun e he => h.operands e (by simp [he])⟩

theorem leave (h : net.Descending cut ((id, operands) :: path) memo) (t : UInt64) :
    net.Descending cut path (memo.record id t) := by
  have hsorted := List.pairwise_cons.1 h.sorted
  refine ⟨by simpa [Memo.record] using h.size, fun e he => ?_,
    fun e he => h.range e (List.mem_cons_of_mem _ he), hsorted.2,
    fun e he => h.operands e (List.mem_cons_of_mem _ he)⟩
  have hne : e.1 ≠ id := (ne_of_lt (hsorted.1 e.1 (List.mem_map_of_mem he))).symm
  rw [Memo.isKnown, Memo.known_record_of_ne hne]
  exact h.unknown e (List.mem_cons_of_mem _ he)

end Descending

/-- Twice the missing tables pay for every step that is left, the entries of the path having been
entered already. So the walk ends, covered or not. -/
theorem walks_walkCone (hc : net.Canonical) (fuel : Nat) {path : List (NodeId × List NodeId)}
    (h : net.Descending cut path memo)
    (hfuel : 2 * (net.unknown cut memo).card ≤ fuel + path.length) :
    net.Walks cut path memo (net.walkCone cut fuel path memo) := by
  induction fuel generalizing path memo with
  | zero =>
    match path with
    | [] => rw [walkCone]; exact .done
    | e :: path =>
      have := h.length_le
      simp only [List.length_cons] at this hfuel
      omega
  | succ fuel ih =>
    match path with
    | [] => rw [walkCone]; exact .done
    | (id, operands) :: path =>
      rw [walkCone]
      cases hd : operands.dropWhile (memo.isKnown cut) with
      | cons next rest =>
        cases hb : net.below cut next with
        | error e => simpa only [hb] using .outside hd hb
        | ok below =>
          simpa only [hb] using .enter hd hb (ih (h.enter hc hd hb) (by simp only [List.length_cons] at hfuel ⊢; omega))
      | nil =>
        cases ht : net.gateTable cut memo id with
        | error e => simpa only [ht] using .missing hd ht
        | ok t =>
          have hlt : id < net.size := h.range (id, operands) (by simp)
          have hcard := card_unknown_record hlt h.size (h.unknown (id, operands) (by simp)) t
          simpa only [ht] using .leave hd ht (ih (h.leave t) (by simp only [List.length_cons] at hfuel; omega))

/-- The operands that matter are left, known, or the node that the walk went on to. What is left is
covered and of smaller number. -/
def Awaiting (net : Network) (cut : Cut) (memo : Memo) :
    Option NodeId → List (NodeId × List NodeId) → Prop
  | _, [] => True
  | child, (id, rest) :: path =>
    (∀ operands, (net.node id).support? = some operands →
      ∀ l ∈ operands, l.id ∈ rest ∨ memo.isKnown cut l.id = true ∨ child = some l.id) ∧
    (∀ i ∈ rest, i < id ∧ net.Covered cut.leaves i) ∧ Awaiting net cut memo (some id) path

theorem Awaiting.mono (hsub : ∀ i, memo.isKnown cut i = true → memo'.isKnown cut i = true)
    {path : List (NodeId × List NodeId)} {child : Option NodeId}
    (h : net.Awaiting cut memo child path) : net.Awaiting cut memo' child path := by
  induction path generalizing child with
  | nil => trivial
  | cons e path ih =>
    obtain ⟨h1, h2, h3⟩ := h
    exact ⟨fun ops ho l hl => (h1 ops ho l hl).imp_right (Or.imp_left (hsub _)), h2, ih h3⟩

theorem Awaiting.lt {path : List (NodeId × List NodeId)} {child : Option NodeId}
    (h : net.Awaiting cut memo child path) : ∀ e ∈ path, ∀ i ∈ e.2, i < e.1 := by
  induction path generalizing child with
  | nil => simp
  | cons e path ih => exact List.forall_mem_cons.2 ⟨fun i hi => (h.2.1 i hi).1, ih h.2.2⟩

theorem Awaiting.known {path : List (NodeId × List NodeId)}
    (h : net.Awaiting cut memo (some id) path) (hk : memo.isKnown cut id = true) :
    net.Awaiting cut memo none path := by
  cases path with
  | nil => trivial
  | cons e path =>
    obtain ⟨h1, h2, h3⟩ := h
    refine ⟨fun ops ho l hl => ?_, h2, h3⟩
    rcases h1 ops ho l hl with h | h | h
    · exact .inl h
    · exact .inr (.inl h)
    · obtain rfl : id = l.id := by simpa using h
      exact .inr (.inl hk)

/-- What holds of the memo while the walk is on `path`. -/
structure Walking (net : Network) (cut : Cut) (path : List (NodeId × List NodeId))
    (memo : Memo) : Prop where
  size : net.size ≤ memo.tables.size
  unknown : ∀ e ∈ path, memo.isKnown cut e.1 = false
  covered : ∀ e ∈ path, net.Covered cut.leaves e.1
  sorted : (path.map (·.1)).Pairwise (· < ·)
  awaiting : net.Awaiting cut memo none path

namespace Walking

variable {path : List (NodeId × List NodeId)} {operands : List NodeId}

theorem lt_size (h : net.Walking cut path memo) {e : NodeId × List NodeId} (he : e ∈ path) :
    e.1 < net.size := by
  obtain ⟨ops, hs, -⟩ := (h.covered e he).operands (h.unknown e he)
  exact lt_size_of_support? hs

theorem descending (h : net.Walking cut path memo) : net.Descending cut path memo :=
  ⟨h.size, h.unknown, fun _ he => h.lt_size he, h.sorted, h.awaiting.lt⟩

/-- The walk goes on to the first operand that is not known. -/
theorem enter (hc : net.Canonical) (h : net.Walking cut ((id, operands) :: path) memo)
    {next : NodeId} {rest : List NodeId}
    (hd : operands.dropWhile (memo.isKnown cut) = next :: rest) :
    ∃ below, net.below cut next = .ok below ∧
      net.Walking cut ((next, below) :: (id, rest) :: path) memo := by
  obtain ⟨h1, h2, h3⟩ := h.awaiting
  have hsuffix : next :: rest <:+ operands := hd ▸ List.dropWhile_suffix _
  have hu := isKnown_of_dropWhile hd
  have hcov := (h2 next (hsuffix.subset (by simp))).2
  obtain ⟨ops, hs, hb, hops⟩ := hcov.operands hu
  have hdesc := h.descending.enter hc hd hb
  refine ⟨_, hb, hdesc.size, hdesc.unknown, ?_, hdesc.sorted, ?_, ?_, ?_⟩
  · simp only [List.forall_mem_cons]
    exact ⟨hcov, h.covered (id, operands) (by simp), fun e he => h.covered e (by simp [he])⟩
  · intro ops' hs' l hl
    obtain rfl : ops = ops' := by simpa [hs] using hs'
    exact .inl (List.mem_map_of_mem hl)
  · intro i hi
    obtain ⟨l, hl, rfl⟩ := List.mem_map.1 hi
    exact ⟨hc.lt next l (mem_operands_of_support? hs l hl), hops l hl⟩
  · refine ⟨fun ops' hs' l hl => ?_, fun i hi => h2 i (hsuffix.subset (List.mem_cons_of_mem _ hi)), h3⟩
    rcases h1 ops' hs' l hl with hm | hm | hm
    · -- what was dropped is known
      rw [← List.takeWhile_append_dropWhile (p := memo.isKnown cut) (l := operands), hd,
        List.mem_append, List.mem_cons] at hm
      rcases hm with hm | hm | hm
      · exact .inr (.inl (List.mem_takeWhile_imp hm))
      · exact .inr (.inr (by rw [hm]))
      · exact .inl hm
    · exact .inr (.inl hm)
    · cases hm

/-- All operands of the last entry are known, and so is its own table then. -/
theorem leave (h : net.Walking cut ((id, operands) :: path) memo)
    (hd : operands.dropWhile (memo.isKnown cut) = []) :
    ∃ t, net.gateTable cut memo id = .ok t ∧ net.Walking cut path (memo.record id t) := by
  obtain ⟨h1, -, h3⟩ := h.awaiting
  obtain ⟨ops, hs, -, -⟩ := (h.covered (id, operands) (by simp)).operands (h.unknown _ (by simp))
  obtain ⟨t, ht⟩ := gateTable_ok hs fun l hl => by
    rcases h1 ops hs l hl with hm | hm | hm
    · exact List.dropWhile_eq_nil_iff.1 hd _ hm
    · exact hm
    · cases hm
  have hlt : id < memo.tables.size :=
    lt_of_lt_of_le (h.lt_size (e := (id, operands)) (by simp)) h.size
  have hdesc := h.descending.leave t
  exact ⟨t, ht, hdesc.size, hdesc.unknown, fun e he => h.covered e (List.mem_cons_of_mem _ he),
    hdesc.sorted, (h3.mono fun i hi => Memo.isKnown_record hi t).known (Memo.known_record_self hlt t)⟩

end Walking

/-- A walk through covered nodes meets no error and finds the tables of its path. -/
theorem Walks.ok (hc : net.Canonical) {path : List (NodeId × List NodeId)}
    {r : Memo × Except Error Unit} (hr : net.Walks cut path memo r)
    (h : net.Walking cut path memo) : r.2 = .ok () ∧
      (∀ i, memo.isKnown cut i = true → r.1.isKnown cut i = true) ∧
      ∀ e ∈ path, r.1.isKnown cut e.1 = true := by
  induction hr with
  | done => exact ⟨rfl, fun _ hi => hi, by simp⟩
  | outside hd hb =>
    obtain ⟨below, hb', -⟩ := h.enter hc hd
    rw [hb] at hb'
    cases hb'
  | @enter memo id next operands rest _ path _ hd hb _ ih =>
    obtain ⟨below, hb', hw⟩ := h.enter hc hd
    obtain rfl : _ = below := by simpa [hb] using hb'
    obtain ⟨hok, hold, hall⟩ := ih hw
    simp only [List.forall_mem_cons] at hall ⊢
    exact ⟨hok, hold, hall.2⟩
  | missing hd ht =>
    obtain ⟨t, ht', -⟩ := h.leave hd
    rw [ht] at ht'
    cases ht'
  | @leave memo id operands path _ _ hd ht _ ih =>
    obtain ⟨t, ht', hw⟩ := h.leave hd
    obtain rfl : _ = t := by simpa [ht] using ht'
    obtain ⟨hok, hold, hall⟩ := ih hw
    have hlt : id < net.size := h.lt_size (e := (id, operands)) (by simp)
    refine ⟨hok, fun i hi => hold i (Memo.isKnown_record hi _), ?_⟩
    rw [List.forall_mem_cons]
    exact ⟨hold id (Memo.known_record_self (lt_of_lt_of_le hlt h.size) _), hall⟩

/-- A covered node has a table, which computes it. The memo is empty again afterwards. -/
theorem computeTable_spec (hc : net.Canonical) (hm : memo.Clean) (h6 : cut.leaves.length ≤ 6)
    (h : net.Covered cut.leaves id) : ∃ memo' t,
      net.computeTable (.ofNode id) cut memo = (memo', .ok t) ∧ memo'.Clean ∧
        net.Computes cut id t := by
  have hclean := hm.resize net.size
  have hknown {m : Memo} (hs : m.Sound net cut) (ht : m.isKnown cut id = true) :
      ∃ t, m.knownLit cut (.ofNode id) = .ok t ∧ net.Computes cut id t := by
    obtain ⟨t, ht⟩ := Option.isSome_iff_exists.1 ht
    exact ⟨t, by simp [Memo.knownLit, Lit.ofNode, ht, Lit.apply], Memo.computes_of_known hs h6 ht⟩
  unfold computeTable extract
  cases hk : (memo.resize net.size).isKnown cut id with
  | true =>
    obtain ⟨t, ht, hcomp⟩ := hknown hclean.sound hk
    refine ⟨_, t, ?_, hclean.tracked.clear, hcomp⟩
    simp [Lit.ofNode, hk, ← ht]
  | false =>
    obtain ⟨operands, hs, hb, hops⟩ := h.operands hk
    have hstart : (memo.resize net.size).Sound net cut ∧ (memo.resize net.size).Tracked :=
      ⟨hclean.sound, hclean.tracked⟩
    have hsound := sound_walkCone h6 (2 * net.size) [(id, operands.map (·.id))] hstart
    have hwalk : net.Walking cut [(id, operands.map (·.id))] (memo.resize net.size) := by
      refine ⟨Memo.size_resize memo _, by simpa using hk, by simpa using h, by simp, ?_, ?_, trivial⟩
      · intro ops hs' l hl
        obtain rfl : operands = ops := by simpa [hs] using hs'
        exact .inl (List.mem_map_of_mem hl)
      · intro i hi
        obtain ⟨l, hl, rfl⟩ := List.mem_map.1 hi
        exact ⟨hc.lt id l (mem_operands_of_support? hs l hl), hops l hl⟩
    have hcard : (net.unknown cut (memo.resize net.size)).card ≤ net.size := by
      simpa [unknown] using Finset.card_filter_le (Finset.range net.size) _
    obtain ⟨hok, -, hall⟩ :=
      (walks_walkCone hc (2 * net.size) hwalk.descending (by simp; omega)).ok hc hwalk
    rcases hm' : net.walkCone cut (2 * net.size) [(id, operands.map (·.id))] (memo.resize net.size)
      with ⟨memo', r⟩
    rw [hm'] at hsound hok hall
    obtain rfl : r = .ok () := hok
    obtain ⟨t, ht, hcomp⟩ := hknown hsound.1 (hall _ (List.mem_singleton_self _))
    refine ⟨memo'.clear, t, ?_, hsound.2.clear, hcomp⟩
    simp [Lit.ofNode, hk, hb, hm', ← ht]

end Network

end TechMap
