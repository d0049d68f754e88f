import Mathlib
import TechMap.Proofs.Network.Search
import TechMap.Proofs.Network.Valuation

/-! What a compaction leaves. Each survivor gets one new number, its node is the old one with the
operands renumbered, and operands come before their consumers. So the result is canonical, everything
in it is worth keeping, and it computes for every survivor what the old network did. -/

namespace TechMap

theorem mapM_eq_some_map {β γ : Type} {f : β → Option γ} {g : β → γ} {l : List β}
    (h : ∀ x ∈ l, f x = some (g x)) : l.mapM f = some (l.map g) := by
  induction l with
  | nil => rfl
  | cons x l ih =>
    rw [List.mapM_cons, h x (by simp), ih fun y hy => h y (List.mem_cons_of_mem _ hy)]
    rfl

namespace Node

/-- The node with every operand replaced. -/
def mapLits (g : Lit → Lit) : Node → Node
  | and a b => and (g a) (g b)
  | lut4 a b c d table => lut4 (g a) (g b) (g c) (g d) table
  | bar a => bar (g a)
  | sel a => sel (g a)
  | delay a amount => delay (g a) amount
  | po a => po (g a)
  | seq a => seq (g a)
  | lut6 inputs table => lut6 (inputs.map g) table
  | mux s t e => mux (g s) (g t) (g e)
  | const => const
  | pi => pi
  | ff => ff
  | box => box
  | removed => removed

theorem operands_mapLits (g : Lit → Lit) (n : Node) :
    (n.mapLits g).operands = n.operands.map g := by
  cases n <;> simp [mapLits, operands]

theorem eval_mapLits (g : Lit → Lit) (read : Lit → UInt64) (n : Node) :
    (n.mapLits g).eval read = n.eval fun l => read (g l) := by
  cases n <;> simp [mapLits, eval, Function.comp_def]

theorem isInput_mapLits (g : Lit → Lit) (n : Node) : (n.mapLits g).isInput = n.isInput := by
  cases n <;> rfl

theorem isSource_mapLits (g : Lit → Lit) (n : Node) : (n.mapLits g).isSource = n.isSource := by
  cases n <;> rfl

theorem isSink_mapLits (g : Lit → Lit) (n : Node) : (n.mapLits g).isSink = n.isSink := by
  cases n <;> rfl

theorem isLogic_mapLits (g : Lit → Lit) (n : Node) : (n.mapLits g).isLogic = n.isLogic := by
  cases n <;> rfl

theorem isRemoved_mapLits (g : Lit → Lit) (n : Node) : (n.mapLits g).isRemoved = n.isRemoved := by
  cases n <;> rfl

theorem mapLits_of_isSource {g : Lit → Lit} {n : Node} (h : n.isSource = true) :
    n.mapLits g = n := by
  cases n <;> simp_all [isSource, mapLits]

theorem mapLits_mapLits (f g : Lit → Lit) (n : Node) :
    (n.mapLits f).mapLits g = n.mapLits fun l => g (f l) := by
  cases n <;> simp [mapLits]

theorem rename?_eq_mapLits {f : Lit → Option Lit} {g : Lit → Lit} {n : Node}
    (h : ∀ l ∈ n.operands, f l = some (g l)) : n.rename? f = some (n.mapLits g) := by
  cases n with
  | lut6 inputs table => simp [rename?, mapLits, mapM_eq_some_map (l := inputs) h]
  | _ => simp_all [rename?, mapLits, operands]

end Node

namespace Compaction

/-- A signal of the old network in the new one, if its node survives. -/
def move (c : Compaction) (l : Lit) : Lit := ⟨(c.get l.id).getD 0, l.sign⟩

theorem move_eq {c : Compaction} {l : Lit} {i : NodeId} (h : c.get l.id = some i) :
    c.move l = ⟨i, l.sign⟩ := by
  simp [move, h]

theorem lit_eq {c : Compaction} {l : Lit} {i : NodeId} (h : c.get l.id = some i) :
    c.lit l = some (c.move l) := by
  simp [lit, move, h]

end Compaction

namespace Network

/-- Writes the numbers from `n` on. -/
theorem foldl_number {os : List NodeId} (hn : os.Nodup) (map : Array (Option NodeId)) (n : Nat)
    (hlt : ∀ o ∈ os, o < map.size) :
    let r := os.foldl (fun (p : Array (Option NodeId) × Nat) old =>
      (p.1.setIfInBounds old (some p.2), p.2 + 1)) (map, n)
    (∀ (k : Nat) (id : NodeId), os[k]? = some id → r.1[id]? = some (some (n + k))) ∧
      ∀ id : NodeId, id ∉ os → r.1[id]? = map[id]? := by
  induction os generalizing map n with
  | nil => simp
  | cons o os ih =>
    obtain ⟨ho, hn⟩ := List.nodup_cons.1 hn
    obtain ⟨h1, h2⟩ := ih hn (map.setIfInBounds o (some n)) (n + 1)
      (fun x hx => by rw [Array.size_setIfInBounds]; exact hlt x (List.mem_cons_of_mem _ hx))
    simp only [List.foldl_cons]
    constructor
    · intro k id hk
      cases k with
      | zero =>
        obtain rfl : o = id := by simpa using hk
        rw [h2 o ho, Array.getElem?_setIfInBounds_self_of_lt (hlt o (by simp)), Nat.add_zero]
      | succ k =>
        rw [h1 k id (by simpa using hk)]
        congr 2
        omega
    · intro id hid
      simp only [List.mem_cons, not_or] at hid
      obtain ⟨hne, hid⟩ := hid
      rw [h2 id hid, Array.getElem?_setIfInBounds_ne (Ne.symm hne)]

theorem get_renumbering {net : Network} {order : Array NodeId} (h : net.SurvivalOrder order)
    (id i : NodeId) : (net.renumbering order).get id = some i ↔ order[i]? = some id := by
  obtain ⟨h1, h2⟩ := foldl_number h.nodup (Array.replicate net.size none) 0 fun o ho => by
    simpa using lt_size_of_isLive (h.live o (by simpa using ho))
  unfold renumbering Compaction.get
  rw [← Array.foldl_toList]
  by_cases hm : id ∈ order
  · obtain ⟨k, hk⟩ := Array.mem_iff_getElem?.1 hm
    rw [h1 k id (by simpa using hk), Nat.zero_add]
    constructor
    · rintro hi
      obtain rfl : k = i := by simpa using hi
      exact hk
    · intro hi
      obtain ⟨hk', hke⟩ := Array.getElem?_eq_some_iff.1 hk
      obtain ⟨hi', hie⟩ := Array.getElem?_eq_some_iff.1 hi
      have hkl : k < order.toList.length := by simpa using hk'
      have hil : i < order.toList.length := by simpa using hi'
      have hsame : order.toList[k] = order.toList[i] := by simp [hke, hie]
      simp [h.nodup.getElem_inj_iff.1 hsame]
  · rw [h2 id (by simpa using hm)]
    constructor
    · intro hi
      rw [Array.getElem?_replicate] at hi
      split at hi <;> simp at hi
    · intro hi
      exact absurd (Array.mem_of_getElem? hi) hm

/-- A compaction from `net` to `net'`. -/
structure Renumbered (net net' : Network) (c : Compaction) : Prop where
  lt_size : ∀ id i, c.get id = some i → i < net'.size
  surj : ∀ i < net'.size, ∃ id, c.get id = some i
  inj : ∀ a b i, c.get a = some i → c.get b = some i → a = b
  node : ∀ id i, c.get id = some i → net'.node i = (net.node id).mapLits c.move
  live : ∀ id i, c.get id = some i → net.isLive id = true
  kept : ∀ id, (∃ i, c.get id = some i) ↔ net.Kept id
  lt : ∀ id i, c.get id = some i → ∀ l ∈ (net.node id).operands, ∃ j < i, c.get l.id = some j
  first : (net.node NodeId.constant).isSource = true →
    c.get NodeId.constant = some NodeId.constant

theorem renumbered_of_survivors {net : Network} {order : Array NodeId}
    (h : net.SurvivalOrder order) :
    Renumbered net ⟨order.map fun old => (net.node old).mapLits (net.renumbering order).move⟩
      (net.renumbering order) := by
  have hget := get_renumbering h
  constructor
  · intro id i hi
    have := (Array.getElem?_eq_some_iff.1 ((hget id i).1 hi)).1
    simpa [size] using this
  · intro i hi
    have hi : i < order.size := by simpa [size] using hi
    exact ⟨order[i], (hget _ i).2 (Array.getElem?_eq_getElem hi)⟩
  · intro a b i ha hb
    rw [hget] at ha hb
    simpa [ha] using hb
  · intro id i hi
    obtain ⟨hlt, he⟩ := Array.getElem?_eq_some_iff.1 ((hget id i).1 hi)
    rw [node_eq_getElem (by simpa using hlt)]
    simp [he]
  · intro id i hi
    exact h.live id (Array.mem_of_getElem? ((hget id i).1 hi))
  · intro id
    rw [← h.mem_iff, Array.mem_iff_getElem?]
    simp only [hget]
  · intro id i hi l hl
    obtain ⟨j, hj, hjl⟩ := h.sorted i id ((hget id i).1 hi) l hl
    exact ⟨j, hj, (hget l.id j).2 hjl⟩
  · exact fun h0 => (hget _ _).2 (h.first h0)

theorem compact_of_survivors {net : Network} {order : Array NodeId}
    (hs : net.survivors = .ok order) : ∃ net' c, net.compact = (net', .ok c) ∧
      Renumbered net net' c := by
  have h := survivors_spec hs
  refine ⟨_, _, ?_, renumbered_of_survivors h⟩
  unfold compact
  rw [hs]
  simp only
  have hr : ∀ old ∈ order.toList, (net.node old).rename? (net.renumbering order).lit =
      some ((net.node old).mapLits (net.renumbering order).move) := by
    intro old hold
    refine Node.rename?_eq_mapLits fun l hl => ?_
    obtain ⟨i, hi⟩ := Array.mem_iff_getElem?.1 (Array.mem_toList_iff.1 hold)
    obtain ⟨j, _, hj⟩ := h.sorted i old hi l hl
    exact Compaction.lit_eq ((get_renumbering h l.id j).2 hj)
  rw [Array.mapM_eq_mapM_toList, mapM_eq_some_map hr]
  simp [← Array.toList_inj]

/-- Compaction either stops at a fault and leaves the network alone, or renumbers it. -/
theorem compact_cases (net : Network) :
    (∃ e, net.compact = (net, .error e) ∧ net.Fault e) ∨
      ∃ net' c, net.compact = (net', .ok c) ∧ Renumbered net net' c := by
  cases hs : net.survivors with
  | error e => exact .inl ⟨e, by unfold compact; rw [hs], survivors_error hs⟩
  | ok order => exact .inr (compact_of_survivors hs)

theorem compact_spec {net net' : Network} {c : Compaction} (h : net.compact = (net', .ok c)) :
    Renumbered net net' c := by
  rcases compact_cases net with ⟨e, he, -⟩ | ⟨net₁, c₁, h₁, hr⟩
  · rw [he] at h; cases h
  · rw [h₁] at h; cases h; exact hr

/-- Nothing can go wrong where all roots lie in a grounded set. -/
theorem compact_ok {net : Network} {P : NodeId → Prop} (hP : net.Grounded P)
    (hroots : ∀ id, (net.node id).isSource = true ∨ (net.node id).isSink = true → P id) :
    ∃ net' c, net.compact = (net', .ok c) ∧ Renumbered net net' c := by
  rcases compact_cases net with ⟨e, -, he⟩ | hc
  · exact absurd he (hP.no_fault hroots e)
  · exact hc

namespace Renumbered

variable {net net' : Network} {c : Compaction}

theorem operands (h : Renumbered net net' c) {id i : NodeId} (hi : c.get id = some i) :
    (net'.node i).operands = (net.node id).operands.map c.move := by
  rw [h.node id i hi, Node.operands_mapLits]

/-- A node of the new table comes from the old one. -/
theorem node_cases (h : Renumbered net net' c) (i : NodeId) :
    net'.node i = .removed ∨ ∃ id, c.get id = some i := by
  rcases Nat.lt_or_ge i net'.size with hi | hi
  · exact .inr (h.surj i hi)
  · exact .inl (node_of_ge hi)

theorem isLive (h : Renumbered net net' c) {i : NodeId} (hi : i < net'.size) :
    net'.isLive i = true := by
  obtain ⟨id, hid⟩ := h.surj i hi
  have := h.live id i hid
  rw [Network.isLive, h.node id i hid, Node.isRemoved_mapLits]
  exact this

theorem canonical (h : Renumbered net net' c) : net'.Canonical := by
  have key (i : NodeId) (l : Lit) (hl : l ∈ (net'.node i).operands) :
      l.id < i ∧ net'.isLive l.id = true := by
    obtain ⟨id, hid⟩ := h.surj i (lt_size_of_isLive (isLive_of_operand hl))
    rw [h.operands hid] at hl
    obtain ⟨l₀, hl₀, rfl⟩ := List.mem_map.1 hl
    obtain ⟨j, hj, hg⟩ := h.lt id i hid l₀ hl₀
    rw [Compaction.move_eq hg]
    exact ⟨hj, h.isLive (h.lt_size _ _ hg)⟩
  exact ⟨fun i l hl => (key i l hl).1, fun i l hl => (key i l hl).2⟩

theorem get_operand (h : Renumbered net net' c) {id i : NodeId} (hi : c.get id = some i) {l : Lit}
    (hl : l ∈ (net.node id).operands) : c.get l.id = some (c.move l).id := by
  obtain ⟨j, _, hj⟩ := h.lt id i hi l hl
  rw [Compaction.move_eq hj, hj]

theorem reaches (h : Renumbered net net' c) {a b i : NodeId} (hi : c.get a = some i)
    (hab : net.Reaches a b) : ∃ j, c.get b = some j ∧ net'.Reaches i j := by
  induction hab with
  | refl => exact ⟨i, hi, .refl⟩
  | tail _ hstep ih =>
    obtain ⟨j, hj, hr⟩ := ih
    obtain ⟨l, hl, rfl⟩ := hstep
    refine ⟨_, h.get_operand hj hl, hr.tail ⟨c.move l, ?_, rfl⟩⟩
    rw [h.operands hj]
    exact List.mem_map_of_mem hl

/-- Everything that is left is worth keeping. -/
theorem kept_new (h : Renumbered net net' c) {i : NodeId} (hi : i < net'.size) : net'.Kept i := by
  obtain ⟨id, hid⟩ := h.surj i hi
  rcases (h.kept id).1 ⟨i, hid⟩ with hs | ⟨s, hs, hr⟩
  · exact .inl (by rw [h.node id i hid, Node.isSource_mapLits, hs])
  · obtain ⟨k, hk⟩ := (h.kept s).2 (.of_isSink hs)
    obtain ⟨j, hj, hr'⟩ := h.reaches hk hr
    obtain rfl : i = j := by simpa [hid] using hj
    exact .inr ⟨k, by rw [h.node s k hk, Node.isSink_mapLits, hs], hr'⟩

/-- Survivors keep their words, if the survivors' equations held before. -/
theorem valuation (h : Renumbered net net' c) {source source' v v' : NodeId → UInt64}
    (hv : ∀ id, net.Kept id → v id = net.wordOf source v id) (hv' : net'.IsValuation source' v')
    (hsource : ∀ id i, c.get id = some i → (net.node id).isInput = true → source' i = source id)
    (id i : NodeId) (hi : c.get id = some i) : v' i = v id := by
  induction i using Nat.strong_induction_on generalizing id with
  | _ i ih =>
    rw [hv' i (h.lt_size id i hi), hv id ((h.kept id).1 ⟨i, hi⟩)]
    unfold wordOf
    rw [h.node id i hi, Node.isInput_mapLits]
    split
    · rename_i hin; exact hsource id i hi hin
    · rw [Node.eval_mapLits]
      refine Node.eval_congr fun l hl => ?_
      obtain ⟨j, hj, hg⟩ := h.lt id i hi l hl
      rw [Compaction.move_eq hg, readLit, readLit, ih j hj l.id hg]
      rfl

end Renumbered

end Network

end TechMap
