import Mathlib
import TechMap.Network.Truth
import TechMap.Proofs.Network.Valuation
import TechMap.Proofs.Table.Value

/-! The lanes of a simulation. Whatever monad answers for the inputs, it is asked once for each of
them in ascending order, and bit `k` of every word is the Boolean value of its node when each input
has bit `k` of its answer. So a simulation is 64 evaluations that do not touch each other. -/

namespace TechMap

open Table

/- One node. -/

theorem testBit_rowNumber (bs : List Bool) (i : Nat) :
    (rowNumber bs).testBit i = bs.getD i false := by
  induction bs generalizing i with
  | nil => simp [rowNumber]
  | cons b bs ih =>
    cases i with
    | zero => cases b <;> simp [rowNumber]
    | succ i =>
      have hdiv : (b.toNat + 2 * rowNumber bs) / 2 = rowNumber bs := by
        cases b <;> simp only [Bool.toNat_false, Bool.toNat_true] <;> omega
      rw [rowNumber, Nat.testBit_succ, hdiv, ih, List.getD_cons_succ]

theorem bit_eq_testBit (w : UInt64) (k : Nat) : bit w k = w.toNat.testBit k := rfl

/-- The row that lane `k` of the words reads. -/
theorem rowOf_lane (k : Nat) {ws : List UInt64} (h : ws.length ≤ 6) :
    rowOf (lane k ws) = rowNumber (ws.map fun w => bit w k) := by
  refine Nat.eq_of_testBit_eq fun i => ?_
  rw [testBit_rowNumber]
  rcases Nat.lt_or_ge i 6 with hi | hi
  · rw [testBit_rowOf _ hi, lane]
    simp only [List.getD_eq_getElem?_getD, List.getElem?_map]
    cases ws[i]? <;> simp
  · rw [List.getD_eq_default _ _ (by simp; omega)]
    exact Nat.testBit_lt_two_pow
      ((rowOf_lt _).trans_le (Nat.pow_le_pow_right (n := 2) (by omega) hi))

theorem bit_lookup_map (table : UInt64) (read : Lit → UInt64) {inputs : List Lit}
    (h : inputs.length ≤ 6) {k : Nat} (hk : k < 64) :
    bit (lookup table (inputs.map read)) k =
      table.toNat.testBit (rowNumber (inputs.map fun l => bit (read l) k)) := by
  rw [bit_lookup _ (by simpa using h) hk, value, rowOf_lane k (by simpa using h), bit_eq_testBit,
    List.map_map]
  rfl

theorem bit_readLit (v : NodeId → UInt64) (l : Lit) {k : Nat} (hk : k < 64) :
    bit (readLit v l) k = (bit (v l.id) k ^^ l.sign) := by
  cases hs : l.sign <;> simp [readLit, Lit.apply, hs, bit_not _ hk]

namespace Node

/-- Tables of more than six inputs do not fit a word. -/
def Narrow : Node → Prop
  | lut6 inputs _ => inputs.length ≤ 6
  | _ => True

theorem bit_eval {n : Node} (h : n.Narrow) (read : Lit → UInt64) {k : Nat} (hk : k < 64) :
    bit (n.eval read) k = n.holds fun l => bit (read l) k := by
  cases n with
  | const => exact bit_ones hk
  | and a b => exact bit_and ..
  | lut4 a b c d table =>
    have h4 : [a, b, c, d].length ≤ 6 := by simp
    exact bit_lookup_map table.toUInt64 read h4 hk
  | lut6 inputs table => exact bit_lookup_map table read h hk
  | mux s t e =>
    rw [eval, holds, bit_or, bit_and, bit_and, bit_not _ hk]
    cases bit (read s) k <;> simp
  | bar | sel | delay | po | seq => rfl
  | pi | ff | box | removed => exact bit_zero k

theorem holds_congr {n : Node} {f g : Lit → Bool} (h : ∀ l ∈ n.operands, f l = g l) :
    n.holds f = n.holds g := by
  cases n with
  | lut6 inputs table =>
    simp only [holds]
    rw [List.map_congr_left (l := inputs) h]
  | _ => simp_all [holds, operands]

end Node

namespace Network

variable {net : Network} {m : Type → Type} [Monad m]

/- A whole network. -/

theorem mem_inputs {id : NodeId} : id ∈ net.inputs ↔ (net.node id).isInput = true := by
  rw [inputs, List.mem_filter, mem_ids]
  exact ⟨fun h => h.2, fun h =>
    ⟨lt_size_of_isLive (isLive_of_isSource (Node.isSource_of_isInput h)), h⟩⟩

theorem pairwise_inputs (net : Network) : net.inputs.Pairwise (· < ·) :=
  List.pairwise_lt_range.filter _

theorem truth_eq (hc : net.Canonical) (input : NodeId → Bool) (id : NodeId) :
    net.truth input id = if (net.node id).isInput then input id
      else (net.node id).holds fun l => net.truth input l.id ^^ l.sign := by
  rw [truth]
  congr 1
  exact Node.holds_congr fun l hl => by rw [dif_pos (hc.lt id l hl)]

/-- One lane of a solution is the Boolean reading of that lane of the inputs. -/
theorem IsValuation.lane {source v : NodeId → UInt64} (hc : net.Canonical)
    (hn : ∀ id, (net.node id).Narrow) (h : net.IsValuation source v) {k : Nat} (hk : k < 64)
    (id : NodeId) (hid : id < net.size) :
    bit (v id) k = net.truth (fun i => bit (source i) k) id := by
  induction id using Nat.strong_induction_on with
  | _ id ih =>
    rw [h id hid, wordOf, truth_eq hc]
    split
    · rfl
    · rw [Node.bit_eval (hn id) _ hk]
      refine Node.holds_congr fun l hl => ?_
      have hlt := hc.lt id l hl
      rw [bit_readLit v l hk, ih l.id hlt (hlt.trans hid)]

/- Who is asked, and when. -/

theorem mapM_bind_congr [LawfulMonad m] {β γ δ : Type} (f : β → m γ) (l : List β)
    {g g' : List γ → m δ} (h : ∀ ys, ys.length = l.length → g ys = g' ys) :
    l.mapM f >>= g = l.mapM f >>= g' := by
  induction l generalizing g g' with
  | nil => simp [h [] rfl]
  | cons x l ih =>
    simp only [List.mapM_cons, bind_assoc, pure_bind]
    congr 1
    funext y
    exact ih fun ys hys => h (y :: ys) (by simp [hys])

/-- What was answered for an input, the answers standing in the order of `ids`. -/
def answerFor (ids : List NodeId) (words : List UInt64) (id : NodeId) : UInt64 :=
  words.getD (ids.idxOf id) 0

theorem answerFor_append_of_mem {ids : List NodeId} {words : List UInt64} {id : NodeId} (w : UInt64)
    (i : NodeId) (hlen : words.length = ids.length) (h : id ∈ ids) :
    answerFor (ids ++ [i]) (words ++ [w]) id = answerFor ids words id := by
  have hlt : ids.idxOf id < words.length := hlen ▸ List.idxOf_lt_length_of_mem h
  rw [answerFor, answerFor, List.idxOf_append_of_mem h, List.getD_append _ _ _ _ hlt]

theorem answerFor_append_self {ids : List NodeId} {words : List UInt64} (w : UInt64) {i : NodeId}
    (hlen : words.length = ids.length) (h : i ∉ ids) :
    answerFor (ids ++ [i]) (words ++ [w]) i = w := by
  rw [answerFor, List.idxOf_append_of_notMem h, List.getD_append_right _ _ _ _ (by omega)]
  simp [hlen]

theorem size_firstWords (source : NodeId → UInt64) {n : Nat} (hn : n ≤ net.size) :
    (net.firstWords source n).size = n := by
  induction n with
  | zero => rfl
  | succ n ih => rw [firstWords_succ source hn, evalStep, Array.size_push, ih (by omega)]

/-- The words of the first nodes depend on the inputs among them. -/
theorem firstWords_congr {source source' : NodeId → UInt64} {n : Nat} (hn : n ≤ net.size)
    (h : ∀ id < n, (net.node id).isInput = true → source id = source' id) :
    net.firstWords source n = net.firstWords source' n := by
  induction n with
  | zero => rfl
  | succ n ih =>
    rw [firstWords_succ source hn, firstWords_succ source' hn,
      ih (by omega) fun id hid => h id (by omega)]
    unfold evalStep
    rw [size_firstWords source' (by omega)]
    congr 1
    split
    · rename_i hi
      exact h n (by omega) hi
    · rfl

/-- The inputs among the first `n` nodes. -/
def firstInputs (net : Network) (n : Nat) : List NodeId :=
  (List.range n).filter fun id => (net.node id).isInput

theorem mem_firstInputs {n : Nat} {id : NodeId} :
    id ∈ net.firstInputs n ↔ id < n ∧ (net.node id).isInput = true := by
  simp [firstInputs]

theorem firstInputs_succ (net : Network) (n : Nat) : net.firstInputs (n + 1) =
    net.firstInputs n ++ if (net.node n).isInput then [n] else [] := by
  rw [firstInputs, List.range_succ, List.filter_append, List.filter_singleton, firstInputs]
  cases (net.node n).isInput <;> rfl

/-- The next word of a simulation in a monad. -/
def evalStepM (source : NodeId → m UInt64) (values : Array UInt64) (node : Node) :
    m (Array UInt64) := do
  let word ← if node.isInput then source values.size else pure (node.eval (litValue values))
  return values.push word

theorem firstWords_append {n : Nat} (hn : n < net.size) (hi : (net.node n).isInput = true)
    {words : List UInt64} (hlen : words.length = (net.firstInputs n).length) (w : UInt64) :
    net.firstWords (answerFor (net.firstInputs n ++ [n]) (words ++ [w])) (n + 1) =
      (net.firstWords (answerFor (net.firstInputs n) words) n).push w := by
  have hold : net.firstWords (answerFor (net.firstInputs n ++ [n]) (words ++ [w])) n =
      net.firstWords (answerFor (net.firstInputs n) words) n :=
    firstWords_congr hn.le fun id hid hinput =>
      answerFor_append_of_mem w n hlen (mem_firstInputs.2 ⟨hid, hinput⟩)
  have hnew : n ∉ net.firstInputs n := fun h => lt_irrefl n (mem_firstInputs.1 h).1
  rw [firstWords_succ _ hn, evalStep, if_pos hi, hold, size_firstWords _ hn.le,
    answerFor_append_self w hlen hnew]

/-- To simulate the first `n` nodes is to ask for their inputs and to evaluate then. -/
theorem foldlM_evalStepM [LawfulMonad m] (source : NodeId → m UInt64) {n : Nat}
    (hn : n ≤ net.size) : (net.nodes.toList.take n).foldlM (evalStepM source) #[] =
      (net.firstInputs n).mapM source >>= fun words =>
        pure (net.firstWords (answerFor (net.firstInputs n) words) n) := by
  induction n with
  | zero => simp [firstInputs, firstWords]
  | succ n ih =>
    have hlt : n < net.nodes.size := hn
    have hnode : net.nodes.toList[n]? = some (net.node n) := by
      rw [node_eq_getElem hlt, Array.getElem?_toList, Array.getElem?_eq_getElem hlt]
    rw [List.take_add_one, hnode, Option.toList_some, List.foldlM_append, ih (by omega),
      firstInputs_succ]
    simp only [List.foldlM_cons, List.foldlM_nil, bind_pure, bind_assoc, pure_bind]
    by_cases hi : (net.node n).isInput = true
    · simp only [hi, if_true, List.mapM_append, List.mapM_cons, List.mapM_nil, bind_assoc,
        pure_bind]
      refine mapM_bind_congr source _ fun words hwords => ?_
      rw [evalStepM, if_pos hi, size_firstWords _ (by omega)]
      simp only [firstWords_append hlt hi hwords]
    · simp only [hi, Bool.false_eq_true, if_false, List.append_nil]
      refine mapM_bind_congr source _ fun words _ => ?_
      rw [evalStepM, if_neg hi, pure_bind, firstWords_succ _ hlt, evalStep, if_neg hi]

theorem evaluate_eq [LawfulMonad m] (net : Network) (source : NodeId → m UInt64) :
    net.evaluate source = net.inputs.mapM source >>= fun words =>
      pure (net.firstWords (answerFor net.inputs words) net.size) := by
  have h := foldlM_evalStepM source (Nat.le_refl net.size)
  rwa [List.take_of_length_le (by simp [size]), Array.foldlM_toList] at h

/-- A simulation succeeds iff the network is canonical. It asks for each input once, in ascending
order, and each of its lanes is the Boolean reading of that lane of the answers. -/
theorem simulate_lanes [LawfulMonad m] (net : Network) (hn : ∀ n ∈ net.nodes, n.Narrow)
    (source : NodeId → m UInt64) : ∃ values : List UInt64 → Array UInt64,
    (net.inputs.Pairwise (· < ·) ∧ ∀ id, id ∈ net.inputs ↔ (net.node id).isInput = true) ∧
    net.simulateM source = (if net.isCanonical then do return .ok (values (← net.inputs.mapM source))
      else return .error .notCanonical) ∧
    (net.isCanonical = true → ∀ words, (values words).size = net.size ∧
      ∀ id < net.size, ∀ k < 64, bit ((values words).getD id 0) k =
        net.truth (fun i => bit (answerFor net.inputs words i) k) id) := by
  refine ⟨fun words => net.firstWords (answerFor net.inputs words) net.size,
    ⟨net.pairwise_inputs, fun id => mem_inputs⟩, ?_, fun hc words => ?_⟩
  · rw [simulateM, evaluate_eq]
    simp only [bind_assoc, pure_bind]
  · have hc := isCanonical_iff.1 hc
    have hnode (id : NodeId) : (net.node id).Narrow := by
      rcases Nat.lt_or_ge id net.size with h | h
      · rw [node_eq_getElem h]
        exact hn _ (Array.getElem_mem h)
      · rw [node_of_ge h]
        trivial
    obtain ⟨hs, hv⟩ := firstWords_spec hc (answerFor net.inputs words) net.size (Nat.le_refl _)
    exact ⟨hs, fun id hid k hk => IsValuation.lane hc hnode hv hk id hid⟩

/-- Every kind of node is there. -/
def mixed : Network :=
  ⟨#[.const, .pi, .ff, .box, .and (.ofNode 1) ⟨2, true⟩, .removed,
    .lut4 (.ofNode 1) (.ofNode 2) (.ofNode 3) (.ofNode 4) 0x6996, .bar (.ofNode 6),
    .mux (.ofNode 3) (.ofNode 7) .zero, .lut6 [.ofNode 1, .ofNode 4, .ofNode 8] 0x96,
    .sel (.ofNode 9), .delay (.ofNode 10) 3, .po ⟨11, true⟩, .seq (.ofNode 8)]⟩

/-- Keeps a record of who was asked for, the last one first. -/
def recorded (id : NodeId) : StateM (List NodeId) UInt64 := do
  modify fun asked => id :: asked
  return 0x0123456789abcdef * id.toUInt64

theorem simulate_lanes_mixed : (∀ n ∈ mixed.nodes, n.Narrow) ∧
    ∃ values : List UInt64 → Array UInt64,
      mixed.simulateM recorded = (do return .ok (values (← [1, 2, 3].mapM recorded))) ∧
      ∀ words, (values words).size = 14 ∧ ∀ id < 14, ∀ k < 64, bit ((values words).getD id 0) k =
        mixed.truth (fun i => bit (answerFor [1, 2, 3] words i) k) id := by
  have hn : ∀ n ∈ mixed.nodes, n.Narrow := by simp [mixed, Node.Narrow]
  have hc : mixed.isCanonical = true := by decide
  have hinputs : mixed.inputs = [1, 2, 3] := by decide
  obtain ⟨values, -, hrun, hlanes⟩ := simulate_lanes mixed hn recorded
  rw [hinputs] at hrun hlanes
  rw [if_pos hc] at hrun
  exact ⟨hn, values, hrun, hlanes hc⟩

end Network

end TechMap
