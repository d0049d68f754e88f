import Mathlib
import TechMap.Proofs.Network.Basic
import TechMap.Proofs.Table.MuxForm
import TechMap.Proofs.Random.Draw

/-! A random network is a valid input of the mapper. Every node is added with operands that are
there already, so one step lemma keeps the network well built, and the census counts the steps. -/

namespace TechMap.Random

open Network

/-- What the nodes of a generated network are counted by. -/
inductive Kind where
  | constant
  | input
  | flipFlop
  | gate
  | pass
  | output
  | nextState
  | other
deriving DecidableEq

def kindOf : Node → Kind
  | .const => .constant
  | .pi => .input
  | .ff => .flipFlop
  | .and .. | .lut4 .. => .gate
  | .bar _ | .sel _ | .delay .. => .pass
  | .po _ => .output
  | .seq _ => .nextState
  | .box | .lut6 .. | .mux .. | .removed => .other

/-- Kinds whose nodes are picked as operands. -/
def Kind.isSignal : Kind → Bool
  | input | flipFlop | gate | pass => true
  | constant | output | nextState | other => false

theorem not_isSink_of_isSignal {n : Node} (h : (kindOf n).isSignal = true) : n.isSink = false := by
  cases n <;> simp_all [kindOf, Kind.isSignal, Node.isSink]

theorem not_isRemoved_of_isSignal {n : Node} (h : (kindOf n).isSignal = true) :
    n.isRemoved = false := by
  cases n <;> simp_all [kindOf, Kind.isSignal, Node.isRemoved]

/-- How many nodes of each kind there are. -/
def census (net : Network) (k : Kind) : Nat := net.count fun n => kindOf n = k

/-- The census that a configuration asks for, with so many pass-throughs. -/
def Config.census (config : Config) (passes : Nat) : Kind → Nat
  | .constant => 1
  | .input => config.inputs
  | .flipFlop => config.flipFlops
  | .gate => config.gates
  | .pass => passes
  | .output => config.outputs
  | .nextState => config.flipFlops
  | .other => 0

/-- Sources, gates and what follows them are used, sinks are not. -/
structure WellBuilt (net : Network) : Prop where
  constant : net.node NodeId.constant = .const
  canonical : net.Canonical
  operands : ∀ id, ∀ l ∈ (net.node id).operands, (net.node l.id).isSink = false
  driven : ∀ id, (net.node id).isLogic = true →
    ∃ l ∈ (net.node id).operands, l.id ≠ NodeId.constant
  amounts : ∀ id a amount, net.node id = .delay a amount → 1 ≤ amount ∧ amount ≤ 16

/-- A network as the configuration describes it. -/
structure Supported (config : Config) (net : Network) : Prop extends WellBuilt net where
  census : ∃ passes ≤ config.gates, ∀ k, census net k = config.census passes k

/- Adding a node. -/

variable {net : Network} {n : Node} {l : Lit} {id : NodeId}

theorem node_add (net : Network) (n : Node) (id : NodeId) :
    (net.add n).node id = if id = net.size then n else net.node id := by
  simp only [Network.node, Network.add, Array.getD_eq_getD_getElem?, Array.getElem?_push,
    Network.size]
  split <;> rfl

theorem node_add_of_isLive (h : net.isLive id = true) : (net.add n).node id = net.node id := by
  rw [node_add, if_neg (lt_size_of_isLive h).ne]

theorem isLive_add (h : net.isLive id = true) : (net.add n).isLive id = true := by
  rwa [isLive, node_add_of_isLive h]

/-- One node of a kind. -/
def Kind.one (k : Kind) : Kind → Nat := Pi.single k 1

theorem census_add (net : Network) (n : Node) :
    census (net.add n) = census net + (kindOf n).one := by
  funext k
  simp [census, Network.count, Network.add, Array.countP_push, Kind.one,
    Pi.single_apply, eq_comm]

/-- A node that may be an operand, and a signal that may be picked for one. -/
structure Readable (net : Network) (id : NodeId) : Prop where
  live : net.isLive id = true
  notSink : (net.node id).isSink = false

structure Usable (net : Network) (l : Lit) : Prop extends Readable net l.id where
  ne : l.id ≠ NodeId.constant

theorem Readable.add (h : Readable net id) (n : Node) : Readable (net.add n) id :=
  ⟨isLive_add h.live, by rw [node_add_of_isLive h.live, h.notSink]⟩

theorem Usable.add (h : Usable net l) (n : Node) : Usable (net.add n) l :=
  ⟨h.toReadable.add n, h.ne⟩

/-- A node that can be added. -/
structure Admissible (net : Network) (n : Node) : Prop where
  operands : ∀ l ∈ n.operands, Readable net l.id
  driven : n.isLogic = true → ∃ l ∈ n.operands, l.id ≠ NodeId.constant
  amount : ∀ a amount, n = .delay a amount → 1 ≤ amount ∧ amount ≤ 16

/-- A node with one operand that is no gate. -/
theorem Admissible.single (h : Readable net l.id) (ho : n.operands = [l]) (hl : n.isLogic = false)
    (ha : ∀ a amount, n = .delay a amount → 1 ≤ amount ∧ amount ≤ 16) : Admissible net n := by
  refine ⟨fun l' hl' => ?_, fun hlogic => ?_, ha⟩
  · rw [ho, List.mem_singleton] at hl'
    rwa [hl']
  · rw [hl] at hlogic
    cases hlogic

/-- A gate whose first operand is a signal. -/
theorem Admissible.gate {a : Lit} {rest : List Lit} (hk : kindOf n = .gate)
    (ho : n.operands = a :: rest) (ha : Usable net a) (hrest : ∀ l ∈ rest, Readable net l.id) :
    Admissible net n := by
  refine ⟨?_, fun _ => ⟨a, by simp [ho], ha.ne⟩, fun _ _ he => ?_⟩
  · rw [ho, List.forall_mem_cons]
    exact ⟨ha.toReadable, hrest⟩
  · rw [he] at hk
    cases hk

namespace WellBuilt

theorem empty : WellBuilt .empty := by
  have hnode (id : NodeId) : Network.empty.node id = .const ∨ Network.empty.node id = .removed := by
    match id with
    | 0 => exact .inl rfl
    | id + 1 => exact .inr rfl
  refine ⟨rfl, ⟨fun id l hl => ?_, fun id l hl => ?_⟩, fun id l hl => ?_, fun id hl => ?_,
    fun id a amount hn => ?_⟩ <;> rcases hnode id with h | h <;> simp_all [Node.operands, Node.isLogic]

theorem size_pos (h : WellBuilt net) : 0 < net.size := by
  have hlive : net.isLive NodeId.constant = true := by
    rw [isLive, h.constant]
    rfl
  exact lt_size_of_isLive hlive

theorem readable_constant (h : WellBuilt net) : Readable net NodeId.constant :=
  ⟨by rw [isLive, h.constant]; rfl, by rw [h.constant]; rfl⟩

/-- The step: an admissible node keeps the network well built. -/
theorem add (h : WellBuilt net) (ha : Admissible net n) : WellBuilt (net.add n) := by
  have hsize := h.size_pos
  have hcases (id : NodeId) : (net.add n).node id = n ∧ id = net.size ∨
      (net.add n).node id = net.node id := by
    rw [node_add]
    split
    · exact .inl ⟨rfl, ‹_›⟩
    · exact .inr rfl
  refine ⟨?_, ⟨fun id l hl => ?_, fun id l hl => ?_⟩, fun id l hl => ?_, fun id hlogic => ?_,
    fun id a amount hn => ?_⟩
  · rw [node_add, if_neg (show NodeId.constant ≠ net.size from hsize.ne), h.constant]
  · rcases hcases id with ⟨he, rfl⟩ | he <;> rw [he] at hl
    · exact lt_size_of_isLive (ha.operands l hl).live
    · exact h.canonical.lt id l hl
  · rcases hcases id with ⟨he, -⟩ | he <;> rw [he] at hl
    · exact isLive_add (ha.operands l hl).live
    · exact isLive_add (h.canonical.live id l hl)
  · rcases hcases id with ⟨he, -⟩ | he <;> rw [he] at hl
    · exact ((ha.operands l hl).add n).notSink
    · rw [node_add_of_isLive (h.canonical.live id l hl)]
      exact h.operands id l hl
  · rcases hcases id with ⟨he, -⟩ | he <;> rw [he] at hlogic ⊢
    · exact ha.driven hlogic
    · exact h.driven id hlogic
  · rcases hcases id with ⟨he, -⟩ | he <;> rw [he] at hn
    · exact ha.amount a amount hn
    · exact h.amounts id a amount hn

theorem usable_add (h : WellBuilt net) (hn : (kindOf n).isSignal = true) :
    Usable (net.add n) (.ofNode net.size) := by
  have hnode : (net.add n).node net.size = n := by rw [node_add, if_pos rfl]
  have hsize := h.size_pos
  refine ⟨⟨?_, ?_⟩, hsize.ne'⟩
  · rw [Lit.ofNode, isLive, hnode, not_isRemoved_of_isSignal hn]
    rfl
  · rw [Lit.ofNode, hnode, not_isSink_of_isSignal hn]

end WellBuilt

/-- A network under construction with its signals, and its census. -/
structure Grown (signals : Nat) (c : Kind → Nat) (g : Draw.Growth) : Prop where
  net : WellBuilt g.net
  usable : ∀ l ∈ g.signals, Usable g.net l
  size : g.signals.size = signals
  census : census g.net = c

namespace Grown

variable {m : Nat} {c : Kind → Nat} {g : Draw.Growth}

theorem start : Grown 0 (Kind.constant.one) ⟨.empty, #[]⟩ := by
  refine ⟨.empty, by simp, rfl, ?_⟩
  funext k
  cases k <;> rfl

/-- A node that is no signal. -/
theorem extend (h : Grown m c g) (ha : Admissible g.net n) :
    Grown m (c + (kindOf n).one) ⟨g.net.add n, g.signals⟩ :=
  ⟨h.net.add ha, fun l hl => (h.usable l hl).add n, h.size, by rw [census_add, h.census]⟩

/-- A node that is a signal. -/
theorem add (h : Grown m c g) (ha : Admissible g.net n) (hn : (kindOf n).isSignal = true) :
    Grown (m + 1) (c + (kindOf n).one) (g.add n) := by
  refine ⟨h.net.add ha, fun l hl => ?_, by simp [Draw.Growth.add, h.size],
    (h.extend ha).census⟩
  rcases Array.mem_push.1 hl with hl | rfl
  · exact (h.usable l hl).add n
  · exact h.net.usable_add hn

/-- Sources need no operands. -/
theorem sources (h : Grown m c g) (hn : (kindOf n).isSignal = true) (hsource : n.isSource = true)
    (k : Nat) : Grown (m + k) (c + k • (kindOf n).one)
      ((List.replicate k n).foldl Draw.Growth.add g) := by
  have ha (net : Network) : Admissible net n := by
    refine ⟨fun l hl => ?_, fun hl => ?_, fun a amount he => ?_⟩
    · rw [Node.operands_of_isSource hsource] at hl
      cases hl
    · rw [Node.not_isLogic_of_isSource hsource] at hl
      cases hl
    · rw [he] at hsource
      cases hsource
  induction k generalizing m c g with
  | zero => simpa using h
  | succ k ih =>
    have := ih (h.add (ha g.net) hn)
    rw [List.replicate_succ, List.foldl_cons]
    rwa [show m + (k + 1) = m + 1 + k by omega, succ_nsmul', ← add_assoc]

end Grown

/- Drawing the nodes. -/

namespace Draw

variable {γ : Type} [Generator γ] {signals : Array Lit}

theorem ensures_bool : (bool : Draw γ Bool).Ensures fun _ => True := .lift fun _ => trivial

theorem ensures_outOf8 (k : Nat) : (outOf8 k : Draw γ Bool).Ensures fun _ => True :=
  .lift fun _ => trivial

theorem ensures_word32 : (word32 : Draw γ UInt32).Ensures fun _ => True := .lift fun _ => trivial

theorem ensures_index {k : Nat} (h : 0 < k) : (index k : Draw γ Nat).Ensures (· < k) := by
  rw [index, if_neg h.ne']
  exact .lift fun s => Nat.mod_lt _ h

/-- A signal that is picked is usable, with either polarity. -/
theorem ensures_signal (h : ∀ l ∈ signals, Usable net l) (h0 : 0 < signals.size) :
    (signal signals : Draw γ Lit).Ensures (Usable net) := by
  have hpick (i : Nat) (hi : i < signals.size) (b : Bool) :
      Usable net ((signals.getD i .zero).xor b) := by
    rw [Array.getD_eq_getD_getElem?, Array.getElem?_eq_getElem hi]
    have hmem := h signals[i] (Array.getElem_mem hi)
    exact ⟨hmem.toReadable, hmem.ne⟩
  refine ensures_bool.bind fun recent _ => ?_
  have hpos : 0 < if recent then Nat.min signals.size 8 else signals.size := by
    split
    · exact Nat.lt_min.2 ⟨h0, by decide⟩
    · exact h0
  refine (ensures_index hpos).bind fun back hback => ensures_bool.bind fun b _ => .pure ?_
  refine hpick _ ?_ b
  cases recent with
  | false => exact hback
  | true => rw [if_pos rfl]; omega

theorem ensures_input {k : Nat} (h : 0 < k) : (input k : Draw γ Nat).Ensures (· < k) :=
  .map ((ensures_index h).mono fun i hi => lt_of_le_of_lt (Nat.mod_le i 256) hi)

/-- Among at most four inputs nothing but bad luck keeps a multiplexer from being drawn, and it is
recognized as one. -/
theorem ensures_muxTable {k : Nat} (h0 : 0 < k) (h4 : k ≤ 4) (attempts : Nat) :
    (muxTable k attempts : Draw γ UInt16).Ensures fun w => (MuxForm.ofTable? w).isSome := by
  induction attempts with
  | zero => exact .noTable
  | succ attempts ih =>
    refine (ensures_input h0).bind fun s hs => (ensures_input h0).bind fun t ht =>
      (ensures_input h0).bind fun e he => .ite (fun _ => ih) fun hne => ?_
    refine ensures_bool.bind fun thenNeg _ => ensures_bool.bind fun elseNeg _ =>
      .ite (fun _ => .pure ?_) fun hrange => ?_
    · obtain ⟨hst, hse, hte⟩ := not_or.1 hne |>.imp_right not_or.1
      have hmem : (⟨s, t, e, thenNeg, elseNeg⟩ : MuxForm) ∈ MuxForm.all :=
        MuxForm.mem_all_of_distinct ⟨hst, hse, hte⟩ (hs.trans_le h4) (ht.trans_le h4) (he.trans_le h4)
      rw [MuxForm.ofTable?_table hmem]
      rfl
    · refine absurd ?_ hrange
      simp only [MuxForm.inRange, Bool.and_eq_true, decide_eq_true_eq]
      omega

theorem ensures_gateTable (attempts : Nat) (config : Config) (full : Bool) :
    (gateTable attempts config full : Draw γ UInt16).Ensures fun _ => True := by
  refine (ensures_outOf8 _).bind fun mux _ => .ite (fun _ => ?_) fun _ => ?_
  · exact (ensures_muxTable (by split <;> decide) (by split <;> decide) attempts).mono
      fun _ _ => trivial
  · exact ensures_word32.bind fun w _ => .pure trivial

theorem ensures_gate (attempts : Nat) (config : Config) (hnet : WellBuilt net)
    (h : ∀ l ∈ signals, Usable net l) (h0 : 0 < signals.size) :
    (gate attempts config signals : Draw γ Node).Ensures fun n =>
      Admissible net n ∧ kindOf n = .gate := by
  have hsignal : (signal signals : Draw γ Lit).Ensures (Usable net) := ensures_signal h h0
  refine (ensures_outOf8 _).bind fun table _ => .ite (fun _ => ?_) fun _ => ?_
  · have hlast (full : Bool) : (lastInput full signals : Draw γ Lit).Ensures
        fun d => Readable net d.id :=
      .ite (fun _ => hsignal.mono fun d hd => hd.toReadable) fun _ => .pure hnet.readable_constant
    refine ensures_bool.bind fun full _ => hsignal.bind fun a ha => hsignal.bind fun b hb =>
      hsignal.bind fun c hc => (hlast full).bind fun d hd =>
      (ensures_gateTable attempts config full).bind fun table _ =>
      .pure ⟨.gate rfl rfl ha ?_, rfl⟩
    simpa using ⟨hb.toReadable, hc.toReadable, hd⟩
  · refine hsignal.bind fun a ha => hsignal.bind fun b hb => .pure ⟨.gate rfl rfl ha ?_, rfl⟩
    simpa using hb.toReadable

theorem amount_bounds (w : UInt32) : 1 ≤ w % 16 + 1 ∧ w % 16 + 1 ≤ 16 := by
  have hlt : (w % 16).toNat < 16 := by
    rw [UInt32.toNat_mod]
    exact Nat.mod_lt _ (by decide)
  have hadd : (w % 16 + 1).toNat = (w % 16).toNat + 1 := by
    rw [UInt32.toNat_add]
    exact Nat.mod_eq_of_lt (show (w % 16).toNat + 1 < 2 ^ 32 by omega)
  rw [UInt32.le_iff_toNat_le, UInt32.le_iff_toNat_le, hadd]
  exact ⟨Nat.le_add_left 1 _, hlt⟩

theorem ensures_passThrough (h : Readable net l.id) : (passThrough l : Draw γ Node).Ensures fun n =>
    Admissible net n ∧ kindOf n = .pass := by
  refine (ensures_index (by decide)).bind fun i _ => ?_
  split
  · exact .pure ⟨Admissible.single h rfl rfl nofun, rfl⟩
  · exact .pure ⟨Admissible.single h rfl rfl nofun, rfl⟩
  · refine ensures_word32.bind fun w _ => .pure ⟨Admissible.single h rfl rfl ?_, rfl⟩
    rintro _ _ ⟨⟩
    exact amount_bounds w

/-- A turn of the loop adds a gate and at most one pass-through, and one signal. -/
theorem ensures_grow (attempts : Nat) (config : Config) {m : Nat} {c : Kind → Nat} {g : Growth}
    (h : Grown m c g) (hm : 0 < m) : (grow attempts config g : Draw γ Growth).Ensures fun g' =>
      ∃ p ≤ 1, Grown (m + 1) (c + Kind.gate.one + p • Kind.pass.one) g' := by
  refine (ensures_gate attempts config h.net h.usable (h.size ▸ hm)).bind fun n ⟨hn, hkind⟩ => ?_
  have hsignal : (kindOf n).isSignal = true := by rw [hkind]; rfl
  refine (ensures_outOf8 _).bind fun passed _ => .ite (fun _ => ?_) fun _ => .pure ⟨0, by omega, ?_⟩
  · have hread := (h.net.usable_add hsignal).toReadable
    refine (ensures_passThrough hread).bind fun pass ⟨hpass, hpassKind⟩ => .pure ⟨1, le_rfl, ?_⟩
    have := (h.extend hn).add hpass (by rw [hpassKind]; rfl)
    simpa [hkind, hpassKind] using this
  · simpa [hkind] using h.add hn hsignal

theorem ensures_outputs {m : Nat} {c : Kind → Nat} (is : List Nat) (h : Grown m c ⟨net, signals⟩)
    (hm : 2 ≤ m) : (outputs signals is net : Draw γ Network).Ensures fun net' =>
      Grown m (c + is.length • Kind.output.one) ⟨net', signals⟩ := by
  induction is generalizing c net with
  | nil => exact .pure (by simpa using h)
  | cons i rest ih =>
    have hsize : signals.size = m := h.size
    have hpick : (output signals i : Draw γ Lit).Ensures (Usable net) := by
      refine .ite (fun hi => .ite (fun hlt => .pure ?_) fun hlt => ?_) fun _ => ?_
      · rw [Array.getD_eq_getD_getElem?, Array.getElem?_eq_getElem (by omega)]
        exact h.usable _ (Array.getElem_mem _)
      · exact absurd (show i < signals.size by omega) hlt
      · exact ensures_signal h.usable (by omega)
    refine hpick.bind fun l hl => ?_
    have hstep := ih (h.extend (n := .po l) (.single hl.toReadable rfl rfl nofun))
    rwa [List.length_cons, succ_nsmul', ← add_assoc]

theorem ensures_nextStates {m : Nat} {c : Kind → Nat} (k : Nat) (h : Grown m c ⟨net, signals⟩)
    (hm : 0 < m) :
    (times (fun net => (fun l => net.add (.seq l)) <$> signal signals) k net : Draw γ Network).Ensures
      fun net' => Grown m (c + k • Kind.nextState.one) ⟨net', signals⟩ := by
  have hstep (j : Nat) (net : Network)
      (h : Grown m (c + j • Kind.nextState.one) ⟨net, signals⟩) :
      ((fun l => net.add (.seq l)) <$> signal signals : Draw γ Network).Ensures fun net' =>
        Grown m (c + (j + 1) • Kind.nextState.one) ⟨net', signals⟩ := by
    have hsize : signals.size = m := h.size
    refine .map ((ensures_signal h.usable (show 0 < signals.size by omega)).mono fun l hl => ?_)
    rw [succ_nsmul, ← add_assoc]
    exact h.extend (n := .seq l) (.single hl.toReadable rfl rfl nofun)
  have hloop := Ensures.times hstep (n := k) (k := 0) (x := net) (by simpa using h)
  simpa using hloop

/-- The whole construction, whatever is drawn. -/
theorem ensures_networkWithin (attempts : Nat) {config : Config}
    (h : 2 ≤ config.inputs + config.flipFlops) :
    (networkWithin attempts config : Draw γ Network).Ensures (Supported config) := by
  set base : Kind → Nat := Kind.constant.one + config.inputs • Kind.input.one +
    config.flipFlops • Kind.flipFlop.one with hbase
  have hstart := (Grown.start.sources (n := .pi) rfl rfl config.inputs).sources (n := .ff) rfl rfl
    config.flipFlops
  -- after `k` turns there are `k` gates, `p` pass-throughs and `k` signals more
  have hturn (k : Nat) (g : Growth)
      (hg : ∃ p ≤ k, Grown (config.inputs + config.flipFlops + k)
        (base + k • Kind.gate.one + p • Kind.pass.one) g) :
      (grow attempts config g : Draw γ Growth).Ensures fun g' =>
        ∃ p ≤ k + 1, Grown (config.inputs + config.flipFlops + (k + 1))
          (base + (k + 1) • Kind.gate.one + p • Kind.pass.one) g' := by
    obtain ⟨p, hp, hg⟩ := hg
    refine (ensures_grow attempts config hg (by omega)).mono fun g' ⟨q, hq, hg'⟩ =>
      ⟨p + q, by omega, ?_⟩
    have hcount : base + (k + 1) • Kind.gate.one + (p + q) • Kind.pass.one =
        base + k • Kind.gate.one + p • Kind.pass.one + Kind.gate.one +
          q • Kind.pass.one := by
      rw [succ_nsmul, add_nsmul]
      abel
    rwa [hcount, ← Nat.add_assoc]
  have hloop := Ensures.times hturn (n := config.gates) (k := 0)
    (x := (List.replicate config.flipFlops Node.ff).foldl Growth.add
      ((List.replicate config.inputs Node.pi).foldl Growth.add ⟨.empty, #[]⟩))
    ⟨0, le_rfl, by simpa [kindOf, hbase] using hstart⟩
  refine hloop.bind fun g ⟨p, hp, hg⟩ => ?_
  refine (ensures_outputs (List.range config.outputs) hg (by omega)).bind fun net hnet => ?_
  refine (ensures_nextStates config.flipFlops hnet (by omega)).mono fun net' hnet' => ?_
  refine ⟨hnet'.net, p, by simpa using hp, fun k => ?_⟩
  rw [hnet'.census]
  cases k <;> simp [hbase, Config.census, Kind.one]

/- More attempts. -/

theorem extends_muxTable {few more : Nat} (h : few ≤ more) (k : Nat) :
    (muxTable k more : Draw γ UInt16).Extends (muxTable k few) := by
  induction few generalizing more with
  | zero =>
    intro s r hr
    cases hr
  | succ few ih =>
    obtain ⟨more, rfl⟩ : ∃ m, more = m + 1 := ⟨more - 1, by omega⟩
    exact (Extends.refl _).bind fun s => (Extends.refl _).bind fun t => (Extends.refl _).bind fun e =>
      .ite (ih (by omega)) (.refl _)

theorem extends_grow {few more : Nat} (h : few ≤ more) (config : Config) (g : Growth) :
    (grow more config g : Draw γ Growth).Extends (grow few config g) := by
  have htable (full : Bool) : (gateTable more config full : Draw γ UInt16).Extends
      (gateTable few config full) :=
    (Extends.refl _).bind fun mux => .ite (extends_muxTable h _) (.refl _)
  have hgate : (gate more config g.signals : Draw γ Node).Extends (gate few config g.signals) :=
    (Extends.refl _).bind fun table => .ite
      ((Extends.refl _).bind fun full => (Extends.refl _).bind fun a => (Extends.refl _).bind fun b =>
        (Extends.refl _).bind fun c => (Extends.refl _).bind fun d => (htable full).bind fun table =>
        .refl _)
      (.refl _)
  exact hgate.bind fun n => .refl _

/-- A network that is drawn stays the same when more attempts are allowed. -/
theorem extends_networkWithin {few more : Nat} (h : few ≤ more) (config : Config) :
    (networkWithin more config : Draw γ Network).Extends (networkWithin few config) :=
  (Extends.times (extends_grow h config) config.gates _).bind fun _ => .refl _

end Draw

end TechMap.Random
