import Mathlib
import TechMap.Proofs.Mapping.Run
import TechMap.Proofs.Random.Network

/-! The mapper takes every generated network as it is. -/

namespace TechMap.Random

open Mapping

variable {config : Config} {net : Network}

theorem Supported.not_isMapped (h : Supported config net) {n : Node} (hn : n ∈ net.nodes.toList) :
    n.isMapped = false := by
  obtain ⟨passes, -, hcensus⟩ := h.census
  have hzero : net.nodes.countP (fun n => kindOf n = .other) = 0 := hcensus .other
  have hother := Array.countP_eq_zero.1 hzero n (Array.mem_toList_iff.1 hn)
  cases n <;> simp_all [kindOf, Node.isMapped]

/-- A run starts on the network, with nothing changed but an empty remap. -/
theorem Supported.start (h : Supported config net) {α : Type} [Quantity α] {p : Params α}
    {w : Workspace α} (hw : w.net = net) (hr : 0 < p.rounds) (hslots : 0 < p.cutsPerNode) :
    ∃ m, Mapper.start p w = .ok m ∧ m.net = net ∧ m.work = w.startRemap := by
  subst hw
  obtain ⟨m, hm⟩ := start_ok hr hslots h.canonical fun n hn => h.not_isMapped hn
  rcases (Started.of_start hm).work with ⟨-, hwork⟩ | ⟨hnot, -⟩
  · refine ⟨m, hm, ?_, hwork⟩
    rw [Mapper.net, hwork]
    rfl
  · exact absurd h.canonical hnot

variable {γ : Type} [Generator γ]

/-- With at least two sources a network is drawn unless the attempts at a table run out. It is as
configured, the mapper starts on it as it is, and more attempts give the same one. -/
theorem networkWithin_supported (h : 2 ≤ config.inputs + config.flipFlops) (attempts : Nat) :
    (Draw.networkWithin attempts config : Draw γ Network).Ensures (fun net =>
      Supported config net ∧
      ∀ {α : Type} [Quantity α] (p : Params α) (w : Workspace α), w.net = net → 0 < p.rounds →
        0 < p.cutsPerNode → ∃ m, Mapper.start p w = .ok m ∧ m.net = net ∧ m.work = w.startRemap) ∧
    ∀ more, attempts ≤ more → (Draw.networkWithin more config : Draw γ Network).Extends
      (Draw.networkWithin attempts config) := by
  refine ⟨?_, fun more hle => Draw.extends_networkWithin hle config⟩
  exact (Draw.ensures_networkWithin attempts h).mono fun net hnet =>
    ⟨hnet, fun p w hw hr hslots => hnet.start hw hr hslots⟩

/-- One input, one flip-flop and two gates, half of them tables and these all multiplexers. -/
def small : Config := ⟨1, 1, 2, 2, 4, 8, 4⟩

/-- The network of `small` at seed two: two tables, the second one behind a delay. -/
def smallNet : Network :=
  ⟨#[.const, .pi, .ff, .lut4 ⟨1, false⟩ ⟨2, false⟩ ⟨1, true⟩ ⟨2, false⟩ 60962,
    .lut4 ⟨2, false⟩ ⟨2, false⟩ ⟨3, false⟩ ⟨1, false⟩ 61644, .delay ⟨4, false⟩ 3,
    .po ⟨5, false⟩, .po ⟨3, false⟩, .seq ⟨1, true⟩]⟩

theorem networkWithin_supported_small :
    2 ≤ small.inputs + small.flipFlops ∧
    (Draw.network small : Draw Xoshiro Network).run' (.ofGenerator (.ofSeed 2)) = .ok smallNet ∧
    Supported small smallNet ∧
    ∃ m, Mapper.start (.standard : Params Single) ⟨smallNet, none, #[]⟩ = .ok m ∧
      m.net = smallNet := by
  have hsources : 2 ≤ small.inputs + small.flipFlops := by decide
  have hrun : (Draw.networkWithin 8 small : Draw Xoshiro Network).run' (.ofGenerator (.ofSeed 2)) =
      .ok smallNet := by cbv
  obtain ⟨hensures, hextends⟩ := networkWithin_supported (γ := Xoshiro) hsources 8
  obtain ⟨hnet, hstart⟩ := hensures.of_run' hrun
  obtain ⟨m, hm, hmnet, -⟩ := hstart (.standard : Params Single) ⟨smallNet, none, #[]⟩ rfl
    (by decide) (by decide)
  exact ⟨hsources, (hextends Draw.attempts (by decide)).run' hrun, hnet, m, hm, hmnet⟩

end TechMap.Random
