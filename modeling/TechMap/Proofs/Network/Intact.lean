import Mathlib
import TechMap.Proofs.Network.Compaction

/-! When a compaction succeeds. The search always ends. It stops early only where something that a
sink needs is missing or needs itself, and then the network is as it was. A search that went through
has found every operand before its node, so nothing else can fail. -/

namespace TechMap.Network

/-- The search move by move, with no bound on how many there are. -/
inductive Explores (net : Network) : List (NodeId × List Lit) → Search → Except Error Search → Prop
  | done {s : Search} : Explores net [] s (.ok s)
  | finish {s : Search} {id : NodeId} {path : List (NodeId × List Lit)} {r : Except Error Search}
    (h : Explores net path (s.finish id) r) : Explores net ((id, []) :: path) s r
  | dangling {s : Search} {id : NodeId} {l : Lit} {rest : List Lit}
    {path : List (NodeId × List Lit)} (hl : ¬ net.isLive l.id = true) :
    Explores net ((id, l :: rest) :: path) s (.error (.dangling id l.id))
  | cycle {s : Search} {id : NodeId} {l : Lit} {rest : List Lit} {path : List (NodeId × List Lit)}
    (hl : net.isLive l.id = true) (hp : s.colours[l.id]? = some .onPath) :
    Explores net ((id, l :: rest) :: path) s (.error (.cycle id l.id))
  | enter {s : Search} {id : NodeId} {l : Lit} {rest : List Lit} {path : List (NodeId × List Lit)}
    {r : Except Error Search} (hl : net.isLive l.id = true) (hf : s.colours[l.id]? = some .fresh)
    (h : Explores net ((l.id, (net.node l.id).operands) :: (id, rest) :: path) (s.enter l.id) r) :
    Explores net ((id, l :: rest) :: path) s r
  | pass {s : Search} {id : NodeId} {l : Lit} {rest : List Lit} {path : List (NodeId × List Lit)}
    {r : Except Error Search} (hl : net.isLive l.id = true) (hf : s.colours[l.id]? ≠ some .fresh)
    (hp : s.colours[l.id]? ≠ some .onPath) (h : Explores net ((id, rest) :: path) s r) :
    Explores net ((id, l :: rest) :: path) s r

variable {net net' : Network} {c : Compaction}

theorem explores_explore (net : Network) (path : List (NodeId × List Lit)) (s : Search) :
    net.Explores path s (net.explore path s) := by
  induction path, s using explore.induct net with
  | case1 s => rw [explore]; exact .done
  | case2 s id path ih => rw [explore_finish]; exact .finish ih
  | case3 s id l rest path hl hf _ ih => rw [explore_enter hl hf]; exact .enter hl hf ih
  | case4 s id l rest path hl hp => rw [explore_cycle hl hp]; exact .cycle hl hp
  | case5 s id l rest path hl hf hp ih => rw [explore_pass hl hf hp]; exact .pass hl hf hp ih
  | case6 s id l rest path hl => rw [explore_dangling hl]; exact .dangling hl

/-- Whatever a sink needs has all its operands, and does not need itself. -/
def Intact (net : Network) : Prop :=
  ∀ s id, (net.node s).isSink = true → net.Reaches s id →
    (∀ l ∈ (net.node id).operands, net.isLive l.id = true) ∧ ¬ Relation.TransGen net.Feeds id id

/-- A node that is kept for its operands is kept for a sink. -/
theorem Kept.needed {id : NodeId} {l : Lit} (h : net.Kept id) (hl : l ∈ (net.node id).operands) :
    ∃ s, (net.node s).isSink = true ∧ net.Reaches s id := by
  rcases h with h | h
  · rw [Node.operands_of_isSource h] at hl
    cases hl
  · exact h

theorem Fault.not_intact {e : Error} (h : net.Fault e) : ¬ net.Intact := by
  intro hi
  cases h with
  | dangling hk hl hd =>
    obtain ⟨s, hs, hr⟩ := hk.needed hl
    exact hd ((hi s _ hs hr).1 _ hl)
  | cycle hk hl hback =>
    obtain ⟨s, hs, hr⟩ := hk.needed hl
    exact (hi s _ hs hr).2 (.head' ⟨_, hl, rfl⟩ hback)

namespace Renumbered

/-- The new numbers fall along the operands. -/
theorem falls (h : Renumbered net net' c) {a b i : NodeId} (hi : c.get a = some i)
    (hab : Relation.TransGen net.Feeds a b) : ∃ j < i, c.get b = some j := by
  induction hab with
  | single hstep =>
    obtain ⟨l, hl, rfl⟩ := hstep
    exact h.lt _ i hi l hl
  | tail _ hstep ih =>
    obtain ⟨j, hj, hb⟩ := ih
    obtain ⟨l, hl, rfl⟩ := hstep
    obtain ⟨k, hk, hc⟩ := h.lt _ j hb l hl
    exact ⟨k, lt_trans hk hj, hc⟩

theorem intact (h : Renumbered net net' c) : net.Intact := by
  intro s id hs hr
  obtain ⟨i, hi⟩ := (h.kept id).2 (.inr ⟨s, hs, hr⟩)
  constructor
  · intro l hl
    obtain ⟨j, -, hj⟩ := h.lt id i hi l hl
    exact h.live _ j hj
  · intro hcycle
    obtain ⟨j, hj, hid⟩ := h.falls hi hcycle
    obtain rfl : i = j := by simpa [hi] using hid
    exact lt_irrefl i hj

end Renumbered

/-- A compaction fails in the search only, before any node was moved. -/
theorem compact_error {e : Error} (h : net.compact = (net', .error e)) :
    net' = net ∧ net.survivors = .error e := by
  cases hs : net.survivors with
  | error e₁ =>
    rw [compact, hs] at h
    cases h
    exact ⟨rfl, rfl⟩
  | ok order =>
    obtain ⟨_, _, hok, -⟩ := compact_of_survivors hs
    rw [hok] at h
    cases h

/-- For every network the search ends, and the compaction goes through exactly where whatever a sink
needs is there and does not need itself. One that fails stops at a fault in the search and leaves the
network as it was, and that an operand has no new number is never the reason. -/
theorem compact_ok_iff_intact (net : Network) :
    (∀ path s, net.Explores path s (net.explore path s)) ∧
      ((∃ net' c, net.compact = (net', .ok c)) ↔ net.Intact) ∧
      ∀ net' e, net.compact = (net', .error e) →
        net' = net ∧ net.survivors = .error e ∧ net.Fault e ∧ e ≠ .operandMissing := by
  refine ⟨explores_explore net, ⟨?_, fun hi => ?_⟩, fun net' e h => ?_⟩
  · rintro ⟨net', c, h⟩
    exact (compact_spec h).intact
  · rcases compact_cases net with ⟨e, -, he⟩ | ⟨net', c, hc, -⟩
    · exact absurd hi he.not_intact
    · exact ⟨net', c, hc⟩
  · obtain ⟨hnet, hs⟩ := compact_error h
    have hfault : net.Fault e := survivors_error hs
    refine ⟨hnet, hs, hfault, ?_⟩
    rintro rfl
    cases hfault

end TechMap.Network
