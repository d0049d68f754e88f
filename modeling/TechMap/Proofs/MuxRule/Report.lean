import Mathlib
import TechMap.Mapping.State
import TechMap.Proofs.MuxRule.Tally

/-! What a clean report means. It finds no broken rule only if there is none, and a network that obeys
all rules is left alone by legalization. So legalization demotes nothing exactly where the report was
clean before. -/

namespace TechMap.Network

variable {net net' : Network} {id : NodeId}

/-- A data operand that breaks no rule for single operands. -/
def Allowed (net : Network) (fanouts : Array Nat) (d : Lit) : Prop :=
  (net.node d.id).isMapped = true ∧
    ((net.node d.id).isMux = true → d.sign = false ∧ fanouts.getD d.id 0 ≤ 1)

/-- An operand adds nothing to a report only if it is allowed, and it is below the depth found. -/
theorem checkData_le (fanouts level : Array Nat) (s : MuxReport × Nat) (d : Lit) :
    ((net.checkData fanouts level s d).1.isClean = true →
      s.1.isClean = true ∧ net.Allowed fanouts d) ∧
    s.2 ≤ (net.checkData fanouts level s d).2 ∧
    ((net.node d.id).isMux = true → level.getD d.id 0 + 1 ≤ (net.checkData fanouts level s d).2) := by
  unfold checkData Allowed
  cases hn : net.node d.id with
  | mux a b e =>
    refine ⟨fun h => ?_, Nat.le_max_left .., fun _ => Nat.le_max_right ..⟩
    simp only [isClean_iff, Nat.add_eq_zero_iff, Bool.toNat_eq_zero, decide_eq_false_iff_not,
      Nat.not_lt] at h ⊢
    obtain ⟨h1, ⟨h2, hfan⟩, ⟨h3, hsign⟩, h4⟩ := h
    exact ⟨⟨h1, h2, h3, h4⟩, rfl, fun _ => ⟨hsign, hfan⟩⟩
  | lut6 inputs table => exact ⟨fun h => ⟨h, rfl, fun hm => by cases hm⟩, le_rfl, fun hm => by cases hm⟩
  | _ =>
    refine ⟨fun h => ?_, le_rfl, fun hm => by cases hm⟩
    simp [isClean_iff] at h

theorem foldl_checkData_le (fanouts level : Array Nat) (data : List Lit) (s : MuxReport × Nat) :
    ((data.foldl (net.checkData fanouts level) s).1.isClean = true →
      s.1.isClean = true ∧ ∀ d ∈ data, net.Allowed fanouts d) ∧
    s.2 ≤ (data.foldl (net.checkData fanouts level) s).2 ∧
    ∀ d ∈ data, (net.node d.id).isMux = true →
      level.getD d.id 0 + 1 ≤ (data.foldl (net.checkData fanouts level) s).2 := by
  induction data generalizing s with
  | nil => exact ⟨fun h => ⟨h, by simp⟩, le_rfl, by simp⟩
  | cons d rest ih =>
    obtain ⟨hclean, hle, hrise⟩ := @checkData_le net fanouts level s d
    obtain ⟨ihclean, ihle, ihrise⟩ := ih (net.checkData fanouts level s d)
    refine ⟨fun h => ?_, hle.trans ihle, List.forall_mem_cons.2 ⟨fun hm => (hrise hm).trans ihle, ihrise⟩⟩
    obtain ⟨h1, hrest⟩ := ihclean h
    obtain ⟨h0, hd⟩ := hclean h1
    exact ⟨h0, List.forall_mem_cons.2 ⟨hd, hrest⟩⟩

/-- What a report says of the multiplexers before `rest`, as long as it is clean, and their levels. -/
structure Inspected (net : Network) (rest : List NodeId) (s : MuxReport × Array Nat) : Prop where
  size : s.2.size = net.size
  allowed : s.1.isClean = true → ∀ i, i ∉ rest → ∀ d ∈ (net.node i).muxData,
    net.Allowed net.fanoutCounts d
  low : s.1.isClean = true → ∀ i, i ∉ rest → (net.node i).isMux = true →
    s.2.getD i 0 ≤ maxMuxChain
  rising : net.Rising rest s.2

theorem Inspected.step (hc : net.Canonical) {rest : List NodeId} (hsuf : id :: rest <:+ net.upOrder)
    {s : MuxReport × Array Nat} (h : Inspected net (id :: rest) s) :
    Inspected net rest (net.checkMux net.fanoutCounts s id) := by
  have hlive : net.isLive id = true := mem_upOrder.1 (hsuf.subset (by simp))
  have hlt : id < s.2.size := lt_of_lt_of_eq (lt_size_of_isLive hlive) h.size.symm
  rw [checkMux_eq]
  split
  · rename_i hnil
    have hpast (i : NodeId) (hm : (net.node i).isMux = true) (hi : i ∉ rest) : i ∉ id :: rest := by
      rw [List.mem_cons, not_or]
      refine ⟨?_, hi⟩
      rintro rfl
      exact muxData_ne_nil hm hnil
    exact ⟨h.size,
      fun hr i hi d hd => h.allowed hr i (hpast i (isMux_of_muxData hd) hi) d hd,
      fun hr i hi hm => h.low hr i (hpast i hm hi) hm, h.rising.skip hnil⟩
  · obtain ⟨hclean, hone, hrise⟩ := @foldl_checkData_le net net.fanoutCounts s.2
      (net.node id).muxData ({ s.1 with total := s.1.total + 1 }, 1)
    generalize (net.node id).muxData.foldl (net.checkData net.fanoutCounts s.2)
      ({ s.1 with total := s.1.total + 1 }, 1) = r at hclean hone hrise
    -- a clean report has counted nothing here and nothing before
    have hback (hr : MuxReport.isClean
        { r.1 with chain := r.1.chain + (decide (maxMuxChain < r.2)).toNat } = true) :
        (s.1.isClean = true ∧ ∀ d ∈ (net.node id).muxData, net.Allowed net.fanoutCounts d) ∧
          r.2 ≤ maxMuxChain := by
      simp only [isClean_iff, Nat.add_eq_zero_iff, Bool.toNat_eq_zero, decide_eq_false_iff_not,
        Nat.not_lt] at hr
      exact ⟨hclean (isClean_iff.2 ⟨hr.1.1, hr.2⟩), hr.1.2⟩
    refine ⟨by simpa using h.size, fun hr i hi d hd => ?_, fun hr i hi hm => ?_,
      h.rising.set hc hsuf hlt hone hrise⟩
    · obtain ⟨⟨hs, hall⟩, -⟩ := hback hr
      by_cases he : i = id
      · exact hall d (he ▸ hd)
      · exact h.allowed hs i (by simp [he, hi]) d hd
    · obtain ⟨⟨hs, -⟩, hle⟩ := hback hr
      rw [getD_set s.2 hlt]
      split
      · exact hle
      · rename_i he
        exact h.low hs i (by simp [he, hi]) hm

theorem Inspected.foldl (hc : net.Canonical) {ids : List NodeId} (hsuf : ids <:+ net.upOrder)
    {s : MuxReport × Array Nat} (h : Inspected net ids s) :
    Inspected net [] (ids.foldl (net.checkMux net.fanoutCounts) s) := by
  induction ids generalizing s with
  | nil => exact h
  | cons i rest ih => exact ih ((List.suffix_cons i rest).trans hsuf) (h.step hc hsuf)

theorem inspected_checkMuxes (hc : net.Canonical) : ∃ level, Inspected net [] (net.checkMuxes, level) := by
  have hnone (i : NodeId) (hi : i ∉ net.upOrder) : ¬ (net.node i).isMux = true := fun hm =>
    hi (mem_upOrder.2 (isLive_of_isMux hm))
  have hstart : Inspected net net.upOrder (⟨0, 0, 0, 0, 0⟩, Array.replicate net.size 0) :=
    ⟨by simp, fun _ i hi d hd => absurd (isMux_of_muxData hd) (hnone i hi),
      fun _ i hi hm => absurd hm (hnone i hi), .start net _⟩
  exact ⟨_, hstart.foldl hc (List.suffix_refl _)⟩

/-- A clean report means that all rules hold. -/
theorem legal_of_isClean (hc : net.Canonical) (h : net.checkMuxes.isClean = true) :
    net.Settled ∧ net.Shallow := by
  obtain ⟨level, hi⟩ := inspected_checkMuxes hc
  have hall (i : NodeId) := hi.allowed h i (by simp)
  exact ⟨⟨fun i l hl => (hall i l hl).1, fun i l hl hm => ((hall i l hl).2 hm).1,
    fun i l hl hm => ((hall i l hl).2 hm).2⟩, hi.rising.shallow fun i hm => hi.low h i (by simp) hm⟩

theorem settleData_of_allowed {fanouts : Array Nat} {data : List Lit}
    (h : ∀ d ∈ data, net.Allowed fanouts d) (k : Nat) :
    settleData fanouts id data (net, k) = (net, k) := by
  induction data with
  | nil => rfl
  | cons d rest ih =>
    obtain ⟨⟨hmapped, hmux⟩, hrest⟩ := List.forall_mem_cons.1 h
    rw [settleData]
    cases hn : net.node d.id with
    | mux a b e =>
      obtain ⟨hsign, hfan⟩ := hmux (by rw [hn]; rfl)
      dsimp only
      rw [hsign, decide_eq_false (Nat.not_lt.2 hfan)]
      exact ih hrest
    | lut6 inputs table => exact ih hrest
    | _ => rw [hn] at hmapped; cases hmapped

theorem settleAll_of_settled (hs : net.Settled) (ids : List NodeId) (k : Nat) :
    ids.foldl (fun s id => settleData net.fanoutCounts id (s.1.node id).muxData s) (net, k) =
      (net, k) := by
  induction ids with
  | nil => rfl
  | cons id rest ih =>
    rw [List.foldl_cons, settleData_of_allowed fun d hd => ⟨hs.input id d hd, fun hm =>
      ⟨hs.inverter id d hd hm, hs.fanout id d hd hm⟩⟩]
    exact ih

theorem settle_of_settled (hs : net.Settled) (k : Nat) : net.settle k = (net, k) := by
  have hpass : net.settlePass k = (net, k) := settleAll_of_settled hs net.ids k
  rw [settle, hpass, if_neg (by simp)]

theorem foldl_max_le {β : Type} (f : β → Nat) {l : List β} {b : Nat} (h : ∀ x ∈ l, f x ≤ b)
    {init : Nat} (hinit : init ≤ b) : l.foldl (fun m x => max m (f x)) init ≤ b := by
  induction l generalizing init with
  | nil => exact hinit
  | cons x l ih =>
    obtain ⟨hx, h⟩ := List.forall_mem_cons.1 h
    exact ih h (max_le hinit hx)

/-- Levels that fit a network without chains of three. Only multiplexers have one. -/
def Fitting (net : Network) (level : Array Nat) : Prop :=
  ∀ i, net.Level i (level.getD i 0) ∧ ((net.node i).isMux = false → level.getD i 0 = 0)

theorem trimStep_of_shallow (hsh : net.Shallow) {level : Array Nat} (h : net.Fitting level) (k : Nat)
    (id : NodeId) : ∃ level', trimStep (net, k, level) id = (net, k, level') ∧
      net.Fitting level' := by
  unfold trimStep
  dsimp only
  split
  · exact ⟨level, rfl, h⟩
  · rename_i hdata
    -- a data operand is a multiplexer above none, or it has no level
    have hone (d : Lit) (hd : d ∈ (net.node id).muxData) : level.getD d.id 0 ≤ 1 := by
      rcases (h d.id).1 with hle | ⟨-, c, hcd, hm⟩
      · exact hle
      · rw [hsh id d hd c hcd] at hm
        cases hm
    have hmax := foldl_max_le (fun d : Lit => level.getD d.id 0) hone (Nat.zero_le 1)
    have hlevel : net.Level id
        (1 + (net.node id).muxData.foldl (fun m d => max m (level.getD d.id 0)) 0) := by
      by_cases hnone : ∀ d ∈ (net.node id).muxData, (net.node d.id).isMux = false
      · have hzero := foldl_max_le (b := 0) (fun d : Lit => level.getD d.id 0)
          (fun d hd => ((h d.id).2 (hnone d hd)).le) le_rfl
        exact .inl (by omega)
      · push Not at hnone
        obtain ⟨d, hd, hm⟩ := hnone
        exact .inr ⟨by omega, d, hd, by simpa using hm⟩
    rw [if_neg (by simp only [maxMuxChain]; omega)]
    refine ⟨_, rfl, fun i => ?_⟩
    by_cases hlt : id < level.size
    · rw [getD_set level hlt]
      split
      · rename_i he
        subst he
        refine ⟨hlevel, fun hm => absurd ?_ hdata⟩
        cases hn : net.node i <;> simp_all [Node.isMux, Node.muxData]
      · exact h i
    · rw [Array.setIfInBounds, dif_neg hlt]
      exact h i

theorem trimSteps_of_shallow (hsh : net.Shallow) (ids : List NodeId) {level : Array Nat}
    (h : net.Fitting level) (k : Nat) :
    ∃ level', ids.foldl trimStep (net, k, level) = (net, k, level') := by
  induction ids generalizing level with
  | nil => exact ⟨level, rfl⟩
  | cons id rest ih =>
    obtain ⟨level', he, h'⟩ := trimStep_of_shallow hsh h k id
    rw [List.foldl_cons, he]
    exact ih h'

theorem trimChains_of_shallow (hsh : net.Shallow) (k : Nat) : net.trimChains k = (net, k) := by
  have hzero := getD_replicate net.size 0
  have hfitting : net.Fitting (Array.replicate net.size 0) := fun i =>
    ⟨.inl (by rw [hzero]; exact Nat.zero_le 1), fun _ => hzero i⟩
  obtain ⟨level', he⟩ := trimSteps_of_shallow hsh net.upOrder hfitting k
  rw [trimChains_eq, he]

/-- Where the report is clean there is nothing to demote. -/
theorem legalize_of_isClean (hc : net.Canonical) (h : net.checkMuxes.isClean = true) :
    net.legalize = (net, 0) := by
  obtain ⟨hs, hsh⟩ := legal_of_isClean hc h
  rw [legalize, settle_of_settled hs]
  exact trimChains_of_shallow hsh 0

theorem Demoted.simulate (h : Demoted net net') (hc : net.Canonical) (source : NodeId → UInt64) :
    ∃ values, net.simulate source = .ok values ∧ net'.simulate source = .ok values := by
  obtain ⟨values, hs, hsize, hv⟩ := simulate_canonical hc source
  obtain ⟨values', hs', hsize', hv'⟩ := simulate_canonical (h.canonical hc) source
  have hval : net.IsValuation source fun id => values'.getD id 0 := fun id hid => by
    rw [hv' id (h.size ▸ hid), h.wordOf]
  have hsame : values' = values := by
    refine Array.ext (by rw [hsize, hsize', h.size]) fun i hi' hi => ?_
    have := hval.unique hc hv i (hsize ▸ hi)
    simpa [Array.getD_eq_getD_getElem?, hi, hi'] using this
  exact ⟨values, hs, hsame ▸ hs'⟩

/-- A node that demotion changed was a multiplexer and is the LUT over the same operands. -/
theorem Demoted.cases (h : Demoted net net') (id : NodeId) : net'.node id = net.node id ∨
    ∃ s t e, net.node id = .mux s t e ∧ net'.node id = .lut6 [s, t, e] muxTable := by
  rcases h.node id with hn | hn
  · exact .inl hn
  · cases hm : (net.node id).isMux with
    | false => exact .inl (hn.trans (Node.demoted_of_not_isMux hm))
    | true =>
      cases hnode : net.node id with
      | mux s t e => exact .inr ⟨s, t, e, rfl, by rw [hn, hnode]; rfl⟩
      | _ => rw [hnode] at hm; cases hm

/-- Legalizing a canonical network ends, after passes of which only the last demotes nothing. It turns
multiplexers into LUTs over the same operands and leaves the other nodes and every word of a
simulation as they were. Afterwards no rule is broken. The number returned is how many multiplexers
went and how many LUTs came; it is zero, and the network as before, exactly if the report was clean. -/
theorem legalize_exact (hc : net.Canonical) : ∃ net' k,
    Mapping.demoteMuxes net = .ok (net', k) ∧
    (∃ r, Passes net 0 r ∧ r.1.trimChains r.2 = (net', k)) ∧
    net'.size = net.size ∧
    (∀ id, net'.node id = net.node id ∨
      ∃ s t e, net.node id = .mux s t e ∧ net'.node id = .lut6 [s, t, e] muxTable) ∧
    (∀ source, ∃ values, net.simulate source = .ok values ∧ net'.simulate source = .ok values) ∧
    (net'.checkMuxes.chain = 0 ∧ net'.checkMuxes.fanout = 0 ∧ net'.checkMuxes.inverter = 0 ∧
      net'.checkMuxes.input = 0) ∧
    net'.countMux + k = net.countMux ∧ net'.countLut6 = net.countLut6 + k ∧
    (net.checkMuxes.isClean = true ↔ k = 0) ∧ (k = 0 ↔ net' = net) := by
  obtain ⟨hd, hmux, hlut⟩ := tallied_legalize hc
  obtain ⟨-, hs, hsh⟩ := legalize_spec hc
  have hclean := isClean_checkMuxes hs hsh
  have hsame : net.legalize.2 = 0 ↔ net.legalize.1 = net := by
    refine ⟨fun h0 => hd.countMux_le.2 (by omega), fun he => ?_⟩
    rw [he] at hmux
    omega
  refine ⟨net.legalize.1, net.legalize.2, rfl, ⟨net.settle 0, passes_settle hc 0, rfl⟩, hd.size,
    hd.cases, fun source => hd.simulate hc source, isClean_iff.1 hclean, hmux, hlut, ⟨fun h => ?_,
    fun h0 => ?_⟩, hsame⟩
  · rw [legalize_of_isClean hc h]
  · rwa [hsame.1 h0] at hclean

/-- Multiplexers 6, 7 and 8 are a chain of three, 6 has another consumer, and 9 has an input as its
data. -/
def stacked : Network :=
  ⟨#[.const, .pi, .pi, .pi, .lut6 [.ofNode 1] (Table.proj 0), .lut6 [.ofNode 2] (Table.proj 0),
    .mux (.ofNode 3) (.ofNode 4) (.ofNode 5), .mux (.ofNode 1) (.ofNode 6) (.ofNode 4),
    .mux (.ofNode 2) (.ofNode 7) (.ofNode 5), .mux (.ofNode 1) ⟨8, true⟩ (.ofNode 2),
    .po (.ofNode 9), .po (.ofNode 6)]⟩

theorem legalize_exact_stacked : stacked.checkMuxes = ⟨4, 2, 1, 1, 1⟩ ∧ ∃ net' k,
    Mapping.demoteMuxes stacked = .ok (net', k) ∧ k ≠ 0 ∧ net'.countMux + k = 4 ∧
      net'.checkMuxes.chain = 0 := by
  have hcanonical : stacked.Canonical := isCanonical_iff.1 (by decide)
  have hreport : stacked.checkMuxes = ⟨4, 2, 1, 1, 1⟩ := by decide +kernel
  obtain ⟨net', k, h, -, -, -, -, ⟨hchain, -⟩, hcount, -, hclean, -⟩ := legalize_exact hcanonical
  refine ⟨hreport, net', k, h, fun h0 => ?_, hcount, hchain⟩
  have := hclean.2 h0
  rw [hreport] at this
  cases this

end TechMap.Network
