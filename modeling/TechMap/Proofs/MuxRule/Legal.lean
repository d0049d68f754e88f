import Mathlib
import TechMap.Proofs.MuxRule.Demotion
import TechMap.Proofs.Network.Fanout

/-! Legalization. A settling pass that changes nothing has found no broken rule, demotion breaks none
again, and trimming leaves no chain of three. A network that obeys the rules has a clean report, and
a compaction of it obeys them too. -/

namespace TechMap.Network

variable {net net' : Network} {id : NodeId}

/-- The rules for single data operands of multiplexers. -/
structure Settled (net : Network) : Prop where
  input : ∀ id, ∀ l ∈ (net.node id).muxData, (net.node l.id).isMapped = true
  inverter : ∀ id, ∀ l ∈ (net.node id).muxData, (net.node l.id).isMux = true → l.sign = false
  fanout : ∀ id, ∀ l ∈ (net.node id).muxData, (net.node l.id).isMux = true →
    net.fanoutCounts.getD l.id 0 ≤ 1

/-- No chain of three multiplexers. -/
def Shallow (net : Network) : Prop := ∀ id, ∀ b ∈ (net.node id).muxData,
  ∀ c ∈ (net.node b.id).muxData, (net.node c.id).isMux = false

theorem isMux_of_muxData {n : Node} {l : Lit} (h : l ∈ n.muxData) : n.isMux = true := by
  cases n <;> simp_all [Node.muxData, Node.isMux]

theorem mem_operands_of_muxData {n : Node} {l : Lit} (h : l ∈ n.muxData) : l ∈ n.operands := by
  cases n <;> simp_all [Node.muxData, Node.operands]

theorem muxData_ne_nil {n : Node} (h : n.isMux = true) : n.muxData ≠ [] := by
  cases n <;> simp_all [Node.muxData, Node.isMux]

namespace Demoted

theorem fanoutCounts (h : Demoted net net') : net'.fanoutCounts = net.fanoutCounts := by
  have hnodes (net : Network) : net.fanoutCounts = ((List.range net.size).map fun id =>
      (net.node id).operands).foldl (fun counts ops => ops.foldl (fun counts l =>
        counts.modify l.id (· + 1)) counts) (Array.replicate net.size 0) := by
    unfold Network.fanoutCounts
    rw [← Array.foldl_toList, toList_nodes, List.foldl_map, List.foldl_map]
  rw [hnodes, hnodes, h.size]
  simp only [h.operands]

theorem muxData (h : Demoted net net') {l : Lit} (hl : l ∈ (net'.node id).muxData) :
    l ∈ (net.node id).muxData := by
  rwa [h.isMux (isMux_of_muxData hl)] at hl

theorem isMux_imp (h : Demoted net net') (hm : (net'.node id).isMux = true) :
    (net.node id).isMux = true := h.isMux hm ▸ hm

theorem upOrder (h : Demoted net net') : net'.upOrder = net.upOrder := by
  rw [Network.upOrder, Network.upOrder, ids, ids, h.size, funext h.isLive]

theorem settled (h : Demoted net net') (hs : net.Settled) : net'.Settled where
  input i l hl := by
    have := hs.input i l (h.muxData hl)
    rcases h.node l.id with hn | hn <;> rw [hn]
    · exact this
    · cases hnl : net.node l.id <;> simp_all [Node.isMapped, Node.demoted]
  inverter i l hl hm := hs.inverter i l (h.muxData hl) (h.isMux_imp hm)
  fanout i l hl hm := by
    rw [h.fanoutCounts]
    exact hs.fanout i l (h.muxData hl) (h.isMux_imp hm)

theorem antisymm (h : Demoted net net') (h' : Demoted net' net) : net' = net :=
  h.countMux_le.2 (Nat.le_antisymm h.countMux_le.1 h'.countMux_le.1)

end Demoted

theorem demote_ne (h : (net.node id).isMux = true) : net.demote id ≠ net := by
  intro he
  have hlt : id < net.size := lt_size_of_isLive <| by
    cases hn : net.node id <;> simp_all [isLive, Node.isRemoved, Node.isMux]
  have := congrArg (fun n => (n.node id).isMux) he
  simp only [demote_eq, node_set_self hlt, Node.isMux_demoted, h] at this
  cases this

theorem demoted_settleData (fanouts : Array Nat) (id : NodeId) (data : List Lit)
    (s : Network × Nat) : Demoted s.1 (settleData fanouts id data s).1 := by
  induction data generalizing s with
  | nil => exact .refl _
  | cons l rest ih =>
    obtain ⟨net, demoted⟩ := s
    rw [settleData]
    split
    · split
      · exact (demoted_demote net l.id).trans (ih (net.demote l.id, demoted + 1))
      · exact ih _
    · exact ih _
    · exact demoted_demote net id

/-- Data operands that cause no demotion obey the rules. -/
theorem settleData_same {fanouts : Array Nat} {data : List Lit} {demoted : Nat}
    (hid : (net.node id).isMux = true)
    (h : (settleData fanouts id data (net, demoted)).1 = net) : ∀ l ∈ data,
      (net.node l.id).isMapped = true ∧ ((net.node l.id).isMux = true →
        l.sign = false ∧ fanouts.getD l.id 0 ≤ 1) := by
  induction data generalizing demoted with
  | nil => simp
  | cons l rest ih =>
    intro x hx
    rw [settleData] at h
    split at h
    · rename_i s t e hn
      split at h
      · -- the operand was demoted, and nothing turns it back
        have hd := demoted_settleData fanouts id rest (net.demote l.id, demoted + 1)
        rw [h] at hd
        exact absurd (Demoted.antisymm (demoted_demote net l.id) hd) (demote_ne (by rw [hn]; rfl))
      · rename_i hc
        rcases List.mem_cons.1 hx with rfl | hx
        · simp only [Bool.or_eq_true, decide_eq_true_eq, not_or, Bool.not_eq_true, Nat.not_lt] at hc
          exact ⟨by rw [hn]; rfl, fun _ => hc⟩
        · exact ih h x hx
    · rename_i inputs table hn
      rcases List.mem_cons.1 hx with rfl | hx
      · exact ⟨by rw [hn]; rfl, fun hm => by rw [hn] at hm; cases hm⟩
      · exact ih h x hx
    · exact absurd h (demote_ne hid)

theorem demoted_settleAll (fanouts : Array Nat) (ids : List NodeId) (s : Network × Nat) :
    Demoted s.1
      (ids.foldl (fun s id => settleData fanouts id (s.1.node id).muxData s) s).1 := by
  induction ids generalizing s with
  | nil => exact .refl _
  | cons id rest ih => exact (demoted_settleData fanouts id _ s).trans (ih _)

theorem demoted_settlePass (net : Network) (demoted : Nat) :
    Demoted net (net.settlePass demoted).1 := demoted_settleAll _ _ (net, demoted)

theorem settleAll_same {fanouts : Array Nat} {ids : List NodeId} {demoted : Nat}
    (h : (ids.foldl (fun s id => settleData fanouts id (s.1.node id).muxData s)
      (net, demoted)).1 = net) : ∀ id ∈ ids, ∀ l ∈ (net.node id).muxData,
      (net.node l.id).isMapped = true ∧ ((net.node l.id).isMux = true →
        l.sign = false ∧ fanouts.getD l.id 0 ≤ 1) := by
  induction ids generalizing demoted with
  | nil => simp
  | cons id rest ih =>
    have hfirst := demoted_settleData fanouts id (net.node id).muxData (net, demoted)
    have hrest := demoted_settleAll fanouts rest
      (settleData fanouts id (net.node id).muxData (net, demoted))
    rw [List.foldl_cons] at h
    rw [h] at hrest
    have hsame := Demoted.antisymm hfirst hrest
    intro i hi
    rcases List.mem_cons.1 hi with rfl | hi
    · exact fun l hl => settleData_same (isMux_of_muxData hl) hsame l hl
    · have hpair : (net, (settleData fanouts id (net.node id).muxData (net, demoted)).2) =
          settleData fanouts id (net.node id).muxData (net, demoted) := Prod.ext hsame.symm rfl
      rw [← hpair] at h
      exact ih h i hi

theorem settled_of_settlePass_same {demoted : Nat} (h : (net.settlePass demoted).1 = net) :
    net.Settled := by
  have key (i : NodeId) (l : Lit) (hl : l ∈ (net.node i).muxData) :=
    settleAll_same h i (mem_ids.2 (lt_size_of_isLive
      (isLive_of_operand (mem_operands_of_muxData hl)))) l hl
  exact ⟨fun i l hl => (key i l hl).1, fun i l hl hm => ((key i l hl).2 hm).1,
    fun i l hl hm => ((key i l hl).2 hm).2⟩

theorem settle_spec (net : Network) (demoted : Nat) :
    Demoted net (net.settle demoted).1 ∧ (net.settle demoted).1.Settled := by
  induction net, demoted using settle.induct with
  | case1 net demoted next hlt ih =>
    rw [settle, if_pos hlt]
    exact ⟨(demoted_settlePass net demoted).trans ih.1, ih.2⟩
  | case2 net demoted next hge =>
    have hd := demoted_settlePass net demoted
    have hsame : (net.settlePass demoted).1 = net :=
      hd.countMux_le.2 (Nat.le_antisymm hd.countMux_le.1 (Nat.le_of_not_lt hge))
    rw [settle, if_neg hge]
    exact ⟨hd, by rw [hsame]; exact settled_of_settlePass_same hsame⟩

theorem isLive_of_isMux (h : (net.node id).isMux = true) : net.isLive id = true := by
  cases hn : net.node id <;> simp_all [isLive, Node.isRemoved, Node.isMux]

theorem le_foldl_max {β : Type} (f : β → Nat) (l : List β) (init : Nat) :
    init ≤ l.foldl (fun m x => max m (f x)) init ∧
      ∀ x ∈ l, f x ≤ l.foldl (fun m x => max m (f x)) init := by
  induction l generalizing init with
  | nil => simp
  | cons y l ih =>
    obtain ⟨h1, h2⟩ := ih (max init (f y))
    rw [List.foldl_cons]
    refine ⟨(le_max_left _ _).trans h1, fun x hx => ?_⟩
    rcases List.mem_cons.1 hx with rfl | hx
    · exact (le_max_right _ _).trans h1
    · exact h2 x hx

/-- A pass has left behind what is not in `rest`. The levels of multiplexers there rise from one
through their data operands. -/
def Rising (net : Network) (rest : List NodeId) (level : Array Nat) : Prop :=
  ∀ i, i ∉ rest → (net.node i).isMux = true → 1 ≤ level.getD i 0 ∧
    ∀ d ∈ (net.node i).muxData, (net.node d.id).isMux = true →
      level.getD d.id 0 + 1 ≤ level.getD i 0

namespace Rising

variable {rest : List NodeId} {level : Array Nat}

theorem start (net : Network) (level : Array Nat) : net.Rising net.upOrder level := fun _ hi hm =>
  absurd (mem_upOrder.2 (isLive_of_isMux hm)) hi

theorem skip (h : net.Rising (id :: rest) level) (hnil : (net.node id).muxData = []) :
    net.Rising rest level := by
  intro i hi hm
  have he : i ≠ id := by
    rintro rfl
    exact muxData_ne_nil hm hnil
  exact h i (by simp [he, hi]) hm

/-- A level above those of the data operands, which are set before. -/
theorem set (hc : net.Canonical) (hsuf : id :: rest <:+ net.upOrder)
    (h : net.Rising (id :: rest) level) (hlt : id < level.size) {n : Nat} (hone : 1 ≤ n)
    (hdata : ∀ d ∈ (net.node id).muxData, (net.node d.id).isMux = true →
      level.getD d.id 0 + 1 ≤ n) : net.Rising rest (level.setIfInBounds id n) := by
  have hget := getD_set level hlt n 0
  intro i hi hm
  by_cases he : i = id
  · subst he
    rw [hget, if_pos rfl]
    refine ⟨hone, fun d hd hdm => ?_⟩
    rw [hget, if_neg (ne_of_lt (hc.lt i d (mem_operands_of_muxData hd)))]
    exact hdata d hd hdm
  · have hnot : i ∉ id :: rest := by simp [he, hi]
    have hbefore : i < id := lt_of_not_mem_suffix hsuf (isLive_of_isMux hm) hnot (by simp)
    obtain ⟨h1, h2⟩ := h i hnot hm
    rw [hget, if_neg he]
    refine ⟨h1, fun d hd hdm => ?_⟩
    rw [hget, if_neg (ne_of_lt ((hc.lt i d (mem_operands_of_muxData hd)).trans hbefore))]
    exact h2 d hd hdm

/-- A chain of three would end at level three. -/
theorem shallow (h : net.Rising [] level)
    (hlow : ∀ i, (net.node i).isMux = true → level.getD i 0 ≤ maxMuxChain) : net.Shallow := by
  intro a b hb c hcb
  by_contra hm
  rw [Bool.not_eq_false] at hm
  have hma := isMux_of_muxData hb
  have hmb := isMux_of_muxData hcb
  have h1 : 1 ≤ level.getD c.id 0 := (h c.id (by simp) hm).1
  have h2 : level.getD c.id 0 + 1 ≤ level.getD b.id 0 := (h b.id (by simp) hmb).2 c hcb hm
  have h3 : level.getD b.id 0 + 1 ≤ level.getD a 0 := (h a (by simp) hma).2 b hb hmb
  have h4 : level.getD a 0 ≤ 2 := hlow a hma
  omega

end Rising

/-- The levels of the multiplexers that trimming has passed. -/
structure Trimming (net : Network) (rest : List NodeId) (s : Network × Nat × Array Nat) : Prop where
  demoted : Demoted net s.1
  size : s.2.2.size = net.size
  low : ∀ i, s.2.2.getD i 0 ≤ maxMuxChain
  rising : s.1.Rising rest s.2.2

/-- One node of trimming. -/
def trimStep (s : Network × Nat × Array Nat) (id : NodeId) : Network × Nat × Array Nat :=
  match (s.1.node id).muxData with
  | [] => s
  | data =>
    let l := 1 + data.foldl (fun l d => max l (s.2.2.getD d.id 0)) 0
    if maxMuxChain < l then (s.1.demote id, s.2.1 + 1, s.2.2)
    else (s.1, s.2.1, s.2.2.setIfInBounds id l)

theorem trimChains_eq (net : Network) (demoted : Nat) : net.trimChains demoted =
    (fun s : Network × Nat × Array Nat => (s.1, s.2.1))
      (net.upOrder.foldl trimStep (net, demoted, Array.replicate net.size 0)) := rfl

/-- A demoted multiplexer needs no level, and those it was below are still to come. -/
theorem Rising.demote {rest : List NodeId} {level : Array Nat} (hlt : id < net.size)
    (h : net.Rising (id :: rest) level) : (net.demote id).Rising rest level := by
  have hd := demoted_demote net id
  intro i hi hm
  have he : i ≠ id := by
    rintro rfl
    rw [demote_eq, node_set_self hlt, Node.isMux_demoted] at hm
    cases hm
  obtain ⟨h1, h2⟩ := h i (by simp [he, hi]) (hd.isMux_imp hm)
  exact ⟨h1, fun d hdata hdm => h2 d (hd.muxData hdata) (hd.isMux_imp hdm)⟩

theorem Trimming.step (hc : net.Canonical) {rest : List NodeId}
    (hsuf : id :: rest <:+ net.upOrder) {s : Network × Nat × Array Nat}
    (h : Trimming net (id :: rest) s) : Trimming net rest (trimStep s id) := by
  obtain ⟨net₁, k, level⟩ := s
  have hlive : net.isLive id = true := mem_upOrder.1 (hsuf.subset (by simp))
  have hlt : id < level.size := lt_of_lt_of_eq (lt_size_of_isLive hlive) h.size.symm
  unfold trimStep
  dsimp only
  split
  · rename_i hnil
    exact { h with rising := h.rising.skip hnil }
  · have hfold := (le_foldl_max (fun d : Lit => level.getD d.id 0) (net₁.node id).muxData 0).2
    generalize (net₁.node id).muxData.foldl (fun l d => max l (level.getD d.id 0)) 0 = top at hfold ⊢
    split
    · have hlt₁ : id < net₁.size := lt_of_lt_of_eq hlt (h.size.trans h.demoted.size.symm)
      exact ⟨h.demoted.trans (demoted_demote net₁ id), h.size, h.low, h.rising.demote hlt₁⟩
    · rename_i hle
      refine ⟨h.demoted, by simpa using h.size, fun i => ?_, ?_⟩
      · rw [getD_set level hlt]
        split
        · exact Nat.le_of_not_lt hle
        · exact h.low i
      · refine h.rising.set (h.demoted.canonical hc) (h.demoted.upOrder ▸ hsuf) hlt (by omega)
          fun d hd _ => ?_
        have : level.getD d.id 0 ≤ top := hfold d hd
        show level.getD d.id 0 + 1 ≤ 1 + top
        omega

theorem trimming_foldl (hc : net.Canonical) (ids : List NodeId) (hsuf : ids <:+ net.upOrder)
    {s : Network × Nat × Array Nat} (h : Trimming net ids s) :
    Trimming net [] (ids.foldl trimStep s) := by
  induction ids generalizing s with
  | nil => exact h
  | cons id rest ih => exact ih ((List.suffix_cons id rest).trans hsuf) (h.step hc hsuf)

/-- Trimming leaves no chain of three. -/
theorem trimChains_spec (hc : net.Canonical) (demoted : Nat) :
    Demoted net (net.trimChains demoted).1 ∧ (net.trimChains demoted).1.Shallow := by
  have h := trimming_foldl hc net.upOrder (List.suffix_refl _)
    (s := (net, demoted, Array.replicate net.size 0))
    ⟨.refl net, by simp, fun i => by rw [getD_replicate]; exact Nat.zero_le _, .start net _⟩
  rw [trimChains_eq]
  exact ⟨h.demoted, h.rising.shallow fun i _ => h.low i⟩

/-- Legalization only demotes, and all rules hold afterwards. -/
theorem legalize_spec (hc : net.Canonical) : Demoted net net.legalize.1 ∧
    net.legalize.1.Settled ∧ net.legalize.1.Shallow := by
  obtain ⟨h1, hs⟩ := settle_spec net 0
  obtain ⟨h2, hsh⟩ := trimChains_spec (h1.canonical hc) (net.settle 0).2
  exact ⟨h1.trans h2, h2.settled hs, hsh⟩

/-- Levels that fit a network without chains of three. -/
def Level (net : Network) (id : NodeId) (n : Nat) : Prop :=
  n ≤ 1 ∨ n ≤ 2 ∧ ∃ d ∈ (net.node id).muxData, (net.node d.id).isMux = true

/-- What checking has found: nothing, and levels of two only above a multiplexer. -/
structure Checked (net : Network) (s : MuxReport × Array Nat) : Prop where
  clean : s.1.isClean = true
  size : s.2.size = net.size
  level : ∀ i, net.Level i (s.2.getD i 0)

theorem isClean_iff {r : MuxReport} : r.isClean = true ↔
    r.chain = 0 ∧ r.fanout = 0 ∧ r.inverter = 0 ∧ r.input = 0 := by
  simp [MuxReport.isClean, and_assoc]

/-- What one data operand adds to the report, and the depth below it. -/
def checkData (net : Network) (fanouts level : Array Nat) (s : MuxReport × Nat) (d : Lit) :
    MuxReport × Nat :=
  match net.node d.id with
  | .mux .. =>
    ({ s.1 with
        inverter := s.1.inverter + d.sign.toNat
        fanout := s.1.fanout + (decide (1 < fanouts.getD d.id 0)).toNat },
      max s.2 (level.getD d.id 0 + 1))
  | .lut6 .. => s
  | _ => ({ s.1 with input := s.1.input + 1 }, s.2)

theorem checkMux_eq (fanouts : Array Nat) (s : MuxReport × Array Nat) (id : NodeId) :
    net.checkMux fanouts s id = match (net.node id).muxData with
      | [] => s
      | data =>
        let r := data.foldl (net.checkData fanouts s.2) ({ s.1 with total := s.1.total + 1 }, 1)
        ({ r.1 with chain := r.1.chain + (decide (maxMuxChain < r.2)).toNat },
          s.2.setIfInBounds id r.2) := rfl

theorem checkData_clean (hs : net.Settled) (hsh : net.Shallow) {level : Array Nat}
    (hl : ∀ i, net.Level i (level.getD i 0)) {d : Lit} (hd : d ∈ (net.node id).muxData)
    {s : MuxReport × Nat} (hr : s.1.isClean = true) (hn : net.Level id s.2) :
    (net.checkData net.fanoutCounts level s d).1.isClean = true ∧
      net.Level id (net.checkData net.fanoutCounts level s d).2 := by
  have hin := hs.input id d hd
  unfold checkData
  split
  · rename_i hnode
    have hm : (net.node d.id).isMux = true := by rw [hnode]; rfl
    have hfan : decide (1 < net.fanoutCounts.getD d.id 0) = false :=
      decide_eq_false (Nat.not_lt.2 (hs.fanout id d hd hm))
    have hlow : level.getD d.id 0 ≤ 1 := by
      rcases hl d.id with h | ⟨-, c, hc, hcm⟩
      · exact h
      · rw [hsh id d hd c hc] at hcm; cases hcm
    rw [isClean_iff] at hr ⊢
    obtain ⟨h1, h2, h3, h4⟩ := hr
    have hsign := hs.inverter id d hd hm
    refine ⟨⟨h1, ?_, ?_, h4⟩, .inr ⟨?_, d, hd, hm⟩⟩
    · rw [hfan, h2]; rfl
    · rw [hsign, h3]; rfl
    · rcases hn with hn | hn <;> dsimp only <;> omega
  · exact ⟨hr, hn⟩
  · rename_i hm hl
    cases hnd : net.node d.id with
    | mux s t e => exact absurd hnd (hm s t e)
    | lut6 inputs table => exact absurd hnd (hl inputs table)
    | _ => rw [hnd] at hin; cases hin

/-- The data operands add nothing to the report. -/
theorem foldl_checkData_clean (hs : net.Settled) (hsh : net.Shallow) {level : Array Nat}
    (hl : ∀ i, net.Level i (level.getD i 0)) {data : List Lit}
    (hsub : ∀ d ∈ data, d ∈ (net.node id).muxData) {s : MuxReport × Nat}
    (hr : s.1.isClean = true) (hn : net.Level id s.2) :
    (data.foldl (net.checkData net.fanoutCounts level) s).1.isClean = true ∧
      net.Level id (data.foldl (net.checkData net.fanoutCounts level) s).2 := by
  induction data generalizing s with
  | nil => exact ⟨hr, hn⟩
  | cons d rest ih =>
    obtain ⟨hd, hrest⟩ := List.forall_mem_cons.1 hsub
    obtain ⟨hr', hn'⟩ := checkData_clean hs hsh hl hd hr hn
    exact ih hrest hr' hn'

theorem Checked.step (hs : net.Settled) (hsh : net.Shallow) {s : MuxReport × Array Nat}
    (h : Checked net s) (hlt : id < net.size) :
    Checked net (net.checkMux net.fanoutCounts s id) := by
  rw [checkMux_eq]
  split
  · exact h
  · obtain ⟨hr, hn⟩ := foldl_checkData_clean hs hsh h.level (fun _ hd => hd)
      (s := ({ s.1 with total := s.1.total + 1 }, 1)) h.clean (.inl (Nat.le_refl 1))
    refine ⟨?_, by simpa using h.size, fun i => ?_⟩
    · have hle := decide_eq_false (p := maxMuxChain < _) <| Nat.not_lt.2 <|
        show _ ≤ maxMuxChain from hn.elim (fun h => h.trans (by decide)) (fun h => h.1)
      rw [isClean_iff] at hr ⊢
      dsimp only
      rw [hle]
      exact hr
    · rw [getD_set s.2 (by rw [h.size]; exact hlt)]
      split
      · rename_i hi; subst hi; exact hn
      · exact h.level i

theorem Checked.foldl (hs : net.Settled) (hsh : net.Shallow) {ids : List NodeId}
    (hids : ∀ i ∈ ids, i < net.size) {s : MuxReport × Array Nat} (h : Checked net s) :
    Checked net (ids.foldl (net.checkMux net.fanoutCounts) s) := by
  induction ids generalizing s with
  | nil => exact h
  | cons i rest ih =>
    obtain ⟨hi, hrest⟩ := List.forall_mem_cons.1 hids
    exact ih hrest (h.step hs hsh hi)

theorem isClean_checkMuxes (hs : net.Settled) (hsh : net.Shallow) :
    net.checkMuxes.isClean = true := by
  have hstart : Checked net (⟨0, 0, 0, 0, 0⟩, Array.replicate net.size 0) :=
    ⟨rfl, by simp, fun i => .inl (by rw [getD_replicate]; exact Nat.zero_le 1)⟩
  exact (hstart.foldl hs hsh fun i hi => lt_size_of_isLive (mem_upOrder.1 hi)).clean

namespace Renumbered

variable {c : Compaction}

/-- A data operand in the new network comes from one in the old. -/
theorem exists_muxData (h : Renumbered net net' c) {i : NodeId} {l : Lit}
    (hl : l ∈ (net'.node i).muxData) : ∃ id, c.get id = some i ∧
      ∃ l₀ ∈ (net.node id).muxData, c.get l₀.id = some l.id ∧ l.sign = l₀.sign := by
  have hlive := isLive_of_operand (mem_operands_of_muxData hl)
  obtain ⟨id, hid⟩ := h.surj i (lt_size_of_isLive hlive)
  rw [h.node id i hid] at hl
  cases hn : net.node id <;> rw [hn] at hl <;> simp only [Node.mapLits, Node.muxData] at hl
  case mux s t e =>
    have hget (l₀ : Lit) (hm : l₀ ∈ (net.node id).operands) := h.get_operand hid hm
    simp only [hn, Node.operands, List.mem_cons, List.not_mem_nil, or_false, forall_eq_or_imp,
      forall_eq] at hget hl
    refine ⟨id, hid, ?_⟩
    rw [hn]
    rcases hl with rfl | rfl
    · exact ⟨t, by simp [Node.muxData], hget.2.1, rfl⟩
    · exact ⟨e, by simp [Node.muxData], hget.2.2, rfl⟩
  all_goals cases hl

theorem isMux (h : Renumbered net net' c) {id i : NodeId} (hi : c.get id = some i) :
    (net'.node i).isMux = (net.node id).isMux := by
  rw [h.node id i hi]
  cases net.node id <;> rfl

theorem isMapped (h : Renumbered net net' c) {id i : NodeId} (hi : c.get id = some i) :
    (net'.node i).isMapped = (net.node id).isMapped := by
  rw [h.node id i hi]
  cases net.node id <;> rfl

theorem settled (h : Renumbered net net' c) (hs : net.Settled) : net'.Settled where
  input i l hl := by
    obtain ⟨id, -, l₀, hl₀, hget, -⟩ := h.exists_muxData hl
    rw [h.isMapped hget]
    exact hs.input id l₀ hl₀
  inverter i l hl hm := by
    obtain ⟨id, -, l₀, hl₀, hget, hsign⟩ := h.exists_muxData hl
    rw [hsign]
    exact hs.inverter id l₀ hl₀ (h.isMux hget ▸ hm)
  fanout i l hl hm := by
    obtain ⟨id, -, l₀, hl₀, hget, -⟩ := h.exists_muxData hl
    exact (h.fanout_le hget).trans (hs.fanout id l₀ hl₀ (h.isMux hget ▸ hm))

theorem shallow (h : Renumbered net net' c) (hs : net.Shallow) : net'.Shallow := by
  intro i b hb d hd
  obtain ⟨id, -, b₀, hb₀, hgb, -⟩ := h.exists_muxData hb
  obtain ⟨id', hid', d₀, hd₀, hgd, -⟩ := h.exists_muxData hd
  obtain rfl : id' = b₀.id := h.inj _ _ _ hid' hgb
  rw [h.isMux hgd]
  exact hs id b₀ hb₀ d₀ hd₀

end Renumbered

end TechMap.Network
