import Mathlib
import TechMap.Equivalence
import TechMap.Proofs.Network.Valuation
import TechMap.Proofs.Table.Value

/-! What the random check of two networks decides. Each round draws a word for every source of the
given network but node 0, and the other network gets the same words through the remap. So the check
passes iff the sinks agree on every assignment that is drawn, and an error is a difference on one of
them. -/

namespace TechMap

open TechMap.Random

/- Assignments. -/

/-- The sources that words are drawn for. -/
def Network.drawn (net : Network) : List NodeId :=
  net.ids.filter fun id => (net.node id).isSource && id ≠ NodeId.constant

section Draws

variable {γ : Type} [Generator γ]

/-- One word for each node, in their order; all other nodes get zero. -/
def drawWords : List NodeId → BitSource γ → (NodeId → UInt64) × BitSource γ
  | [], rng => (fun _ => 0, rng)
  | id :: ids, rng =>
    let (words, next) := drawWords ids rng.next64.2
    (Function.update words id rng.next64.1, next)

/-- The assignments that are drawn one after the other. -/
def assignments (ids : List NodeId) : Nat → BitSource γ → List (NodeId → UInt64)
  | 0, _ => []
  | n + 1, rng => (drawWords ids rng).1 :: assignments ids n (drawWords ids rng).2

theorem drawWords_of_notMem {ids : List NodeId} {id : NodeId} (h : id ∉ ids) (rng : BitSource γ) :
    (drawWords ids rng).1 id = 0 := by
  induction ids generalizing rng with
  | nil => rfl
  | cons i ids ih =>
    rw [List.mem_cons, not_or] at h
    exact (Function.update_of_ne h.1 _ _).trans (ih h.2 _)

end Draws

variable {net mapped : Network} {remap : Remap} {w w' w'' : NodeId → UInt64}
  {given found given' found' : Array UInt64}

/-- The remap sends the sources to different sources, constants to constants, and loses no sink. -/
structure Links (net mapped : Network) (remap : Remap) : Prop where
  source : ∀ s ∈ net.drawn, ∃ l, remap.get s = some l ∧ (mapped.node l.id).isSource = true ∧
    (net.node s = .const ↔ mapped.node l.id = .const)
  distinct : ∀ s ∈ net.drawn, ∀ s' ∈ net.drawn, ∀ l l', remap.get s = some l →
    remap.get s' = some l' → l.id = l'.id → s = s'
  sink : ∀ s ∈ net.sinks, ∃ l, remap.get s = some l ∧ l.id < mapped.size

/-- The second assignment has the words of the first through the remap, and zero elsewhere. -/
structure Carries (net : Network) (remap : Remap) (w w' : NodeId → UInt64) : Prop where
  hit : ∀ s ∈ net.drawn, ∀ l, remap.get s = some l → readLit w' l = w s
  rest : ∀ j, (∀ s ∈ net.drawn, ∀ l, remap.get s = some l → l.id ≠ j) → w' j = 0

/-- The words of both networks for one assignment to the first. -/
structure Simulated (net mapped : Network) (remap : Remap) (w : NodeId → UInt64)
    (given found : Array UInt64) : Prop where
  given : net.simulate w = .ok given
  found : ∃ w', Carries net remap w w' ∧ mapped.simulate w' = .ok found

/-- Every sink has the word of its signal in the other network. -/
def SinksAgree (net : Network) (remap : Remap) (given found : Array UInt64) : Prop :=
  ∀ s ∈ net.sinks, ∀ l, remap.get s = some l → given.getD s 0 = litValue found l

/-- The networks agree on an assignment. -/
def AgreeOn (net mapped : Network) (remap : Remap) (w : NodeId → UInt64) : Prop :=
  ∃ given found, Simulated net mapped remap w given found ∧ SinksAgree net remap given found

theorem Lit.apply_apply (l : Lit) (x : UInt64) : l.apply (l.apply x) = x := by
  cases h : l.sign <;> simp [Lit.apply, h]

theorem Carries.unique (h : Carries net remap w w') (h' : Carries net remap w w'') : w' = w'' := by
  funext j
  by_cases hj : ∀ s ∈ net.drawn, ∀ l, remap.get s = some l → l.id ≠ j
  · rw [h.rest j hj, h'.rest j hj]
  · push Not at hj
    obtain ⟨s, hs, l, hl, rfl⟩ := hj
    have he : l.apply (w' l.id) = l.apply (w'' l.id) :=
      (h.hit s hs l hl).trans (h'.hit s hs l hl).symm
    rw [← l.apply_apply (w' l.id), he, l.apply_apply]

namespace Simulated

theorem unique (h : Simulated net mapped remap w given found)
    (h' : Simulated net mapped remap w given' found') : given = given' ∧ found = found' := by
  obtain ⟨w', hw, hf⟩ := h.found
  obtain ⟨w'', hw', hf'⟩ := h'.found
  obtain rfl := hw.unique hw'
  exact ⟨by simpa [h.given] using h'.given, by simpa [hf] using hf'⟩

theorem agreeOn_iff (h : Simulated net mapped remap w given found) :
    AgreeOn net mapped remap w ↔ SinksAgree net remap given found := by
  constructor
  · rintro ⟨given', found', h', hagree⟩
    obtain ⟨rfl, rfl⟩ := h.unique h'
    exact hagree
  · exact fun hagree => ⟨given, found, h, hagree⟩

theorem size_found (h : Simulated net mapped remap w given found) : found.size = mapped.size := by
  obtain ⟨w', -, hf⟩ := h.found
  exact (Network.simulate_ok hf).2.1

/-- Both simulations start from the same words. -/
theorem source_word (hl : Links net mapped remap) (h : Simulated net mapped remap w given found)
    {s : NodeId} (hs : s ∈ net.drawn) (hk : net.node s ≠ .const) {l : Lit}
    (hget : remap.get s = some l) : given.getD s 0 = litValue found l := by
  obtain ⟨l', hget', hsource, hconst⟩ := hl.source s hs
  obtain rfl : l' = l := by simpa [hget'] using hget
  obtain ⟨w', hw, hf⟩ := h.found
  obtain ⟨-, -, hgiven⟩ := Network.simulate_ok h.given
  obtain ⟨-, -, hfound⟩ := Network.simulate_ok hf
  have hinput {n : Node} (hsrc : n.isSource = true) (hne : n ≠ .const) : n.isInput = true := by
    cases n <;> simp_all [Node.isSource, Node.isInput]
  have hdrawn := (List.mem_filter.1 hs).2
  simp only [Bool.and_eq_true] at hdrawn
  calc given.getD s 0 = w s := hgiven.of_isInput (hinput hdrawn.1 hk)
    _ = l'.apply (w' l'.id) := (hw.hit s hs l' hget').symm
    _ = litValue found l' := by
      rw [litValue, ← hfound.of_isInput (hinput hsource fun he => hk (hconst.2 he))]

end Simulated

/- The sinks. -/

theorem litValue?_eq_some {l : Lit} (h : l.id < found.size) :
    litValue? found l = some (litValue found l) := by
  simp [litValue?, litValue, h]

theorem compareSinks_cons {s : NodeId} {l : Lit} (hl : remap.get s = some l)
    (hlt : l.id < found.size) (ids : List NodeId) : compareSinks remap given found (s :: ids) =
      if given.getD s 0 = litValue found l then compareSinks remap given found ids
      else .error (.differs s l (given.getD s 0) (litValue found l)) := by
  simp only [compareSinks, hl, litValue?_eq_some hlt]

/-- The comparison passes or names a sink that differs. -/
theorem compareSinks_cases (given found : Array UInt64) {ids : List NodeId}
    (h : ∀ s ∈ ids, ∃ l, remap.get s = some l ∧ l.id < found.size) :
    (compareSinks remap given found ids = .ok () ∧
      ∀ s ∈ ids, ∀ l, remap.get s = some l → given.getD s 0 = litValue found l) ∨
    ∃ s ∈ ids, ∃ l, remap.get s = some l ∧ given.getD s 0 ≠ litValue found l ∧
      compareSinks remap given found ids =
        .error (.differs s l (given.getD s 0) (litValue found l)) := by
  induction ids with
  | nil => exact .inl ⟨rfl, by simp⟩
  | cons s ids ih =>
    obtain ⟨l, hl, hlt⟩ := h s List.mem_cons_self
    rw [compareSinks_cons hl hlt]
    by_cases he : given.getD s 0 = litValue found l
    · rw [if_pos he]
      rcases ih fun s hs => h s (List.mem_cons_of_mem _ hs) with ⟨hok, hall⟩ | ⟨s', hs', hdiff⟩
      · refine .inl ⟨hok, List.forall_mem_cons.2 ⟨fun l' hl' => ?_, hall⟩⟩
        obtain rfl : l = l' := by simpa [hl] using hl'
        exact he
      · exact .inr ⟨s', List.mem_cons_of_mem _ hs', hdiff⟩
    · rw [if_neg he]
      exact .inr ⟨s, List.mem_cons_self, l, hl, he, rfl⟩

/- The draws. -/

/-- What the draws for some sources do to the words of both sides. -/
structure Drawn (remap : Remap) (ids : List NodeId) (w : NodeId → UInt64) (s s' : Sample) :
    Prop where
  given : ∀ id, s'.given.getD id 0 = if id ∈ ids then w id else s.given.getD id 0
  hit : ∀ id ∈ ids, ∀ l, remap.get id = some l → s'.mapped.getD l.id 0 = l.apply (w id)
  rest : ∀ j, (∀ id ∈ ids, ∀ l, remap.get id = some l → l.id ≠ j) →
    s'.mapped.getD j 0 = s.mapped.getD j 0

namespace Drawn

variable {ids : List NodeId} {s s' : Sample}

theorem nil : Drawn remap [] w s s := ⟨fun id => by simp, by simp, fun j _ => rfl⟩

/-- The word for one more source, whose signal no later one overwrites. -/
theorem cons {id : NodeId} {l : Lit} {word : UInt64} (hid : id ∉ ids) (hl : remap.get id = some l)
    (hg : id < s.given.size) (hm : l.id < s.mapped.size)
    (hother : ∀ i ∈ ids, ∀ l', remap.get i = some l' → l'.id ≠ l.id)
    (h : Drawn remap ids w
      ⟨s.given.setIfInBounds id word, s.mapped.setIfInBounds l.id (l.apply word)⟩ s') :
    Drawn remap (id :: ids) (Function.update w id word) s s' := by
  have hupdate {i : NodeId} (hi : i ∈ ids) : Function.update w id word i = w i :=
    Function.update_of_ne (ne_of_mem_of_not_mem hi hid) _ _
  refine ⟨fun i => ?_, List.forall_mem_cons.2 ⟨fun l' hl' => ?_, fun i hi l' hl' => ?_⟩,
    fun j hj => ?_⟩
  · rw [h.given i, getD_set _ hg]
    by_cases hi : i = id
    · subst hi
      rw [if_neg hid, if_pos rfl, if_pos List.mem_cons_self, Function.update_self]
    · rw [Function.update_of_ne hi]
      simp only [hi, if_false, List.mem_cons, false_or]
  · obtain rfl : l = l' := by simpa [hl] using hl'
    rw [h.rest l.id hother, getD_set _ hm, if_pos rfl, Function.update_self]
  · rw [h.hit i hi l' hl', hupdate hi]
  · rw [List.forall_mem_cons] at hj
    rw [h.rest j hj.2, getD_set _ hm, if_neg (hj.1 l hl).symm]

/-- On top of zeros the other side gets the words through the remap. -/
theorem carries (h : Drawn remap net.drawn w s s') (hzero : ∀ j, s.mapped.getD j 0 = 0) :
    Carries net remap w fun j => s'.mapped.getD j 0 where
  hit i hi l hl := by rw [readLit, h.hit i hi l hl, l.apply_apply]
  rest j hj := (h.rest j hj).trans (hzero j)

end Drawn

theorem simulateSample_ok {words found : Array UInt64}
    (h : net.simulate (fun id => words.getD id 0) = .ok found) :
    simulateSample net words = .ok found := by
  rw [simulateSample, h]
  rfl

section Rounds

variable {γ : Type} [Generator γ]

theorem drawSample_filter (net : Network) (remap : Remap) (ids : List NodeId) (sample : Sample)
    (rng : BitSource γ) : drawSample net remap ids sample rng =
      drawSample net remap
        (ids.filter fun id => (net.node id).isSource && id ≠ NodeId.constant) sample rng := by
  induction ids generalizing sample rng with
  | nil => rfl
  | cons id ids ih =>
    rw [List.filter_cons]
    by_cases hp : ((net.node id).isSource && id ≠ NodeId.constant) = true
    · simp only [hp, if_true, drawSample]
      simp only [ih]
    · simp only [hp, Bool.false_eq_true, if_false, drawSample]
      exact ih sample rng

theorem drawSample_drawn (h : Links net mapped remap) {ids : List NodeId}
    (hsub : ∀ id ∈ ids, id ∈ net.drawn) (hnodup : ids.Nodup) (sample : Sample)
    (hg : sample.given.size = net.size) (hm : sample.mapped.size = mapped.size)
    (rng : BitSource γ) : ∃ sample',
      drawSample net remap ids sample rng = .ok (sample', (drawWords ids rng).2) ∧
        Drawn remap ids (drawWords ids rng).1 sample sample' := by
  induction ids generalizing sample rng with
  | nil => exact ⟨sample, rfl, .nil⟩
  | cons id ids ih =>
    obtain ⟨hid, hnodup⟩ := List.nodup_cons.1 hnodup
    obtain ⟨hmem, hsub⟩ := List.forall_mem_cons.1 hsub
    obtain ⟨l, hl, hsource, -⟩ := h.source id hmem
    have hlt : l.id < mapped.size :=
      Network.lt_size_of_isLive (Network.isLive_of_isSource hsource)
    obtain ⟨hids, hp⟩ := List.mem_filter.1 hmem
    have hother (i : NodeId) (hi : i ∈ ids) (l' : Lit) (hl' : remap.get i = some l') :
        l'.id ≠ l.id := fun he =>
      hid (h.distinct i (hsub i hi) id hmem l' l hl' hl he ▸ hi)
    obtain ⟨sample', hd, hdrawn⟩ := ih hsub hnodup
      ⟨sample.given.setIfInBounds id rng.next64.1,
        sample.mapped.setIfInBounds l.id (l.apply rng.next64.1)⟩
      (by simpa using hg) (by simpa using hm) rng.next64.2
    refine ⟨sample', ?_, hdrawn.cons hid hl (hg ▸ Network.mem_ids.1 hids) (hm ▸ hlt) hother⟩
    simp only [drawSample, hp, if_true, hl, hm, hlt]
    exact hd

/-- A round draws one assignment, simulates both networks and compares the sinks. -/
theorem checkEquivalence_succ (hc : net.Canonical) (hm : mapped.Canonical)
    (h : Links net mapped remap) (n : Nat) (rng : BitSource γ) :
    ∃ given found, Simulated net mapped remap (drawWords net.drawn rng).1 given found ∧
      checkEquivalence net mapped remap (n + 1) rng =
        (compareSinks remap given found net.sinks).bind fun _ =>
          checkEquivalence net mapped remap n (drawWords net.drawn rng).2 := by
  have hnodup : net.drawn.Nodup := List.nodup_range.filter _
  obtain ⟨sample, hdraw, hdrawn⟩ := drawSample_drawn h (fun id hid => hid) hnodup
    ⟨Array.replicate net.size 0, Array.replicate mapped.size 0⟩ (by simp) (by simp) rng
  have hgiven : (fun id => sample.given.getD id 0) = (drawWords net.drawn rng).1 := by
    funext id
    rw [hdrawn.given id]
    split
    · rfl
    · rename_i hid
      rw [drawWords_of_notMem hid, getD_replicate]
  obtain ⟨given, hg, -⟩ := Network.simulate_canonical hc fun id => sample.given.getD id 0
  obtain ⟨found, hf, -⟩ := Network.simulate_canonical hm fun id => sample.mapped.getD id 0
  refine ⟨given, found, ⟨hgiven ▸ hg, _, hdrawn.carries (getD_replicate _ 0), hf⟩, ?_⟩
  have hdraw : drawSample net remap net.ids
      ⟨Array.replicate net.size 0, Array.replicate mapped.size 0⟩ rng =
        .ok (sample, (drawWords net.drawn rng).2) := (drawSample_filter ..).trans hdraw
  rw [checkEquivalence, hdraw]
  simp only [bind, Except.bind, simulateSample_ok hg, simulateSample_ok hf]

/-- The check passes iff the networks agree on all that is drawn, and it fails at a difference. -/
theorem checkEquivalence_cases (hc : net.Canonical) (hm : mapped.Canonical)
    (h : Links net mapped remap) (n : Nat) (rng : BitSource γ) :
    ((∃ rng', checkEquivalence net mapped remap n rng = .ok rng') ∧
      ∀ w ∈ assignments net.drawn n rng, AgreeOn net mapped remap w) ∨
    ∃ w ∈ assignments net.drawn n rng, ∃ given found,
      Simulated net mapped remap w given found ∧ ∃ s ∈ net.sinks, ∃ l, remap.get s = some l ∧
        given.getD s 0 ≠ litValue found l ∧ checkEquivalence net mapped remap n rng =
          .error (.differs s l (given.getD s 0) (litValue found l)) := by
  induction n generalizing rng with
  | zero => exact .inl ⟨⟨rng, rfl⟩, by simp [assignments]⟩
  | succ n ih =>
    obtain ⟨given, found, hsim, hcheck⟩ := checkEquivalence_succ hc hm h n rng
    rw [hcheck, assignments]
    have hsinks : ∀ s ∈ net.sinks, ∃ l, remap.get s = some l ∧ l.id < found.size := by
      rw [hsim.size_found]
      exact h.sink
    rcases compareSinks_cases given found hsinks with ⟨hok, hagree⟩ | ⟨s, hs, l, hl, hne, he⟩
    · rw [hok]
      rcases ih (drawWords net.drawn rng).2 with ⟨hok, hall⟩ | ⟨w, hw, hdiff⟩
      · exact .inl ⟨hok, List.forall_mem_cons.2 ⟨hsim.agreeOn_iff.2 hagree, hall⟩⟩
      · exact .inr ⟨w, List.mem_cons_of_mem _ hw, hdiff⟩
    · rw [he]
      exact .inr ⟨_, List.mem_cons_self, given, found, hsim, s, hs, l, hl, hne, rfl⟩

/-- The check is exact on what it draws: sources start with the same words on both sides, it passes
iff the networks agree on every assignment drawn, and an error names a sink that differs on one of
them. -/
theorem checkEquivalence_exact (net mapped : Network) (remap : Remap)
    (hc : net.isCanonical = true) (hm : mapped.isCanonical = true) (h : Links net mapped remap)
    (n : Nat) (rng : BitSource γ) :
    (∀ w given found, Simulated net mapped remap w given found → ∀ s ∈ net.drawn,
      net.node s ≠ .const → ∀ l, remap.get s = some l → given.getD s 0 = litValue found l) ∧
    ((∃ rng', checkEquivalence net mapped remap n rng = .ok rng') ↔
      ∀ w ∈ assignments net.drawn n rng, AgreeOn net mapped remap w) ∧
    ((∀ w, AgreeOn net mapped remap w) →
      ∃ rng', checkEquivalence net mapped remap n rng = .ok rng') ∧
    ∀ e, checkEquivalence net mapped remap n rng = .error e →
      ∃ w ∈ assignments net.drawn n rng, ∃ given found, Simulated net mapped remap w given found ∧
        ∃ s ∈ net.sinks, ∃ l, remap.get s = some l ∧ given.getD s 0 ≠ litValue found l ∧
          e = .differs s l (given.getD s 0) (litValue found l) := by
  have hcases := checkEquivalence_cases (Network.isCanonical_iff.1 hc)
    (Network.isCanonical_iff.1 hm) h n rng
  have hiff : (∃ rng', checkEquivalence net mapped remap n rng = .ok rng') ↔
      ∀ w ∈ assignments net.drawn n rng, AgreeOn net mapped remap w := by
    rcases hcases with ⟨hok, hall⟩ | ⟨w, hw, given, found, hsim, s, hs, l, hl, hne, he⟩
    · exact iff_of_true hok hall
    · refine iff_of_false (fun ⟨rng', hok⟩ => ?_) fun hall => ?_
      · rw [he] at hok
        cases hok
      · exact hne (hsim.agreeOn_iff.1 (hall w hw) s hs l hl)
  refine ⟨fun w given found hsim s hs hk l hl => hsim.source_word h hs hk hl, hiff,
    fun hall => hiff.2 fun w _ => hall w, fun e he => ?_⟩
  rcases hcases with ⟨⟨rng', hok⟩, -⟩ | ⟨w, hw, given, found, hsim, s, hs, l, hl, hne, he'⟩
  · rw [hok] at he
    cases he
  · rw [he', Except.error.injEq] at he
    exact ⟨w, hw, given, found, hsim, s, hs, l, hl, hne, he.symm⟩

end Rounds

/-- A second constant, and a gate with one operand inverted. -/
def Network.wired : Network :=
  ⟨#[.const, .pi, .ff, .const, .and (.ofNode 1) ⟨2, true⟩, .and (.ofNode 4) (.ofNode 3),
    .po ⟨5, true⟩]⟩

/-- The same with the first input inverted and one more source. -/
def Network.rewired : Network :=
  ⟨#[.const, .const, .box, .ff, .pi, .and ⟨3, true⟩ ⟨4, true⟩, .po (.ofNode 5)]⟩

def Remap.rewiring : Remap :=
  ⟨#[none, some ⟨4, true⟩, some (.ofNode 3), some ⟨1, true⟩, none, none, some ⟨6, true⟩]⟩

theorem drawn_wired : Network.wired.drawn = [1, 2, 3] := by decide

theorem sinks_wired : Network.wired.sinks = [6] := by decide

theorem links_rewiring : Links .wired .rewired .rewiring := by
  refine ⟨?_, ?_, ?_⟩
  · rw [drawn_wired]
    simp only [List.forall_mem_cons]
    exact ⟨⟨_, rfl, rfl, by decide⟩, ⟨_, rfl, rfl, by decide⟩, ⟨_, rfl, rfl, by decide⟩, by simp⟩
  · rw [drawn_wired]
    intro s hs s' hs' l l' hl hl'
    fin_cases hs <;> fin_cases hs' <;> cases hl <;> cases hl' <;> decide
  · rw [sinks_wired]
    simp only [List.forall_mem_cons]
    exact ⟨⟨_, rfl, by decide⟩, by simp⟩

theorem agreeOn_rewiring (w : NodeId → UInt64) : AgreeOn .wired .rewired .rewiring w := by
  let w' : NodeId → UInt64 := fun j =>
    if j = 4 then ~~~ w 1 else if j = 3 then w 2 else if j = 1 then ~~~ w 3 else 0
  have hcarries : Carries .wired .rewiring w w' := by
    constructor
    · rw [drawn_wired]
      intro s hs l hl
      fin_cases hs <;> cases hl <;> simp [readLit, Lit.apply, w', Lit.ofNode]
    · rw [drawn_wired]
      intro j hj
      have h4 : j ≠ 4 := (hj 1 (by simp) ⟨4, true⟩ rfl).symm
      have h3 : j ≠ 3 := (hj 2 (by simp) (.ofNode 3) rfl).symm
      have h1 : j ≠ 1 := (hj 3 (by simp) ⟨1, true⟩ rfl).symm
      simp [w', h4, h3, h1]
  refine ⟨_, _, ⟨rfl, w', hcarries, rfl⟩, ?_⟩
  intro s hs l hl
  rw [sinks_wired, List.mem_singleton] at hs
  subst hs
  cases hl
  change ~~~ ((w 1 &&& ~~~ w 2) &&& Table.ones) = ~~~ (~~~ w 2 &&& ~~~ ~~~ w 1)
  refine Table.eq_of_bit fun k hk => ?_
  simp only [Table.bit_not _ hk, Table.bit_and, Table.bit_ones hk, Bool.and_true, Bool.not_not]
  rw [Bool.and_comm]

theorem checkEquivalence_exact_rewiring : Links .wired .rewired .rewiring ∧
    (∀ w, AgreeOn .wired .rewired .rewiring w) ∧
    ∀ n, ∀ rng : BitSource Xoshiro,
      ∃ rng', checkEquivalence .wired .rewired .rewiring n rng = .ok rng' := by
  refine ⟨links_rewiring, agreeOn_rewiring, fun n rng => ?_⟩
  obtain ⟨-, -, hpass, -⟩ := checkEquivalence_exact .wired .rewired .rewiring (by decide)
    (by decide) links_rewiring n rng
  exact hpass agreeOn_rewiring

end TechMap
