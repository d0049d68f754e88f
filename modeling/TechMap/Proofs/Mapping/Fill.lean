import Mathlib
import TechMap.Proofs.Mapping.Departures
import TechMap.Proofs.Numeric.Comparison

/-! Filling in departures. One pass from sinks to sources gives every gate without a departure the
least departure of its consumers, the ones that were filled in before it included. All consumers of a
node are visited before the node, so what a node adds is final. -/

namespace TechMap.Mapping

open Network

/-- What a node adds to the departure of one of its operands. -/
def fillOperand {α : Type} [Quantity α] (net : Network) (depart : Array α) (id : NodeId)
    (filled : Array α) (l : Lit) : Array α :=
  if (net.node l.id).isLogic && Quantity.isInfinite (depart.getD l.id 0) then
    filled.setIfInBounds l.id (min (filled.getD l.id 0) (filled.getD id 0))
  else filled

/-- What a node adds to the departures that were filled in. -/
def fillStep {α : Type} [Quantity α] (net : Network) (depart filled : Array α) (id : NodeId) :
    Array α :=
  let node := net.node id
  if node.isSource || Quantity.isInfinite (filled.getD id 0) then filled
  else node.operands.foldl (fillOperand net depart id) filled

theorem backfill_eq {α : Type} [Quantity α] (net : Network) (depart : Array α)
    (order : List NodeId) : Mapper.backfill net depart order =
      order.reverse.foldl (fillStep net depart) depart := rfl

variable {net : Network} {depart filled : Array Single} {id v : NodeId} {rest : List NodeId}
  {x : Single} {S S' : NodeId → Prop}

theorem isInfinite_iff : Quantity.isInfinite x = true ↔ x = .infinity := beq_iff_eq

/-- A gate without a departure. -/
def Lacks (net : Network) (depart : Array Single) (v : NodeId) : Prop :=
  (net.node v).isLogic = true ∧ depart.getD v 0 = .infinity

instance (v : NodeId) : Decidable (Lacks net depart v) := inferInstanceAs (Decidable (_ ∧ _))

instance (u v : NodeId) : Decidable (net.Feeds u v) :=
  inferInstanceAs (Decidable (∃ l ∈ (net.node u).operands, l.id = v))

/-- The least of the departures of some nodes, and infinity where there are none. -/
structure Earliest (S : NodeId → Prop) (depart : Array Single) (x : Single) : Prop where
  le : ∀ u, S u → x.le (depart.getD u 0) = true
  attained : x = .infinity ∨ ∃ u, S u ∧ x = depart.getD u 0

namespace Earliest

theorem congr (h : Earliest S depart x) (hS : ∀ u, S' u ↔ S u)
    (hf : ∀ u, S u → filled.getD u 0 = depart.getD u 0) : Earliest S' filled x := by
  refine ⟨fun u hu => ?_, h.attained.imp_right fun ⟨u, hu, he⟩ => ?_⟩
  · rw [hf u ((hS u).1 hu)]
    exact h.le u ((hS u).1 hu)
  · exact ⟨u, (hS u).2 hu, he.trans (hf u hu).symm⟩

theorem visit (h : Earliest S depart x) (hS : ∀ u, S' u ↔ u = id ∨ S u) (hx : x.isNaN = false)
    (hid : (depart.getD id 0).isNaN = false) :
    Earliest S' depart (min x (depart.getD id 0)) := by
  constructor
  · intro u hu
    rcases (hS u).1 hu with rfl | hu
    · exact Single.min_le_right hx hid
    · exact Single.le_trans (Single.min_le_left hx hid) (h.le u hu)
  · rcases Single.min_eq_or x (depart.getD id 0) with he | he
    · rw [he]
      exact h.attained.imp_right fun ⟨u, hu, hux⟩ => ⟨u, (hS u).2 (.inr hu), hux⟩
    · exact .inr ⟨id, (hS id).2 (.inl rfl), he⟩

/-- A node that never departs takes no part. -/
theorem skip (h : Earliest S depart x) (hS : ∀ u, S' u ↔ u = id ∨ S u) (hx : x.isNaN = false)
    (hid : depart.getD id 0 = .infinity) : Earliest S' depart x := by
  constructor
  · intro u hu
    rcases (hS u).1 hu with rfl | hu
    · rw [hid]
      exact Single.le_infinity hx
    · exact h.le u hu
  · exact h.attained.imp_right fun ⟨u, hu, hux⟩ => ⟨u, (hS u).2 (.inr hu), hux⟩

end Earliest

theorem fillOperand_condition {l : Lit} :
    ((net.node l.id).isLogic && Quantity.isInfinite (depart.getD l.id 0)) = true ↔
      Lacks net depart l.id := by
  rw [Bool.and_eq_true, isInfinite_iff]
  rfl

theorem size_fillOperand (l : Lit) :
    (fillOperand net depart id filled l).size = filled.size := by
  unfold fillOperand
  split
  · exact Array.size_setIfInBounds ..
  · rfl

theorem getD_fillOperand {l : Lit} (hlt : l.id < filled.size) :
    (fillOperand net depart id filled l).getD v 0 =
      if l.id = v ∧ Lacks net depart v then min (filled.getD v 0) (filled.getD id 0)
      else filled.getD v 0 := by
  by_cases hcond : Lacks net depart l.id
  · rw [fillOperand, if_pos (fillOperand_condition.2 hcond), getD_set filled hlt]
    by_cases he : l.id = v
    · subst he
      rw [if_pos rfl, if_pos ⟨rfl, hcond⟩]
    · rw [if_neg (Ne.symm he), if_neg fun h => he h.1]
  · rw [fillOperand, if_neg (mt fillOperand_condition.1 hcond), if_neg]
    rintro ⟨rfl, hlack⟩
    exact hcond hlack

theorem size_operands (ops : List Lit) :
    (ops.foldl (fillOperand net depart id) filled).size = filled.size := by
  induction ops generalizing filled with
  | nil => rfl
  | cons l ops ih => exact ih.trans (size_fillOperand l)

/-- An operand that is listed twice is filled in as if it were listed once. -/
theorem getD_operands {ops : List Lit} (h : ∀ l ∈ ops, l.id ≠ id ∧ l.id < filled.size) :
    (ops.foldl (fillOperand net depart id) filled).getD v 0 =
      if (∃ l ∈ ops, l.id = v) ∧ Lacks net depart v then
        min (filled.getD v 0) (filled.getD id 0)
      else filled.getD v 0 := by
  induction ops generalizing filled with
  | nil => simp
  | cons l ops ih =>
    obtain ⟨hne, hlt⟩ := h l (by simp)
    have hid : (fillOperand net depart id filled l).getD id 0 = filled.getD id 0 := by
      rw [getD_fillOperand hlt, if_neg fun h => hne h.1]
    rw [List.foldl_cons, ih fun k hk => by
      rw [size_fillOperand]
      exact h k (List.mem_cons_of_mem _ hk), hid, getD_fillOperand hlt]
    by_cases hlack : Lacks net depart v
    · by_cases hl : l.id = v <;> by_cases hin : ∃ k ∈ ops, k.id = v <;>
        simp [hlack, hl, hin, Single.min_min_self]
    · simp [hlack]

theorem size_fillStep : (fillStep net depart filled id).size = filled.size := by
  unfold fillStep
  dsimp only
  split
  · rfl
  · exact size_operands _

/-- A node without operands or without a departure adds nothing. -/
theorem fillStep_idle (h : (net.node id).operands = [] ∨ filled.getD id 0 = .infinity) :
    fillStep net depart filled id = filled := by
  unfold fillStep
  dsimp only
  rcases h with hnil | hinf
  · rw [hnil]
    exact ite_self _
  · rw [isInfinite_iff.2 hinf, Bool.or_true, if_pos rfl]

theorem getD_fillStep (hops : ∀ l ∈ (net.node id).operands, l.id ≠ id ∧ l.id < filled.size)
    (hid : filled.getD id 0 ≠ .infinity) : (fillStep net depart filled id).getD v 0 =
      if net.Feeds id v ∧ Lacks net depart v then min (filled.getD v 0) (filled.getD id 0)
      else filled.getD v 0 := by
  have hinf : Quantity.isInfinite (filled.getD id 0) = false :=
    Bool.eq_false_iff.2 fun h => hid (isInfinite_iff.1 h)
  unfold fillStep
  dsimp only
  rw [hinf, Bool.or_false]
  split
  · rename_i hsource
    rw [if_neg]
    rintro ⟨⟨l, hl, -⟩, -⟩
    rw [Node.operands_of_isSource hsource] at hl
    cases hl
  · exact getD_operands hops

theorem isLive_of_feeds {u : NodeId} (h : net.Feeds u v) : net.isLive u = true :=
  let ⟨_, hl, _⟩ := h
  isLive_of_operand hl

/-- The departures while the nodes of `rest` are still to be visited. -/
structure Filling (net : Network) (depart filled : Array Single) (rest : List NodeId) : Prop where
  size : filled.size = depart.size
  source : ∀ v, ∃ u, filled.getD v 0 = depart.getD u 0
  kept : ∀ v, ¬ Lacks net depart v → filled.getD v 0 = depart.getD v 0
  earliest : ∀ v, Lacks net depart v →
    Earliest (fun u => u ∉ rest ∧ net.Feeds u v) filled (filled.getD v 0)

namespace Filling

theorem start : Filling net depart depart net.upOrder.reverse := by
  refine ⟨rfl, fun v => ⟨v, rfl⟩, fun _ _ => rfl, fun v hv => ⟨fun u hu => ?_, .inl hv.2⟩⟩
  exact absurd (List.mem_reverse.2 (mem_upOrder.2 (isLive_of_feeds hu.2))) hu.1

theorem isNaN (h : Filling net depart filled rest) (hn : ∀ v, (depart.getD v 0).isNaN = false)
    (v : NodeId) : (filled.getD v 0).isNaN = false := by
  obtain ⟨u, hu⟩ := h.source v
  rw [hu]
  exact hn u

/-- The consumers of a node that were passed, after one more node. -/
theorem passed (hid : id ∉ rest) (hf : net.Feeds id v) (u : NodeId) :
    u ∉ rest ∧ net.Feeds u v ↔ u = id ∨ u ∉ id :: rest ∧ net.Feeds u v := by
  rw [List.mem_cons, not_or]
  by_cases he : u = id
  · subst he
    exact iff_of_true ⟨hid, hf⟩ (.inl rfl)
  · simp [he]

theorem passed_of_not_feeds (hf : ¬ net.Feeds id v) (u : NodeId) :
    u ∉ rest ∧ net.Feeds u v ↔ u ∉ id :: rest ∧ net.Feeds u v := by
  rw [List.mem_cons, not_or]
  constructor
  · rintro ⟨hu, hv⟩
    refine ⟨⟨?_, hu⟩, hv⟩
    rintro rfl
    exact hf hv
  · rintro ⟨⟨-, hu⟩, hv⟩
    exact ⟨hu, hv⟩

/-- The operands of the node that is visited are still to be visited. -/
theorem mem_of_feeds (hc : net.Canonical) (hsuf : id :: rest <:+ net.upOrder.reverse)
    (hf : net.Feeds id v) : v ∈ rest := by
  obtain ⟨l, hl, rfl⟩ := hf
  have hlt := hc.lt id l hl
  by_contra hrest
  have hmem : l.id ∉ id :: rest := by simp [ne_of_lt hlt, hrest]
  exact lt_asymm hlt (gt_of_not_mem_suffix hsuf (hc.live id l hl) hmem (by simp))

/-- A node without a departure takes no part, although it is passed now. -/
theorem pass (h : Filling net depart filled (id :: rest))
    (hn : ∀ v, (depart.getD v 0).isNaN = false) (hid : id ∉ rest)
    (hinf : filled.getD id 0 = .infinity) : Filling net depart filled rest := by
  refine ⟨h.size, h.source, h.kept, fun v hv => ?_⟩
  by_cases hf : net.Feeds id v
  · exact (h.earliest v hv).skip (passed hid hf) (h.isNaN hn v) hinf
  · exact (h.earliest v hv).congr (passed_of_not_feeds hf) fun _ _ => rfl

/-- What was passed is no operand of the visited node, so what is filled in is final. -/
theorem visit (h : Filling net depart filled (id :: rest)) (hc : net.Canonical)
    (hsize : depart.size = net.size) (hn : ∀ v, (depart.getD v 0).isNaN = false)
    (hsuf : id :: rest <:+ net.upOrder.reverse) :
    Filling net depart (fillStep net depart filled id) rest := by
  have hid : id ∉ rest := not_mem_of_suffix hsuf
  by_cases hinf : filled.getD id 0 = .infinity
  · rw [fillStep_idle (.inr hinf)]
    exact h.pass hn hid hinf
  have hops (l : Lit) (hl : l ∈ (net.node id).operands) : l.id ≠ id ∧ l.id < filled.size := by
    rw [h.size, hsize]
    exact ⟨ne_of_lt (hc.lt id l hl), lt_size_of_isLive (hc.live id l hl)⟩
  have hget (v : NodeId) : (fillStep net depart filled id).getD v 0 =
      if net.Feeds id v ∧ Lacks net depart v then min (filled.getD v 0) (filled.getD id 0)
      else filled.getD v 0 := getD_fillStep hops hinf
  have hsame (u : NodeId) (hu : u ∉ rest) :
      (fillStep net depart filled id).getD u 0 = filled.getD u 0 := by
    rw [hget, if_neg]
    rintro ⟨hf, -⟩
    exact hu (mem_of_feeds hc hsuf hf)
  constructor
  case size => exact size_fillStep.trans h.size
  case source =>
    intro v
    rw [hget]
    split
    · rcases Single.min_eq_or (filled.getD v 0) (filled.getD id 0) with he | he
      · rw [he]
        exact h.source v
      · rw [he]
        exact h.source id
    · exact h.source v
  case kept =>
    intro v hv
    rw [hget, if_neg fun hf => hv hf.2]
    exact h.kept v hv
  case earliest =>
    intro v hv
    rw [hget]
    by_cases hf : net.Feeds id v
    · rw [if_pos ⟨hf, hv⟩]
      have hnext := (h.earliest v hv).visit (passed hid hf) (h.isNaN hn v) (h.isNaN hn id)
      exact hnext.congr (fun _ => Iff.rfl) fun u hu => hsame u hu.1
    · rw [if_neg fun h => hf h.1]
      refine (h.earliest v hv).congr (passed_of_not_feeds hf) fun u hu => hsame u ?_
      exact fun hin => hu.1 (List.mem_cons_of_mem _ hin)

theorem run (h : Filling net depart filled rest) (hc : net.Canonical)
    (hsize : depart.size = net.size) (hn : ∀ v, (depart.getD v 0).isNaN = false)
    (hsuf : rest <:+ net.upOrder.reverse) :
    Filling net depart (rest.foldl (fillStep net depart) filled) [] := by
  induction rest generalizing filled with
  | nil => exact h
  | cons id rest ih =>
    exact ih (h.visit hc hsize hn hsuf) ((List.suffix_cons id rest).trans hsuf)

end Filling

variable {m : Mapper Single}

theorem filling_backfill (hc : m.net.Canonical) (horder : m.order = m.net.upOrder)
    (hsize : m.est.depart.size = m.net.size) (hn : ∀ v, (m.est.departAt v).isNaN = false) :
    Filling m.net m.est.depart (Mapper.backfill m.net m.est.depart m.order) [] := by
  rw [backfill_eq, horder]
  exact Filling.start.run hc hsize hn List.suffix_rfl

/-- What was filled in is taken over. -/
theorem departAt_of_filling
    (h : Filling m.net m.est.depart (Mapper.backfill m.net m.est.depart m.order) []) (v : NodeId) :
    m.backfillDepartures.est.departAt v =
      (Mapper.backfill m.net m.est.depart m.order).getD v 0 := by
  rw [departAt_backfillDepartures]
  dsimp only
  split
  · rfl
  · rename_i hkeep
    by_cases hlack : Lacks m.net m.est.depart v
    · -- nothing was found for it
      have hinf : m.est.departAt v = .infinity := hlack.2
      rw [isInfinite_iff.2 hinf, Bool.true_and, Bool.not_eq_true', Bool.not_eq_false,
        isInfinite_iff] at hkeep
      exact hinf.trans hkeep.symm
    · exact (h.kept v hlack).symm

/-- Afterwards every gate that had no departure has the least one of its consumers, if it has any,
and nothing else has changed. -/
theorem backfill_least (m : Mapper Single) (hc : m.net.Canonical) (horder : m.order = m.net.upOrder)
    (hsize : m.est.depart.size = m.net.size) (hn : ∀ d ∈ m.est.depart, d.isNaN = false) (v : NodeId) :
    let departAt := m.backfillDepartures.est.departAt
    (¬ ((m.net.node v).isLogic = true ∧ m.est.departAt v = .infinity) →
      departAt v = m.est.departAt v) ∧
    ((m.net.node v).isLogic = true → m.est.departAt v = .infinity →
      ((∀ u, ¬ m.net.Feeds u v) → departAt v = .infinity) ∧
      ((∃ u, m.net.Feeds u v) →
        (∀ u, m.net.Feeds u v → (departAt v).le (departAt u) = true) ∧
          ∃ u, m.net.Feeds u v ∧ departAt v = departAt u)) := by
  intro departAt
  have hnan (v : NodeId) : (m.est.departAt v).isNaN = false := by
    rw [Estimates.departAt, Array.getD_eq_getD_getElem?]
    cases hv : m.est.depart[v]? with
    | none => decide +kernel
    | some d => exact hn d (Array.mem_of_getElem? hv)
  have hfill := filling_backfill hc horder hsize hnan
  have hat : departAt = fun v => (Mapper.backfill m.net m.est.depart m.order).getD v 0 :=
    funext (departAt_of_filling hfill)
  rw [hat]
  refine ⟨hfill.kept v, fun hlogic hinf => ?_⟩
  have hearliest := hfill.earliest v ⟨hlogic, hinf⟩
  constructor
  · intro hnone
    refine hearliest.attained.resolve_right ?_
    rintro ⟨u, ⟨-, hu⟩, -⟩
    exact hnone u hu
  · rintro ⟨u, hu⟩
    refine ⟨fun w hw => hearliest.le w ⟨by simp, hw⟩, ?_⟩
    rcases hearliest.attained with he | ⟨w, ⟨-, hw⟩, he⟩
    · -- a consumer that departs no earlier does not depart either
      have hle := hearliest.le u ⟨by simp, hu⟩
      rw [he] at hle
      exact ⟨u, hu, he.trans (Single.eq_infinity_of_le hle).symm⟩
    · exact ⟨w, hw, he⟩

/-- A gate that feeds another gate and a barrier, with no departure for either gate. -/
def stranded : Mapper Single :=
  let net : Network := ⟨#[.const, .pi, .pi, .and (.ofNode 1) (.ofNode 2),
    .and (.ofNode 3) (.ofNode 1), .bar (.ofNode 3), .po (.ofNode 4), .po (.ofNode 5)]⟩
  let m := (Mapper.start .standard ⟨net, none, #[]⟩).toOption.get rfl
  { m with est := { m.est with depart := #[0, 0, 0, .infinity, .infinity, 3, 2, 0] } }

theorem feeds_stranded {u v : NodeId} (h : stranded.net.Feeds u v) :
    (v = 3 → u = 4 ∨ u = 5) ∧ (v = 4 → u = 6) := by
  have hu : u < stranded.net.size := lt_size_of_isLive (isLive_of_feeds h)
  have hall : ∀ u < stranded.net.size, ∀ l ∈ (stranded.net.node u).operands,
      (l.id = 3 → u = 4 ∨ u = 5) ∧ (l.id = 4 → u = 6) := by decide +kernel
  obtain ⟨l, hl, rfl⟩ := h
  exact hall u hu l hl

/-- The first gate departs with the second one, which is itself filled in. -/
theorem backfill_least_stranded : stranded.net.Canonical ∧
    stranded.order = stranded.net.upOrder ∧ stranded.est.depart.size = stranded.net.size ∧
    (∀ d ∈ stranded.est.depart, d.isNaN = false) ∧
    stranded.backfillDepartures.est.departAt 4 = 2 ∧
    stranded.backfillDepartures.est.departAt 3 = 2 := by
  have hc : stranded.net.Canonical := isCanonical_iff.1 (by decide +kernel)
  have horder : stranded.order = stranded.net.upOrder := by decide +kernel
  have hsize : stranded.est.depart.size = stranded.net.size := rfl
  have hn : ∀ d ∈ stranded.est.depart, d.isNaN = false := by decide +kernel
  have hleast := backfill_least stranded hc horder hsize hn
  have hother (v : NodeId) (d : Single) (hd : stranded.est.departAt v = d) (hne : d ≠ .infinity) :
      stranded.backfillDepartures.est.departAt v = d :=
    ((hleast v).1 fun h => hne (hd.symm.trans h.2)).trans hd
  have h4 : stranded.backfillDepartures.est.departAt 4 = 2 := by
    have hfeeds : stranded.net.Feeds 6 4 := ⟨.ofNode 4, by decide +kernel, rfl⟩
    obtain ⟨-, u, hu, he⟩ := ((hleast 4).2 rfl rfl).2 ⟨6, hfeeds⟩
    obtain rfl := (feeds_stranded hu).2 rfl
    exact he.trans (hother 6 2 rfl (by decide +kernel))
  refine ⟨hc, horder, hsize, hn, h4, ?_⟩
  have hfeeds : stranded.net.Feeds 4 3 := ⟨.ofNode 3, by decide +kernel, rfl⟩
  obtain ⟨hle, u, hu, he⟩ := ((hleast 3).2 rfl rfl).2 ⟨4, hfeeds⟩
  rcases (feeds_stranded hu).1 rfl with rfl | rfl
  · exact he.trans h4
  · -- the barrier departs later
    have hle := hle 4 hfeeds
    rw [he, h4, hother 5 3 rfl (by decide +kernel)] at hle
    exact absurd hle (by decide +kernel)

end TechMap.Mapping
