import Mathlib
import TechMap.Mapping.Enumeration
import TechMap.Proofs.Cut.Insertion
import TechMap.Proofs.Mapping.Lists

/-! Enumeration against the plain product. A choice takes one candidate for each operand, and its
union is a set of nodes of any size. What enumeration passes over are the choices of more than six
leaves, so the first choice of at most one leaf is the one that ends it, and if there is none the LUT
cuts that are left are the minimal sets. -/

namespace TechMap.Cut

variable {a b c w : Cut} {us out : List Cut} {ops : List (List Cut)} {acc : Cut}
  {ch : List Cut} {s : Finset NodeId}

/-- One candidate for each operand, in every way. That of the first operand varies slowest. -/
def choices : List (List Cut) → List (List Cut)
  | [] => [[]]
  | candidates :: rest => candidates.flatMap fun c => (choices rest).map (c :: ·)

/-- The leaves of all cuts of a choice. -/
def unionOf (ch : List Cut) : Finset NodeId := ch.foldr (fun c s => c.leafSet ∪ s) ∅

/-- The unions that enumeration meets are those of the choices, but for the large ones. -/
theorem unions_eq (hacc : acc.WellFormed) (hlut : acc.isMux = false)
    (hops : ∀ cs ∈ ops, ∀ c ∈ cs, c.WellFormed) :
    unions ops acc = (choices ops).filterMap fun ch => ofSet? (acc.leafSet ∪ unionOf ch) := by
  induction ops generalizing acc with
  | nil =>
    have hcard : acc.leafSet.card ≤ maxSize := (List.toFinset_card_le _).trans hacc.size
    simp [unions, choices, unionOf, ofSet?, hcard, hacc.ofSet_leafSet hlut]
  | cons candidates rest ih =>
    obtain ⟨hcandidates, hrest⟩ := List.forall_mem_cons.1 hops
    rw [unions, choices, List.filterMap_flatMap]
    refine List.flatMap_congr fun c hc => ?_
    have hcw := hcandidates c hc
    rw [List.filterMap_map]
    cases hu : acc.combine c with
    | some u =>
      rw [Option.elim_some, ih (wellFormed_combine hu hacc.toProper hcw.toProper)
        (not_isMux_combine hu) hrest, leafSet_combine hu]
      refine congrArg (List.filterMap · _) (funext fun ch => ?_)
      rw [Finset.union_assoc]
      rfl
    | none =>
      -- the partial union is too large already, and it only grows
      have hlarge : maxSize < (acc.leafSet ∪ c.leafSet).card := by
        rw [combine_eq hacc hcw, ofSet?] at hu
        by_contra hle
        rw [if_pos (Nat.le_of_not_lt hle)] at hu
        cases hu
      refine (List.filterMap_eq_nil_iff.2 fun ch _ => ?_).symm
      have hgrow : (acc.leafSet ∪ c.leafSet).card ≤ (acc.leafSet ∪ unionOf (c :: ch)).card :=
        Finset.card_le_card (Finset.union_subset_union_right Finset.subset_union_left)
      exact if_neg (Nat.not_le.2 (hlarge.trans_le hgrow))

theorem unions_empty (hops : ∀ cs ∈ ops, ∀ c ∈ cs, c.WellFormed) :
    unions ops empty = (choices ops).filterMap fun ch => ofSet? (unionOf ch) := by
  rw [unions_eq wellFormed_empty rfl hops]
  simp [leafSet, empty]

/-- At most one leaf in all. -/
def isNarrowChoice (ch : List Cut) : Bool := (unionOf ch).card ≤ 1

/-- The first narrow union is that of the first narrow choice. -/
theorem find?_unions (hops : ∀ cs ∈ ops, ∀ c ∈ cs, c.WellFormed) :
    (unions ops empty).find? isNarrow =
      ((choices ops).find? isNarrowChoice).map fun ch => ofSet (unionOf ch) := by
  have hany (ch : List Cut) : (ofSet? (unionOf ch)).any isNarrow = isNarrowChoice ch := by
    rw [ofSet?]
    split
    · rw [Option.any_some, isNarrow, size_ofSet, isNarrowChoice]
    · rename_i hlarge
      rw [Option.any_none, isNarrowChoice, eq_comm, decide_eq_false_iff_not]
      simp only [maxSize] at hlarge
      omega
  rw [unions_empty hops, List.find?_filterMap]
  simp only [hany]
  cases hf : (choices ops).find? isNarrowChoice with
  | none => rfl
  | some ch =>
    have hcard : (unionOf ch).card ≤ 1 := by simpa [isNarrowChoice] using List.find?_some hf
    rw [Option.bind_some, Option.map_some, ofSet?, if_pos (hcard.trans (by decide))]

theorem find?_isNarrowChoice (h : ∀ ch ∈ choices ops, 1 < (unionOf ch).card) :
    (choices ops).find? isNarrowChoice = none := by
  rw [List.find?_eq_none]
  intro ch hch
  simpa [isNarrowChoice] using h ch hch

/-- Enumeration ends with the first narrow choice, or it places all unions. -/
theorem product_snd_choices (hops : ∀ cs ∈ ops, ∀ c ∈ cs, c.WellFormed) (winner : Option Cut) :
    (product ops empty winner.toList).2 = ((choices ops).find? isNarrowChoice).elim
      (placeAll (unions ops empty) winner.toList) fun ch => [ofSet (unionOf ch)] := by
  rw [product_snd, find?_unions hops]
  cases (choices ops).find? isNarrowChoice <;> rfl

/-- The retained winner, if it is a LUT cut. -/
def lutSeed (winner : Option Cut) : List Cut := winner.toList.filter fun c => !c.isMux

theorem mem_lutSeed {winner : Option Cut} : c ∈ lutSeed winner ↔ c ∈ winner ∧ c.isMux = false := by
  simp [lutSeed]

theorem antichain_lutSeed (winner : Option Cut) : Antichain (lutSeed winner) := by
  cases winner with
  | none => exact .nil
  | some w => exact (List.pairwise_singleton _ w).sublist List.filter_sublist

theorem placeAll_retained (us : List Cut) (winner : Option Cut) :
    placeAll us winner.toList = winner.toList.filter isMux ++ placeAll us (lutSeed winner) := by
  cases winner with
  | none => rfl
  | some w =>
    cases hm : w.isMux with
    | true => simp [lutSeed, hm, placeAll_cons_of_isMux hm]
    | false => simp [lutSeed, hm]

/-- The sets to choose from: the small unions of all choices and the retained LUT cut. -/
def Offered (ops : List (List Cut)) (winner : Option Cut) (s : Finset NodeId) : Prop :=
  (∃ ch ∈ choices ops, unionOf ch = s ∧ s.card ≤ maxSize) ∨
    ∃ w ∈ winner, w.isMux = false ∧ w.leafSet = s

section Minimal

variable {winner : Option Cut} (hops : ∀ cs ∈ ops, ∀ c ∈ cs, c.WellFormed)
  (hwinner : ∀ w ∈ winner, w.WellFormed)
include hops

theorem mem_unions_iff : c ∈ unions ops empty ↔
    ∃ ch ∈ choices ops, (unionOf ch).card ≤ maxSize ∧ ofSet (unionOf ch) = c := by
  simp only [unions_empty hops, List.mem_filterMap, ofSet?, Option.ite_none_right_eq_some,
    Option.some.injEq]

theorem luts_unions : Luts (unions ops empty) := by
  intro c hc
  have hchosen := mem_unions.1 hc
  exact ⟨hchosen.wellFormed wellFormed_empty fun cs hcs c hc => (hops cs hcs c hc).toProper,
    hchosen.isMux rfl⟩

/-- The sets on offer are those that are placed. -/
theorem offered_eq : Offered ops winner = Among (unions ops empty ++ lutSeed winner) := by
  ext s
  constructor
  · rintro (⟨ch, hch, rfl, hcard⟩ | ⟨w, hw, hm, rfl⟩)
    · have hmem := (mem_unions_iff hops).2 ⟨ch, hch, hcard, rfl⟩
      exact ⟨_, List.mem_append_left _ hmem, leafSet_ofSet _⟩
    · exact ⟨w, List.mem_append_right _ (mem_lutSeed.2 ⟨hw, hm⟩), rfl⟩
  · rintro ⟨c, hc, rfl⟩
    rcases List.mem_append.1 hc with hc | hc
    · obtain ⟨ch, hch, hcard, rfl⟩ := (mem_unions_iff hops).1 hc
      rw [leafSet_ofSet]
      exact .inl ⟨ch, hch, rfl, hcard⟩
    · obtain ⟨hw, hm⟩ := mem_lutSeed.1 hc
      exact .inr ⟨c, hw, hm, rfl⟩

include hwinner

omit hops in
theorem luts_lutSeed : Luts (lutSeed winner) := by
  intro c hc
  obtain ⟨hw, hm⟩ := mem_lutSeed.1 hc
  exact ⟨hwinner c hw, hm⟩

/-- The LUT cuts of the result are the minimal sets on offer. -/
theorem mem_luts_iff : c ∈ placeAll (unions ops empty) (lutSeed winner) ↔
    ∃ s, Minimal (Offered ops winner) s ∧ c = ofSet s := by
  rw [offered_eq hops]
  exact mem_placeAll_iff (luts_unions hops) (luts_lutSeed hwinner) (antichain_lutSeed winner)

theorem nodup_luts : ((placeAll (unions ops empty) (lutSeed winner)).map leafSet).Nodup := by
  have hunions := luts_unions hops
  have hseed := luts_lutSeed hwinner
  exact (luts_placeAll hunions hseed).nodup (hunions.antichain hseed (antichain_lutSeed winner))

/-- The LUT cuts of the result do not depend on a retained multiplexer cut, which stays. -/
theorem filter_placeAll :
    ((placeAll (unions ops empty) winner.toList).filter fun c => !c.isMux) =
        placeAll (unions ops empty) (lutSeed winner) ∧
      (placeAll (unions ops empty) winner.toList).filter isMux = winner.toList.filter isMux := by
  have hluts := luts_placeAll (luts_unions hops) (luts_lutSeed hwinner)
  have hmuxes : ∀ m ∈ winner.toList.filter isMux, m.isMux = true := fun m hm =>
    (List.mem_filter.1 hm).2
  rw [placeAll_retained]
  exact ⟨filter_luts_append hmuxes hluts, filter_isMux_append hmuxes hluts⟩

end Minimal

/-- The candidates of the operands: what an operand is by itself, then its cuts. -/
def candidates (lists : NodeId → List Cut) (node : Node) : List (List Cut) :=
  node.operands.map fun l => Mapping.operandCut l :: lists l.id

theorem wellFormed_of_mem_candidates {lists : NodeId → List Cut} {node : Node}
    (hlists : ∀ l ∈ node.operands, ∀ c ∈ lists l.id, c.WellFormed) :
    ∀ cs ∈ candidates lists node, ∀ c ∈ cs, c.WellFormed := by
  intro cs hcs c hc
  obtain ⟨l, hl, rfl⟩ := List.mem_map.1 hcs
  rcases List.mem_cons.1 hc with rfl | hc
  · exact Mapping.wellFormed_operandCut l
  · exact hlists l hl c hc

/-- Enumeration gives what the plain product of the candidates gives. If some choice has at most one
leaf, the result is the union of the first such choice. If not, its LUT cuts are the minimal sets
among the unions of at most six leaves and the retained winner, each once, and a retained multiplexer
cut stays as it is. -/
theorem product_minimal (node : Node) (lists : NodeId → List Cut) (winner : Option Cut)
    (hlists : ∀ l ∈ node.operands, ∀ c ∈ lists l.id, c.WellFormed)
    (hwinner : ∀ w ∈ winner, w.WellFormed) :
    let ops := candidates lists node
    let found := (product ops empty winner.toList).2
    (∀ ch, (choices ops).find? (fun ch => (unionOf ch).card ≤ 1) = some ch →
      found = [ofSet (unionOf ch)]) ∧
    ((∀ ch ∈ choices ops, 1 < (unionOf ch).card) →
      ((found.filter fun c => !c.isMux).map leafSet).Nodup ∧
      (∀ c, c ∈ found.filter (fun c => !c.isMux) ↔
        ∃ s, Minimal (Offered ops winner) s ∧ c = ofSet s) ∧
      found.filter isMux = winner.toList.filter isMux) := by
  intro ops found
  have hops : ∀ cs ∈ ops, ∀ c ∈ cs, c.WellFormed := wellFormed_of_mem_candidates hlists
  have hfound : found = ((choices ops).find? isNarrowChoice).elim
      (placeAll (unions ops empty) winner.toList) fun ch => [ofSet (unionOf ch)] :=
    product_snd_choices hops winner
  constructor
  · intro ch hch
    rw [hfound, show (choices ops).find? isNarrowChoice = some ch from hch]
    rfl
  · intro hwide
    obtain ⟨hluts, hmuxes⟩ := filter_placeAll hops hwinner
    rw [hfound, find?_isNarrowChoice hwide, Option.elim_none, hluts, hmuxes]
    exact ⟨nodup_luts hops hwinner, fun c => mem_luts_iff hops hwinner, rfl⟩

/-- Two overlapping pairs below each operand and a retained multiplexer cut. The three leaves in the
middle are reached twice. -/
theorem product_minimal_overlapping :
    let lists : NodeId → List Cut
      | 4 => [ofSorted [1, 2], { ofSorted [1, 2, 3] with muxDepth := 1 }]
      | 5 => [ofSorted [2, 3]]
      | _ => []
    let winner := some { ofSorted [1, 2, 3, 6] with muxDepth := 1 }
    let found := (product (candidates lists (.and (.ofNode 4) (.ofNode 5))) empty winner.toList).2
    (∀ c, c ∈ found.filter (fun c => !c.isMux) ↔ ∃ s, Minimal
        (Offered (candidates lists (.and (.ofNode 4) (.ofNode 5))) winner) s ∧ c = ofSet s) ∧
      found.filter (fun c => !c.isMux) =
        [ofSorted [4, 5], ofSorted [2, 3, 4], ofSorted [1, 2, 5], ofSorted [1, 2, 3]] := by
  intro lists winner found
  refine ⟨((product_minimal (.and (.ofNode 4) (.ofNode 5)) lists winner ?_ ?_).2 ?_).2.1, ?_⟩
  · decide
  · decide
  · decide
  · decide +kernel

/-- What the mapper enumerates for a gate when it uses no multiplexers. -/
theorem mem_enumerate_iff {α : Type} [Quantity α] {m : Mapping.Mapper α} {id : NodeId} {node : Node}
    (hmuxes : m.params.muxes = false)
    (hlists : ∀ l ∈ node.operands, ∀ c ∈ m.cutsOf l.id, c.WellFormed)
    (hwinner : ∀ w ∈ (m.retained[id]?).join, w.WellFormed ∧ w.isMux = false)
    (hwide : ∀ ch ∈ choices (candidates m.cutsOf node), 1 < (unionOf ch).card) :
    c ∈ m.enumerate id node ↔
      ∃ s, Minimal (Offered (candidates m.cutsOf node) (m.retained[id]?).join) s ∧ c = ofSet s := by
  have hops := wellFormed_of_mem_candidates hlists
  have henum : m.enumerate id node = (product (candidates m.cutsOf node) empty
      ((m.retained[id]?).join).toList).2 := Mapping.enumerate_of_no_muxes hmuxes node
  have hnone : ((m.retained[id]?).join).toList.filter isMux = [] :=
    List.filter_eq_nil_iff.2 fun w hw => by
      rw [(hwinner w (by simpa using hw)).2]
      exact Bool.false_ne_true
  rw [henum, product_snd_choices hops, find?_isNarrowChoice hwide, Option.elim_none,
    placeAll_retained, hnone]
  exact mem_luts_iff hops fun w hw => (hwinner w hw).1

end TechMap.Cut
