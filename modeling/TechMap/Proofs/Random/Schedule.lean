import Mathlib

/-! Calls on a source of random bits, and which outputs of the generator each of them uses up. The
buffer takes a word at the start, and the next one with the 64th boolean that is drawn from it. The
words that are asked for take the outputs in between. All this depends on the calls alone. -/

namespace TechMap.Random

inductive Call where
  | bool
  | word32
  | word64
deriving DecidableEq, Repr

namespace Call

/-- Outputs that a call draws for its own answer. -/
def width : Call → Nat
  | bool => 0
  | word32 => 1
  | word64 => 2

/-- Outputs that are used up after the calls, those of the first buffered word among them. -/
def taken (calls : List Call) : Nat :=
  2 + calls.count .word32 + 2 * calls.count .word64 + 2 * (calls.count .bool / 64)

/-- Call `i` draws the 64th bit of a buffered word. -/
def refills (calls : List Call) (i : Nat) : Bool :=
  calls[i]? = some .bool ∧ 64 ∣ (calls.take (i + 1)).count .bool

/-- Where the buffered words start in the stream: the first one at its beginning, and each other one
at what the calls before the 64th bit have left. -/
def starts (calls : List Call) : List Nat :=
  0 :: ((List.range calls.length).filter (refills calls)).map fun i => taken (calls.take i)

/-- The outputs that go into the buffer. -/
def buffered (calls : List Call) : List Nat := (starts calls).flatMap fun p => [p, p + 1]

/-- All other outputs. -/
def direct (calls : List Call) : List Nat :=
  (List.range (taken calls)).filter (· ∉ buffered calls)

variable {calls : List Call}

theorem count_append_singleton (calls : List Call) (c d : Call) :
    (calls ++ [c]).count d = calls.count d + if c = d then 1 else 0 := by
  rw [List.count_append, List.count_singleton]
  simp only [beq_iff_eq]

theorem starts_append (calls : List Call) (c : Call) : starts (calls ++ [c]) =
    starts calls ++ if c = .bool ∧ 64 ∣ calls.count .bool + 1 then [taken calls] else [] := by
  have hold : ∀ i ∈ List.range calls.length, refills (calls ++ [c]) i = refills calls i := by
    intro i hi
    have hi := List.mem_range.1 hi
    rw [refills, refills, List.getElem?_append_left hi, List.take_append_of_le_length (by omega)]
  have hnew : refills (calls ++ [c]) calls.length =
      decide (c = .bool ∧ 64 ∣ calls.count .bool + 1) := by
    by_cases hc : c = .bool <;> simp [refills, hc, List.take_of_length_le]
  simp only [starts, List.length_append, List.length_singleton, List.range_succ,
    List.filter_append, List.map_append, List.cons_append, List.filter_congr hold]
  congr 2
  · refine List.map_congr_left fun i hi => ?_
    have hi := List.mem_range.1 (List.mem_of_mem_filter hi)
    rw [List.take_append_of_le_length (by omega)]
  · by_cases h : c = .bool ∧ 64 ∣ calls.count .bool + 1
    · rw [if_pos h, List.filter_singleton, hnew, decide_eq_true h]
      simp
    · rw [if_neg h, List.filter_singleton, hnew, decide_eq_false h]
      rfl

/-- A call draws what it answers with and leaves the buffered words alone, or it is the 64th boolean
of a word and the next word follows at once. -/
theorem append_cases (calls : List Call) (c : Call) :
    (¬ (c = .bool ∧ 64 ∣ calls.count .bool + 1) ∧ starts (calls ++ [c]) = starts calls ∧
      taken (calls ++ [c]) = taken calls + c.width) ∨
    ((c = .bool ∧ 64 ∣ calls.count .bool + 1) ∧
      starts (calls ++ [c]) = starts calls ++ [taken calls] ∧
      taken (calls ++ [c]) = taken calls + 2) := by
  by_cases h : c = .bool ∧ 64 ∣ calls.count .bool + 1
  · refine .inr ⟨h, by rw [starts_append, if_pos h], ?_⟩
    obtain ⟨rfl, hdvd⟩ := h
    simp only [taken, count_append_singleton, reduceCtorEq, if_true, if_false]
    omega
  · refine .inl ⟨h, by rw [starts_append, if_neg h, List.append_nil], ?_⟩
    simp only [taken, count_append_singleton]
    cases c with
    | bool =>
      have hdvd : ¬ 64 ∣ calls.count .bool + 1 := fun hdvd => h ⟨rfl, hdvd⟩
      simp only [width, reduceCtorEq, if_true, if_false]
      omega
    | word32 =>
      simp only [width, reduceCtorEq, if_true, if_false]
      omega
    | word64 =>
      simp only [width, reduceCtorEq, if_true, if_false]
      omega

/-- There is a word for every 64 booleans, and the one that the next boolean is taken from. -/
theorem length_starts (calls : List Call) :
    (starts calls).length = calls.count .bool / 64 + 1 := by
  induction calls using List.reverseRecOn with
  | nil => rfl
  | append_singleton calls c ih =>
    rw [count_append_singleton]
    rcases append_cases calls c with ⟨h, hs, -⟩ | ⟨⟨rfl, hdvd⟩, hs, -⟩
    · rw [hs, ih]
      split
      · have : ¬ 64 ∣ calls.count .bool + 1 := fun hdvd => h ⟨‹_›, hdvd⟩
        omega
      · rfl
    · rw [hs, List.length_append, List.length_singleton, ih, if_pos rfl]
      omega

theorem lt_taken {i : Nat} (h : i ∈ buffered calls) : i < taken calls := by
  induction calls using List.reverseRecOn with
  | nil =>
    obtain rfl | rfl : i = 0 ∨ i = 1 := by simpa [buffered, starts] using h
    all_goals decide
  | append_singleton calls c ih =>
    rcases append_cases calls c with ⟨-, hs, ht⟩ | ⟨-, hs, ht⟩
    · rw [buffered, hs] at h
      have := ih h
      omega
    · rw [buffered, hs, List.flatMap_append, List.mem_append] at h
      rcases h with h | h
      · have := ih h
        omega
      · obtain rfl | rfl : i = taken calls ∨ i = taken calls + 1 := by simpa using h
        all_goals omega

/-- No output is in two words. -/
theorem pairwise_buffered (calls : List Call) : (buffered calls).Pairwise (· < ·) := by
  induction calls using List.reverseRecOn with
  | nil => decide
  | append_singleton calls c ih =>
    rcases append_cases calls c with ⟨-, hs, -⟩ | ⟨-, hs, -⟩
    · rwa [buffered, hs]
    · rw [buffered, hs, List.flatMap_append, List.pairwise_append]
      refine ⟨ih, by simp, fun i hi j hj => ?_⟩
      have hi := lt_taken hi
      obtain rfl | rfl : j = taken calls ∨ j = taken calls + 1 := by simpa using hj
      all_goals omega

/-- What a call draws for its answer follows what was taken before. -/
theorem direct_append (calls : List Call) (c : Call) :
    direct (calls ++ [c]) = direct calls ++ (List.range c.width).map (taken calls + ·) := by
  rcases append_cases calls c with ⟨-, hs, ht⟩ | ⟨⟨rfl, -⟩, hs, ht⟩
  · have hb : buffered (calls ++ [c]) = buffered calls := by rw [buffered, hs, buffered]
    rw [direct, hb, ht, List.range_add, List.filter_append, ← direct]
    congr 1
    refine List.filter_eq_self.2 fun i hi => decide_eq_true fun hmem => ?_
    obtain ⟨k, -, rfl⟩ := List.mem_map.1 hi
    have := lt_taken hmem
    omega
  · have hb : ∀ i, i ∈ buffered (calls ++ [.bool]) ↔
        i ∈ buffered calls ∨ i = taken calls ∨ i = taken calls + 1 := by
      simp [buffered, hs]
    rw [direct, ht, List.range_add, List.filter_append, direct]
    congr 1
    · refine List.filter_congr fun i hi => ?_
      have hi := List.mem_range.1 hi
      have hne : ¬ (i = taken calls ∨ i = taken calls + 1) := by omega
      simp only [hb, hne, or_false]
    · refine List.filter_eq_nil_iff.2 fun i hi => ?_
      obtain ⟨k, hk, rfl⟩ := List.mem_map.1 hi
      have hk : k < 2 := List.mem_range.1 hk
      have hmem : taken calls + k ∈ buffered (calls ++ [.bool]) := (hb _).2 (.inr (by omega))
      simp only [hmem, not_true_eq_false, decide_false, Bool.false_eq_true, not_false_eq_true]

end Call

end TechMap.Random
