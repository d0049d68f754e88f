import Mathlib
import TechMap.Proofs.Random.Schedule
import TechMap.Proofs.Table.Value
import TechMap.Random.BitSource

/-! What a source of bits gives when booleans and whole words are drawn from it in any order. The
generator is a stream of 32 bit outputs. Those that the schedule of the calls assigns to the buffer
come back bit by bit as booleans, and all others come back as words. -/

namespace TechMap.Random

/- The stream behind a generator. -/

namespace Generator

variable {γ : Type} [Generator γ]

/-- The generator after `n` outputs. -/
def advance (g : γ) (n : Nat) : γ := (fun g => (next32 g).2)^[n] g

/-- Output `n` of the stream, from zero. -/
def output (g : γ) (n : Nat) : UInt32 := (next32 (advance g n)).1

/-- The word that is drawn after `n` outputs. -/
def wordAt (g : γ) (n : Nat) : UInt64 := (next64 (advance g n)).1

theorem next32_advance (g : γ) (n : Nat) :
    next32 (advance g n) = (output g n, advance g (n + 1)) := by
  rw [show advance g (n + 1) = (next32 (advance g n)).2 from Function.iterate_succ_apply' ..]
  rfl

theorem next64_advance (g : γ) (n : Nat) :
    next64 (advance g n) = (wordAt g n, advance g (n + 2)) := by
  simp [wordAt, next64, next32_advance]

/-- The two outputs that a word is made of. -/
def halves (w : UInt64) : List UInt32 := [w.toUInt32, (w >>> 32).toUInt32]

theorem low_half (a b : UInt32) : (a.toUInt64 ||| (b.toUInt64 <<< 32)).toUInt32 = a := by
  apply UInt32.toBitVec_inj.1
  apply BitVec.eq_of_getLsbD_eq
  intro i hi
  simp [hi]

theorem high_half (a b : UInt32) : ((a.toUInt64 ||| (b.toUInt64 <<< 32)) >>> 32).toUInt32 = b := by
  apply UInt32.toBitVec_inj.1
  apply BitVec.eq_of_getLsbD_eq
  intro i hi
  have h64 : i < 64 := by omega
  have h32 : 32 + i < 64 := by omega
  simp [hi, h64, h32]

theorem halves_wordAt (g : γ) (n : Nat) : halves (wordAt g n) = [output g n, output g (n + 1)] := by
  simp only [wordAt, next64, next32_advance, halves, low_half, high_half]

end Generator

open Call Generator

/- The bits of the words. -/

/-- The bits of a word, the lowest first. -/
def bits (w : UInt64) : List Bool := (List.range 64).map (Table.bit w)

@[simp] theorem length_bits (w : UInt64) : (bits w).length = 64 := by simp [bits]

theorem getElem?_bits (w : UInt64) {k : Nat} (hk : k < 64) :
    (bits w)[k]? = some (Table.bit w k) := by
  simp [bits, hk]

theorem and_one_ne_zero (w : UInt64) : (w &&& 1 != 0) = Table.bit w 0 := by
  cases h : Table.bit w 0 with
  | false =>
    have hzero : w &&& 1 = 0 := Table.eq_of_bit fun k _ => by
      rw [Table.bit_and, Table.bit_one, Table.bit_zero]
      cases k with
      | zero => rw [h, Bool.false_and]
      | succ k => simp
    rw [hzero]
    rfl
  | true =>
    refine bne_iff_ne.2 fun hzero => ?_
    have := congrArg (Table.bit · 0) hzero
    simp [Table.bit_one, h] at this

theorem length_flatMap_bits (ws : List UInt64) : (ws.flatMap bits).length = 64 * ws.length := by
  induction ws with
  | nil => rfl
  | cons w ws ih =>
    rw [List.flatMap_cons, List.length_append, length_bits, ih, List.length_cons]
    omega

/-- One more bit comes from the last word as long as that word has one. -/
theorem take_flatMap_bits (ws : List UInt64) (w : UInt64) {n : Nat} (h : n / 64 = ws.length) :
    ((ws ++ [w]).flatMap bits).take (n + 1) =
      ((ws ++ [w]).flatMap bits).take n ++ [Table.bit w (n % 64)] := by
  have hlen := length_flatMap_bits ws
  have hbit : ((ws ++ [w]).flatMap bits)[n]? = some (Table.bit w (n % 64)) := by
    rw [List.flatMap_append, List.flatMap_singleton, List.getElem?_append_right (by omega), hlen,
      show n - 64 * ws.length = n % 64 by omega, getElem?_bits w (Nat.mod_lt n (by omega))]
  rw [List.take_add_one, hbit, Option.toList_some]

section Booleans

variable {γ : Type} [Generator γ]

/-- The bits of the buffered words, one for each boolean that is drawn. -/
def booleans (g : γ) (calls : List Call) : List Bool :=
  (((starts calls).map (wordAt g)).flatMap bits).take (calls.count .bool)

theorem booleans_append (g : γ) {calls : List Call} {earlier : List Nat} {p : Nat}
    (h : starts calls = earlier ++ [p]) (c : Call) :
    booleans g (calls ++ [c]) = booleans g calls ++
      if c = .bool then [Table.bit (wordAt g p) (calls.count .bool % 64)] else [] := by
  have hlen : calls.count .bool / 64 = (earlier.map (wordAt g)).length := by
    have := length_starts calls
    rw [h, List.length_append, List.length_singleton] at this
    rw [List.length_map]
    omega
  -- a word that is drawn with the last bit of the one before adds none of its own yet
  have hold : booleans g (calls ++ [c]) =
      (((starts calls).map (wordAt g)).flatMap bits).take ((calls ++ [c]).count .bool) := by
    rcases append_cases calls c with ⟨-, hs, -⟩ | ⟨-, hs, -⟩
    · rw [booleans, hs]
    · rw [booleans, hs, List.map_append, List.flatMap_append, List.take_append_of_le_length]
      rw [length_flatMap_bits, List.length_map, length_starts, count_append_singleton]
      split <;> omega
  rw [hold, booleans, h, List.map_append, List.map_singleton, count_append_singleton]
  split
  · exact take_flatMap_bits _ _ hlen
  · rw [List.append_nil, Nat.add_zero]

end Booleans

/- Calls and answers. -/

inductive Answer where
  | bool (b : Bool)
  | word32 (w : UInt32)
  | word64 (w : UInt64)
deriving DecidableEq, Repr

namespace Answer

def call : Answer → Call
  | bool _ => .bool
  | word32 _ => .word32
  | word64 _ => .word64

def bool? : Answer → Option Bool
  | bool b => some b
  | word32 _ | word64 _ => none

/-- The outputs that are drawn for the answer itself. -/
def outputs : Answer → List UInt32
  | bool _ => []
  | word32 w => [w]
  | word64 w => halves w

end Answer

namespace BitSource

variable {γ : Type} [Generator γ]

theorem nextBool_fst {s : BitSource γ} (h : s.used < 64) :
    s.nextBool.1 = Table.bit s.buffer s.used := by
  have hused := Table.toNat_toUInt64 h
  have hbit : ((s.buffer >>> s.used.toUInt64) &&& 1 != 0) = Table.bit s.buffer s.used := by
    rw [and_one_ne_zero, Table.bit_shiftRight _ _ _ (by rwa [hused]), hused, Nat.add_zero]
  rw [← hbit, nextBool]
  split <;> rfl

theorem nextBool_snd_of_lt {s : BitSource γ} (h : s.used + 1 < 64) :
    s.nextBool.2 = { s with used := s.used + 1 } := by
  rw [nextBool, if_pos h]

theorem nextBool_snd_of_le {s : BitSource γ} (h : 64 ≤ s.used + 1) :
    s.nextBool.2 = ⟨(Generator.next64 s.gen).2, (Generator.next64 s.gen).1, 0⟩ := by
  rw [nextBool, if_neg (by omega)]

def answer : Call → BitSource γ → Answer × BitSource γ
  | .bool, s => (.bool s.nextBool.1, s.nextBool.2)
  | .word32, s => (.word32 s.next32.1, s.next32.2)
  | .word64, s => (.word64 s.next64.1, s.next64.2)

/-- The answers to calls that are made one after the other. -/
def answers : List Call → BitSource γ → List Answer × BitSource γ
  | [], s => ([], s)
  | c :: calls, s =>
    let (a, s) := s.answer c
    let (results, s) := answers calls s
    (a :: results, s)

theorem answers_append (calls : List Call) (c : Call) (s : BitSource γ) :
    answers (calls ++ [c]) s = ((answers calls s).1 ++ [((answers calls s).2.answer c).1],
      ((answers calls s).2.answer c).2) := by
  induction calls generalizing s with
  | nil => rfl
  | cons d calls ih => simp [answers, ih]

theorem call_answer (c : Call) (s : BitSource γ) : (s.answer c).1.call = c := by
  cases c <;> rfl

theorem outputs_answer {g : γ} {n : Nat} {s : BitSource γ} (h : s.gen = advance g n) (c : Call) :
    (s.answer c).1.outputs = (List.range c.width).map fun k => output g (n + k) := by
  cases c with
  | bool => rfl
  | word32 => simp [answer, next32, h, next32_advance, Answer.outputs, width]
  | word64 =>
    simp [answer, next64, h, next64_advance, Answer.outputs, halves_wordAt, width, List.range_succ]

/-- What the calls have given, and where they leave the source. -/
structure Dealt (g : γ) (calls : List Call) (results : List Answer) (s : BitSource γ) : Prop where
  gen : s.gen = advance g (taken calls)
  used : s.used = calls.count .bool % 64
  buffer : ∃ earlier p, starts calls = earlier ++ [p] ∧ s.buffer = wordAt g p
  kinds : results.map Answer.call = calls
  bools : results.filterMap Answer.bool? = booleans g calls
  outputs : results.flatMap Answer.outputs = (direct calls).map (output g)

namespace Dealt

variable {g : γ} {calls : List Call} {results : List Answer} {s : BitSource γ} {c : Call}

theorem start (g : γ) : Dealt g [] [] (ofGenerator g) where
  gen := rfl
  used := rfl
  buffer := ⟨[], 0, rfl, rfl⟩
  kinds := rfl
  bools := rfl
  outputs := rfl

theorem used_lt (h : Dealt g calls results s) : s.used < 64 := by
  rw [h.used]
  exact Nat.mod_lt _ (by omega)

/-- Until the 64th boolean of a word the buffer stays. -/
theorem keep (h : Dealt g calls results s) (hc : ¬ (c = .bool ∧ 64 ∣ calls.count .bool + 1)) :
    (s.answer c).2 =
      ⟨advance g (taken calls + c.width), s.buffer, (calls ++ [c]).count .bool % 64⟩ := by
  have hused := h.used
  have hgen := h.gen
  cases c with
  | bool =>
    have hdvd : ¬ 64 ∣ calls.count .bool + 1 := fun hdvd => hc ⟨rfl, hdvd⟩
    have hcount : (calls ++ [Call.bool]).count .bool % 64 = s.used + 1 := by
      rw [count_append_singleton, if_pos rfl]
      omega
    rw [answer, nextBool_snd_of_lt (by omega), hcount, hgen]
    rfl
  | word32 => simp [answer, next32, hgen, next32_advance, width, hused]
  | word64 => simp [answer, next64, hgen, next64_advance, width, hused]

/-- With the 64th boolean the next word is drawn. -/
theorem refill (h : Dealt g calls results s) (hdvd : 64 ∣ calls.count .bool + 1) :
    (s.answer .bool).2 = ⟨advance g (taken calls + 2), wordAt g (taken calls),
      (calls ++ [Call.bool]).count .bool % 64⟩ := by
  have hused := h.used
  have hcount : (calls ++ [Call.bool]).count .bool % 64 = 0 := by
    rw [count_append_singleton, if_pos rfl]
    omega
  rw [answer, nextBool_snd_of_le (by omega), hcount, h.gen, next64_advance]

theorem bool?_answer (h : Dealt g calls results s) (c : Call) :
    [(s.answer c).1].filterMap Answer.bool? =
      if c = .bool then [Table.bit s.buffer (calls.count .bool % 64)] else [] := by
  cases c with
  | bool =>
    rw [answer, nextBool_fst h.used_lt, h.used]
    rfl
  | word32 => rfl
  | word64 => rfl

/-- One more call. -/
theorem append (h : Dealt g calls results s) (c : Call) :
    Dealt g (calls ++ [c]) (results ++ [(s.answer c).1]) (s.answer c).2 := by
  obtain ⟨earlier, p, hstarts, hbuffer⟩ := h.buffer
  have hkinds : (results ++ [(s.answer c).1]).map Answer.call = calls ++ [c] := by
    rw [List.map_append, h.kinds, List.map_singleton, call_answer]
  have hbools : (results ++ [(s.answer c).1]).filterMap Answer.bool? =
      booleans g (calls ++ [c]) := by
    rw [List.filterMap_append, h.bools, h.bool?_answer, hbuffer, booleans_append g hstarts]
  have houtputs : (results ++ [(s.answer c).1]).flatMap Answer.outputs =
      (direct (calls ++ [c])).map (output g) := by
    rw [List.flatMap_append, h.outputs, List.flatMap_singleton, outputs_answer h.gen,
      direct_append, List.map_append, List.map_map]
    rfl
  -- the answers do not depend on whether this is a 64th boolean, the state does
  rcases append_cases calls c with ⟨hc, hs, ht⟩ | ⟨⟨rfl, hdvd⟩, hs, ht⟩
  · rw [h.keep hc]
    exact ⟨by rw [ht], rfl, ⟨earlier, p, by rw [hs, hstarts], hbuffer⟩, hkinds, hbools, houtputs⟩
  · rw [h.refill hdvd]
    exact ⟨by rw [ht], rfl, ⟨starts calls, taken calls, hs, rfl⟩, hkinds, hbools, houtputs⟩

end Dealt

theorem dealt_answers (g : γ) (calls : List Call) :
    Dealt g calls (answers calls (ofGenerator g)).1 (answers calls (ofGenerator g)).2 := by
  induction calls using List.reverseRecOn with
  | nil => exact .start g
  | append_singleton calls c ih =>
    rw [answers_append]
    exact ih.append c

/-- Whatever is asked for, and in whatever order: the booleans are the bits of the buffered words,
each bit once, and the words that are drawn directly are all outputs that are not in the buffer. No
output is in two buffered words, and no word is buffered but those of the booleans so far and of the
next one. -/
theorem answers_lossless (g : γ) (calls : List Call) :
    ∃ results s, answers calls (ofGenerator g) = (results, s) ∧ s.used < 64 ∧
      Dealt g calls results s ∧ (starts calls).length = calls.count .bool / 64 + 1 ∧
      (buffered calls).Pairwise (· < ·) ∧ ∀ i ∈ buffered calls, i < taken calls := by
  have h := dealt_answers g calls
  exact ⟨_, _, rfl, h.used_lt, h, length_starts calls, pairwise_buffered calls, fun _ => lt_taken⟩

/-- The second word is drawn with the 64th boolean, after a word of 32 bits and before one of 64. -/
example : let calls := List.replicate 63 Call.bool ++ [.word32, .bool, .word64]
    starts calls = [0, 3] ∧ direct calls = [2, 5, 6] ∧ taken calls = 7 := by decide

end BitSource

end TechMap.Random
