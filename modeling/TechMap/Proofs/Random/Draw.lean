import Mathlib
import TechMap.Random.Network

/-! What a draw can end in. It ensures a property if every result has it and nothing but running out
of attempts stops it, whatever the generator gives. More attempts never change a result. -/

namespace TechMap.Random

variable {γ β δ : Type}

namespace Draw

theorem run'_eq_ok {d : Draw γ β} {s : BitSource γ} {x : β} :
    d.run' s = .ok x ↔ ∃ s', d s = .ok (x, s') := by
  unfold StateT.run'
  cases d s with
  | error e => simp [Functor.map, Except.map]
  | ok r =>
    obtain ⟨y, s'⟩ := r
    simp [Functor.map, Except.map]

/-- Whatever the bits, the draw gives a value with `P` or runs out of attempts. -/
def Ensures (d : Draw γ β) (P : β → Prop) : Prop :=
  ∀ s, match d s with
    | .ok (x, _) => P x
    | .error e => e = .noTable

namespace Ensures

variable {d : Draw γ β} {P Q : β → Prop} {R : δ → Prop}

theorem pure {x : β} (h : P x) : Ensures (Pure.pure x : Draw γ β) P := fun _ => h

theorem lift {f : BitSource γ → β × BitSource γ} (h : ∀ s, P (f s).1) : Ensures (Draw.lift f) P :=
  fun s => h s

theorem noTable : Ensures (throw .noTable : Draw γ β) P := fun _ => rfl

theorem mono (h : d.Ensures P) (hpq : ∀ x, P x → Q x) : d.Ensures Q := by
  intro s
  have hs := h s
  cases hd : d s with
  | error e => rwa [hd] at hs
  | ok r =>
    rw [hd] at hs
    exact hpq r.1 hs

theorem bind {f : β → Draw γ δ} (h : d.Ensures P) (hf : ∀ x, P x → (f x).Ensures R) :
    Ensures (d >>= f) R := by
  intro s
  have hs := h s
  cases hd : d s with
  | error e =>
    rw [hd] at hs
    simp only [Bind.bind, StateT.bind, hd, Except.bind]
    exact hs
  | ok r =>
    rw [hd] at hs
    simp only [Bind.bind, StateT.bind, hd, Except.bind]
    exact hf r.1 hs r.2

theorem map {f : β → δ} (h : d.Ensures fun x => R (f x)) : Ensures (f <$> d) R := by
  rw [map_eq_pure_bind]
  exact h.bind fun x hx => pure hx

theorem ite {c : Prop} [Decidable c] {d' : Draw γ β} (h : c → d.Ensures P)
    (h' : ¬ c → d'.Ensures P) : Ensures (if c then d else d') P := by
  split
  · exact h ‹_›
  · exact h' ‹_›

/-- What one turn of a loop adds, all turns add. -/
theorem times {f : β → Draw γ β} {I : Nat → β → Prop}
    (h : ∀ k x, I k x → (f x).Ensures (I (k + 1))) {n k : Nat} {x : β} (hx : I k x) :
    (Draw.times f n x).Ensures (I (k + n)) := by
  induction n generalizing k x with
  | zero => exact pure hx
  | succ n ih =>
    refine (h k x hx).bind fun y hy => ?_
    rw [show k + (n + 1) = k + 1 + n by omega]
    exact ih hy

theorem of_run' (h : d.Ensures P) {s : BitSource γ} {x : β} (hx : d.run' s = .ok x) : P x := by
  obtain ⟨s', hs⟩ := run'_eq_ok.1 hx
  have := h s
  rwa [hs] at this

end Ensures

/-- Every result of `d` is the result of `d'` on the same bits. -/
def Extends (d' d : Draw γ β) : Prop := ∀ s r, d s = .ok r → d' s = .ok r

namespace Extends

variable {d d' : Draw γ β}

theorem refl (d : Draw γ β) : Extends d d := fun _ _ h => h

theorem bind {f f' : β → Draw γ δ} (h : d'.Extends d) (hf : ∀ x, (f' x).Extends (f x)) :
    Extends (d' >>= f') (d >>= f) := by
  intro s r hr
  cases hd : d s with
  | error e => simp [Bind.bind, StateT.bind, hd, Except.bind] at hr
  | ok y =>
    simp only [Bind.bind, StateT.bind, hd, h s y hd, Except.bind] at hr ⊢
    exact hf y.1 y.2 r hr

theorem ite {c : Prop} [Decidable c] {e e' : Draw γ β} (h : d'.Extends d) (h' : e'.Extends e) :
    Extends (if c then d' else e') (if c then d else e) := by
  split
  · exact h
  · exact h'

theorem times {f f' : β → Draw γ β} (h : ∀ x, (f' x).Extends (f x)) (n : Nat) (x : β) :
    (Draw.times f' n x).Extends (Draw.times f n x) := by
  induction n generalizing x with
  | zero => exact refl _
  | succ n ih => exact (h x).bind ih

theorem run' (h : d'.Extends d) {s : BitSource γ} {x : β} (hx : d.run' s = .ok x) :
    d'.run' s = .ok x := by
  obtain ⟨s', hs⟩ := run'_eq_ok.1 hx
  exact run'_eq_ok.2 ⟨s', h s _ hs⟩

end Extends

end Draw

end TechMap.Random
