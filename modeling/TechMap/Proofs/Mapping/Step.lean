import Mathlib
import TechMap.Mapping.State

/-! Total correctness of steps. A step ensures a property if it succeeds in a state that has it. -/

namespace TechMap.Mapping

variable {α : Type} {P Q : Mapper α → Prop} {s : Step α}

def Step.Ensures (s : Step α) (P : Mapper α → Prop) : Prop := ∃ m, s = .ok m ∧ P m

namespace Step.Ensures

theorem ok {m : Mapper α} (h : P m) : Ensures (.ok m) P := ⟨m, rfl, h⟩

theorem mono (h : s.Ensures P) (hpq : ∀ m, P m → Q m) : s.Ensures Q := by
  obtain ⟨m, hs, hm⟩ := h
  exact ⟨m, hs, hpq m hm⟩

theorem and (h : s.Ensures P) (h' : s.Ensures Q) : s.Ensures fun m => P m ∧ Q m := by
  obtain ⟨m, hs, hm⟩ := h
  obtain ⟨m', hs', hm'⟩ := h'
  cases hs.symm.trans hs'
  exact ⟨m, hs, hm, hm'⟩

theorem of_ok {m : Mapper α} (h : s.Ensures P) (hs : s = .ok m) : P m := by
  obtain ⟨m', hs', hm'⟩ := h
  rw [hs] at hs'
  cases hs'
  exact hm'

theorem bind {f : Mapper α → Step α} (h : s.Ensures P) (hf : ∀ m, P m → (f m).Ensures Q) :
    Ensures (Except.bind s f) Q := by
  obtain ⟨m, rfl, hm⟩ := h
  exact hf m hm

/-- A property of the state and of the nodes that are left is kept by every visit. -/
theorem visitAll {visit : Mapper α → NodeId → Step α} {I : List NodeId → Mapper α → Prop}
    {ids : List NodeId} {m : Mapper α} (h0 : I ids m)
    (h : ∀ id rest m, id :: rest <:+ ids → I (id :: rest) m → (visit m id).Ensures (I rest)) :
    (Mapping.visitAll visit ids m).Ensures (I []) := by
  induction ids generalizing m with
  | nil => exact ok h0
  | cons id rest ih =>
    refine (h id rest m (List.suffix_refl _) h0).bind fun m hm => ih hm fun id' rest' m' hs => ?_
    exact h id' rest' m' (hs.trans (List.suffix_cons id rest))

end Step.Ensures

end TechMap.Mapping
