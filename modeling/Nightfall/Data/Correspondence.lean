import Mathlib.Algebra.Notation.Defs
import Mathlib.Logic.Function.Basic
import Mathlib.Tactic.SplitIfs

/-!
# Correspondences kept in two maps

Two total maps with a default value, as mappings of a contract are, that record a one-to-one
correspondence in both directions.  The defaults are the zeros of the types.
-/

namespace Nightfall

variable {K A : Type*} [Zero K] [Zero A]

/-- Away from the defaults the maps are inverse to each other. -/
def Corresponds (f : A → K) (g : K → A) : Prop :=
  ∀ k, k ≠ 0 → ∀ a, a ≠ 0 → (f a = k ↔ g k = a)

namespace Corresponds

variable {f : A → K} {g : K → A} {k : K} {a : A}

theorem zero : Corresponds (fun _ : A => (0 : K)) (fun _ : K => (0 : A)) :=
  fun _ hk _ ha => iff_of_false (fun h => hk h.symm) (fun h => ha h.symm)

variable [DecidableEq K] [DecidableEq A]

/-- Two values that are free, or bound to each other, may be bound. -/
theorem bind (h : Corresponds f g) (ha : a ≠ 0) (hf : f a = 0 ∨ f a = k) (hg : g k = 0 ∨ g k = a) :
    Corresponds (Function.update f a k) (Function.update g k a) := by
  intro k' hk' a' ha'
  simp only [Function.update_apply]
  by_cases hkk : k' = k <;> by_cases haa : a' = a
  · rw [if_pos haa, if_pos hkk]
    exact iff_of_true hkk.symm haa.symm
  · rw [if_neg haa, if_pos hkk, h k' hk' a' ha', hkk]
    -- `k` is bound to `a` or to nothing
    refine iff_of_false (fun heq => ?_) (fun heq => haa heq.symm)
    rcases hg with hg | hg
    · exact ha' (heq.symm.trans hg)
    · exact haa (heq.symm.trans hg)
  · rw [if_pos haa, if_neg hkk, haa, ← h k' hk' a ha]
    -- `a` is bound to `k` or to nothing
    refine iff_of_false (fun heq => hkk heq.symm) (fun heq => ?_)
    rcases hf with hf | hf
    · exact hk' (heq.symm.trans hf)
    · exact hkk (heq.symm.trans hf)
  · rw [if_neg haa, if_neg hkk]
    exact h k' hk' a' ha'

/-- A binding may be deleted if what is deleted from the other map is its other direction. -/
theorem unbind (h : Corresponds f g) (hf : k = 0 → f (g k) = 0) :
    Corresponds (Function.update f (g k) 0) (Function.update g k 0) := by
  intro k' hk' a' ha'
  simp only [Function.update_apply]
  by_cases hkk : k' = k
  · rw [if_pos hkk, hkk]
    refine iff_of_false (fun heq => ?_) (fun heq => ha' heq.symm)
    split_ifs at heq with haa
    · exact hk' (hkk.trans heq.symm)
    · exact haa ((h k (hkk ▸ hk') a' ha').1 heq).symm
  · rw [if_neg hkk]
    split_ifs with haa
    · refine iff_of_false (fun heq => hk' heq.symm) (fun heq => ?_)
      -- `a'` is bound to `k'`, but it is `g k`
      have hfa : f a' = k' := (h k' hk' a' ha').2 heq
      by_cases hk : k = 0
      · exact hk' (by rw [← hfa, haa, hf hk])
      · exact hkk (by rw [← hfa, (h k hk a' ha').2 haa.symm])
    · exact h k' hk' a' ha'

/-- Deleting the default key breaks the correspondence exactly if the address has a key. -/
theorem unbind_zero_iff (h : Corresponds f g) (hf : f 0 = 0) :
    Corresponds (Function.update f (g 0) 0) (Function.update g 0 0) ↔ f (g 0) = 0 := by
  constructor
  · intro h'
    by_contra hk
    have ha : g 0 ≠ 0 := fun ha => hk (ha ▸ hf)
    have hbound := (h _ hk _ ha).1 rfl
    have hbound' := (h' _ hk _ ha).2 (by rw [Function.update_of_ne hk, hbound])
    exact hk (by rw [← hbound', Function.update_self])
  · exact fun hzero => h.unbind fun _ => hzero

end Corresponds

end Nightfall
