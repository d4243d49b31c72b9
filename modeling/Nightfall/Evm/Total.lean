import Nightfall.Evm.Word
import Mathlib.Algebra.BigOperators.Finprod
import Mathlib.Data.Fintype.EquivFin

/-!
# Totals of mappings

The sum of all values of a mapping from a finite type, such as words or addresses, and how it
changes when the mapping is updated.
-/

namespace Nightfall

namespace Evm

instance finite_bitVec (w : ℕ) : Finite (BitVec w) :=
  Finite.of_equiv (Fin (2 ^ w)) BitVec.equivFin.symm.toEquiv

variable {α : Type*} {f g : α → ℕ}

/-- The sum of all values of a mapping. -/
noncomputable def total (f : α → ℕ) : ℕ := ∑ᶠ a, f a

theorem total_eq_sum [Fintype α] : total f = ∑ a, f a := finsum_eq_sum_of_fintype f

@[simp] theorem total_zero : total (fun _ : α => 0) = 0 := finsum_zero

variable [Finite α]

theorem total_add : total (fun a => f a + g a) = total f + total g :=
  finsum_add_distrib (Set.toFinite _) (Set.toFinite _)

theorem total_mono (h : ∀ a, f a ≤ g a) : total f ≤ total g := by
  have : Fintype α := Fintype.ofFinite α
  rw [total_eq_sum, total_eq_sum]
  exact Finset.sum_le_sum fun a _ => h a

theorem le_total (a : α) : f a ≤ total f := by
  have : Fintype α := Fintype.ofFinite α
  rw [total_eq_sum]
  exact Finset.single_le_sum (fun _ _ => Nat.zero_le _) (Finset.mem_univ a)

section Decidable

variable [DecidableEq α]

/-- What an entry gains the total gains. -/
theorem total_update (a : α) (v : ℕ) : total (Function.update f a v) + f a = total f + v := by
  have : Fintype α := Fintype.ofFinite α
  rw [total_eq_sum, total_eq_sum, Finset.sum_update_of_mem (Finset.mem_univ a),
    ← Finset.add_sum_erase _ f (Finset.mem_univ a), Finset.sdiff_singleton_eq_erase]
  omega

/-- The total of the entries in a list. -/
theorem total_mem {l : List α} (h : l.Nodup) :
    total (fun a => if a ∈ l then f a else 0) = (l.map f).sum := by
  have : Fintype α := Fintype.ofFinite α
  rw [total_eq_sum, ← List.sum_toFinset f h, ← Finset.sum_filter]
  exact Finset.sum_congr (by ext a; simp) fun _ _ => rfl

end Decidable

end Evm

end Nightfall
