import Mathlib.LinearAlgebra.Lagrange
import Mathlib.RingTheory.Polynomial.Cyclotomic.Basic

/-!
# Evaluation domains

The powers of a primitive root of unity are an evaluation domain: polynomials of a smaller degree
are given by their values there.  The Lagrange polynomials of such a domain have a closed form
outside of it (`eval_lagrange`), so a polynomial is evaluated from its values without interpolation.
-/

namespace Nightfall

namespace EvaluationDomain

open Polynomial Finset

variable {F : Type*} [Field F] {n : ℕ} {ω : F}

/-- The polynomial that is one at `ω ^ i` and zero at the other powers. -/
noncomputable def lagrange (ω : F) (n i : ℕ) : F[X] := Lagrange.basis (range n) (fun j => ω ^ j) i

theorem injOn_pow (hω : IsPrimitiveRoot ω n) :
    Set.InjOn (fun j => ω ^ j) (range n : Finset ℕ) := by
  intro i hi j hj h
  exact hω.pow_inj (mem_range.1 hi) (mem_range.1 hj) h

/-- The polynomial that vanishes on the domain. -/
theorem nodal_eq (hω : IsPrimitiveRoot ω n) (hn : 0 < n) :
    Lagrange.nodal (range n) (fun j => ω ^ j) = (X ^ n - 1 : F[X]) := by
  classical
  have hroots : nthRootsFinset n (1 : F) = (range n).image fun j => ω ^ j := by
    ext x
    rw [mem_nthRootsFinset hn, mem_image]
    constructor
    · intro hx
      have : NeZero n := ⟨hn.ne'⟩
      obtain ⟨i, hi, rfl⟩ := hω.eq_pow_of_pow_eq_one hx
      exact ⟨i, mem_range.2 hi, rfl⟩
    · rintro ⟨i, -, rfl⟩
      rw [← pow_mul, mul_comm, pow_mul, hω.pow_eq_one, one_pow]
  rw [X_pow_sub_one_eq_prod hn hω, hroots, prod_image (injOn_pow hω), Lagrange.nodal_eq]

theorem ne_pow_of_pow_ne_one (hω : IsPrimitiveRoot ω n) {z : F} (hz : z ^ n ≠ 1) (i : ℕ) :
    z ≠ ω ^ i := by
  rintro rfl
  exact hz (by rw [← pow_mul, mul_comm, pow_mul, hω.pow_eq_one, one_pow])

/-- **The Lagrange polynomials outside of the domain.** -/
theorem eval_lagrange (hω : IsPrimitiveRoot ω n) {i : ℕ} (hi : i < n) {z : F} (hz : z ^ n ≠ 1) :
    (lagrange ω n i).eval z = (n : F)⁻¹ * (z ^ n - 1) * ω ^ i * (z - ω ^ i)⁻¹ := by
  have hn : 0 < n := (Nat.zero_le i).trans_lt hi
  have hmem : i ∈ range n := mem_range.2 hi
  have hroot : (ω ^ i) ^ n = 1 := by rw [← pow_mul, mul_comm, pow_mul, hω.pow_eq_one, one_pow]
  -- the derivative of the vanishing polynomial at the root
  have hweight : Lagrange.nodalWeight (range n) (fun j => ω ^ j) i = (n : F)⁻¹ * ω ^ i := by
    have hone : ω ^ i * (ω ^ i) ^ (n - 1) = 1 := by rw [mul_pow_sub_one hn.ne', hroot]
    rw [Lagrange.nodalWeight_eq_eval_derivative_nodal hmem, nodal_eq hω hn]
    simp only [derivative_sub, derivative_X_pow, derivative_one, sub_zero, eval_mul, eval_C,
      eval_pow, eval_X, mul_inv]
    rw [← eq_inv_of_mul_eq_one_left hone]
  rw [lagrange, Lagrange.eval_basis_not_at_node hmem (ne_pow_of_pow_ne_one hω hz i), nodal_eq hω hn,
    hweight]
  simp only [eval_sub, eval_pow, eval_X, eval_one]
  ring

end EvaluationDomain

end Nightfall
