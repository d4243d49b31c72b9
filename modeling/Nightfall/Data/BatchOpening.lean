import Mathlib.Algebra.Polynomial.Roots
import Mathlib.Data.List.GetD
import Mathlib.RingTheory.SimpleRing.Principal

/-!
# Opening many polynomials at two points at once

A prover claims that some polynomials vanish at one point, and others at a second one.  The verifier
weights them with the powers of a challenge `v` and the second batch with a challenge `u`; the prover
gives a quotient for each point, and one equation is checked at a secret point
(`defect`, evaluated there).

The quotients of right claims leave no defect (`defect_eq_zero_of_right`).  If the check passes, then
the claims are right, or a challenge is one of a few values that were fixed before it was drawn, or
the secret is one of the roots of the defect (`right_of_eval_defect`).  These are few where the
degrees are bounded (`card_roots_defect_le`).
-/

namespace Nightfall

namespace BatchOpening

open Polynomial

/-! ### Weighting with powers -/

section Horner

variable {R : Type*} [CommSemiring R]

/-- The sum of the list, weighted with the powers of `v` from the zeroth on. -/
def horner (v : R) : List R → R
  | [] => 0
  | x :: xs => x + v * horner v xs

@[simp] theorem horner_nil (v : R) : horner v [] = 0 := rfl

@[simp] theorem horner_cons (v x : R) (xs : List R) :
    horner v (x :: xs) = x + v * horner v xs := rfl

/-- The weights commute with evaluation. -/
@[simp] theorem eval_horner (v x : R) (ps : List R[X]) :
    (horner (C v) ps).eval x = horner v (ps.map (eval x)) := by
  induction ps with
  | nil => simp
  | cons p ps ih => simp [ih]

theorem horner_map_sub {R ι : Type*} [CommRing R] (v : R) (f g : ι → R) (l : List ι) :
    horner v (l.map fun i => f i - g i) = horner v (l.map f) - horner v (l.map g) := by
  induction l with
  | nil => simp
  | cons i l ih =>
    simp only [List.map_cons, horner_cons, ih]
    ring

/-- The sum as a polynomial in the challenge. -/
noncomputable def inChallenge (xs : List R) : R[X] := horner X (xs.map C)

@[simp] theorem eval_inChallenge (v : R) (xs : List R) : (inChallenge xs).eval v = horner v xs := by
  induction xs with
  | nil => simp [inChallenge]
  | cons x xs ih => simpa [inChallenge] using congrArg (fun y => x + v * y) ih

theorem coeff_inChallenge (xs : List R) (n : ℕ) : (inChallenge xs).coeff n = xs.getD n 0 := by
  induction xs generalizing n with
  | nil => simp [inChallenge]
  | cons x xs ih =>
    have hcons : inChallenge (x :: xs) = C x + X * inChallenge xs := rfl
    cases n with
    | zero => simp [hcons]
    | succ n => simp [hcons, ih]

/-- A list other than zeros gives a polynomial other than zero. -/
theorem inChallenge_eq_zero {xs : List R} : inChallenge xs = 0 ↔ ∀ x ∈ xs, x = 0 := by
  constructor
  · intro h x hx
    obtain ⟨n, hn, rfl⟩ := List.getElem_of_mem hx
    rw [← List.getD_eq_getElem xs 0 hn, ← coeff_inChallenge, h, coeff_zero]
  · intro h
    ext n
    rw [coeff_inChallenge, coeff_zero]
    rcases lt_or_ge n xs.length with hn | hn
    · rw [List.getD_eq_getElem xs 0 hn]
      exact h _ (List.getElem_mem hn)
    · exact List.getD_eq_default xs 0 hn

theorem natDegree_inChallenge_le (xs : List R) :
    (inChallenge xs).natDegree ≤ xs.length - 1 := by
  rw [natDegree_le_iff_coeff_eq_zero]
  intro n hn
  rw [coeff_inChallenge]
  exact List.getD_eq_default xs 0 (by omega)

end Horner

/-! ### Challenges that hide an error -/

section Field

variable {F : Type*} [Field F]

/-- The challenges for which values that are not all zero cancel. -/
noncomputable def cancelling (xs : List F) : Multiset F := (inChallenge xs).roots

/-- They are fewer than the values. -/
theorem card_cancelling_le (xs : List F) : (cancelling xs).card ≤ xs.length - 1 :=
  (card_roots' _).trans (natDegree_inChallenge_le xs)

theorem eq_zero_or_mem_cancelling {v : F} {xs : List F} (h : horner v xs = 0) :
    (∀ x ∈ xs, x = 0) ∨ v ∈ cancelling xs := by
  by_cases hzero : inChallenge xs = 0
  · exact .inl (inChallenge_eq_zero.1 hzero)
  · right
    rw [cancelling, mem_roots hzero, IsRoot, eval_inChallenge, h]

/-! ### The check -/

/-- A point and the polynomials that should vanish there, less the multiple of the quotient. -/
noncomputable def rest (v x : F) (ps : List F[X]) (q : F[X]) : F[X] :=
  horner (C v) ps - (X - C x) * q

@[simp] theorem eval_rest (v x y : F) (ps : List F[X]) (q : F[X]) :
    (rest v x ps q).eval y = horner v (ps.map (eval y)) - (y - x) * q.eval y := by
  simp [rest]

theorem natDegree_horner_le {v : F} {ps : List F[X]} {d : ℕ} (h : ∀ p ∈ ps, p.natDegree ≤ d) :
    (horner (C v) ps).natDegree ≤ d := by
  induction ps with
  | nil => simp
  | cons p ps ih =>
    obtain ⟨hp, hps⟩ := List.forall_mem_cons.1 h
    exact natDegree_add_le_of_degree_le hp ((natDegree_C_mul_le _ _).trans (ih hps))

theorem natDegree_rest_le {v x : F} {ps : List F[X]} {q : F[X]} {d : ℕ}
    (h : ∀ p ∈ ps, p.natDegree ≤ d) (hq : q.natDegree ≤ d) :
    (rest v x ps q).natDegree ≤ d + 1 := by
  have hmultiple : ((X - C x) * q).natDegree ≤ d + 1 := by
    rw [Nat.add_comm d]
    exact natDegree_mul_le_of_le (natDegree_X_sub_C_le x) hq
  rw [rest, ← max_self (d + 1)]
  exact natDegree_sub_le_of_le ((natDegree_horner_le h).trans d.le_succ) hmultiple

/-- What is claimed, and the answer of the prover. -/
structure Claims (F : Type*) [Field F] where
  /-- The two points. -/
  zeta : F
  next : F
  /-- The polynomials that should vanish at each of them. -/
  current : List F[X]
  shifted : List F[X]
  /-- The quotients. -/
  opening : F[X]
  shiftedOpening : F[X]

namespace Claims

variable (c : Claims F) (v u : F)

/-- What the check evaluates at the secret point. -/
noncomputable def defect : F[X] :=
  rest v c.zeta c.current c.opening + C u * rest v c.next c.shifted c.shiftedOpening

/-- All polynomials vanish where they should. -/
def Right : Prop := (∀ p ∈ c.current, p.eval c.zeta = 0) ∧ ∀ p ∈ c.shifted, p.eval c.next = 0

/-- The two parts of the defect, at a point. -/
noncomputable def parts (x : F) : List F :=
  [(rest v c.zeta c.current c.opening).eval x, (rest v c.next c.shifted c.shiftedOpening).eval x]

/-- The first challenges that hide an error; they depend on the values that are claimed. -/
noncomputable def badV : Multiset F :=
  cancelling (c.current.map (eval c.zeta)) + cancelling (c.shifted.map (eval c.next))

/-- The second challenges that hide an error; they depend on the first challenge and on the
quotients. -/
noncomputable def badU : Multiset F :=
  cancelling (c.parts v c.zeta) + cancelling (c.parts v c.next)

theorem card_badV_le : c.badV.card ≤ (c.current.length - 1) + (c.shifted.length - 1) := by
  rw [badV, Multiset.card_add]
  refine Nat.add_le_add ?_ ?_
  · exact (card_cancelling_le _).trans_eq (by rw [List.length_map])
  · exact (card_cancelling_le _).trans_eq (by rw [List.length_map])

theorem card_badU_le : (c.badU v).card ≤ 2 := by
  rw [badU, Multiset.card_add]
  exact Nat.add_le_add (card_cancelling_le _) (card_cancelling_le _)

variable {c v u}

theorem eval_defect (x : F) : (c.defect v u).eval x = horner u (c.parts v x) := by
  rw [defect, eval_add, eval_mul, eval_C, parts, horner_cons, horner_cons, horner_nil, mul_zero,
    add_zero]

/-- **What is accepted is right**, or a challenge or the secret was one of few values. -/
theorem right_of_eval_defect {tau : F} (h : (c.defect v u).eval tau = 0) :
    c.Right ∨ v ∈ c.badV ∨ u ∈ c.badU v ∨ tau ∈ (c.defect v u).roots := by
  rcases eq_or_ne (c.defect v u) 0 with hdefect | hdefect
  swap
  · exact .inr (.inr (.inr ((mem_roots hdefect).2 h)))
  -- without a defect both parts vanish at each point, unless `u` makes them cancel
  have hparts (x : F) : (∀ y ∈ c.parts v x, y = 0) ∨ u ∈ cancelling (c.parts v x) := by
    refine eq_zero_or_mem_cancelling ?_
    rw [← eval_defect, hdefect, eval_zero]
  rcases hparts c.zeta with hzeta | hbad
  swap
  · exact .inr (.inr (.inl (Multiset.mem_add.2 (.inl hbad))))
  rcases hparts c.next with hnext | hbad
  swap
  · exact .inr (.inr (.inl (Multiset.mem_add.2 (.inr hbad))))
  -- the quotient does not count at its own point
  have hcurrent : horner v (c.current.map (eval c.zeta)) = 0 := by
    simpa using hzeta _ List.mem_cons_self
  have hshifted : horner v (c.shifted.map (eval c.next)) = 0 := by
    simpa using hnext _ (List.mem_cons_of_mem _ List.mem_cons_self)
  rcases eq_zero_or_mem_cancelling hcurrent with hcurrent | hbad
  swap
  · exact .inr (.inl (Multiset.mem_add.2 (.inl hbad)))
  rcases eq_zero_or_mem_cancelling hshifted with hshifted | hbad
  swap
  · exact .inr (.inl (Multiset.mem_add.2 (.inr hbad)))
  exact .inl ⟨List.forall_mem_map.1 hcurrent, List.forall_mem_map.1 hshifted⟩

/-- The secrets that hide an error are fewer than the degrees allow; the quotients count once more. -/
theorem card_roots_defect_le {d : ℕ} (hcurrent : ∀ p ∈ c.current, p.natDegree ≤ d)
    (hshifted : ∀ p ∈ c.shifted, p.natDegree ≤ d) (hopening : c.opening.natDegree ≤ d)
    (hshiftedOpening : c.shiftedOpening.natDegree ≤ d) : (c.defect v u).roots.card ≤ d + 1 := by
  refine (card_roots' _).trans ?_
  rw [defect]
  refine natDegree_add_le_of_degree_le (natDegree_rest_le hcurrent hopening) ?_
  exact (natDegree_C_mul_le _ _).trans (natDegree_rest_le hshifted hshiftedOpening)

/-- **What is right is accepted**, with the quotients. -/
theorem defect_eq_zero_of_right (h : c.Right)
    (hopening : c.opening = horner (C v) c.current /ₘ (X - C c.zeta))
    (hshifted : c.shiftedOpening = horner (C v) c.shifted /ₘ (X - C c.next)) :
    c.defect v u = 0 := by
  have hrest {x : F} {ps : List F[X]} (hps : ∀ p ∈ ps, p.eval x = 0) :
      rest v x ps (horner (C v) ps /ₘ (X - C x)) = 0 := by
    have hroot : (horner (C v) ps).IsRoot x := by
      rw [IsRoot, eval_horner, ← eval_inChallenge,
        inChallenge_eq_zero.2 (List.forall_mem_map.2 hps), eval_zero]
    rw [rest, mul_divByMonic_eq_iff_isRoot.2 hroot, sub_self]
  rw [defect, hopening, hshifted, hrest h.1, hrest h.2, mul_zero, add_zero]

end Claims

end Field

end BatchOpening

end Nightfall
