import Nightfall.Data.EvaluationDomain
import Nightfall.Verifier.Arithmetic

/-!
# Polynomials of the evaluation domain

The verifier evaluates four polynomials at the challenge: the one that vanishes on the domain, the
Lagrange polynomials of the first and of the last element, and the one through the public inputs.
The last one inverts the product of all divisors at once, and multiplies by all but one of them.

On a consistent domain and outside of it the values are those of the polynomials
(`evalDataGen_eq_ok`), for any number of public inputs up to the size of the domain.
-/

namespace Nightfall

namespace Verifier

open Evm
open Finset
open Node (element)
open EvaluationDomain (lagrange)

/-- `EvalDomain`. -/
structure EvalDomain where
  size : U256
  sizeInv : U256
  groupGen : U256
  groupGenInv : U256
  deriving DecidableEq

/-- `EvalData`. -/
structure EvalData where
  vanishEval : U256
  lagrange1Eval : U256
  piEval : U256
  lagrangeNEval : U256
  deriving DecidableEq

/-! ### The contract -/

section

variable (self : EvalDomain) (zeta vanishEval : U256)

/-- `evaluate_VanishingPoly`. -/
def evaluateVanishingPoly : Except Revert U256 := sub (power zeta self.size rMod) 1

/-- `evaluate_lagrange_1_n`. -/
def evaluateLagrange1N : Except Revert (U256 × U256) := do
  let divisor1 := mulmod self.size (← sub zeta 1) rMod
  let divisor1 := invert divisor1
  let lagrange1Eval := mulmod vanishEval divisor1 rMod
  let divisorN := mulmod self.size (addmod zeta (negateFr self.groupGenInv) rMod) rMod
  let divisorN := invert divisorN
  let lagrangeNEval := mulmod vanishEval (mulmod self.groupGenInv divisorN rMod) rMod
  return (lagrange1Eval, lagrangeNEval)

/-- The loop of `domain_elements`: powers of the generator from `tmp` on. -/
def powersFrom (groupGen : U256) : ℕ → U256 → List U256
  | 0, _ => []
  | k + 1, tmp => tmp :: powersFrom groupGen k (mulmod tmp groupGen rMod)

/-- `domain_elements`.  What it writes behind an array without elements is overwritten by the next
allocation. -/
def domainElements (length : ℕ) : List U256 := powersFrom self.groupGen length 1

/-- `ithDivisor`; the difference wraps. -/
def ithDivisor (tmp : U256) : U256 := addmod (rMod - tmp) zeta rMod

/-- The inner loop of `evaluate_PiPoly`: all divisors but the `i`-th one. -/
def mulOthers (divisors : List U256) (i : ℕ) (ithLagrange : U256) : U256 :=
  (List.range divisors.length).foldl
    (fun acc j => if i = j then acc else mulmod acc (divisors.getD j 0) rMod) ithLagrange

/-- `evaluate_PiPoly`. -/
def evaluatePiPoly (publicInput : List U256) : U256 :=
  if vanishEval = 0 then 0
  else
    let length := publicInput.length
    let vanishEvalDivN := mulmod self.sizeInv vanishEval rMod
    let elements := domainElements self length
    let divisors := elements.map (ithDivisor zeta)
    let divisorProd := divisors.foldl (fun prod divisor => mulmod prod divisor rMod) 1
    let divisorProd := invert divisorProd
    (List.range length).foldl (fun res i =>
      let ithLagrange := mulmod vanishEvalDivN (elements.getD i 0) rMod
      let ithLagrange := mulmod ithLagrange divisorProd rMod
      let ithLagrange := mulOthers divisors i ithLagrange
      let ithLagrange := mulmod ithLagrange (publicInput.getD i 0) rMod
      addmod res ithLagrange rMod) 0

/-- `evalDataGen`. -/
def evalDataGen (publicInput : List U256) : Except Revert EvalData := do
  let vanishEval ← evaluateVanishingPoly self zeta
  let lagrangeEvals ← evaluateLagrange1N self zeta vanishEval
  let piEval := evaluatePiPoly self zeta vanishEval publicInput
  return ⟨vanishEval, lagrangeEvals.1, piEval, lagrangeEvals.2⟩

/-- The evaluation of the public input with which `compute_lin_poly_constant_term` begins. -/
def evaluatePublicInput (evalData : EvalData) (publicInput : U256) : U256 :=
  let vanishEvalDivN := mulmod self.sizeInv evalData.vanishEval rMod
  mulmod publicInput (mulmod vanishEvalDivN (invert (addmod zeta (rMod - 1) rMod)) rMod) rMod

end

/-! ### Consistent domains -/

/-- The domain is one of a power of two many elements, with the inverses of its size and its
generator. -/
structure EvalDomain.Consistent (d : EvalDomain) : Prop where
  size_eq : ∃ k, d.size.toNat = 2 ^ k
  sizeInv_mul : element d.sizeInv * element d.size = 1
  groupGen_primitive : IsPrimitiveRoot (element d.groupGen) d.size.toNat
  groupGen_mul : element d.groupGen * element d.groupGenInv = 1

namespace EvalDomain.Consistent

variable {d : EvalDomain} (h : d.Consistent)

include h

theorem size_pos : 0 < d.size.toNat := by
  obtain ⟨k, hk⟩ := h.size_eq
  rw [hk]
  exact Nat.two_pow_pos k

theorem sizeInv_eq : element d.sizeInv = (d.size.toNat : Fr254)⁻¹ :=
  eq_inv_of_mul_eq_one_left h.sizeInv_mul

/-- The inverse generator is the last element of the domain. -/
theorem groupGenInv_eq : element d.groupGenInv = element d.groupGen ^ (d.size.toNat - 1) := by
  have hpow := h.groupGen_primitive.pow_eq_one
  rw [← mul_pow_sub_one h.size_pos.ne'] at hpow
  exact mul_left_cancel₀ (left_ne_zero_of_mul_eq_one hpow) (h.groupGen_mul.trans hpow.symm)

end EvalDomain.Consistent

/-! ### The values -/

section

variable {d : EvalDomain} {zeta : U256}

theorem sub_one_eq_ok {a : U256} (ha : element a ≠ 0) :
    sub a 1 = .ok (a - 1) ∧ element (a - 1) = element a - 1 := by
  have hne : a ≠ 0 := by
    rintro rfl
    exact ha element_zero
  have hle : (1 : U256) ≤ a := by
    have hpos : a.toNat ≠ 0 := fun h => hne (BitVec.eq_of_toNat_eq h)
    exact Nat.pos_of_ne_zero hpos
  exact ⟨sub_eq_ok.2 ⟨hle, rfl⟩, (element_sub_of_le hle).trans (by rw [element_one])⟩

/-- **The value of the vanishing polynomial.** -/
theorem evaluateVanishingPoly_eq_ok (hzeta : element zeta ≠ 0) :
    ∃ v, evaluateVanishingPoly d zeta = .ok v ∧ Canonical v ∧
      element v = element zeta ^ d.size.toNat - 1 := by
  have hpower : element (power zeta d.size rMod) ≠ 0 := by
    rw [element_power]
    exact pow_ne_zero _ hzeta
  obtain ⟨hsub, helement⟩ := sub_one_eq_ok hpower
  refine ⟨_, hsub, ?_, by rw [helement, element_power]⟩
  have hlt := canonical_power zeta d.size
  have hle : (1 : U256) ≤ power zeta d.size rMod := (sub_eq_ok.1 hsub).1
  rw [Canonical, BitVec.toNat_sub_of_le hle]
  exact (Nat.sub_le _ _).trans_lt hlt

/-- **The values of the first and of the last Lagrange polynomial.** -/
theorem evaluateLagrange1N_eq_ok (h : d.Consistent) (hzeta : element zeta ≠ 0)
    (houtside : element zeta ^ d.size.toNat ≠ 1) {v : U256}
    (hv : element v = element zeta ^ d.size.toNat - 1) :
    ∃ l, evaluateLagrange1N d zeta v = .ok l ∧ (Canonical l.1 ∧ Canonical l.2) ∧
      element l.1 = (lagrange (element d.groupGen) d.size.toNat 0).eval (element zeta) ∧
      element l.2 =
        (lagrange (element d.groupGen) d.size.toNat (d.size.toNat - 1)).eval (element zeta) := by
  obtain ⟨hsub, helement⟩ := sub_one_eq_ok hzeta
  have hpos := h.size_pos
  have hsize : element d.size = (d.size.toNat : Fr254) := rfl
  rw [evaluateLagrange1N, hsub]
  refine ⟨_, rfl, ⟨canonical_mulmod _ _, canonical_mulmod _ _⟩, ?_, ?_⟩
  · rw [EvaluationDomain.eval_lagrange h.groupGen_primitive hpos houtside]
    simp only [element_mulmod, element_invert, helement, hv, hsize, mul_inv, pow_zero]
    ring
  · rw [EvaluationDomain.eval_lagrange h.groupGen_primitive (Nat.sub_lt hpos one_pos) houtside,
      ← h.groupGenInv_eq]
    simp only [element_mulmod, element_invert, element_addmod, element_negateFr, hv, hsize, mul_inv]
    ring

/-! ### The public inputs -/

theorem length_powersFrom (g : U256) (k : ℕ) (tmp : U256) : (powersFrom g k tmp).length = k := by
  induction k generalizing tmp with
  | zero => rfl
  | succ k ih => rw [powersFrom, List.length_cons, ih]

/-- The elements are the powers of the generator, all of them canonical. -/
theorem getD_powersFrom (g : U256) {k i : ℕ} (hi : i < k) {tmp : U256} (htmp : Canonical tmp) :
    Canonical ((powersFrom g k tmp).getD i 0) ∧
      element ((powersFrom g k tmp).getD i 0) = element tmp * element g ^ i := by
  induction k generalizing i tmp with
  | zero => exact absurd hi (Nat.not_lt_zero i)
  | succ k ih =>
    cases i with
    | zero =>
      rw [powersFrom, List.getD_cons_zero, pow_zero, mul_one]
      exact ⟨htmp, rfl⟩
    | succ i =>
      obtain ⟨hcanonical, heq⟩ := ih (Nat.lt_of_succ_lt_succ hi) (canonical_mulmod tmp g)
      rw [powersFrom, List.getD_cons_succ, heq, element_mulmod, pow_succ']
      exact ⟨hcanonical, mul_assoc _ _ _⟩

theorem element_ithDivisor {tmp : U256} (h : Canonical tmp) :
    element (ithDivisor zeta tmp) = element zeta - element tmp := by
  have hle : tmp ≤ rMod := by
    rw [BitVec.le_def, toNat_rMod]
    exact h.le
  rw [ithDivisor, element_addmod, element_sub_of_le hle, element_rMod]
  ring

theorem element_foldl_mulmod (divisors : List U256) (acc : U256) :
    element (divisors.foldl (fun prod divisor => mulmod prod divisor rMod) acc) =
      element acc * ∏ j ∈ range divisors.length, element (divisors.getD j 0) := by
  induction divisors generalizing acc with
  | nil => rw [List.foldl_nil, List.length_nil, prod_range_zero, mul_one]
  | cons divisor divisors ih =>
    rw [List.foldl_cons, ih, element_mulmod, List.length_cons, prod_range_succ',
      List.getD_cons_zero]
    simp only [List.getD_cons_succ]
    ring

theorem element_mulOthers (divisors : List U256) {i : ℕ} (hi : i < divisors.length) (acc : U256) :
    element (mulOthers divisors i acc) * element (divisors.getD i 0) =
      element acc * ∏ j ∈ range divisors.length, element (divisors.getD j 0) := by
  have hloop (k : ℕ) : element ((List.range k).foldl
      (fun acc j => if i = j then acc else mulmod acc (divisors.getD j 0) rMod) acc) =
        element acc * ∏ j ∈ range k, if i = j then 1 else element (divisors.getD j 0) := by
    induction k with
    | zero => rw [List.range_zero, List.foldl_nil, prod_range_zero, mul_one]
    | succ k ih =>
      rw [List.range_succ, List.foldl_append, List.foldl_cons, List.foldl_nil, prod_range_succ,
        ← mul_assoc, ← ih]
      split_ifs
      · rw [mul_one]
      · rw [element_mulmod]
  have hsplit : ∀ j ∈ range divisors.length, element (divisors.getD j 0) =
      (if i = j then 1 else element (divisors.getD j 0)) *
        if i = j then element (divisors.getD j 0) else 1 := by
    intro j _
    split_ifs <;> simp
  rw [mulOthers, hloop, prod_congr rfl hsplit, prod_mul_distrib, prod_ite_eq,
    if_pos (mem_range.2 hi), mul_assoc]

theorem element_foldl_addmod (f : ℕ → U256) (k : ℕ) :
    Canonical ((List.range k).foldl (fun res i => addmod res (f i) rMod) 0) ∧
      element ((List.range k).foldl (fun res i => addmod res (f i) rMod) 0) =
        ∑ i ∈ range k, element (f i) := by
  induction k with
  | zero =>
    rw [List.range_zero, List.foldl_nil, sum_range_zero]
    exact ⟨canonical_zero, element_zero⟩
  | succ k ih =>
    rw [List.range_succ, List.foldl_append, List.foldl_cons, List.foldl_nil, sum_range_succ]
    exact ⟨canonical_addmod _ _, by rw [element_addmod, ih.2]⟩

/-- **The value of the polynomial through the public inputs.** -/
theorem evaluatePiPoly_spec (h : d.Consistent) (houtside : element zeta ^ d.size.toNat ≠ 1)
    {v : U256} (hcanonical : Canonical v) (hv : element v = element zeta ^ d.size.toNat - 1)
    {publicInput : List U256} (hlength : publicInput.length ≤ d.size.toNat) :
    Canonical (evaluatePiPoly d zeta v publicInput) ∧
      element (evaluatePiPoly d zeta v publicInput) =
        ∑ i ∈ range publicInput.length, element (publicInput.getD i 0) *
          (lagrange (element d.groupGen) d.size.toNat i).eval (element zeta) := by
  have hne : v ≠ 0 := by
    rintro rfl
    rw [element_zero] at hv
    exact houtside (sub_eq_zero.1 hv.symm)
  rw [evaluatePiPoly, if_neg hne]
  dsimp only
  obtain ⟨hsum, hterms⟩ := element_foldl_addmod _ publicInput.length
  refine ⟨hsum, hterms.trans (sum_congr rfl fun i hi => ?_)⟩
  have hi := mem_range.1 hi
  set elements := domainElements d publicInput.length with helements
  set divisors := elements.map (ithDivisor zeta) with hdivisors
  have hlen : elements.length = publicInput.length := length_powersFrom _ _ _
  have hlenDivisors : divisors.length = publicInput.length := by
    rw [hdivisors, List.length_map, hlen]
  have hpower {j : ℕ} (hj : j < publicInput.length) :
      Canonical (elements.getD j 0) ∧ element (elements.getD j 0) = element d.groupGen ^ j := by
    have hspec := getD_powersFrom d.groupGen hj canonical_one
    rwa [element_one, one_mul] at hspec
  have hdivisor {j : ℕ} (hj : j < publicInput.length) :
      element (divisors.getD j 0) = element zeta - element d.groupGen ^ j := by
    obtain ⟨hword, helement⟩ := hpower hj
    rw [← helement, ← element_ithDivisor hword, hdivisors,
      List.getD_eq_getElem _ _ (by rw [List.length_map, hlen]; exact hj), List.getElem_map,
      List.getD_eq_getElem _ _ (by rw [hlen]; exact hj)]
  have hnonzero {j : ℕ} (hj : j < publicInput.length) : element (divisors.getD j 0) ≠ 0 := by
    rw [hdivisor hj]
    exact sub_ne_zero.2 (EvaluationDomain.ne_pow_of_pow_ne_one h.groupGen_primitive houtside j)
  have hprod : ∏ j ∈ range divisors.length, element (divisors.getD j 0) ≠ 0 := by
    refine prod_ne_zero_iff.2 fun j hj => hnonzero ?_
    rw [← hlenDivisors]
    exact mem_range.1 hj
  -- the inverse of the product cancels against the others, and leaves the inverse of this divisor
  have hothers (acc : U256) : element (mulOthers divisors i acc) = element acc *
      (∏ j ∈ range divisors.length, element (divisors.getD j 0)) *
        (element zeta - element d.groupGen ^ i)⁻¹ := by
    rw [← element_mulOthers divisors (hlenDivisors ▸ hi), hdivisor hi,
      mul_inv_cancel_right₀ (hdivisor hi ▸ hnonzero hi)]
  rw [EvaluationDomain.eval_lagrange h.groupGen_primitive (hi.trans_le hlength) houtside,
    element_mulmod, hothers, element_mulmod, element_mulmod, element_mulmod, (hpower hi).2, hv,
    h.sizeInv_eq, element_invert, element_foldl_mulmod, element_one, one_mul]
  field_simp

/-- The first Lagrange polynomial suffices where all inputs but the first are zero. -/
theorem evaluatePublicInput_spec (h : d.Consistent) (houtside : element zeta ^ d.size.toNat ≠ 1)
    {evalData : EvalData} (hv : element evalData.vanishEval = element zeta ^ d.size.toNat - 1)
    (publicInput : U256) :
    Canonical (evaluatePublicInput d zeta evalData publicInput) ∧
      element (evaluatePublicInput d zeta evalData publicInput) = element publicInput *
        (lagrange (element d.groupGen) d.size.toNat 0).eval (element zeta) := by
  have hle : (1 : U256) ≤ rMod := by decide +kernel
  refine ⟨canonical_mulmod _ _, ?_⟩
  rw [EvaluationDomain.eval_lagrange h.groupGen_primitive h.size_pos houtside, evaluatePublicInput]
  simp only [element_mulmod, element_invert, element_addmod, element_sub_of_le hle, element_rMod,
    element_one, hv, h.sizeInv_eq, pow_zero, mul_one, zero_sub, ← sub_eq_add_neg]

/-- **The evaluations of a domain.**  Outside of a consistent domain no subtraction reverts, the
four evaluations are canonical and the values of their polynomials, and a list whose inputs but the
first are zero has the value that is computed again from the first one. -/
theorem evalDataGen_eq_ok (h : d.Consistent) (hzeta : element zeta ≠ 0)
    (houtside : element zeta ^ d.size.toNat ≠ 1) {publicInput : List U256}
    (hlength : publicInput.length ≤ d.size.toNat) :
    ∃ evalData, evalDataGen d zeta publicInput = .ok evalData ∧
      (Canonical evalData.vanishEval ∧
        element evalData.vanishEval = element zeta ^ d.size.toNat - 1) ∧
      (Canonical evalData.lagrange1Eval ∧ element evalData.lagrange1Eval =
        (lagrange (element d.groupGen) d.size.toNat 0).eval (element zeta)) ∧
      (Canonical evalData.lagrangeNEval ∧ element evalData.lagrangeNEval =
        (lagrange (element d.groupGen) d.size.toNat (d.size.toNat - 1)).eval (element zeta)) ∧
      (Canonical evalData.piEval ∧ element evalData.piEval =
        ∑ i ∈ range publicInput.length, element (publicInput.getD i 0) *
          (lagrange (element d.groupGen) d.size.toNat i).eval (element zeta)) ∧
      ∀ input rest, publicInput = input :: rest → (∀ other ∈ rest, other = 0) →
        evalData.piEval = evaluatePublicInput d zeta evalData input := by
  obtain ⟨v, hvanish, hcanonical, hv⟩ := evaluateVanishingPoly_eq_ok hzeta
  obtain ⟨l, hlagrange, ⟨hfirst, hlast⟩, hfirstEval, hlastEval⟩ :=
    evaluateLagrange1N_eq_ok h hzeta houtside hv
  obtain ⟨hpi, hpiEval⟩ := evaluatePiPoly_spec h houtside hcanonical hv hlength
  refine ⟨⟨v, l.1, evaluatePiPoly d zeta v publicInput, l.2⟩, ?_, ⟨hcanonical, hv⟩,
    ⟨hfirst, hfirstEval⟩, ⟨hlast, hlastEval⟩, ⟨hpi, hpiEval⟩, ?_⟩
  · rw [evalDataGen, hvanish, ok_bind, hlagrange]
    rfl
  · rintro input rest rfl hrest
    obtain ⟨hagain, hagainEval⟩ := @evaluatePublicInput_spec d zeta h houtside
      ⟨v, l.1, evaluatePiPoly d zeta v (input :: rest), l.2⟩ hv input
    refine eq_of_element_eq hpi hagain ?_
    have hzero (i : ℕ) : element (rest.getD i 0) = 0 := by
      rw [← element_zero]
      refine congrArg element ?_
      by_cases hi : i < rest.length
      · rw [List.getD_eq_getElem _ _ hi]
        exact hrest _ (List.getElem_mem hi)
      · exact List.getD_eq_default _ _ (not_lt.1 hi)
    rw [hpiEval, hagainEval, List.length_cons, sum_range_succ', List.getD_cons_zero, add_eq_right]
    refine sum_eq_zero fun i _ => ?_
    rw [List.getD_cons_succ, hzero, zero_mul]

/-- The domain of the two square roots of one. -/
def sampleDomain : EvalDomain :=
  ⟨2, BitVec.ofNat 256 ((frModulus + 1) / 2), rMod - 1, rMod - 1⟩

theorem frModulus_ne_two : frModulus ≠ 2 := by decide +kernel

theorem sampleDomain_consistent : sampleDomain.Consistent := by
  have hle : (1 : U256) ≤ rMod := by decide +kernel
  have hgen : element sampleDomain.groupGen = -1 := by
    rw [sampleDomain, element_sub_of_le hle, element_rMod, element_one, zero_sub]
  refine ⟨⟨1, rfl⟩, by decide +kernel, ?_, ?_⟩
  · rw [hgen]
    exact IsPrimitiveRoot.neg_one frModulus frModulus_ne_two
  · rw [hgen, show element sampleDomain.groupGenInv = -1 from hgen]
    ring

theorem evalDataGen_sample : ∃ evalData, evalDataGen sampleDomain 5 [7, 0] = .ok evalData ∧
    evalData.piEval = evaluatePublicInput sampleDomain 5 evalData 7 := by
  have hroot : element (5 : U256) ≠ 0 := by decide +kernel
  have hsquare : element (5 : U256) * element 5 ≠ 1 := by decide +kernel
  have houtside : element (5 : U256) ^ sampleDomain.size.toNat ≠ 1 := by
    rw [show sampleDomain.size.toNat = 2 from rfl, sq]
    exact hsquare
  obtain ⟨evalData, hok, -, -, -, -, hagain⟩ :=
    evalDataGen_eq_ok sampleDomain_consistent hroot houtside
      (show [7, 0].length ≤ sampleDomain.size.toNat by decide)
  exact ⟨evalData, hok, hagain 7 [0] rfl (by simp)⟩

end

end Verifier

end Nightfall
