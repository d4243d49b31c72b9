import Mathlib.FieldTheory.Finite.Basic
import Nightfall.Node.Words

/-!
# Words modulo the scalar modulus

The verifier computes with words, with the opcodes for sums and products modulo `r_mod`, with a loop
for powers, and with a precompiled contract for inverses.  The element of a word is its residue, so
each operation is the one of the field (`element_addmod` and the lemmas that follow), and its result
is canonical.
-/

namespace Nightfall

namespace Verifier

open Evm
open Node (element)

/-! ### Operations -/

/-- `Bn254Crypto.r_mod`. -/
def rMod : U256 := BitVec.ofNat 256 frModulus

/-- `addmod`: zero for a modulus of zero. -/
def addmod (a b m : U256) : U256 :=
  if m = 0 then 0 else BitVec.ofNat 256 ((a.toNat + b.toNat) % m.toNat)

/-- `mulmod`: zero for a modulus of zero. -/
def mulmod (a b m : U256) : U256 :=
  if m = 0 then 0 else BitVec.ofNat 256 (a.toNat * b.toNat % m.toNat)

/-- `a - b` outside of assembly. -/
def sub (a b : U256) : Except Revert U256 := if b ≤ a then .ok (a - b) else .error .underflow

/-- The loop of `power`; 256 shifts leave nothing of the exponent. -/
def powerLoop (modulus : U256) : ℕ → U256 → U256 → U256 → U256
  | 0, result, _, _ => result
  | k + 1, result, base, exponent =>
    if exponent = 0 then result
    else powerLoop modulus k (if exponent &&& 1 = 0 then result else mulmod result base modulus)
      (mulmod base base modulus) (exponent >>> 1)

/-- `power`. -/
def power (base exponent modulus : U256) : U256 := powerLoop modulus 256 1 base exponent

/-- `invert`: the precompiled contract for powers, with the exponent `r_mod - 2`. -/
def invert (fr : U256) : U256 :=
  BitVec.ofNat 256 (powModAux rMod.toNat 256 1 fr.toNat (rMod - 2).toNat)

/-- `negate_fr`. -/
def negateFr (fr : U256) : U256 :=
  let a := fr % rMod
  if a = 0 then 0 else rMod - a

/-- The word is below the modulus. -/
def Canonical (u : U256) : Prop := u.toNat < frModulus

instance decidableCanonical (u : U256) : Decidable (Canonical u) :=
  inferInstanceAs (Decidable (_ < _))

/-! ### The field -/

theorem toNat_rMod : rMod.toNat = frModulus := by
  rw [rMod, BitVec.toNat_ofNat, Nat.mod_eq_of_lt (by norm_num [frModulus])]

theorem rMod_ne_zero : rMod ≠ 0 := by decide +kernel

theorem toNat_ofNat_mod (x : ℕ) : (BitVec.ofNat 256 (x % frModulus)).toNat = x % frModulus := by
  have hlt : x % frModulus < frModulus := Nat.mod_lt _ (by norm_num [frModulus])
  have hmodulus : frModulus < 2 ^ 256 := by norm_num [frModulus]
  rw [BitVec.toNat_ofNat, Nat.mod_eq_of_lt (hlt.trans hmodulus)]

theorem element_ofNat_mod (x : ℕ) : element (BitVec.ofNat 256 (x % frModulus)) = (x : Fr254) := by
  rw [element, toNat_ofNat_mod, ZMod.natCast_mod]

theorem canonical_ofNat_mod (x : ℕ) : Canonical (BitVec.ofNat 256 (x % frModulus)) := by
  rw [Canonical, toNat_ofNat_mod]
  exact Nat.mod_lt _ (by norm_num [frModulus])

section

variable (a b : U256)

theorem addmod_rMod : addmod a b rMod = BitVec.ofNat 256 ((a.toNat + b.toNat) % frModulus) := by
  rw [addmod, if_neg rMod_ne_zero, toNat_rMod]

theorem mulmod_rMod : mulmod a b rMod = BitVec.ofNat 256 (a.toNat * b.toNat % frModulus) := by
  rw [mulmod, if_neg rMod_ne_zero, toNat_rMod]

@[simp] theorem element_addmod : element (addmod a b rMod) = element a + element b := by
  rw [addmod_rMod, element_ofNat_mod, Nat.cast_add, element, element]

@[simp] theorem element_mulmod : element (mulmod a b rMod) = element a * element b := by
  rw [mulmod_rMod, element_ofNat_mod, Nat.cast_mul, element, element]

theorem canonical_addmod : Canonical (addmod a b rMod) := by
  rw [addmod_rMod]
  exact canonical_ofNat_mod _

theorem canonical_mulmod : Canonical (mulmod a b rMod) := by
  rw [mulmod_rMod]
  exact canonical_ofNat_mod _

@[simp] theorem element_one : element 1 = 1 := by
  rw [element, show (1 : U256).toNat = 1 from rfl, Nat.cast_one]

@[simp] theorem element_zero : element 0 = 0 := by
  rw [element, show (0 : U256).toNat = 0 from rfl, Nat.cast_zero]

theorem canonical_zero : Canonical 0 := by decide +kernel

theorem canonical_one : Canonical 1 := by decide +kernel

@[simp] theorem element_rMod : element rMod = 0 := by
  rw [element, toNat_rMod, ZMod.natCast_self]

end

variable {a b : U256}

theorem element_sub_of_le (h : b ≤ a) : element (a - b) = element a - element b := by
  have hle : b.toNat ≤ a.toNat := h
  rw [element, BitVec.toNat_sub_of_le h, Nat.cast_sub hle, element, element]

theorem sub_eq_ok {c : U256} : sub a b = .ok c ↔ b ≤ a ∧ a - b = c := by
  unfold sub
  split_ifs with h
  · simp [h]
  · refine iff_of_false ?_ fun hand => h hand.1
    intro heq
    cases heq

theorem eq_of_element_eq (ha : Canonical a) (hb : Canonical b) (h : element a = element b) :
    a = b := by
  have hmod := (ZMod.natCast_eq_natCast_iff' _ _ _).1 h
  rw [Nat.mod_eq_of_lt ha, Nat.mod_eq_of_lt hb] at hmod
  exact BitVec.eq_of_toNat_eq hmod

theorem toNat_mod_rMod (a : U256) : (a % rMod).toNat = a.toNat % frModulus := by
  rw [BitVec.toNat_umod, toNat_rMod]

@[simp] theorem element_negateFr (a : U256) : element (negateFr a) = -element a := by
  have hmod : element (a % rMod) = element a := by
    rw [element, toNat_mod_rMod, ZMod.natCast_mod, element]
  have hle : a % rMod ≤ rMod := by
    rw [BitVec.le_def, toNat_mod_rMod, toNat_rMod]
    exact (Nat.mod_lt _ (by norm_num [frModulus])).le
  unfold negateFr
  dsimp only
  split_ifs with hzero
  · rw [← hmod, hzero, element_zero, neg_zero]
  · rw [element_sub_of_le hle, element_rMod, hmod, zero_sub]

theorem toNat_rMod_sub_two : (rMod - 2).toNat = frModulus - 2 := by decide +kernel

/-- Fermat's inverse, which is zero for zero. -/
theorem pow_modulus_sub_two (x : Fr254) : x ^ (frModulus - 2) = x⁻¹ := by
  have hexp : frModulus - 1 = frModulus - 2 + 1 := by norm_num [frModulus]
  by_cases hx : x = 0
  · rw [hx, inv_zero, zero_pow (by norm_num [frModulus])]
  · have hone := ZMod.pow_card_sub_one_eq_one hx
    rw [hexp, pow_succ] at hone
    exact eq_inv_of_mul_eq_one_left hone

theorem invert_eq (a : U256) :
    invert a = BitVec.ofNat 256 (a.toNat ^ (frModulus - 2) % frModulus) := by
  have hlt : frModulus - 2 < 2 ^ 256 := by norm_num [frModulus]
  rw [invert, toNat_rMod, toNat_rMod_sub_two, powModAux_eq _ hlt, one_mul]

@[simp] theorem element_invert (a : U256) : element (invert a) = (element a)⁻¹ := by
  rw [invert_eq, element_ofNat_mod, Nat.cast_pow, pow_modulus_sub_two, element]

/-- The loop multiplies by the power that the bits of the exponent make up. -/
theorem powerLoop_spec {k : ℕ} {result base exponent : U256} (hresult : Canonical result)
    (hexponent : exponent.toNat < 2 ^ k) :
    Canonical (powerLoop rMod k result base exponent) ∧
      element (powerLoop rMod k result base exponent) =
        element result * element base ^ exponent.toNat := by
  induction k generalizing result base exponent with
  | zero =>
    have hzero : exponent.toNat = 0 := by simpa using hexponent
    rw [powerLoop, hzero, pow_zero, mul_one]
    exact ⟨hresult, rfl⟩
  | succ k ih =>
    have hhalf : (exponent >>> 1).toNat = exponent.toNat / 2 := by
      rw [BitVec.toNat_ushiftRight, Nat.shiftRight_eq_div_pow, pow_one]
    have hlt : exponent.toNat / 2 < 2 ^ k := by
      rw [pow_succ] at hexponent
      omega
    rw [powerLoop]
    split_ifs with hzero hodd
    · rw [hzero, show (0 : U256).toNat = 0 from rfl, pow_zero, mul_one]
      exact ⟨hresult, rfl⟩
    · have heven : exponent.toNat = 2 * (exponent.toNat / 2) := by
        have h := congrArg BitVec.toNat hodd
        rw [BitVec.toNat_and, show (1 : U256).toNat = 1 from rfl, Nat.and_one_is_mod,
          show (0 : U256).toNat = 0 from rfl] at h
        omega
      obtain ⟨hcanonical, heq⟩ := @ih result (mulmod base base rMod) (exponent >>> 1) hresult
        (by rwa [hhalf])
      refine ⟨hcanonical, ?_⟩
      rw [heq, hhalf, element_mulmod, ← sq, ← pow_mul, ← heven]
    · have hodd : exponent.toNat = 2 * (exponent.toNat / 2) + 1 := by
        have h : (exponent &&& 1).toNat ≠ 0 := fun h => hodd (BitVec.eq_of_toNat_eq h)
        rw [BitVec.toNat_and, show (1 : U256).toNat = 1 from rfl, Nat.and_one_is_mod] at h
        omega
      obtain ⟨hcanonical, heq⟩ := @ih (mulmod result base rMod) (mulmod base base rMod)
        (exponent >>> 1) (canonical_mulmod _ _) (by rwa [hhalf])
      refine ⟨hcanonical, ?_⟩
      rw [heq, hhalf, element_mulmod, element_mulmod, ← sq, ← pow_mul]
      conv_rhs => rw [hodd, pow_succ]
      ring

theorem element_power (a e : U256) : element (power a e rMod) = element a ^ e.toNat := by
  rw [power, (powerLoop_spec canonical_one e.isLt).2, element_one, one_mul]

theorem canonical_power (a e : U256) : Canonical (power a e rMod) :=
  (powerLoop_spec canonical_one e.isLt).1

end Verifier

end Nightfall
