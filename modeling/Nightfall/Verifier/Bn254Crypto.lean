import Nightfall.Evm.Revert
import Nightfall.Verifier.Arithmetic
import Nightfall.Verifier.Types

/-!
# The curve operations of the verifier

Sums, multiples and pairings are precompiled contracts, which are parameters.  What the library does
around them is modelled: the checks of points and scalars, the loop of a sum of multiples, negation,
and the reduction of a hash.
-/

namespace Nightfall

namespace Verifier

open Evm
open Node (element)

/-- The precompiled contracts for the curve; a call that fails returns nothing. -/
structure Precompiles where
  ecAdd : G1Point → G1Point → Option G1Point
  ecMul : G1Point → U256 → Option G1Point
  /-- Whether the product of the pairings of these words is one. -/
  ecPairing : List U256 → Option Bool

/-- `p_mod`. -/
def pMod : U256 := BitVec.ofNat 256 fqModulus

/-- The word of a comparison. -/
def ofBool (b : Bool) : U256 := if b then 1 else 0

/-! ### Checks -/

/-- `validate_G1Point`. -/
def validateG1Point (point : G1Point) : Except Revert Unit :=
  let x := point.x
  let y := point.y
  let ok := ((ofBool (x < pMod) &&& ofBool (y < pMod)) &&&
      ~~~(ofBool (x = 0) &&& ofBool (y = 0))) &&&
    ofBool (mulmod y y pMod = addmod (mulmod x (mulmod x x pMod) pMod) 3 pMod)
  require (ok ≠ 0) "Bn254: G1 point not on curve, or malformed"

/-- `validate_scalar_field`. -/
def validateScalarField (fr : U256) : Except Revert Unit :=
  require (fr < rMod) "Bn254: invalid scalar field"

/-- The coordinates are canonical, and a point of the curve other than the neutral one. -/
structure G1Point.OnCurve (point : G1Point) : Prop where
  x_lt : point.x.toNat < fqModulus
  y_lt : point.y.toNat < fqModulus
  ne_zero : point ≠ .zero
  equation : (point.y.toNat : Fq254) ^ 2 = (point.x.toNat : Fq254) ^ 3 + 3

/-! ### Operations -/

section

variable (pre : Precompiles)

/-- `isInfinity`. -/
def isInfinity (point : G1Point) : Bool := point.x = 0 && point.y = 0

/-- `negate_G1Point`. -/
def negateG1Point (p : G1Point) : G1Point :=
  if isInfinity p then p
  else
    let y := p.y % pMod
    ⟨p.x % pMod, if y = 0 then 0 else pMod - y⟩

/-- `add`. -/
def add (p1 p2 : G1Point) : Except Revert G1Point :=
  match pre.ecAdd p1 p2 with
  | some r => .ok r
  | none => .error .callFailed

/-- `scalarMul`. -/
def scalarMul (p : G1Point) (s : U256) : Except Revert G1Point :=
  match pre.ecMul p s with
  | some r => .ok r
  | none => .error .callFailed

/-- `multiScalarMul`. -/
def multiScalarMul (bases : List G1Point) (scalars : List U256) : Except Revert G1Point := do
  require (scalars.length = bases.length) "MSM error: length mismatch"
  match bases.zip scalars with
  | [] => .error .outOfBounds
  | first :: rest => do
    let r ← scalarMul pre first.1 first.2
    rest.foldlM (fun r term => do add pre r (← scalarMul pre term.1 term.2)) r

/-- `pairingProd2`. -/
def pairingProd2 (a1 : G1Point) (a2 : G2Point) (b1 : G1Point) (b2 : G2Point) :
    Except Revert Bool := do
  validateG1Point a1
  validateG1Point b1
  match pre.ecPairing [a1.x, a1.y, a2.x0, a2.x1, a2.y0, a2.y1, b1.x, b1.y, b2.x0, b2.x1, b2.y0,
    b2.y1] with
  | some out => .ok out
  | none => .error (.require "Pairing check failed!")

end

/-- `fromBeBytesModOrder`. -/
def fromBeBytesModOrder (beBytes : Bytes) : U256 :=
  beBytes.foldl (fun ret byteVal =>
    addmod (mulmod ret 256 rMod) (byteVal.setWidth 256) rMod) 0

/-! ### What the checks say -/

theorem toNat_pMod : pMod.toNat = fqModulus := by decide +kernel

theorem pMod_ne_zero : pMod ≠ 0 := by decide +kernel

section

variable (a b : U256)

theorem toNat_mulmod_pMod : (mulmod a b pMod).toNat = a.toNat * b.toNat % fqModulus := by
  have hlt : a.toNat * b.toNat % fqModulus < fqModulus := Nat.mod_lt _ (by norm_num [fqModulus])
  have hmodulus : fqModulus < 2 ^ 256 := by norm_num [fqModulus]
  rw [mulmod, if_neg pMod_ne_zero, toNat_pMod, BitVec.toNat_ofNat,
    Nat.mod_eq_of_lt (hlt.trans hmodulus)]

theorem toNat_addmod_pMod : (addmod a b pMod).toNat = (a.toNat + b.toNat) % fqModulus := by
  have hlt : (a.toNat + b.toNat) % fqModulus < fqModulus := Nat.mod_lt _ (by norm_num [fqModulus])
  have hmodulus : fqModulus < 2 ^ 256 := by norm_num [fqModulus]
  rw [addmod, if_neg pMod_ne_zero, toNat_pMod, BitVec.toNat_ofNat,
    Nat.mod_eq_of_lt (hlt.trans hmodulus)]

end

/-- The bits of four comparisons; the negation of a word is not zero where the word is one. -/
theorem ofBool_and_ne_zero (b c d e f : Bool) :
    ((ofBool b &&& ofBool c) &&& ~~~(ofBool d &&& ofBool e)) &&& ofBool f ≠ 0 ↔
      (b = true ∧ c = true) ∧ ¬(d = true ∧ e = true) ∧ f = true := by
  revert b c d e f
  decide

theorem equation_iff (x y : U256) :
    mulmod y y pMod = addmod (mulmod x (mulmod x x pMod) pMod) 3 pMod ↔
      (y.toNat : Fq254) ^ 2 = (x.toNat : Fq254) ^ 3 + 3 := by
  rw [← BitVec.toNat_inj, toNat_mulmod_pMod, toNat_addmod_pMod, toNat_mulmod_pMod,
    toNat_mulmod_pMod, ← ZMod.natCast_eq_natCast_iff']
  have hthree : (3 : U256).toNat = 3 := rfl
  simp only [hthree, Nat.cast_add, Nat.cast_mul, ZMod.natCast_mod, Nat.cast_ofNat]
  rw [← sq, show (x.toNat : Fq254) ^ 3 = x.toNat * (x.toNat * x.toNat) by ring]

/-- **A point that is accepted** is one of the curve, with canonical coordinates. -/
theorem validateG1Point_eq_ok {point : G1Point} :
    validateG1Point point = .ok () ↔ point.OnCurve := by
  obtain ⟨x, y⟩ := point
  have hzero : (⟨x, y⟩ : G1Point) ≠ .zero ↔ ¬(x = 0 ∧ y = 0) := by
    rw [G1Point.zero, ne_eq, G1Point.mk.injEq]
  simp only [validateG1Point, require_eq_ok, ofBool_and_ne_zero, decide_eq_true_eq, equation_iff,
    BitVec.lt_def, toNat_pMod]
  constructor
  · rintro ⟨⟨hx, hy⟩, hne, heq⟩
    exact ⟨hx, hy, hzero.2 hne, heq⟩
  · rintro ⟨hx, hy, hne, heq⟩
    exact ⟨⟨hx, hy⟩, hzero.1 hne, heq⟩

theorem validateScalarField_eq_ok {fr : U256} : validateScalarField fr = .ok () ↔ Canonical fr := by
  rw [validateScalarField, require_eq_ok, BitVec.lt_def, toNat_rMod, Canonical]

/-! ### The reduction of a hash -/

/-- The loop is Horner's rule modulo the scalar modulus. -/
theorem foldl_fromBeBytesModOrder (bs : Bytes) (n : ℕ) :
    bs.foldl (fun ret byteVal => addmod (mulmod ret 256 rMod) (byteVal.setWidth 256) rMod)
        (BitVec.ofNat 256 (n % frModulus)) =
      BitVec.ofNat 256 (bs.foldl (fun n b => 256 * n + b.toNat) n % frModulus) := by
  induction bs generalizing n with
  | nil => rfl
  | cons b bs ih =>
    have hbyte : (b.setWidth 256).toNat = b.toNat := by
      rw [BitVec.toNat_setWidth, Nat.mod_eq_of_lt (b.isLt.trans (by norm_num))]
    have hnumber : (256 : U256).toNat = 256 := rfl
    have hstep : ((n % frModulus * 256 % frModulus + b.toNat) % frModulus) =
        (256 * n + b.toNat) % frModulus := by
      rw [Nat.mod_add_mod, Nat.add_mod, Nat.mod_mul_mod, ← Nat.add_mod, Nat.mul_comm]
    rw [List.foldl_cons, List.foldl_cons, addmod_rMod, mulmod_rMod, toNat_ofNat_mod,
      toNat_ofNat_mod, hbyte, hnumber, hstep, ih]

theorem fromBeBytesModOrder_toBytesBE (x : U256) :
    fromBeBytesModOrder (toBytesBE x) = BitVec.ofNat 256 (x.toNat % frModulus) := by
  have hall := foldl_take_toBytesBE x le_rfl
  rw [List.take_of_length_le (length_toBytesBE x).le, Nat.sub_self, Nat.mul_zero, pow_zero,
    Nat.div_one] at hall
  have h := foldl_fromBeBytesModOrder (toBytesBE x) 0
  rw [hall] at h
  exact h

end Verifier

end Nightfall
