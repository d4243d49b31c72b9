import Mathlib.Data.BitVec
import Mathlib.Data.List.OfFn
import Mathlib.Data.List.Forall2

/-!
# Words and their encoding

EVM words, and `abi.encode` of a sequence of them: 32 bytes for each word, most significant
first.  The encoding is injective (`abiEncode_injective`), so a collision of a hash of encoded
words is a collision of the hash.
-/

namespace Nightfall

namespace Evm

/-- A 256-bit word. -/
abbrev U256 := BitVec 256

/-- The index types of arrays of two elements. -/
instance neZeroTwo : NeZero 2 := ⟨by decide⟩

/-- The index types of arrays of three elements. -/
instance neZeroThree : NeZero 3 := ⟨by decide⟩

/-- The index types of arrays of four elements. -/
instance neZeroFour : NeZero 4 := ⟨by decide⟩

/-- A byte string. -/
abbrev Bytes := List (BitVec 8)

/-- The 32 bytes of a word, most significant first. -/
def toBytesBE (x : U256) : Bytes := List.ofFn fun i : Fin 32 => x.extractLsb' (8 * (31 - i)) 8

/-- `abi.encode` of words. -/
def abiEncode (xs : List U256) : Bytes := xs.flatMap toBytesBE

/-- The word with the given bytes, most significant first. -/
def fromBytesBE (bs : Bytes) : U256 :=
  BitVec.ofNat 256 (bs.foldl (fun n b => 256 * n + b.toNat) 0)

@[simp] theorem length_toBytesBE (x : U256) : (toBytesBE x).length = 32 := List.length_ofFn

theorem length_abiEncode (xs : List U256) : (abiEncode xs).length = 32 * xs.length := by
  simp [abiEncode, List.length_flatMap, Nat.mul_comm]

theorem toBytesBE_injective : Function.Injective toBytesBE := by
  intro x y h
  have hbyte : ∀ i : Fin 32, x.extractLsb' (8 * (31 - i)) 8 = y.extractLsb' (8 * (31 - i)) 8 :=
    congrFun (List.ofFn_injective h)
  refine BitVec.eq_of_getLsbD_eq fun j hj => ?_
  have hbit := congrArg (fun b => b.getLsbD (j % 8)) (hbyte ⟨31 - j / 8, by omega⟩)
  simp only [BitVec.getLsbD_extractLsb'] at hbit
  rw [show 8 * (31 - (31 - j / 8)) + j % 8 = j by omega] at hbit
  simpa [Nat.mod_lt] using hbit

theorem abiEncode_injective : Function.Injective abiEncode := by
  intro xs
  induction xs with
  | nil =>
    intro ys h
    have hlen := congrArg List.length h
    rw [length_abiEncode, length_abiEncode, List.length_nil] at hlen
    exact (List.eq_nil_of_length_eq_zero (by omega)).symm
  | cons x xs ih =>
    intro ys h
    cases ys with
    | nil => simpa [length_abiEncode] using congrArg List.length h
    | cons y ys =>
      obtain ⟨hxy, htail⟩ := List.append_inj h (by simp)
      rw [toBytesBE_injective hxy, ih htail]

/-- The number that the first `k` bytes of a word give. -/
theorem foldl_take_toBytesBE (x : U256) {k : ℕ} (hk : k ≤ 32) :
    ((toBytesBE x).take k).foldl (fun n b => 256 * n + b.toNat) 0 =
      x.toNat / 2 ^ (8 * (32 - k)) := by
  induction k with
  | zero =>
    have hx : x.toNat / 2 ^ 256 = 0 := Nat.div_eq_of_lt x.isLt
    simpa using hx.symm
  | succ k ih =>
    have hlen : k < (toBytesBE x).length := by rw [length_toBytesBE]; omega
    have hbyte : (toBytesBE x)[k] = x.extractLsb' (8 * (31 - k)) 8 := List.get_ofFn _ ⟨k, hlen⟩
    have hpow : 2 ^ (8 * (32 - k)) = 2 ^ (8 * (31 - k)) * 256 := by
      rw [show 8 * (32 - k) = 8 * (31 - k) + 8 by omega, Nat.pow_add]
    rw [List.take_add_one, List.getElem?_eq_getElem hlen, hbyte, List.foldl_append,
      ih (by omega), hpow, ← Nat.div_div_eq_div_mul, show 32 - (k + 1) = 31 - k by omega]
    simp only [Option.toList_some, List.foldl_cons, List.foldl_nil, BitVec.extractLsb'_toNat,
      Nat.shiftRight_eq_div_pow]
    exact Nat.div_add_mod _ 256

theorem fromBytesBE_toBytesBE (x : U256) : fromBytesBE (toBytesBE x) = x := by
  have h := foldl_take_toBytesBE x (le_refl 32)
  rw [List.take_of_length_le (length_toBytesBE x).le] at h
  rw [fromBytesBE, h]
  simp

end Evm

end Nightfall
