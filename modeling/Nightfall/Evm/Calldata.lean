import Nightfall.Evm.Word

/-!
# Calldata

The arguments of a call, and how compiled code finds them.  Structures and arrays of unknown size
are passed as offsets: the decoder checks an offset, adds it to the address of the structure that it
stands in and finds the length and the elements there.  Addresses are words and wrap around.
-/

namespace Nightfall

namespace Evm

/-- `calldataload`: behind the calldata are zeros. -/
def calldataload (calldata : Bytes) (i : ℕ) : U256 :=
  fromBytesBE ((List.range 32).map fun k => calldata.getD (i + k) 0)

section

variable (calldata : Bytes)

/-- `calldataload` at a word. -/
def load (p : U256) : U256 := calldataload calldata p.toNat

/-- `calldatasize`. -/
def calldatasize : U256 := BitVec.ofNat 256 calldata.length

/-- The greatest offset and the greatest length that the decoder accepts. -/
def maxLength : U256 := 0xffffffffffffffff

/-- The address of the only argument of a function, a structure with a head of `headSize` bytes. -/
def decodeStruct (headSize : U256) : Option U256 :=
  if (calldatasize calldata - 4).slt 0x20 then none
  else
    let offset := load calldata 4
    if maxLength < offset then none
    else
      let value := 4 + offset
      if (calldatasize calldata - value).slt headSize then none else some value

/-- The first element of an array and its length: `ptrToTail` is where the structure at `baseRef` has
the offset of the array, and `stride` the size of an element. -/
def accessCalldataTail (stride baseRef ptrToTail : U256) : Option (U256 × U256) :=
  let relOffsetOfTail := load calldata ptrToTail
  if ¬relOffsetOfTail.slt ((calldatasize calldata - baseRef) - (0x20 - 1)) then none
  else
    let addr := baseRef + relOffsetOfTail
    let length := load calldata addr
    if maxLength < length then none
    else
      let addr := addr + 0x20
      if (calldatasize calldata - length * stride).slt addr then none else some (addr, length)

/-- The address of an element of an array. -/
def indexAccess (stride : U256) (array : U256 × U256) (index : U256) : Option U256 :=
  if index < array.2 then some (array.1 + index * stride) else none

end

variable {calldata : Bytes} {stride baseRef ptrToTail addr length : U256}

/-- What an accepted array is: an address and a length that lie where its offset points to. -/
theorem eq_of_accessCalldataTail
    (h : accessCalldataTail calldata stride baseRef ptrToTail = some (addr, length)) :
    addr = baseRef + load calldata ptrToTail + 0x20 ∧
      length = load calldata (baseRef + load calldata ptrToTail) ∧ length ≤ maxLength := by
  simp only [accessCalldataTail] at h
  split_ifs at h with hoffset hlength hend
  cases h
  exact ⟨rfl, rfl, BitVec.not_lt.1 hlength⟩

theorem indexAccess_eq_some {array : U256 × U256} {index a : U256} :
    indexAccess stride array index = some a ↔ index < array.2 ∧ array.1 + index * stride = a := by
  rw [indexAccess]
  split_ifs with h <;> simp [h]

/-! ### Words in calldata -/

/-- A word that lies in the calldata as a whole. -/
theorem calldataload_eq {calldata : Bytes} {i : ℕ} (h : i + 32 ≤ calldata.length) :
    calldataload calldata i = fromBytesBE ((calldata.drop i).take 32) := by
  refine congrArg fromBytesBE (List.ext_getElem ?_ fun k hk hk' => ?_)
  · rw [List.length_map, List.length_range, List.length_take, List.length_drop]
    omega
  · rw [List.length_map, List.length_range] at hk
    rw [List.getElem_map, List.getElem_range, List.getElem_take, List.getElem_drop,
      List.getD_eq_getElem?_getD, List.getElem?_eq_getElem (by omega), Option.getD_some]

/-- The words of encoded words. -/
theorem calldataload_abiEncode (words : List U256) {i : ℕ} (hi : i < words.length) :
    calldataload (abiEncode words) (32 * i) = words[i] := by
  induction words generalizing i with
  | nil => exact absurd hi (Nat.not_lt_zero i)
  | cons word words ih =>
    have hcons : abiEncode (word :: words) = toBytesBE word ++ abiEncode words := List.flatMap_cons
    rw [List.length_cons] at hi
    rw [calldataload_eq (by rw [length_abiEncode, List.length_cons]; omega), hcons]
    cases i with
    | zero =>
      rw [Nat.mul_zero, List.drop_zero, List.take_left' (length_toBytesBE word),
        fromBytesBE_toBytesBE, List.getElem_cons_zero]
    | succ i =>
      have hdrop : (toBytesBE word ++ abiEncode words).drop (32 * (i + 1)) =
          (abiEncode words).drop (32 * i) := by
        rw [Nat.mul_succ, Nat.add_comm, ← List.drop_drop, List.drop_left' (length_toBytesBE word)]
      have hrest : 32 * i + 32 ≤ (abiEncode words).length := by
        rw [length_abiEncode]
        omega
      rw [hdrop, ← calldataload_eq hrest, ih (by omega), List.getElem_cons_succ]

end Evm

end Nightfall
