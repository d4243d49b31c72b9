import Nightfall.Codec.HexConversion

/-!
# Field elements, words and addresses

The conversions between field elements, words and addresses go through big integers and their 64-bit
digits, which fill an array of four zeros.  No digit is out of bounds, so nothing panics, and the
conversions are exact but for two bounds: a word may be the modulus itself, and an element may be
below `2 ^ 161` to convert to an address of 160 bits (`conversions_exact_iff`).
-/

namespace Nightfall

namespace Codec

open Contract (Address)
open Evm (Bytes U256)
open Tlv (number)

/-! ### The conversions -/

/-- How a conversion fails. -/
inductive ConversionStop
  /-- `ConversionError::Overflow`. -/
  | overflow
  /-- `ConversionError::ParseFailed`. -/
  | parseFailed
  /-- An index or a slice is out of bounds. -/
  | panic
  deriving DecidableEq, Repr

/-- `digits[i] = digit` for the digits of a number, from the index `i` on. -/
def fillDigits : ℕ → List ℕ → (Fin 4 → BitVec 64) → Except ConversionStop (Fin 4 → BitVec 64)
  | _, [], array => .ok array
  | i, digit :: digits, array =>
    if h : i < 4 then
      fillDigits (i + 1) digits (Function.update array ⟨i, h⟩ (BitVec.ofNat 64 digit))
    else .error .panic

/-- The 64-bit digits of a number in an array of four zeros. -/
def u64Digits (bigUint : ℕ) : Except ConversionStop BigInteger256 := do
  let digits ← fillDigits 0 (Nat.digits (2 ^ 64) bigUint) fun _ => 0
  return ⟨digits⟩

/-- `U256::from_limbs`. -/
def fromLimbs (digits : BigInteger256) : U256 := BitVec.ofNat 256 digits.toNat

/-- `as_limbs`. -/
def asLimbs (u : U256) : BigInteger256 := .ofNat u.toNat

/-- `Fr254::new`: the element that the number is congruent to. -/
def fr254New (x : BigInteger256) : Fr254 := (x.toNat : Fr254)

/-- `Uint256::from` a field element. -/
def Uint256.ofFr254 (fq : Fr254) : Except ConversionStop U256 := do
  let digits ← u64Digits fq.val
  return fromLimbs digits

/-- `Uint256::from` a big integer. -/
def Uint256.ofBigInt (value : BigInteger256) : Except ConversionStop U256 := do
  let digits ← u64Digits value.toNat
  return fromLimbs digits

/-- `FrBn254::try_from` a word: only words beyond the modulus overflow. -/
def FrBn254.tryFrom (u256 : U256) : Except ConversionStop Fr254 := do
  let maxPositive ← Uint256.ofBigInt (.ofNat frModulus)
  if maxPositive.toNat < u256.toNat then .error .overflow
  else return fr254New (asLimbs u256)

/-- `FrBn254::from` an address. -/
def FrBn254.ofAddress (address : Address) : Except ConversionStop Fr254 := do
  let digits ← u64Digits (number (toBytesBe 20 address.toNat))
  return fr254New digits

/-- `Fr254::from_str`: decimal digits. -/
def fr254FromStr (s : List Char) : Option Fr254 :=
  if s ≠ [] ∧ s.all Char.isDigit then
    some ((s.foldl (fun n c => 10 * n + (c.toNat - 48)) 0 : ℕ) : Fr254)
  else none

/-- The text of the largest element that is taken for an address. -/
def maxAddrText : List Char :=
  "2923003274661805836407369665432566039311865085951".toList

/-- `bytes[start..end]`. -/
def slice (bytes : Bytes) (start stop : ℕ) : Except ConversionStop Bytes :=
  if start ≤ stop ∧ stop ≤ bytes.length then .ok ((bytes.take stop).drop start) else .error .panic

/-- `Address::from_slice`, which panics unless there are 20 bytes. -/
def addressFromSlice (bytes : Bytes) : Except ConversionStop Address :=
  if bytes.length = 20 then .ok (BitVec.ofNat 160 (number bytes)) else .error .panic

/-- `Addr::try_from` a field element. -/
def Addr.tryFrom (fq : Fr254) : Except ConversionStop Address := do
  let maxAddr ← (fr254FromStr maxAddrText).elim (.error .parseFailed) .ok
  if maxAddr.val < fq.val then .error .overflow
  else do
    let bytes ← slice (toBytesBe 32 fq.val) 12 32
    addressFromSlice bytes

/-! ### Digits and limbs -/

theorem fillDigits_eq {i : ℕ} {digits : List ℕ} {array : Fin 4 → BitVec 64}
    (h : i + digits.length ≤ 4) :
    fillDigits i digits array = .ok fun j : Fin 4 =>
      if i ≤ j.val ∧ j.val < i + digits.length then BitVec.ofNat 64 (digits.getD (j.val - i) 0)
      else array j := by
  induction digits generalizing i array with
  | nil =>
    have hnone : ∀ j : Fin 4, ¬ (i ≤ j.val ∧ j.val < i + ([] : List ℕ).length) := by
      intro j hj
      rw [List.length_nil] at hj
      omega
    rw [fillDigits]
    congr 1
    funext j
    rw [if_neg (hnone j)]
  | cons digit digits ih =>
    rw [List.length_cons] at h
    rw [fillDigits, dif_pos (by omega), ih (by omega)]
    congr 1
    funext j
    by_cases hij : j.val = i
    · subst hij
      simp
    · have hne : j ≠ ⟨i, by omega⟩ := fun he => hij (congrArg Fin.val he)
      rw [Function.update_of_ne hne, List.length_cons]
      by_cases hmem : i + 1 ≤ j.val ∧ j.val < i + 1 + digits.length
      · rw [if_pos hmem, if_pos (by omega), show j.val - i = (j.val - (i + 1)) + 1 by omega,
          List.getD_cons_succ]
      · rw [if_neg hmem, if_neg (by omega)]

theorem BigInteger256.toNat_ofNat {n : ℕ} (h : n < 2 ^ 256) : (ofNat n).toNat = n := by
  simp only [ofNat, toNat, BitVec.toNat_ofNat, Fin.isValue, Fin.val_zero, Fin.val_one, Fin.val_two]
  rw [show ((3 : Fin 4) : ℕ) = 3 from rfl]
  omega

/-- **The digits of a word are within the array.** -/
theorem u64Digits_eq {n : ℕ} (h : n < 2 ^ 256) : u64Digits n = .ok (.ofNat n) := by
  have hlen : (Nat.digits (2 ^ 64) n).length ≤ 4 :=
    Node.length_digits_le (by norm_num) (h.trans_le (by norm_num))
  rw [u64Digits, fillDigits_eq (by omega), Evm.ok_bind]
  refine congrArg (fun limbs => Except.ok (BigInteger256.mk limbs)) (funext fun j => ?_)
  have hdigit : BitVec.ofNat 64 ((Nat.digits (2 ^ 64) n).getD j 0) =
      BitVec.ofNat 64 (n / 2 ^ (64 * j.val)) := by
    apply BitVec.eq_of_toNat_eq
    rw [BitVec.toNat_ofNat, BitVec.toNat_ofNat, Nat.getD_digits _ _ (by norm_num), ← pow_mul,
      Nat.mod_mod]
  by_cases hj : j.val < (Nat.digits (2 ^ 64) n).length
  · rw [if_pos (by omega), Nat.sub_zero, hdigit]
  · rw [if_neg (by omega), ← hdigit, List.getD_eq_default _ _ (not_lt.1 hj)]
    rfl

theorem fromLimbs_ofNat {n : ℕ} (h : n < 2 ^ 256) : fromLimbs (.ofNat n) = BitVec.ofNat 256 n := by
  rw [fromLimbs, BigInteger256.toNat_ofNat h]

theorem fr254New_asLimbs (u : U256) : fr254New (asLimbs u) = Node.element u := by
  rw [fr254New, asLimbs, BigInteger256.toNat_ofNat u.isLt]
  rfl

/-! ### What the conversions compute -/

theorem frModulus_lt : frModulus < 2 ^ 256 := by norm_num [frModulus]

/-- `Uint256::from` is what the conversion of blocks takes it for. -/
theorem Uint256.ofFr254_eq (fq : Fr254) : ofFr254 fq = .ok (Node.uint256 fq) := by
  have hlt : fq.val < 2 ^ 256 := (ZMod.val_lt fq).trans frModulus_lt
  have hword : BitVec.ofNat 256 fq.val = Node.uint256 fq := by
    apply BitVec.eq_of_toNat_eq
    rw [Node.toNat_uint256, BitVec.toNat_ofNat, Nat.mod_eq_of_lt hlt]
  rw [ofFr254, u64Digits_eq hlt, Evm.ok_bind, fromLimbs_ofNat hlt, hword]
  rfl

/-- `FrBn254::try_from` as well. -/
theorem FrBn254.tryFrom_eq (u : U256) :
    FrBn254.tryFrom u = (Node.tryFrom u).elim (.error .overflow) .ok := by
  have hmax : Uint256.ofBigInt (.ofNat frModulus) = .ok (BitVec.ofNat 256 frModulus) := by
    rw [Uint256.ofBigInt, BigInteger256.toNat_ofNat frModulus_lt, u64Digits_eq frModulus_lt,
      Evm.ok_bind, fromLimbs_ofNat frModulus_lt]
    rfl
  rw [FrBn254.tryFrom, hmax, Evm.ok_bind, BitVec.toNat_ofNat, Nat.mod_eq_of_lt frModulus_lt,
    Node.tryFrom]
  split_ifs
  · rfl
  · rw [fr254New_asLimbs]
    rfl

theorem FrBn254.tryFrom_eq_ok {u : U256} {a : Fr254} :
    FrBn254.tryFrom u = .ok a ↔ u.toNat ≤ frModulus ∧ a = Node.element u := by
  rw [FrBn254.tryFrom_eq, Node.element, ← Node.tryFrom_eq_some]
  cases Node.tryFrom u with
  | none => exact ⟨fun h => (by cases h), fun h => (by cases h)⟩
  | some b => simp

theorem FrBn254.ofAddress_eq (a : Address) : ofAddress a = .ok ((a.toNat : ℕ) : Fr254) := by
  have ha : a.toNat < 256 ^ 20 := a.isLt.trans_le (by norm_num)
  have hlt : a.toNat < 2 ^ 256 := a.isLt.trans_le (by norm_num)
  rw [ofAddress, number_toBytesBe, Nat.mod_eq_of_lt ha, u64Digits_eq hlt, Evm.ok_bind, fr254New,
    BigInteger256.toNat_ofNat hlt]
  rfl

/-- **The bound for addresses** is twice as high as it should be. -/
theorem fr254FromStr_maxAddrText :
    fr254FromStr maxAddrText = some ((2 ^ 161 - 1 : ℕ) : Fr254) := by
  have hdigits : maxAddrText ≠ [] ∧ maxAddrText.all Char.isDigit := by decide +kernel
  have hnumber : maxAddrText.foldl (fun n c => 10 * n + (c.toNat - 48)) 0 = 2 ^ 161 - 1 := by
    decide +kernel
  rw [fr254FromStr, if_pos hdigits, hnumber]

theorem val_maxAddr : ((2 ^ 161 - 1 : ℕ) : Fr254).val = 2 ^ 161 - 1 :=
  ZMod.val_cast_of_lt (by norm_num [frModulus])

/-- The last 20 bytes of the number are the address. -/
theorem number_drop_toBytesBe (x : ℕ) : number ((toBytesBe 32 x).drop 12) = x % 2 ^ 160 := by
  have hsplit := Hex.number_append ((toBytesBe 32 x).take 12) ((toBytesBe 32 x).drop 12)
  have hlt := Hex.number_lt ((toBytesBe 32 x).drop 12)
  rw [List.take_append_drop, number_toBytesBe, List.length_drop, length_toBytesBe] at hsplit
  rw [List.length_drop, length_toBytesBe] at hlt
  norm_num at hsplit hlt ⊢
  omega

theorem Addr.tryFrom_eq (fq : Fr254) :
    Addr.tryFrom fq =
      if fq.val < 2 ^ 161 then .ok (BitVec.ofNat 160 fq.val) else .error .overflow := by
  have hbytes : addressFromSlice ((toBytesBe 32 fq.val).drop 12) = .ok (BitVec.ofNat 160 fq.val) := by
    rw [addressFromSlice, if_pos (by rw [List.length_drop, length_toBytesBe]), number_drop_toBytesBe]
    refine congrArg Except.ok (BitVec.eq_of_toNat_eq ?_)
    rw [BitVec.toNat_ofNat, BitVec.toNat_ofNat, Nat.mod_mod]
  have hslice : slice (toBytesBe 32 fq.val) 12 32 = .ok ((toBytesBe 32 fq.val).drop 12) := by
    rw [slice, if_pos (by rw [length_toBytesBe]; omega),
      List.take_of_length_le (by rw [length_toBytesBe])]
  rw [Addr.tryFrom, fr254FromStr_maxAddrText]
  simp only [Option.elim_some, Evm.ok_bind, val_maxAddr, hslice, hbytes]
  by_cases h : fq.val < 2 ^ 161
  · rw [if_neg (by omega), if_pos h]
  · rw [if_pos (by omega), if_neg h]

/-! ### Exactness -/

/-- A conversion doesn't panic. -/
def NoPanic {α : Type} (x : Except ConversionStop α) : Prop := x ≠ .error .panic

/-- The conversions of a word, an element and an address are exact. -/
structure ConversionsExact (u : U256) (f : Fr254) (a : Address) : Prop where
  /-- The words that are canonical representatives convert. -/
  word_iff : (∃ x, FrBn254.tryFrom u = .ok x) ↔ u.toNat < frModulus
  word_back : ∀ x, FrBn254.tryFrom u = .ok x → Uint256.ofFr254 x = .ok u
  element_back : ∃ w, Uint256.ofFr254 f = .ok w ∧ FrBn254.tryFrom w = .ok f
  address_back : ∃ g, FrBn254.ofAddress a = .ok g ∧ Addr.tryFrom g = .ok a
  /-- The elements of 160 bits convert to addresses. -/
  address_iff : (∃ b, Addr.tryFrom f = .ok b) ↔ f.val < 2 ^ 160
  noPanic : NoPanic (FrBn254.tryFrom u) ∧ NoPanic (Uint256.ofFr254 f) ∧
    NoPanic (FrBn254.ofAddress a) ∧ NoPanic (Addr.tryFrom f)

theorem word_iff (u : U256) : (∃ x, FrBn254.tryFrom u = .ok x) ↔ u.toNat ≤ frModulus := by
  simp only [FrBn254.tryFrom_eq_ok, exists_and_left, exists_eq, and_true]

theorem word_back_of_lt {u : U256} (h : u.toNat < frModulus) :
    Uint256.ofFr254 (Node.element u) = .ok u := by
  have hword : Node.uint256 (Node.element u) = u := by
    apply BitVec.eq_of_toNat_eq
    rw [Node.toNat_uint256, Node.element, ZMod.val_natCast, Nat.mod_eq_of_lt h]
  rw [Uint256.ofFr254_eq, hword]

theorem element_back (f : Fr254) :
    ∃ w, Uint256.ofFr254 f = .ok w ∧ FrBn254.tryFrom w = .ok f := by
  refine ⟨_, Uint256.ofFr254_eq f, FrBn254.tryFrom_eq_ok.2 ⟨Node.uint256_le f, ?_⟩⟩
  rw [Node.element_uint256]

theorem address_back (a : Address) :
    ∃ g, FrBn254.ofAddress a = .ok g ∧ Addr.tryFrom g = .ok a := by
  have hlt : a.toNat < 2 ^ 160 := a.isLt
  have hval : ((a.toNat : ℕ) : Fr254).val = a.toNat :=
    ZMod.val_cast_of_lt (hlt.trans (by norm_num [frModulus]))
  refine ⟨_, FrBn254.ofAddress_eq a, ?_⟩
  rw [Addr.tryFrom_eq, hval, if_pos (by omega), BitVec.ofNat_toNat, BitVec.setWidth_eq]

theorem address_iff (f : Fr254) : (∃ b, Addr.tryFrom f = .ok b) ↔ f.val < 2 ^ 161 := by
  rw [Addr.tryFrom_eq]
  split_ifs with h
  · exact iff_of_true ⟨_, rfl⟩ h
  · refine iff_of_false ?_ h
    rintro ⟨b, hb⟩
    cases hb

/-- Nothing panics, whatever is converted. -/
theorem noPanic (u : U256) (f : Fr254) (a : Address) :
    NoPanic (FrBn254.tryFrom u) ∧ NoPanic (Uint256.ofFr254 f) ∧ NoPanic (FrBn254.ofAddress a) ∧
      NoPanic (Addr.tryFrom f) := by
  refine ⟨?_, ?_, ?_, ?_⟩
  · intro h
    rw [FrBn254.tryFrom_eq] at h
    cases hu : Node.tryFrom u with
    | none => rw [hu] at h; cases h
    | some x => rw [hu] at h; cases h
  · intro h
    rw [Uint256.ofFr254_eq] at h
    cases h
  · intro h
    rw [FrBn254.ofAddress_eq] at h
    cases h
  · intro h
    rw [Addr.tryFrom_eq] at h
    split_ifs at h
    cases h

/-- **When the conversions are exact.**  A word other than the modulus, and an element that has not
just one bit more than an address: the modulus converts to zero, and of an element of 161 bits the
address is the lower 160. -/
theorem conversions_exact_iff (u : U256) (f : Fr254) (a : Address) :
    ConversionsExact u f a ↔
      u.toNat ≠ frModulus ∧ ¬ (2 ^ 160 ≤ f.val ∧ f.val < 2 ^ 161) := by
  constructor
  · intro h
    have hword := (word_iff u).symm.trans h.word_iff
    have haddress := (address_iff f).symm.trans h.address_iff
    omega
  · rintro ⟨hu, hf⟩
    refine ⟨(word_iff u).trans (by omega), fun x hx => ?_, element_back f, address_back a,
      (address_iff f).trans (by omega), noPanic u f a⟩
    obtain ⟨hle, rfl⟩ := FrBn254.tryFrom_eq_ok.1 hx
    exact word_back_of_lt (lt_of_le_of_ne hle hu)

/-- The modulus converts to zero, and the element `2 ^ 160` to the zero address. -/
theorem modulus_and_large_address :
    (FrBn254.tryFrom (BitVec.ofNat 256 frModulus) = .ok 0 ∧
      Addr.tryFrom ((2 ^ 160 : ℕ) : Fr254) = .ok 0) ∧
    ¬ ConversionsExact (BitVec.ofNat 256 frModulus) ((2 ^ 160 : ℕ) : Fr254) 0 := by
  have hword : (BitVec.ofNat 256 frModulus).toNat = frModulus := by
    rw [BitVec.toNat_ofNat, Nat.mod_eq_of_lt frModulus_lt]
  have hval : ((2 ^ 160 : ℕ) : Fr254).val = 2 ^ 160 :=
    ZMod.val_cast_of_lt (by norm_num [frModulus])
  have hmodulus : FrBn254.tryFrom (BitVec.ofNat 256 frModulus) = .ok 0 := by
    rw [FrBn254.tryFrom_eq_ok, hword, Node.element, hword, ZMod.natCast_self]
    exact ⟨le_rfl, rfl⟩
  refine ⟨⟨hmodulus, ?_⟩, fun h => ?_⟩
  · rw [Addr.tryFrom_eq, hval, if_pos (by norm_num)]
    rfl
  · have hlt := h.word_iff.1 ⟨0, hmodulus⟩
    rw [hword] at hlt
    exact lt_irrefl _ hlt

end Codec

end Nightfall
