import Nightfall.Client.Inputs
import Nightfall.Data.Hex
import Nightfall.Node.Words

/-!
# Hexadecimal conversion

Field elements, scalars, integers, words and byte strings are written as hexadecimal texts and read
from them, with or without the prefix `0x`.  A text with fewer octets than the type has is filled up
with zeros, in front of the number.

Every value but the empty byte string is read back from its text, and texts of any length up to the
width of the type are read as the numbers that they denote (`hex_convertible`).  The scalars of the
embedded curve are the exception: their texts are filled up behind the number.
-/

namespace Nightfall

namespace Codec

open Client (BJJScalar)
open Evm (Bytes U256)
open Trees (bytesLE)
open Node (ofDigits_bytesLE)
open Tlv (number)

/-! ### The codecs -/

/-- `HexError`. -/
inductive HexError
  | invalidStringLength
  | invalidString
  | invalidHexFormat
  | invalidConversion
  deriving DecidableEq, Repr

/-- `HexConvertible`. -/
class HexConvertible (α : Type) where
  toHexString : α → List Char
  fromHexString : List Char → Except HexError α

export HexConvertible (toHexString fromHexString)

/-- `to_bytes_be`: the `n` bytes of a number, the most significant one first. -/
def toBytesBe (n x : ℕ) : Bytes := ((bytesLE n x).map (BitVec.ofNat 8)).reverse

/-- `strip_prefix("0x")`, or the text itself. -/
def stripPrefix : List Char → List Char
  | '0' :: 'x' :: s => s
  | s => s

/-- `hex::decode` of a text without its prefix. -/
def decodeHex (hexStr : List Char) : Except HexError Bytes :=
  (Hex.decode (stripPrefix hexStr)).elim (.error .invalidHexFormat) .ok

/-- Zeros in front of bytes. -/
def padFront (n : ℕ) (bytes : Bytes) : Bytes := List.replicate (n - bytes.length) 0 ++ bytes

/-- The text of a field element, and any number of bytes as one. -/
instance fr254HexConvertible : HexConvertible Fr254 where
  toHexString a := Hex.encode (toBytesBe 32 a.val)
  fromHexString hexStr := do
    let decodedBytes ← decodeHex hexStr
    return (number decodedBytes : Fr254)

/-- The bytes of a scalar are filled up with zeros at the end. -/
instance bjjScalarHexConvertible : HexConvertible BJJScalar where
  toHexString a := Hex.encode (toBytesBe 32 a.val)
  fromHexString hexStr := do
    let decodedBytes ← decodeHex hexStr
    let decodedBytes := decodedBytes ++ List.replicate (32 - decodedBytes.length) 0
    if decodedBytes.length ≠ 32 then .error .invalidStringLength
    else return (number decodedBytes : BJJScalar)

/-- The digits of an integer are filled up before they are decoded. -/
instance int64HexConvertible : HexConvertible Int64 where
  toHexString i := Hex.encode (toBytesBe 8 i.toBitVec.toNat)
  fromHexString hexStr :=
    let hexStr := stripPrefix hexStr
    let paddedHexStr := List.replicate (16 - hexStr.length) '0' ++ hexStr
    match Hex.decode paddedHexStr with
    | none => .error .invalidHexFormat
    | some decodedBytes =>
      if decodedBytes.length ≠ 8 then .error .invalidStringLength
      else .ok (Int64.ofBitVec (BitVec.ofNat 64 (number decodedBytes)))

/-- `BigInteger256`: four limbs, the least significant one first. -/
structure BigInteger256 where
  limbs : Fin 4 → BitVec 64
  deriving DecidableEq

/-- The number of four limbs. -/
def BigInteger256.toNat (x : BigInteger256) : ℕ :=
  (x.limbs 0).toNat + 2 ^ 64 * (x.limbs 1).toNat + 2 ^ 128 * (x.limbs 2).toNat +
    2 ^ 192 * (x.limbs 3).toNat

/-- `BigInteger256::try_from` a number, which fails beyond 256 bits. -/
def BigInteger256.tryFrom (bigUint : ℕ) : Option BigInteger256 :=
  if 2 ^ 256 ≤ bigUint then none else some ⟨fun i => BitVec.ofNat 64 (bigUint / 2 ^ (64 * i.val))⟩

instance bigInteger256HexConvertible : HexConvertible BigInteger256 where
  toHexString x := Hex.encode ((List.finRange 4).reverse.flatMap fun i =>
    toBytesBe 8 (x.limbs i).toNat)
  fromHexString hexStr := do
    let decodedBytes ← decodeHex hexStr
    if 32 < decodedBytes.length then .error .invalidStringLength
    else match BigInteger256.tryFrom (number (padFront 32 decodedBytes)) with
      | none => .error .invalidConversion
      | some x => return x

/-- `len` of a text: the bytes of its characters. -/
def utf8Len (s : List Char) : ℕ := (s.map Char.utf8Size).sum

instance bytesHexConvertible : HexConvertible Bytes where
  toHexString bytes := Hex.encode bytes
  fromHexString hexStr :=
    let s := stripPrefix hexStr
    if utf8Len s % 2 ≠ 0 ∨ s = [] then .error .invalidStringLength
    else (Hex.decode s).elim (.error .invalidString) .ok

instance u256HexConvertible : HexConvertible U256 where
  toHexString u := Hex.encode (toBytesBe 32 u.toNat)
  fromHexString hexStr := do
    let decodedBytes ← decodeHex hexStr
    if 32 < decodedBytes.length then .error .invalidStringLength
    else return BitVec.ofNat 256 (number (padFront 32 decodedBytes))

/-! ### The bytes of a number -/

@[simp] theorem length_toBytesBe (n x : ℕ) : (toBytesBe n x).length = n := by
  rw [toBytesBe, List.length_reverse, List.length_map, Trees.length_bytesLE]

theorem toBytesBe_succ (n x : ℕ) :
    toBytesBe (n + 1) x = toBytesBe n (x / 256) ++ [BitVec.ofNat 8 x] := by
  have hmod : BitVec.ofNat 8 (x % 256) = BitVec.ofNat 8 x := by
    apply BitVec.eq_of_toNat_eq
    simp
  rw [toBytesBe, bytesLE, List.map_cons, List.reverse_cons, hmod, toBytesBe]

@[simp] theorem number_toBytesBe (n x : ℕ) : number (toBytesBe n x) = x % 256 ^ n := by
  induction n generalizing x with
  | zero => rw [pow_zero, Nat.mod_one]; rfl
  | succ n ih =>
    have hbyte : (BitVec.ofNat 8 x).toNat = x % 256 := BitVec.toNat_ofNat x 8
    rw [toBytesBe_succ, Tlv.number_append_singleton, ih, hbyte, pow_succ' 256 n, Nat.mod_mul,
      Nat.add_comm]

@[simp] theorem number_padFront (n : ℕ) (bytes : Bytes) : number (padFront n bytes) = number bytes :=
  Hex.number_replicate_zero _ _

theorem number_lt_of_length_le {n : ℕ} {bytes : Bytes} (h : bytes.length ≤ n) :
    number bytes < 256 ^ n :=
  (Hex.number_lt bytes).trans_le (Nat.pow_le_pow_right (by omega) h)

/-! ### Texts with and without the prefix -/

/-- A text is these digits, with or without the prefix. -/
def Spells (digits hexStr : List Char) : Prop := hexStr = digits ∨ hexStr = '0' :: 'x' :: digits

theorem stripPrefix_of_isHex {s : List Char} (h : Hex.IsHex s) : stripPrefix s = s := by
  unfold stripPrefix
  split
  · have hx := h 'x' (by simp)
    cases hx
  · rfl

theorem stripPrefix_of_spells {digits hexStr : List Char} (hdigits : Hex.IsHex digits)
    (h : Spells digits hexStr) : stripPrefix hexStr = digits := by
  rcases h with rfl | rfl
  · exact stripPrefix_of_isHex hdigits
  · rfl

theorem stripPrefix_encode (bytes : Bytes) : stripPrefix (Hex.encode bytes) = Hex.encode bytes :=
  stripPrefix_of_isHex (Hex.isHex_encode bytes)

theorem decodeHex_encode (bytes : Bytes) : decodeHex (Hex.encode bytes) = .ok bytes := by
  rw [decodeHex, stripPrefix_encode, Hex.decode_encode]
  rfl

/-- The bytes of digits. -/
theorem decodeHex_of_spells {digits hexStr : List Char} (hdigits : Hex.IsHex digits)
    (heven : Even digits.length) (h : Spells digits hexStr) :
    ∃ bytes, decodeHex hexStr = .ok bytes ∧ digits.length = 2 * bytes.length ∧
      number bytes = Hex.value digits := by
  obtain ⟨bytes, hbytes⟩ := Hex.exists_decode_eq_some hdigits heven
  obtain ⟨-, hlen, hnumber⟩ := Hex.decode_eq_some hbytes
  refine ⟨bytes, ?_, hlen, hnumber⟩
  rw [decodeHex, stripPrefix_of_spells hdigits h, hbytes]
  rfl

/-! ### What is read -/

/-- Texts of as many bytes as fit are read as the number of the bytes. -/
def Reads (α : Type) [HexConvertible α] (fits : ℕ → Prop) (ofNumber : ℕ → α) : Prop :=
  ∀ (hexStr : List Char) (bytes : Bytes), decodeHex hexStr = .ok bytes → fits bytes.length →
    fromHexString hexStr = .ok (ofNumber (number bytes))

theorem reads_fr254 : Reads Fr254 (fun _ => True) fun n => (n : Fr254) := by
  intro hexStr bytes hbytes _
  simp only [fromHexString, hbytes]
  rfl

/-- Nothing is filled up behind all 32 bytes. -/
theorem reads_bjjScalar : Reads BJJScalar (fun k => k = 32) fun n => (n : BJJScalar) := by
  intro hexStr bytes hbytes hlen
  have hfull : bytes ++ List.replicate (32 - bytes.length) 0 = bytes := by
    rw [hlen, Nat.sub_self, List.replicate_zero, List.append_nil]
  simp only [fromHexString, hbytes, Evm.ok_bind, hfull]
  rw [if_neg (not_not.2 hlen)]
  rfl

theorem reads_u256 : Reads U256 (fun k => k ≤ 32) fun n => BitVec.ofNat 256 n := by
  intro hexStr bytes hbytes hlen
  simp only [fromHexString, hbytes, Evm.ok_bind, number_padFront]
  rw [if_neg hlen.not_gt]
  rfl

/-- The integer of 256 bits. -/
def BigInteger256.ofNat (n : ℕ) : BigInteger256 :=
  ⟨fun i => BitVec.ofNat 64 (n / 2 ^ (64 * i.val))⟩

theorem reads_bigInteger256 : Reads BigInteger256 (fun k => k ≤ 32) .ofNat := by
  intro hexStr bytes hbytes hlen
  have hlt : number bytes < 2 ^ 256 := by
    have h := number_lt_of_length_le hlen
    rwa [show 256 ^ 32 = 2 ^ 256 by norm_num] at h
  have hsome : BigInteger256.tryFrom (number bytes) = some (.ofNat (number bytes)) := by
    rw [BigInteger256.tryFrom, if_neg hlt.not_ge]
    rfl
  simp only [fromHexString, hbytes, Evm.ok_bind, number_padFront, hsome]
  rw [if_neg hlen.not_gt]
  rfl

/-- The zeros in front of the digits give an even number of digits. -/
theorem reads_int64 :
    Reads Int64 (fun k => k ≤ 8) fun n => Int64.ofBitVec (BitVec.ofNat 64 n) := by
  intro hexStr bytes hbytes hlen
  have hdecode : Hex.decode (stripPrefix hexStr) = some bytes := by
    unfold decodeHex at hbytes
    cases h : Hex.decode (stripPrefix hexStr) with
    | none => rw [h] at hbytes; cases hbytes
    | some bs => rw [h] at hbytes; cases hbytes; rfl
  obtain ⟨hhex, hdigits, hnumber⟩ := Hex.decode_eq_some hdecode
  have hpadded : (List.replicate (16 - (stripPrefix hexStr).length) '0' ++
      stripPrefix hexStr).length = 16 := by
    rw [List.length_append, List.length_replicate]
    omega
  obtain ⟨padded, hpad⟩ := Hex.exists_decode_eq_some (Hex.isHex_replicate_zero hhex)
    (show Even (List.replicate (16 - (stripPrefix hexStr).length) '0' ++
      stripPrefix hexStr).length by rw [hpadded]; decide)
  obtain ⟨-, hlen', hnumber'⟩ := Hex.decode_eq_some hpad
  rw [Hex.value_replicate_zero, ← hnumber] at hnumber'
  have height : padded.length = 8 := by omega
  simp only [fromHexString, hpad, height, ne_eq, not_true_eq_false, if_false, hnumber']

/-! ### Numbers and their texts -/

/-- Digits of as many bytes as fit are read as their number, with or without the prefix. -/
def Numeric (α : Type) [HexConvertible α] (fits : ℕ → Prop) (ofNumber : ℕ → α) : Prop :=
  ∀ (digits hexStr : List Char) (k : ℕ), Hex.IsHex digits → Spells digits hexStr →
    digits.length = 2 * k → fits k → fromHexString hexStr = .ok (ofNumber (Hex.value digits))

theorem Reads.numeric {α : Type} [HexConvertible α] {fits fits' : ℕ → Prop} {ofNumber : ℕ → α}
    (h : Reads α fits ofNumber) (hfits : ∀ k, fits' k → fits k) : Numeric α fits' ofNumber := by
  intro digits hexStr k hhex hspells hlen hk
  obtain ⟨bytes, hbytes, hlen', hnumber⟩ :=
    decodeHex_of_spells hhex (by rw [hlen]; exact even_two_mul k) hspells
  have hlength : bytes.length = k := by omega
  rw [h hexStr bytes hbytes (by rw [hlength]; exact hfits k hk), hnumber]

/-- A value is read back from its text. -/
def RoundTrips {α : Type} [HexConvertible α] (x : α) : Prop :=
  fromHexString (toHexString x) = .ok x

/-- A text of bytes that fit is read back if they have the number of the value. -/
theorem Reads.roundTrips {α : Type} [HexConvertible α] {fits : ℕ → Prop} {ofNumber : ℕ → α}
    (h : Reads α fits ofNumber) {x : α} {bytes : Bytes} (htext : toHexString x = Hex.encode bytes)
    (hfits : fits bytes.length) (hx : ofNumber (number bytes) = x) : RoundTrips x := by
  rw [RoundTrips, htext, h _ bytes (decodeHex_encode bytes) hfits, hx]

theorem roundTrips_fr254 (a : Fr254) : RoundTrips a := by
  refine reads_fr254.roundTrips rfl trivial ?_
  rw [number_toBytesBe, Nat.mod_eq_of_lt (Trees.val_lt_pow a), ZMod.natCast_zmod_val]

instance neZero_bjjOrder : NeZero Client.bjjOrder := ⟨by norm_num [Client.bjjOrder]⟩

theorem roundTrips_bjjScalar (a : BJJScalar) : RoundTrips a := by
  refine reads_bjjScalar.roundTrips rfl (length_toBytesBe _ _) ?_
  have ha : a.val < 256 ^ 32 := (ZMod.val_lt a).trans (by norm_num [Client.bjjOrder])
  rw [number_toBytesBe, Nat.mod_eq_of_lt ha, ZMod.natCast_zmod_val]

theorem roundTrips_u256 (u : U256) : RoundTrips u := by
  refine reads_u256.roundTrips rfl (length_toBytesBe _ _).le ?_
  have hu : u.toNat < 256 ^ 32 := u.isLt.trans_le (by norm_num)
  rw [number_toBytesBe, Nat.mod_eq_of_lt hu, BitVec.ofNat_toNat, BitVec.setWidth_eq]

theorem roundTrips_int64 (i : Int64) : RoundTrips i := by
  refine reads_int64.roundTrips rfl (length_toBytesBe _ _).le ?_
  have hi : i.toBitVec.toNat < 256 ^ 8 := i.toBitVec.isLt.trans_le (by norm_num)
  rw [number_toBytesBe, Nat.mod_eq_of_lt hi, BitVec.ofNat_toNat, BitVec.setWidth_eq,
    Int64.ofBitVec_toBitVec]

/-- The bytes of four limbs. -/
theorem number_limbs (x : BigInteger256) :
    number ((List.finRange 4).reverse.flatMap fun i => toBytesBe 8 (x.limbs i).toNat) = x.toNat := by
  have hlimb : ∀ i, (x.limbs i).toNat % 256 ^ 8 = (x.limbs i).toNat := fun i =>
    Nat.mod_eq_of_lt ((x.limbs i).isLt.trans_le (by norm_num))
  have hlist : (List.finRange 4).reverse = [3, 2, 1, 0] := by decide
  simp only [hlist, List.flatMap_cons, List.flatMap_nil, Hex.number_append, List.length_append,
    length_toBytesBe, number_toBytesBe, hlimb, List.length_nil, Tlv.number_nil]
  rw [BigInteger256.toNat]
  ring

theorem BigInteger256.ofNat_toNat (x : BigInteger256) : ofNat x.toNat = x := by
  obtain ⟨limbs⟩ := x
  have h0 := (limbs 0).isLt
  have h1 := (limbs 1).isLt
  have h2 := (limbs 2).isLt
  have h3 := (limbs 3).isLt
  refine congrArg BigInteger256.mk (funext fun i => BitVec.eq_of_toNat_eq ?_)
  rw [BitVec.toNat_ofNat, toNat]
  fin_cases i
  · simp only [Fin.isValue, Fin.zero_eta]
    omega
  · simp only [Fin.isValue, Fin.mk_one]
    omega
  · simp only [Fin.isValue, Fin.reduceFinMk]
    omega
  · simp only [Fin.isValue, Fin.reduceFinMk]
    omega

theorem roundTrips_bigInteger256 (x : BigInteger256) : RoundTrips x := by
  refine reads_bigInteger256.roundTrips rfl ?_ ?_
  · simp [List.length_flatMap]
  · rw [number_limbs, BigInteger256.ofNat_toNat]

/-! ### Byte strings -/

/-- A digit is a single byte. -/
theorem utf8Len_of_isHex {s : List Char} (h : Hex.IsHex s) : utf8Len s = s.length := by
  have hsize : ∀ c ∈ s, c.utf8Size = 1 := by
    intro c hc
    obtain ⟨v, hv⟩ := Option.isSome_iff_exists.1 (h c hc)
    have hlt := (Hex.digitValue_bounds hv).2
    rw [Char.utf8Size, if_pos]
    exact UInt32.le_iff_toNat_le.2 (Nat.le_of_lt_succ hlt)
  rw [utf8Len, List.map_congr_left hsize, List.map_const', List.sum_replicate, smul_eq_mul, mul_one]

/-- The empty string is refused. -/
theorem roundTrips_bytes {bytes : Bytes} : RoundTrips bytes ↔ bytes ≠ [] := by
  have hlen : utf8Len (Hex.encode bytes) % 2 = 0 := by
    rw [utf8Len_of_isHex (Hex.isHex_encode bytes), Hex.length_encode]
    omega
  cases bytes with
  | nil =>
    refine iff_of_false ?_ (not_not.2 rfl)
    intro h
    cases h
  | cons b bytes =>
    refine iff_of_true ?_ (List.cons_ne_nil b bytes)
    simp only [RoundTrips, fromHexString, toHexString, stripPrefix_encode]
    rw [if_neg, Hex.decode_encode]
    · rfl
    · rw [hlen, not_or]
      exact ⟨not_not.2 rfl, List.cons_ne_nil _ _⟩

/-- **Hexadecimal texts denote the values that are written.**  Every value but the empty byte string
is read back from its text, and the empty string is refused.  Texts of at most as many bytes as a type
has, with or without the prefix, are read as the number that they denote: the field element with that
residue, the integer with that two's complement, the word.  For the scalars of the embedded curve this
is said of texts of all 32 bytes only. -/
theorem hex_convertible :
    ((∀ a : Fr254, RoundTrips a) ∧ (∀ a : BJJScalar, RoundTrips a) ∧ (∀ i : Int64, RoundTrips i) ∧
      (∀ x : BigInteger256, RoundTrips x) ∧ (∀ u : U256, RoundTrips u) ∧
      (∀ bytes : Bytes, bytes ≠ [] → RoundTrips bytes) ∧
      (fromHexString (toHexString ([] : Bytes)) : Except HexError Bytes) =
        .error .invalidStringLength) ∧
    Numeric Fr254 (fun k => k ≤ 32) (fun n => (n : Fr254)) ∧
    Numeric BJJScalar (fun k => k = 32) (fun n => (n : BJJScalar)) ∧
    Numeric Int64 (fun k => k ≤ 8) (fun n => Int64.ofBitVec (BitVec.ofNat 64 n)) ∧
    Numeric BigInteger256 (fun k => k ≤ 32) BigInteger256.ofNat ∧
    Numeric U256 (fun k => k ≤ 32) (fun n => BitVec.ofNat 256 n) :=
  ⟨⟨roundTrips_fr254, roundTrips_bjjScalar, roundTrips_int64, roundTrips_bigInteger256,
      roundTrips_u256, fun _ => roundTrips_bytes.2, rfl⟩,
    reads_fr254.numeric fun _ _ => trivial, reads_bjjScalar.numeric fun _ => id,
    reads_int64.numeric fun _ => id, reads_bigInteger256.numeric fun _ => id,
    reads_u256.numeric fun _ => id⟩

/-- The empty byte string is not read back, and a short scalar is read as another number than its
text denotes. -/
theorem empty_and_short_texts :
    ¬ RoundTrips ([] : Bytes) ∧
      ¬ Numeric BJJScalar (fun k => k ≤ 32) (fun n => (n : BJJScalar)) := by
  refine ⟨fun h => roundTrips_bytes.1 h rfl, fun h => ?_⟩
  have hread := h ['0', '4'] ['0', 'x', '0', '4'] 1 (by decide) (.inr rfl) rfl (by omega)
  -- 31 zeros behind the octet of the text
  have hcode : fromHexString ['0', 'x', '0', '4'] = .ok ((4 * 256 ^ 31 : ℕ) : BJJScalar) := by
    rfl
  rw [hcode] at hread
  have heq := (ZMod.natCast_eq_natCast_iff' _ _ _).1 (Except.ok.inj hread)
  revert heq
  decide +kernel

end Codec

end Nightfall
