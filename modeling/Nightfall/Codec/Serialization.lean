import Nightfall.Codec.HexConversion
import Nightfall.Node.Events

/-!
# Field elements in the database

Four functions write a field element for the database or for a filter: `serialize_to_padded_hex`, the
serializers `serialize_fr_padded` and `ark_se_hex`, and `to_hex_string`.  All of them write the 64
digits of the canonical representative, so a filter that one of them builds finds the records that
another one wrote, and the texts are in the order of the representatives (`padded_hex`).
-/

namespace Nightfall

namespace Codec

open Evm (Bytes)
open Tlv (number)
open Trees (bytesLE hexByte serializeCompressed serializeToPaddedHex bigintToBigEndian
  bytesToHexLpadded)

/-! ### Writers -/

/-- `serialize_with_mode`: the 32 bytes of the canonical representative, the least significant one
first. -/
def serializeWithMode (a : Fr254) : Bytes := (serializeCompressed a).map (BitVec.ofNat 8)

/-- `ark_se_hex`. -/
def arkSeHex (a : Fr254) : List Char :=
  let bytes := (serializeWithMode a).reverse
  toHexString bytes

/-- `serialize_fr_padded`: the assertion of `bytes_to_hex_lpadded` comes first. -/
def serializeFrPadded (a : Fr254) : Except String (List Char) :=
  let bigEndianBytes := bigintToBigEndian (serializeCompressed a)
  if 32 < bigEndianBytes.length then .error "too many bytes to fit in max_bytes"
  else .ok (bytesToHexLpadded bigEndianBytes 32)

/-! ### Readers -/

/-- How a text fails to be read. -/
inductive DeserializeError
  | hex (e : HexError)
  /-- The error of `hex::decode`. -/
  | fromHex
  /-- `SerializationError`: bytes are missing, or the number is not below the modulus. -/
  | invalidData
  deriving DecidableEq, Repr

/-- `deserialize_with_mode`: the first 32 bytes, which are of a canonical representative. -/
def deserializeWithMode (bytes : Bytes) : Except DeserializeError Fr254 :=
  let representative := number (bytes.take 32).reverse
  if bytes.length < 32 ∨ frModulus ≤ representative then .error .invalidData
  else .ok (representative : Fr254)

/-- `ark_de_hex`. -/
def arkDeHex (hexStr : List Char) : Except DeserializeError Fr254 := do
  let bytes : Bytes ← (fromHexString hexStr).mapError .hex
  deserializeWithMode bytes.reverse

/-- `deserialize_fr_padded`: of more than 32 bytes the last 32 are taken. -/
def deserializeFrPadded (hexStr : List Char) : Except DeserializeError Fr254 := do
  let bytes : Bytes ← (Hex.decode hexStr).elim (.error .fromHex) .ok
  let unpaddedBytes := if 32 < bytes.length then bytes.drop (bytes.length - 32) else bytes
  deserializeWithMode unpaddedBytes.reverse

/-! ### One text -/

theorem encode_toBytesBe (n x : ℕ) :
    Hex.encode (toBytesBe n x) = (bytesLE n x).reverse.flatMap hexByte := by
  induction n generalizing x with
  | zero => rfl
  | succ n ih =>
    have hbyte : (BitVec.ofNat 8 x).toNat = x % 256 := BitVec.toNat_ofNat x 8
    rw [toBytesBe_succ, bytesLE, List.reverse_cons, List.flatMap_append, ← ih, Hex.encode,
      List.flatMap_append, ← Hex.encode, List.flatMap_singleton, List.flatMap_singleton, hbyte,
      hexByte]

/-- The text of a field element. -/
def hexText (a : Fr254) : List Char := Hex.encode (toBytesBe 32 a.val)

theorem serializeToPaddedHex_eq_hexText (a : Fr254) : serializeToPaddedHex a = hexText a := by
  rw [Trees.serializeToPaddedHex_eq, hexText, encode_toBytesBe]

theorem toHexString_eq_hexText (a : Fr254) : toHexString a = hexText a := rfl

/-- The text by which the nodes look for commitments. -/
theorem node_toHexString_eq_hexText (a : Fr254) : Node.toHexString a = hexText a :=
  (encode_toBytesBe 32 a.val).symm

theorem arkSeHex_eq_hexText (a : Fr254) : arkSeHex a = hexText a := rfl

theorem serializeFrPadded_eq (a : Fr254) : serializeFrPadded a = .ok (hexText a) := by
  have hlen : (bigintToBigEndian (serializeCompressed a)).length = 32 := by
    rw [bigintToBigEndian, List.length_reverse, serializeCompressed, Trees.length_bytesLE]
  rw [serializeFrPadded, if_neg (by rw [hlen]; omega), ← serializeToPaddedHex_eq_hexText]
  rfl

theorem length_hexText (a : Fr254) : (hexText a).length = 64 := by
  rw [hexText, Hex.length_encode, length_toBytesBe]

/-! ### Readers undo the writers -/

theorem deserializeWithMode_toBytesBe (a : Fr254) :
    deserializeWithMode (toBytesBe 32 a.val).reverse = .ok a := by
  have htake : (toBytesBe 32 a.val).reverse.take 32 = (toBytesBe 32 a.val).reverse :=
    List.take_of_length_le (by rw [List.length_reverse, length_toBytesBe])
  have hnumber : number (toBytesBe 32 a.val) = a.val := by
    rw [number_toBytesBe, Nat.mod_eq_of_lt (Trees.val_lt_pow a)]
  rw [deserializeWithMode, htake, List.reverse_reverse, hnumber, if_neg, ZMod.natCast_zmod_val]
  rw [List.length_reverse, length_toBytesBe, not_or]
  exact ⟨lt_irrefl 32, (ZMod.val_lt a).not_ge⟩

theorem toBytesBe_ne_nil (a : Fr254) : toBytesBe 32 a.val ≠ [] := by
  intro h
  have hlen := congrArg List.length h
  rw [length_toBytesBe] at hlen
  cases hlen

theorem arkDeHex_hexText (a : Fr254) : arkDeHex (hexText a) = .ok a := by
  have hread : (fromHexString (hexText a) : Except HexError Bytes) = .ok (toBytesBe 32 a.val) :=
    roundTrips_bytes.2 (toBytesBe_ne_nil a)
  rw [arkDeHex, hread]
  exact deserializeWithMode_toBytesBe a

theorem deserializeFrPadded_hexText (a : Fr254) : deserializeFrPadded (hexText a) = .ok a := by
  rw [deserializeFrPadded, hexText, Hex.decode_encode]
  simp only [Option.elim_some, Evm.ok_bind, length_toBytesBe, lt_irrefl, if_false]
  exact deserializeWithMode_toBytesBe a

theorem hexText_lt {a b : Fr254} : hexText a < hexText b ↔ a.val < b.val := by
  rw [← serializeToPaddedHex_eq_hexText, ← serializeToPaddedHex_eq_hexText,
    Trees.serializeToPaddedHex_lt]

/-- **The database encoding of field elements.**  The texts are in the order of the canonical
representatives and have 64 characters; all four writers write the same text, and both readers read
the element back from it. -/
theorem padded_hex (a b : Fr254) :
    (serializeToPaddedHex a < serializeToPaddedHex b ↔ a.val < b.val) ∧
      (serializeToPaddedHex a).length = 64 ∧
      serializeFrPadded a = .ok (serializeToPaddedHex a) ∧
      arkSeHex a = serializeToPaddedHex a ∧
      toHexString a = serializeToPaddedHex a ∧
      deserializeFrPadded (serializeToPaddedHex a) = .ok a ∧
      arkDeHex (serializeToPaddedHex a) = .ok a := by
  rw [serializeToPaddedHex_eq_hexText, serializeToPaddedHex_eq_hexText]
  exact ⟨hexText_lt, length_hexText a, serializeFrPadded_eq a, arkSeHex_eq_hexText a,
    toHexString_eq_hexText a, deserializeFrPadded_hexText a, arkDeHex_hexText a⟩

end Codec

end Nightfall
