import Mathlib.Data.Char
import Mathlib.Data.List.Lex
import Mathlib.Data.Nat.Digits.Defs
import Mathlib.Order.Basic
import Nightfall.Field.Bn254

/-!
# Padded hexadecimal strings

The database holds a field element as the string of its 64 hexadecimal digits, the most significant
one first, and compares two of them as strings.  So it compares the canonical representatives of the
field elements (`serializeToPaddedHex_lt`).
-/

namespace Nightfall

namespace Trees

/-! ### Serialization -/

/-- The `n` bytes of a number, the least significant one first. -/
def bytesLE : ℕ → ℕ → List ℕ
  | 0, _ => []
  | n + 1, x => x % 256 :: bytesLE n (x / 256)

/-- `serialize_compressed` of a field element: the 32 bytes of its canonical representative. -/
def serializeCompressed (a : Fr254) : List ℕ := bytesLE 32 a.val

/-- `bigint_to_big_endian`. -/
def bigintToBigEndian (bytes : List ℕ) : List ℕ := bytes.reverse

/-- A byte with `{byte:02x}`. -/
def hexByte (b : ℕ) : List Char := [Nat.digitChar (b / 16), Nat.digitChar (b % 16)]

/-- `bytes_to_hex_lpadded`, for at most `max_bytes` bytes. -/
def bytesToHexLpadded (bytes : List ℕ) (maxBytes : ℕ) : List Char :=
  let hexStr := bytes.flatMap hexByte
  List.replicate (maxBytes * 2 - hexStr.length) '0' ++ hexStr

/-- `serialize_to_padded_hex`. -/
def serializeToPaddedHex (value : Fr254) : List Char :=
  bytesToHexLpadded (bigintToBigEndian (serializeCompressed value)) 32

/-! ### The order of the strings -/

theorem append_lt_append_iff {α : Type} [LT α] {a b c d : List α} (hlen : a.length = b.length) :
    a ++ c < b ++ d ↔ a < b ∨ a = b ∧ c < d := by
  induction a generalizing b with
  | nil =>
    obtain rfl := List.length_eq_zero_iff.1 hlen.symm
    simp
  | cons x a ih =>
    cases b with
    | nil => simp at hlen
    | cons y b =>
      have hlen' : a.length = b.length := by simpa using hlen
      rw [List.cons_append, List.cons_append, List.cons_lt_cons_iff, List.cons_lt_cons_iff,
        ih hlen', List.cons.injEq]
      tauto

theorem digitChar_lt {i j : ℕ} (hi : i < 16) (hj : j < 16) :
    Nat.digitChar i < Nat.digitChar j ↔ i < j := by
  have hall : ∀ i j : Fin 16, Nat.digitChar i < Nat.digitChar j ↔ i < j := by decide
  exact hall ⟨i, hi⟩ ⟨j, hj⟩

theorem digitChar_inj {i j : ℕ} (hi : i < 16) (hj : j < 16) :
    Nat.digitChar i = Nat.digitChar j ↔ i = j := by
  have hall : ∀ i j : Fin 16, Nat.digitChar i = Nat.digitChar j ↔ i = j := by decide
  simpa using hall ⟨i, hi⟩ ⟨j, hj⟩

theorem hexByte_lt {a b : ℕ} (ha : a < 256) (hb : b < 256) : hexByte a < hexByte b ↔ a < b := by
  rw [hexByte, hexByte, List.cons_lt_cons_iff, List.cons_lt_cons_iff, digitChar_lt (by omega)
    (by omega), digitChar_lt (by omega) (by omega), digitChar_inj (by omega) (by omega)]
  simp only [List.not_lt_nil, and_false, or_false]
  omega

theorem length_flatMap_hexByte (bytes : List ℕ) :
    (bytes.flatMap hexByte).length = bytes.length * 2 := by
  induction bytes with
  | nil => rfl
  | cons b bytes ih =>
    rw [List.flatMap_cons, List.length_append, ih, List.length_cons]
    simp only [hexByte, List.length_cons, List.length_nil]
    omega

theorem length_bytesLE (n x : ℕ) : (bytesLE n x).length = n := by
  induction n generalizing x with
  | zero => rfl
  | succ n ih => rw [bytesLE, List.length_cons, ih]

/-- Strings of as many digits are in the order of the numbers. -/
theorem hex_lt_iff {n x y : ℕ} (hx : x < 256 ^ n) (hy : y < 256 ^ n) :
    (bytesLE n x).reverse.flatMap hexByte < (bytesLE n y).reverse.flatMap hexByte ↔ x < y := by
  induction n generalizing x y with
  | zero =>
    obtain rfl : x = 0 := by simpa using hx
    obtain rfl : y = 0 := by simpa using hy
    simp [bytesLE]
  | succ n ih =>
    have hx' : x / 256 < 256 ^ n := Nat.div_lt_of_lt_mul (by rwa [pow_succ'] at hx)
    have hy' : y / 256 < 256 ^ n := Nat.div_lt_of_lt_mul (by rwa [pow_succ'] at hy)
    have hlen : ∀ z, ((bytesLE n z).reverse.flatMap hexByte).length = n * 2 := by
      intro z
      rw [length_flatMap_hexByte, List.length_reverse, length_bytesLE]
    -- equal strings are in neither order, so the higher bytes are equal as well
    have heq : (bytesLE n (x / 256)).reverse.flatMap hexByte =
        (bytesLE n (y / 256)).reverse.flatMap hexByte ↔ x / 256 = y / 256 := by
      refine ⟨fun h => ?_, fun h => by rw [h]⟩
      have hxy := ih hx' hy'
      have hyx := ih hy' hx'
      rw [h] at hxy hyx
      have hirrefl := List.lt_irrefl ((bytesLE n (y / 256)).reverse.flatMap hexByte)
      exact Nat.le_antisymm (not_lt.1 fun hlt => hirrefl (hyx.2 hlt))
        (not_lt.1 fun hlt => hirrefl (hxy.2 hlt))
    rw [bytesLE, bytesLE, List.reverse_cons, List.reverse_cons, List.flatMap_append,
      List.flatMap_append, append_lt_append_iff ((hlen _).trans (hlen _).symm), ih hx' hy', heq,
      List.flatMap_singleton, List.flatMap_singleton,
      hexByte_lt (Nat.mod_lt _ (by omega)) (Nat.mod_lt _ (by omega))]
    omega

theorem serializeToPaddedHex_eq (a : Fr254) :
    serializeToPaddedHex a = (bytesLE 32 a.val).reverse.flatMap hexByte := by
  have hlen : ((bytesLE 32 a.val).reverse.flatMap hexByte).length = 32 * 2 := by
    rw [length_flatMap_hexByte, List.length_reverse, length_bytesLE]
  simp only [serializeToPaddedHex, bytesToHexLpadded, bigintToBigEndian, serializeCompressed, hlen,
    Nat.sub_self, List.replicate_zero, List.nil_append]

theorem val_lt_pow (a : Fr254) : a.val < 256 ^ 32 :=
  (ZMod.val_lt a).trans (by norm_num [frModulus])

/-- **The database compares canonical representatives.** -/
theorem serializeToPaddedHex_lt {a b : Fr254} :
    serializeToPaddedHex a < serializeToPaddedHex b ↔ a.val < b.val := by
  rw [serializeToPaddedHex_eq, serializeToPaddedHex_eq]
  exact hex_lt_iff (val_lt_pow a) (val_lt_pow b)

theorem serializeToPaddedHex_inj {a b : Fr254} :
    serializeToPaddedHex a = serializeToPaddedHex b ↔ a = b := by
  refine ⟨fun h => ?_, fun h => by rw [h]⟩
  have hirrefl := List.lt_irrefl (serializeToPaddedHex b)
  have hab : ¬ a.val < b.val := by
    intro hlt
    rw [← serializeToPaddedHex_lt, h] at hlt
    exact hirrefl hlt
  have hba : ¬ b.val < a.val := by
    intro hlt
    rw [← serializeToPaddedHex_lt, h] at hlt
    exact hirrefl hlt
  exact ZMod.val_injective _ (Nat.le_antisymm (not_lt.1 hba) (not_lt.1 hab))

end Trees

end Nightfall
