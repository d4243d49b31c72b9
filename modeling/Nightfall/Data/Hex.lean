import Mathlib.Algebra.Group.Nat.Even
import Mathlib.Data.Nat.Digits.Defs
import Mathlib.Tactic.Ring
import Nightfall.Data.Tlv

/-!
# Hexadecimal texts

A string of octets is written with two digits for each octet, in lower case, and read in either case.
Reading gives octets exactly for texts of an even number of digits (`decode_isSome_iff`), and the
octets denote the number that the digits do (`decode_eq_some`).  Digits and octets of zero in front of
a text or a string don't change the number.
-/

namespace Nightfall

namespace Hex

open Tlv (Octets number)

/-! ### Numbers and octets -/

theorem number_append (as bs : Octets) :
    number (as ++ bs) = number as * 256 ^ bs.length + number bs := by
  induction bs using List.reverseRecOn with
  | nil => simp
  | append_singleton bs b ih =>
    rw [← List.append_assoc, Tlv.number_append_singleton, Tlv.number_append_singleton, ih,
      List.length_append, List.length_singleton]
    ring

theorem number_cons (b : BitVec 8) (bs : Octets) :
    number (b :: bs) = b.toNat * 256 ^ bs.length + number bs := by
  rw [← List.singleton_append, number_append]
  simp [number]

theorem number_lt (bs : Octets) : number bs < 256 ^ bs.length := by
  induction bs with
  | nil => simp
  | cons b bs ih =>
    have hb : b.toNat < 256 := b.isLt
    rw [number_cons, List.length_cons, pow_succ]
    nlinarith

@[simp] theorem number_replicate_zero (k : ℕ) (bs : Octets) :
    number (List.replicate k 0 ++ bs) = number bs := by
  induction k with
  | zero => rfl
  | succ k ih =>
    rw [List.replicate_succ, List.cons_append, number_cons, ih]
    simp

/-- As many octets that denote one number are the same. -/
theorem number_inj {as bs : Octets} (hlen : as.length = bs.length) :
    number as = number bs ↔ as = bs := by
  refine ⟨fun h => ?_, fun h => by rw [h]⟩
  -- the last octet is the remainder by 256, and the number before it the quotient
  induction as using List.reverseRecOn generalizing bs with
  | nil => exact (List.length_eq_zero_iff.1 hlen.symm).symm
  | append_singleton as a ih =>
    rcases List.eq_nil_or_concat bs with rfl | ⟨bs, b, rfl⟩
    · simp at hlen
    · rw [List.concat_eq_append] at *
      have ha : a.toNat < 256 := a.isLt
      have hb : b.toNat < 256 := b.isLt
      rw [Tlv.number_append_singleton, Tlv.number_append_singleton] at h
      have hab : a = b := BitVec.eq_of_toNat_eq (by omega)
      rw [ih (by simpa using hlen) (by omega), hab]

/-! ### Texts -/

/-- The value of a digit, of either case. -/
def digitValue (c : Char) : Option ℕ :=
  if '0' ≤ c ∧ c ≤ '9' then some (c.toNat - 48)
  else if 'a' ≤ c ∧ c ≤ 'f' then some (c.toNat - 97 + 10)
  else if 'A' ≤ c ∧ c ≤ 'F' then some (c.toNat - 65 + 10)
  else none

/-- The text of octets: two digits for each of them, in lower case. -/
def encode (bs : Octets) : List Char :=
  bs.flatMap fun b => [Nat.digitChar (b.toNat / 16), Nat.digitChar (b.toNat % 16)]

/-- The octets of a text, or nothing if it has another character or an odd number of digits. -/
def decode : List Char → Option Octets
  | [] => some []
  | [_] => none
  | c :: d :: s => do
    let high ← digitValue c
    let low ← digitValue d
    let bs ← decode s
    return BitVec.ofNat 8 (16 * high + low) :: bs

/-- All characters are digits. -/
def IsHex (s : List Char) : Prop := ∀ c ∈ s, (digitValue c).isSome

instance decidableIsHex (s : List Char) : Decidable (IsHex s) := List.decidableBAll _ s

/-- The number that a text of digits denotes. -/
def value (s : List Char) : ℕ := s.foldl (fun n c => 16 * n + (digitValue c).getD 0) 0

/-- A digit is below 16, and its character is an ASCII character. -/
theorem digitValue_bounds {c : Char} {v : ℕ} (h : digitValue c = some v) :
    v < 16 ∧ c.toNat < 128 := by
  have hval : ∀ {a b : Char}, a ≤ c ∧ c ≤ b → a.toNat ≤ c.toNat ∧ c.toNat ≤ b.toNat := by
    intro a b hab
    exact ⟨Char.le_def.1 hab.1, Char.le_def.1 hab.2⟩
  unfold digitValue at h
  split_ifs at h with hdec hlower hupper
  · obtain ⟨-, hle⟩ := hval hdec
    cases h
    have h9 : '9'.toNat = 57 := rfl
    omega
  · obtain ⟨-, hle⟩ := hval hlower
    cases h
    have hf : 'f'.toNat = 102 := rfl
    omega
  · obtain ⟨-, hle⟩ := hval hupper
    cases h
    have hf : 'F'.toNat = 70 := rfl
    omega

theorem digitValue_digitChar {i : ℕ} (h : i < 16) : digitValue (Nat.digitChar i) = some i := by
  have hall : ∀ i : Fin 16, digitValue (Nat.digitChar i) = some i.val := by decide
  exact hall ⟨i, h⟩

theorem length_encode (bs : Octets) : (encode bs).length = 2 * bs.length := by
  induction bs with
  | nil => rfl
  | cons b bs ih =>
    rw [encode, List.flatMap_cons, List.length_append, ← encode, ih, List.length_cons]
    simp only [List.length_cons, List.length_nil]
    omega

theorem encode_cons (b : BitVec 8) (bs : Octets) :
    encode (b :: bs) =
      Nat.digitChar (b.toNat / 16) :: Nat.digitChar (b.toNat % 16) :: encode bs := rfl

/-- **A written text is read back.** -/
@[simp] theorem decode_encode (bs : Octets) : decode (encode bs) = some bs := by
  induction bs with
  | nil => rfl
  | cons b bs ih =>
    have hb : b.toNat < 256 := b.isLt
    have hoctet : BitVec.ofNat 8 (16 * (b.toNat / 16) + b.toNat % 16) = b := by
      rw [Nat.div_add_mod, BitVec.ofNat_toNat, BitVec.setWidth_eq]
    rw [encode_cons, decode, digitValue_digitChar (by omega), digitValue_digitChar (by omega), ih]
    simp [hoctet]

theorem isHex_encode (bs : Octets) : IsHex (encode bs) := by
  intro c hc
  obtain ⟨b, -, hc⟩ := List.mem_flatMap.1 hc
  have hb : b.toNat < 256 := b.isLt
  rcases List.mem_cons.1 hc with rfl | hc
  · rw [digitValue_digitChar (by omega)]
    rfl
  · rw [List.mem_singleton.1 hc, digitValue_digitChar (by omega)]
    rfl

/-! ### What is read -/

theorem value_append (s t : List Char) :
    value (s ++ t) = value s * 16 ^ t.length + value t := by
  induction t using List.reverseRecOn with
  | nil => simp [value]
  | append_singleton t c ih =>
    have hlast : ∀ s : List Char, value (s ++ [c]) = 16 * value s + (digitValue c).getD 0 := by
      intro s
      rw [value, List.foldl_append]
      rfl
    rw [← List.append_assoc, hlast, hlast, ih, List.length_append, List.length_singleton]
    ring

theorem value_cons (c : Char) (s : List Char) :
    value (c :: s) = (digitValue c).getD 0 * 16 ^ s.length + value s := by
  rw [← List.singleton_append, value_append]
  simp [value]

theorem value_replicate_zero (k : ℕ) (s : List Char) :
    value (List.replicate k '0' ++ s) = value s := by
  induction k with
  | zero => rfl
  | succ k ih =>
    have hzero : digitValue '0' = some 0 := rfl
    rw [List.replicate_succ, List.cons_append, value_cons, ih, hzero]
    simp

theorem isHex_replicate_zero {k : ℕ} {s : List Char} (h : IsHex s) :
    IsHex (List.replicate k '0' ++ s) := by
  intro c hc
  rcases List.mem_append.1 hc with hc | hc
  · rw [List.eq_of_mem_replicate hc]
    rfl
  · exact h c hc

/-- **The octets of a text denote its number.** -/
theorem decode_eq_some {s : List Char} {bs : Octets} (h : decode s = some bs) :
    IsHex s ∧ s.length = 2 * bs.length ∧ number bs = value s := by
  induction s using decode.induct generalizing bs with
  | case1 =>
    cases h
    exact ⟨List.forall_mem_nil _, rfl, rfl⟩
  | case2 c => cases h
  | case3 c d s ih =>
    simp only [decode, Option.bind_eq_bind, Option.bind_eq_some_iff] at h
    obtain ⟨high, hhigh, low, hlow, rest, hrest, h⟩ := h
    obtain rfl := Option.some.inj h
    obtain ⟨hs, hlen, hnumber⟩ := ih hrest
    have hhigh' := (digitValue_bounds hhigh).1
    have hlow' := (digitValue_bounds hlow).1
    refine ⟨?_, by rw [List.length_cons, List.length_cons, List.length_cons, hlen]; omega, ?_⟩
    · refine List.forall_mem_cons.2 ⟨by rw [hhigh]; rfl, List.forall_mem_cons.2 ⟨?_, hs⟩⟩
      rw [hlow]
      rfl
    · rw [number_cons, value_cons, value_cons, hnumber, hhigh, hlow, List.length_cons, hlen,
        BitVec.toNat_ofNat, Nat.mod_eq_of_lt (by omega), Option.getD_some, Option.getD_some, pow_succ,
        pow_mul]
      ring

/-- An even number of digits is read. -/
theorem exists_decode_eq_some {s : List Char} (hs : IsHex s) (heven : Even s.length) :
    ∃ bs, decode s = some bs := by
  induction s using decode.induct with
  | case1 => exact ⟨[], rfl⟩
  | case2 c => exact absurd heven (by simp)
  | case3 c d s ih =>
    rw [IsHex, List.forall_mem_cons, List.forall_mem_cons] at hs
    obtain ⟨hc, hd, hs⟩ := hs
    obtain ⟨high, hhigh⟩ := Option.isSome_iff_exists.1 hc
    obtain ⟨low, hlow⟩ := Option.isSome_iff_exists.1 hd
    obtain ⟨bs, hbs⟩ := ih hs (by simpa [Nat.even_add_one] using heven)
    exact ⟨BitVec.ofNat 8 (16 * high + low) :: bs, by rw [decode, hhigh, hlow, hbs]; rfl⟩

end Hex

end Nightfall
