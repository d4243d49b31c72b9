import Nightfall.Evm.Revert
import Nightfall.Evm.Word
import Nightfall.Hash.Sha512
import Mathlib.Tactic.FinCases
import Mathlib.Tactic.Ring

/-!
# The hash function of the X509 contract

`Sha` computes SHA-512 with 256-bit words.  The functions mask their arguments to 64 bits, but the sums,
the complements and the bits that a rotation moves out on the left stay in the upper part of a word
until the next function masks them.

The lower 64 bits of every word are the word of the standard (`low`), so that the digest is the one of
the standard (`sha512_eq`).
-/

namespace Nightfall

namespace X509

open Evm

namespace Sha

/-! ### Padding -/

/-- `a * b`, which reverts on overflow. -/
def checkedMul (a b : ℕ) : Except Revert ℕ :=
  if a * b < 2 ^ 256 then .ok (a * b) else .error .overflow

/-- The bytes of a number, most significant first. -/
def bytesBE : ℕ → ℕ → Bytes
  | 0, _ => []
  | n + 1, x => bytesBE n (x / 256) ++ [BitVec.ofNat 8 x]

/-- `padMessage1024`. -/
def padMessage1024 (message : Bytes) : Except Revert Bytes := do
  let l ← checkedMul message.length 8
  let l1 := (← checkedAdd l 1) % 1024
  let k := (1920 - l1) % 1024
  if (k + 1) / 8 = 0 then .error .outOfBounds
  else
    let pad1 := (List.replicate ((k + 1) / 8) (0 : BitVec 8)).set 0 0x80
    let pad2 := bytesBE 16 (l % 2 ^ 128)
    return message ++ pad1 ++ pad2

/-- `parseMessage1024`. -/
def parseMessage1024 (paddedMessage : Bytes) : List Bytes :=
  (List.range (paddedMessage.length / 128)).map fun i => (paddedMessage.drop (128 * i)).take 128

/-- `parseMessageBlock1024`. -/
def parseMessageBlock1024 (messageBlock : Bytes) : List U256 :=
  (List.range 16).map fun j => fromBytesBE ((messageBlock.drop (8 * j)).take 8)

/-! ### Words -/

/-- `truncate64`. -/
def truncate64 : U256 := 0xffffffffffffffff

/-- `SHR`. -/
def SHR (n : ℕ) (x : U256) : U256 := (x &&& truncate64) >>> n

/-- `ROTR`. -/
def ROTR (n : ℕ) (x : U256) : U256 :=
  ((x &&& truncate64) >>> n) ||| ((x &&& truncate64) <<< (64 - n))

/-- `Ch`. -/
def Ch (x y z : U256) : U256 := (x &&& y) ^^^ (~~~x &&& z)

/-- `Maj`. -/
def Maj (x y z : U256) : U256 := (x &&& y) ^^^ (x &&& z) ^^^ (y &&& z)

/-- `Sigma0`. -/
def bigSigma0 (x : U256) : U256 := ROTR 28 x ^^^ ROTR 34 x ^^^ ROTR 39 x

/-- `Sigma1`. -/
def bigSigma1 (x : U256) : U256 := ROTR 14 x ^^^ ROTR 18 x ^^^ ROTR 41 x

/-- `sigma0`. -/
def smallSigma0 (x : U256) : U256 := ROTR 1 x ^^^ ROTR 8 x ^^^ SHR 7 x

/-- `sigma1`. -/
def smallSigma1 (x : U256) : U256 := ROTR 19 x ^^^ ROTR 61 x ^^^ SHR 6 x

/-- `add64`: a sum of numbers below `2 ^ 64`, which isn't truncated and doesn't overflow. -/
def add64 (x y : U256) : U256 := (x &&& truncate64) + (y &&& truncate64)

/-! ### Constants -/

/-- `getInitialHashValuesSha512`. -/
def getInitialHashValuesSha512 : List U256 :=
  [0x6a09e667f3bcc908, 0xbb67ae8584caa73b, 0x3c6ef372fe94f82b, 0xa54ff53a5f1d36f1,
    0x510e527fade682d1, 0x9b05688c2b3e6c1f, 0x1f83d9abfb41bd6b, 0x5be0cd19137e2179]

/-- `getConstantsSha512`. -/
def getConstantsSha512 : List U256 :=
  [0x428a2f98d728ae22, 0x7137449123ef65cd, 0xb5c0fbcfec4d3b2f, 0xe9b5dba58189dbbc,
    0x3956c25bf348b538, 0x59f111f1b605d019, 0x923f82a4af194f9b, 0xab1c5ed5da6d8118,
    0xd807aa98a3030242, 0x12835b0145706fbe, 0x243185be4ee4b28c, 0x550c7dc3d5ffb4e2,
    0x72be5d74f27b896f, 0x80deb1fe3b1696b1, 0x9bdc06a725c71235, 0xc19bf174cf692694,
    0xe49b69c19ef14ad2, 0xefbe4786384f25e3, 0x0fc19dc68b8cd5b5, 0x240ca1cc77ac9c65,
    0x2de92c6f592b0275, 0x4a7484aa6ea6e483, 0x5cb0a9dcbd41fbd4, 0x76f988da831153b5,
    0x983e5152ee66dfab, 0xa831c66d2db43210, 0xb00327c898fb213f, 0xbf597fc7beef0ee4,
    0xc6e00bf33da88fc2, 0xd5a79147930aa725, 0x06ca6351e003826f, 0x142929670a0e6e70,
    0x27b70a8546d22ffc, 0x2e1b21385c26c926, 0x4d2c6dfc5ac42aed, 0x53380d139d95b3df,
    0x650a73548baf63de, 0x766a0abb3c77b2a8, 0x81c2c92e47edaee6, 0x92722c851482353b,
    0xa2bfe8a14cf10364, 0xa81a664bbc423001, 0xc24b8b70d0f89791, 0xc76c51a30654be30,
    0xd192e819d6ef5218, 0xd69906245565a910, 0xf40e35855771202a, 0x106aa07032bbd1b8,
    0x19a4c116b8d2d0c8, 0x1e376c085141ab53, 0x2748774cdf8eeb99, 0x34b0bcb5e19b48a8,
    0x391c0cb3c5c95a63, 0x4ed8aa4ae3418acb, 0x5b9cca4f7763e373, 0x682e6ff3d6b2b8a3,
    0x748f82ee5defb2fc, 0x78a5636f43172f60, 0x84c87814a1f0ab72, 0x8cc702081a6439ec,
    0x90befffa23631e28, 0xa4506cebde82bde9, 0xbef9a3f7b2c67915, 0xc67178f2e372532b,
    0xca273eceea26619c, 0xd186b8c721c0c207, 0xeada7dd6cde0eb1e, 0xf57d4f7fee6ed178,
    0x06f067aa72176fba, 0x0a637dc5a2c898a6, 0x113f9804bef90dae, 0x1b710b35131c471b,
    0x28db77f523047d84, 0x32caab7b40c72493, 0x3c9ebe0a15c9bebc, 0x431d67c49c100d4c,
    0x4cc5d4becb3e42b6, 0x597f299cfc657e2a, 0x5fcb6fab3ad6faec, 0x6c44198c4a475817]

/-! ### The hash -/

/-- An element of an array. -/
def item (xs : List U256) (i : ℕ) : U256 := xs.getD i 0

/-- The message schedule: the array `W` is kept from block to block. -/
def messageSchedule (M W : List U256) : List U256 :=
  let W := (List.range 16).foldl (fun W t => W.set t (item M t)) W
  (List.range' 16 64).foldl (fun W t => W.set t
    (add64 (add64 (smallSigma1 (item W (t - 2))) (item W (t - 7)))
      (add64 (smallSigma0 (item W (t - 15))) (item W (t - 16))))) W

/-- One round. -/
def round (K W : U256) (a : List U256) : List U256 :=
  let T1 := add64 (add64 (item a 7) (bigSigma1 (item a 4)))
    (add64 (add64 (Ch (item a 4) (item a 5) (item a 6)) K) W)
  let T2 := add64 (bigSigma0 (item a 0)) (Maj (item a 0) (item a 1) (item a 2))
  [add64 T1 T2, item a 0, item a 1, item a 2, add64 (item a 3) T1, item a 4, item a 5, item a 6]

/-- One block: the arrays `W` and `H` after it. -/
def processBlock (WH : List U256 × List U256) (messageBlock : Bytes) : List U256 × List U256 :=
  let W := messageSchedule (parseMessageBlock1024 messageBlock) WH.1
  let a := (List.range 80).foldl (fun a t => round (item getConstantsSha512 t) (item W t) a) WH.2
  (W, (List.range 8).map fun j => add64 (item a j) (item WH.2 j))

/-- `sha512`. -/
def sha512 (message : Bytes) : Except Revert Bytes := do
  let paddedMessage ← padMessage1024 message
  let WH := (parseMessage1024 paddedMessage).foldl processBlock
    (List.replicate 80 0, getInitialHashValuesSha512)
  return (List.range 8).flatMap fun j => bytesBE 8 ((item WH.2 j).toNat % 2 ^ 64)

/-! ### The lower half of a word -/

section Low

variable {x y z : U256}

/-- The lower 64 bits of a word. -/
def low (x : U256) : Sha512.Word := x.setWidth 64

theorem getLsbD_truncate64 (i : ℕ) : truncate64.getLsbD i = decide (i < 64) := by
  have hmask : truncate64 = (BitVec.allOnes 64).setWidth 256 := by decide
  rw [hmask, BitVec.getLsbD_setWidth, BitVec.getLsbD_allOnes]
  by_cases hi : i < 64
  · have hwide : i < 256 := by omega
    simp [hi, hwide]
  · simp [hi]

theorem low_and_truncate64 (x : U256) : low (x &&& truncate64) = low x := by
  refine BitVec.eq_of_getLsbD_eq fun i hi => ?_
  simp [low, getLsbD_truncate64, hi]

/-- A masked word has no bits beyond the lower half. -/
theorem getLsbD_and_truncate64 (x : U256) (i : ℕ) :
    (x &&& truncate64).getLsbD i = (low x).getLsbD i := by
  rw [BitVec.getLsbD_and, getLsbD_truncate64, low, BitVec.getLsbD_setWidth, Bool.and_comm]

theorem low_add64 (x y : U256) : low (add64 x y) = low x + low y := by
  rw [add64, low, BitVec.setWidth_add _ _ (by decide)]
  exact congrArg₂ (· + ·) (low_and_truncate64 x) (low_and_truncate64 y)

theorem low_SHR (n : ℕ) (x : U256) : low (SHR n x) = Sha512.SHR n (low x) := by
  refine BitVec.eq_of_getLsbD_eq fun i hi => ?_
  rw [low, BitVec.getLsbD_setWidth, SHR, BitVec.getLsbD_ushiftRight, getLsbD_and_truncate64,
    Sha512.SHR, BitVec.getLsbD_ushiftRight, decide_eq_true hi, Bool.true_and]

/-- The bits that a rotation moves out on the left stay out of the lower half. -/
theorem low_ROTR (n : ℕ) (x : U256) : low (ROTR n x) = Sha512.ROTR n (low x) := by
  refine BitVec.eq_of_getLsbD_eq fun i hi => ?_
  rw [low, BitVec.getLsbD_setWidth, ROTR, BitVec.getLsbD_or, BitVec.getLsbD_ushiftRight,
    BitVec.getLsbD_shiftLeft, getLsbD_and_truncate64, getLsbD_and_truncate64, Sha512.ROTR,
    BitVec.getLsbD_or, BitVec.getLsbD_ushiftRight, BitVec.getLsbD_shiftLeft]
  have hwide : i < 256 := by omega
  rw [decide_eq_true hi, decide_eq_true hwide, Bool.true_and, Bool.true_and]

theorem low_Ch (x y z : U256) : low (Ch x y z) = Sha512.Ch (low x) (low y) (low z) := by
  simp only [low, Ch, Sha512.Ch, BitVec.setWidth_xor, BitVec.setWidth_and,
    BitVec.setWidth_not (show 64 ≤ 256 by decide)]

theorem low_Maj (x y z : U256) : low (Maj x y z) = Sha512.Maj (low x) (low y) (low z) := by
  simp only [low, Maj, Sha512.Maj, BitVec.setWidth_xor, BitVec.setWidth_and]

theorem low_xor (x y : U256) : low (x ^^^ y) = low x ^^^ low y := BitVec.setWidth_xor

theorem low_bigSigma0 (x : U256) : low (bigSigma0 x) = Sha512.bigSigma0 (low x) := by
  rw [bigSigma0, low_xor, low_xor, low_ROTR, low_ROTR, low_ROTR]
  rfl

theorem low_bigSigma1 (x : U256) : low (bigSigma1 x) = Sha512.bigSigma1 (low x) := by
  rw [bigSigma1, low_xor, low_xor, low_ROTR, low_ROTR, low_ROTR]
  rfl

theorem low_smallSigma0 (x : U256) : low (smallSigma0 x) = Sha512.smallSigma0 (low x) := by
  rw [smallSigma0, low_xor, low_xor, low_ROTR, low_ROTR, low_SHR]
  rfl

theorem low_smallSigma1 (x : U256) : low (smallSigma1 x) = Sha512.smallSigma1 (low x) := by
  rw [smallSigma1, low_xor, low_xor, low_ROTR, low_ROTR, low_SHR]
  rfl

end Low

/-! ### A block -/

section Block

variable {M W : List U256} {M' : Fin 16 → Sha512.Word}

theorem item_set (xs : List U256) (i j : ℕ) (x : U256) :
    item (xs.set i x) j = if i = j ∧ i < xs.length then x else item xs j := by
  rw [item, item, List.getD_eq_getElem?_getD, List.getElem?_set, List.getD_eq_getElem?_getD]
  by_cases hij : i = j
  · subst hij
    by_cases hi : i < xs.length
    · simp [hi]
    · simp [hi]
  · simp [hij]

theorem messageSchedule_start (hW : W.length = 80) {n : ℕ} (hn : n ≤ 16) :
    ((List.range n).foldl (fun W t => W.set t (item M t)) W).length = 80 ∧
      ∀ t < n, item ((List.range n).foldl (fun W t => W.set t (item M t)) W) t = item M t := by
  induction n with
  | zero => exact ⟨hW, fun t ht => absurd ht (Nat.not_lt_zero t)⟩
  | succ n ih =>
    obtain ⟨hlen, hitems⟩ := ih (by omega)
    rw [List.range_succ, List.foldl_append, List.foldl_cons, List.foldl_nil]
    refine ⟨by rw [List.length_set, hlen], fun t ht => ?_⟩
    rw [item_set, hlen]
    by_cases hnt : n = t
    · rw [if_pos ⟨hnt, by omega⟩, hnt]
    · rw [if_neg fun h => hnt h.1]
      exact hitems t (by omega)

theorem low_scheduleWord {W : List U256} {t : ℕ} (ht : 16 ≤ t)
    (hitems : ∀ s < t, low (item W s) = Sha512.schedule M' s) :
    low (add64 (add64 (smallSigma1 (item W (t - 2))) (item W (t - 7)))
      (add64 (smallSigma0 (item W (t - 15))) (item W (t - 16)))) = Sha512.schedule M' t := by
  rw [low_add64, low_add64, low_add64, low_smallSigma1, low_smallSigma0, hitems _ (by omega),
    hitems _ (by omega), hitems _ (by omega), hitems _ (by omega), Sha512.schedule_of_le M' ht]
  exact (BitVec.add_assoc _ _ _).symm

theorem messageSchedule_rest {W : List U256} (hW : W.length = 80)
    (hstart : ∀ t < 16, low (item W t) = Sha512.schedule M' t) {n : ℕ} (hn : n ≤ 64) :
    ((List.range' 16 n).foldl (fun W t => W.set t
        (add64 (add64 (smallSigma1 (item W (t - 2))) (item W (t - 7)))
          (add64 (smallSigma0 (item W (t - 15))) (item W (t - 16))))) W).length = 80 ∧
      ∀ t < 16 + n, low (item ((List.range' 16 n).foldl (fun W t => W.set t
        (add64 (add64 (smallSigma1 (item W (t - 2))) (item W (t - 7)))
          (add64 (smallSigma0 (item W (t - 15))) (item W (t - 16))))) W) t) =
            Sha512.schedule M' t := by
  induction n with
  | zero => exact ⟨hW, hstart⟩
  | succ n ih =>
    obtain ⟨hlen, hitems⟩ := ih (by omega)
    rw [List.range'_concat, Nat.one_mul, List.foldl_append, List.foldl_cons, List.foldl_nil]
    refine ⟨by rw [List.length_set, hlen], fun t ht => ?_⟩
    rw [item_set, hlen]
    by_cases hnt : 16 + n = t
    · rw [if_pos ⟨hnt, by omega⟩, low_scheduleWord (by omega) hitems, hnt]
    · rw [if_neg fun h => hnt h.1]
      exact hitems t (by omega)

/-- **The schedule is the one of the standard**, whatever the array held before. -/
theorem low_messageSchedule (hW : W.length = 80) (hM : ∀ j : Fin 16, low (item M j) = M' j) :
    (messageSchedule M W).length = 80 ∧
      ∀ t < 80, low (item (messageSchedule M W) t) = Sha512.schedule M' t := by
  obtain ⟨hlen, hitems⟩ := @messageSchedule_start M W hW 16 le_rfl
  refine messageSchedule_rest hlen (fun t ht => ?_) le_rfl
  rw [hitems t ht, Sha512.schedule_of_lt M' ht]
  exact hM ⟨t, ht⟩

/-- The working variables, as the standard has them. -/
def toWork (a : List U256) : Sha512.Work where
  a := low (item a 0)
  b := low (item a 1)
  c := low (item a 2)
  d := low (item a 3)
  e := low (item a 4)
  f := low (item a 5)
  g := low (item a 6)
  h := low (item a 7)

theorem toWork_round (K W : U256) (a : List U256) :
    toWork (round K W a) = Sha512.round (low K) (low W) (toWork a) := by
  have hT₁ : low (add64 (add64 (item a 7) (bigSigma1 (item a 4)))
      (add64 (add64 (Ch (item a 4) (item a 5) (item a 6)) K) W)) =
        low (item a 7) + Sha512.bigSigma1 (low (item a 4)) +
          Sha512.Ch (low (item a 4)) (low (item a 5)) (low (item a 6)) + low K + low W := by
    rw [low_add64, low_add64, low_add64, low_add64, low_bigSigma1, low_Ch]
    simp only [BitVec.add_assoc]
  have hT₂ : low (add64 (bigSigma0 (item a 0)) (Maj (item a 0) (item a 1) (item a 2))) =
      Sha512.bigSigma0 (low (item a 0)) +
        Sha512.Maj (low (item a 0)) (low (item a 1)) (low (item a 2)) := by
    rw [low_add64, low_bigSigma0, low_Maj]
  rw [Sha512.round, toWork, Sha512.Work.mk.injEq]
  refine ⟨?_, rfl, rfl, rfl, ?_, rfl, rfl, rfl⟩
  · change low (add64 _ _) = _
    rw [low_add64, hT₁, hT₂]
    rfl
  · change low (add64 _ _) = _
    rw [low_add64, hT₁]
    rfl

end Block

/-! ### The constants -/

/-- The first primes, with as many as there are rounds. -/
def primes : List ℕ := (List.range 410).filter fun p => Sha512.isPrime p

theorem primes_eq : primes =
    [2, 3, 5, 7, 11, 13, 17, 19, 23, 29, 31, 37, 41, 43, 47, 53, 59, 61, 67, 71, 73, 79, 83, 89,
    97, 101, 103, 107, 109, 113, 127, 131, 137, 139, 149, 151, 157, 163, 167, 173, 179, 181, 191,
    193, 197, 199, 211, 223, 227, 229, 233, 239, 241, 251, 257, 263, 269, 271, 277, 281, 283, 293,
    307, 311, 313, 317, 331, 337, 347, 349, 353, 359, 367, 373, 379, 383, 389, 397, 401, 409] := by
  decide +kernel

theorem prime_eq {t : ℕ} (ht : t < 80) : Sha512.prime t = primes.getD t 0 := by
  have hfilter : ((List.range 410).filter fun p => decide p.Prime) = primes := by
    refine List.filter_congr fun p hp => ?_
    have hiff : Sha512.isPrime p = true ↔ p.Prime :=
      Sha512.isPrime_iff (by have := List.mem_range.1 hp; omega)
    rw [Bool.eq_iff_iff, decide_eq_true_iff, hiff]
  have hlen : primes.length = 80 := by
    rw [primes_eq]
    rfl
  have ht' : t < ((List.range 410).filter fun p => decide p.Prime).length := by
    rw [hfilter, hlen]
    exact ht
  rw [Sha512.prime, Sha512.nth_eq_getElem_filter _ 410 ht', List.getElem_of_eq hfilter,
    List.getD_eq_getElem _ _ (by rw [hlen]; exact ht)]

/-- A word holds the fractional part of an `n`th root whose integral part is less than 32. -/
def holdsRoot (n p : ℕ) (x : U256) : Bool :=
  (List.range 32).any fun c => decide ((c * 2 ^ 64 + x.toNat) ^ n ≤ p * 2 ^ (64 * n) ∧
    p * 2 ^ (64 * n) < (c * 2 ^ 64 + x.toNat + 1) ^ n)

theorem low_of_holdsRoot {n p : ℕ} {x : U256} (hn : n ≠ 0) (h : holdsRoot n p x = true) :
    low x = Sha512.fractionalRoot n p := by
  obtain ⟨c, -, hc⟩ := List.any_eq_true.1 h
  obtain ⟨hle, hlt⟩ := of_decide_eq_true hc
  rw [Sha512.fractionalRoot_eq hn hle hlt]
  refine BitVec.eq_of_toNat_eq ?_
  rw [low, BitVec.toNat_setWidth, BitVec.toNat_ofNat, Nat.add_comm, Nat.add_mul_mod_self_right]

theorem low_constants {t : ℕ} (ht : t < 80) : low (item getConstantsSha512 t) = Sha512.K t := by
  have hall : ∀ t < 80, holdsRoot 3 (primes.getD t 0) (item getConstantsSha512 t) = true := by
    rw [primes_eq]
    decide +kernel
  rw [Sha512.K, prime_eq ht]
  exact low_of_holdsRoot three_ne_zero (hall t ht)

theorem low_initial (j : Fin 8) : low (item getInitialHashValuesSha512 j) = Sha512.initial j := by
  have hall : ∀ j < 8, holdsRoot 2 (primes.getD j 0) (item getInitialHashValuesSha512 j) = true := by
    rw [primes_eq]
    decide +kernel
  rw [Sha512.initial, prime_eq (by omega)]
  exact low_of_holdsRoot two_ne_zero (hall j j.isLt)

/-! ### Bytes and bits -/

/-- The bits of a byte string. -/
def bits (bs : Bytes) : Sha512.Bits := bs.flatMap Sha512.toBits

@[simp] theorem length_toBits {w : ℕ} (x : BitVec w) : (Sha512.toBits x).length = w :=
  List.length_ofFn

@[simp] theorem length_bits (bs : Bytes) : (bits bs).length = 8 * bs.length := by
  rw [bits, List.length_flatMap]
  simp [Nat.mul_comm]

theorem bits_append (as bs : Bytes) : bits (as ++ bs) = bits as ++ bits bs := List.flatMap_append

theorem bits_drop (bs : Bytes) (n : ℕ) : bits (bs.drop n) = (bits bs).drop (8 * n) := by
  induction bs generalizing n with
  | nil => rw [List.drop_nil, bits, List.flatMap_nil, List.drop_nil]
  | cons b bs ih =>
    cases n with
    | zero => rfl
    | succ n =>
      rw [List.drop_succ_cons, ih, bits, bits, List.flatMap_cons, Nat.mul_succ, Nat.add_comm,
        ← List.drop_drop, List.drop_left' (length_toBits b)]

theorem bits_take (bs : Bytes) (n : ℕ) : bits (bs.take n) = (bits bs).take (8 * n) := by
  induction bs generalizing n with
  | nil => rw [List.take_nil, bits, List.flatMap_nil, List.take_nil]
  | cons b bs ih =>
    cases n with
    | zero => rfl
    | succ n =>
      have hbyte : (Sha512.toBits b).take (8 + 8 * n) = Sha512.toBits b :=
        List.take_of_length_le (by rw [length_toBits]; omega)
      rw [List.take_succ_cons, bits, bits, List.flatMap_cons, List.flatMap_cons, Nat.mul_succ,
        Nat.add_comm, List.take_append, length_toBits, Nat.add_sub_cancel_left, hbyte]
      change Sha512.toBits b ++ bits (bs.take n) = Sha512.toBits b ++ (bits bs).take (8 * n)
      rw [ih]

theorem getElem_toBits {w x i : ℕ} (h : i < (Sha512.toBits (BitVec.ofNat w x)).length) :
    (Sha512.toBits (BitVec.ofNat w x))[i] = x.testBit (w - 1 - i) := by
  have hi : i < w := by rwa [length_toBits] at h
  have hlt : w - 1 - i < w := by omega
  rw [show (Sha512.toBits (BitVec.ofNat w x))[i] = (BitVec.ofNat w x).getMsbD i from
    List.getElem_ofFn _, BitVec.getMsbD_eq_getLsbD, BitVec.getLsbD_ofNat, decide_eq_true hi,
    decide_eq_true hlt, Bool.true_and, Bool.true_and]

theorem bits_bytesBE (n x : ℕ) : bits (bytesBE n x) = Sha512.toBits (BitVec.ofNat (8 * n) x) := by
  induction n generalizing x with
  | zero => rfl
  | succ n ih =>
    have hlast : bits [BitVec.ofNat 8 x] = Sha512.toBits (BitVec.ofNat 8 x) := List.append_nil _
    rw [bytesBE, bits_append, ih, hlast]
    refine List.ext_getElem ?_ fun i h₁ h₂ => ?_
    · simp only [List.length_append, length_toBits, Nat.mul_succ]
    · rw [length_toBits] at h₂
      rw [getElem_toBits]
      by_cases hi : i < 8 * n
      · rw [List.getElem_append_left (by rwa [length_toBits]), getElem_toBits,
          show 256 = 2 ^ 8 from rfl, Nat.testBit_div_two_pow]
        congr 1
        omega
      · rw [List.getElem_append_right (by rw [length_toBits]; omega)]
        simp only [length_toBits]
        rw [getElem_toBits]
        congr 1
        omega

theorem foldl_bits (n : ℕ) (bs : Sha512.Bits) :
    bs.foldl (fun n b => 2 * n + b.toNat) n = 2 ^ bs.length * n + Sha512.ofBits bs := by
  induction bs generalizing n with
  | nil => simp [Sha512.ofBits]
  | cons b bs ih =>
    have hcons : Sha512.ofBits (b :: bs) =
        2 ^ bs.length * (2 * 0 + b.toNat) + Sha512.ofBits bs := ih _
    rw [List.foldl_cons, ih, hcons, List.length_cons]
    ring

theorem ofBits_toBits : ∀ b : BitVec 8, Sha512.ofBits (Sha512.toBits b) = b.toNat := by
  decide +kernel

theorem ofBits_bits (bs : Bytes) :
    Sha512.ofBits (bits bs) = bs.foldl (fun n b => 256 * n + b.toNat) 0 := by
  have hfrom : ∀ n, (bits bs).foldl (fun n b => 2 * n + b.toNat) n =
      bs.foldl (fun n b => 256 * n + b.toNat) n := by
    induction bs with
    | nil => exact fun n => rfl
    | cons b bs ih =>
      intro n
      have hbyte : (Sha512.toBits b).foldl (fun n b => 2 * n + b.toNat) n = 256 * n + b.toNat := by
        rw [foldl_bits, length_toBits, ofBits_toBits, show 2 ^ 8 = 256 from rfl]
      rw [bits, List.flatMap_cons, List.foldl_append, hbyte]
      exact ih _
  exact hfrom 0

/-! ### Padding and blocks -/

theorem bits_replicate (n : ℕ) : bits (List.replicate n 0) = List.replicate (8 * n) false := by
  induction n with
  | zero => rfl
  | succ n ih =>
    have hbyte : Sha512.toBits (0 : BitVec 8) = List.replicate 8 false := by decide
    rw [List.replicate_succ, bits, List.flatMap_cons, hbyte, Nat.mul_succ, Nat.add_comm,
      List.replicate_add]
    exact congrArg _ ih

theorem bits_firstPad (n : ℕ) : bits ((List.replicate (n + 1) (0 : BitVec 8)).set 0 0x80) =
    true :: List.replicate (8 * n + 7) false := by
  have hbyte : Sha512.toBits (0x80 : BitVec 8) = true :: List.replicate 7 false := by decide
  rw [List.replicate_succ, List.set_cons_zero, bits, List.flatMap_cons, hbyte, List.cons_append,
    Nat.add_comm, List.replicate_add]
  exact congrArg (fun bs => true :: (List.replicate 7 false ++ bs)) (bits_replicate n)

/-- **The padding is the one of the standard**, for messages whose length it can express. -/
theorem padMessage1024_eq {message : Bytes} (h : 8 * message.length < 2 ^ 128) :
    ∃ padded, padMessage1024 message = .ok padded ∧ bits padded = Sha512.pad (bits message) := by
  have hmul : checkedMul message.length 8 = .ok (8 * message.length) := by
    rw [checkedMul, Nat.mul_comm, if_pos (h.trans (by decide))]
  have hadd : checkedAdd (8 * message.length) 1 = .ok (8 * message.length + 1) :=
    if_pos ((Nat.add_lt_add_right h 1).trans (by decide))
  -- the bytes of the first part of the padding hold the one and the zeros
  obtain ⟨n, hn⟩ : ∃ n, ((1920 - (8 * message.length + 1) % 1024) % 1024 + 1) / 8 = n + 1 :=
    ⟨((1920 - (8 * message.length + 1) % 1024) % 1024 + 1) / 8 - 1, by omega⟩
  have hzeros : 8 * n + 7 = Sha512.zeros (8 * message.length) := by
    rw [Sha512.zeros]
    omega
  refine ⟨message ++ (List.replicate (n + 1) (0 : BitVec 8)).set 0 0x80 ++
    bytesBE 16 (8 * message.length % 2 ^ 128), ?_, ?_⟩
  · rw [padMessage1024, hmul]
    change (checkedAdd (8 * message.length) 1 >>= _) = _
    rw [hadd]
    change (if _ then _ else _) = _
    rw [hn, if_neg (Nat.succ_ne_zero n)]
    rfl
  · rw [bits_append, bits_append, bits_firstPad, bits_bytesBE, Nat.mod_eq_of_lt h, Sha512.pad,
      length_bits, hzeros]

theorem low_parseMessageBlock1024 (padded : Bytes) (i : ℕ) (j : Fin 16) :
    low (item (parseMessageBlock1024 ((padded.drop (128 * i)).take 128)) j) =
      Sha512.blockWord (bits padded) i j := by
  have hj := j.isLt
  have hword : bits ((((padded.drop (128 * i)).take 128).drop (8 * j)).take 8) =
      ((bits padded).drop (1024 * i + 64 * j)).take 64 := by
    rw [List.drop_take, List.take_take, min_eq_left (by omega), List.drop_drop, bits_take, bits_drop]
    congr 2
    omega
  rw [item, parseMessageBlock1024, List.getD_eq_getElem _ _ (by simp), List.getElem_map,
    List.getElem_range, Sha512.blockWord, ← hword, ofBits_bits]
  refine BitVec.eq_of_toNat_eq ?_
  rw [low, fromBytesBE, BitVec.toNat_setWidth, BitVec.toNat_ofNat, BitVec.toNat_ofNat,
    Nat.mod_mod_of_dvd _ (by decide)]

/-! ### The hash -/

/-- The hash values that a list of words holds. -/
def toHash (H : List U256) (j : Fin 8) : Sha512.Word := low (item H j)

theorem toWork_rounds (W : List U256) (M : Fin 16 → Sha512.Word)
    (hW : ∀ t < 80, low (item W t) = Sha512.schedule M t) (a : List U256) {n : ℕ} (hn : n ≤ 80) :
    toWork ((List.range n).foldl (fun a t => round (item getConstantsSha512 t) (item W t) a) a) =
      Sha512.rounds M n (toWork a) := by
  induction n with
  | zero => rfl
  | succ n ih =>
    rw [Sha512.rounds, List.range_succ, List.foldl_append, List.foldl_append, List.foldl_cons,
      List.foldl_cons, List.foldl_nil, List.foldl_nil, toWork_round, ih (by omega),
      low_constants (by omega), hW n (by omega)]
    rfl

theorem processBlock_eq (W H : List U256) (messageBlock : Bytes) :
    processBlock (W, H) messageBlock =
      (messageSchedule (parseMessageBlock1024 messageBlock) W,
        (List.range 8).map fun j => add64 (item ((List.range 80).foldl (fun a t =>
          round (item getConstantsSha512 t)
            (item (messageSchedule (parseMessageBlock1024 messageBlock) W) t) a) H) j)
          (item H j)) := rfl

theorem toHash_map (f : ℕ → U256) (j : Fin 8) : toHash ((List.range 8).map f) j = low (f j) := by
  rw [toHash, item, List.getD_eq_getElem _ _ (by simp), List.getElem_map, List.getElem_range]

theorem toWork_eq (H : List U256) : toWork H = ⟨toHash H 0, toHash H 1, toHash H 2, toHash H 3,
    toHash H 4, toHash H 5, toHash H 6, toHash H 7⟩ := rfl

/-- The sums at the end of a block. -/
theorem low_add64_item (a H : List U256) (j : Fin 8) :
    low (add64 (item a j) (item H j)) =
      ![(toWork a).a + toHash H 0, (toWork a).b + toHash H 1, (toWork a).c + toHash H 2,
        (toWork a).d + toHash H 3, (toWork a).e + toHash H 4, (toWork a).f + toHash H 5,
        (toWork a).g + toHash H 6, (toWork a).h + toHash H 7] j := by
  rw [low_add64]
  fin_cases j <;> rfl

/-- **A block is added as the standard says.** -/
theorem toHash_processBlock {W H : List U256} (hW : W.length = 80) (padded : Bytes) (i : ℕ) :
    (processBlock (W, H) ((padded.drop (128 * i)).take 128)).1.length = 80 ∧
      toHash (processBlock (W, H) ((padded.drop (128 * i)).take 128)).2 =
        Sha512.compress (toHash H) (Sha512.blockWord (bits padded) i) := by
  have hblock := low_parseMessageBlock1024 padded i
  rw [processBlock_eq]
  generalize parseMessageBlock1024 ((padded.drop (128 * i)).take 128) = M at hblock ⊢
  obtain ⟨hlen, hschedule⟩ := low_messageSchedule hW hblock
  have hrounds := toWork_rounds _ _ hschedule H le_rfl
  -- the schedule and the rounds are not to be computed
  generalize messageSchedule M W = W' at hlen hrounds ⊢
  generalize (List.range 80).foldl (fun a t => round (item getConstantsSha512 t) (item W' t) a) H =
    a at hrounds ⊢
  refine ⟨hlen, ?_⟩
  rw [toWork_eq H] at hrounds
  rw [@Sha512.compress_eq (toHash H) _ _ hrounds.symm]
  funext j
  rw [toHash_map, low_add64_item]

theorem toHash_foldl {W H : List U256} (hW : W.length = 80) (padded : Bytes) (n : ℕ) :
    toHash ((((List.range n).map fun i => (padded.drop (128 * i)).take 128).foldl processBlock
        (W, H)).2) =
      (List.range n).foldl (fun H i => Sha512.compress H (Sha512.blockWord (bits padded) i))
        (toHash H) := by
  have hboth : ((((List.range n).map fun i => (padded.drop (128 * i)).take 128).foldl processBlock
        (W, H)).1.length = 80 ∧
      toHash ((((List.range n).map fun i => (padded.drop (128 * i)).take 128).foldl processBlock
        (W, H)).2) =
      (List.range n).foldl (fun H i => Sha512.compress H (Sha512.blockWord (bits padded) i))
        (toHash H)) := by
    induction n with
    | zero => exact ⟨hW, rfl⟩
    | succ n ih =>
      obtain ⟨hlen, hhash⟩ := ih
      rw [List.range_succ, List.map_append, List.foldl_append, List.foldl_append, ← hhash]
      exact toHash_processBlock hlen padded n
  exact hboth.2

theorem bits_words (H : List U256) :
    bits ((List.range 8).flatMap fun j => bytesBE 8 ((item H j).toNat % 2 ^ 64)) =
      (List.ofFn (toHash H)).flatMap Sha512.toBits := by
  have hword : ∀ j, bits (bytesBE 8 ((item H j).toNat % 2 ^ 64)) =
      Sha512.toBits (low (item H j)) := by
    intro j
    rw [bits_bytesBE, low]
    congr 1
    refine BitVec.eq_of_toNat_eq ?_
    rw [BitVec.toNat_ofNat, BitVec.toNat_setWidth, Nat.mod_mod]
  rw [bits, List.flatMap_assoc, List.ofFn_eq_map, List.flatMap_map, ← List.map_coe_finRange_eq_range,
    List.flatMap_map]
  exact congrArg (List.flatMap · (List.finRange 8)) (funext fun j => hword j)

/-- **The digest is the one of the standard**, for every message that the standard has one for; the
padded message is the one of the standard too, in whole blocks. -/
theorem sha512_eq {message : Bytes} (h : 8 * message.length < 2 ^ 128) :
    ∃ padded digest, padMessage1024 message = .ok padded ∧
      bits padded = Sha512.pad (bits message) ∧ padded.length % 128 = 0 ∧
      sha512 message = .ok digest ∧ bits digest = Sha512.digest (bits message) := by
  obtain ⟨padded, hpad, hbits⟩ := padMessage1024_eq h
  have hinitial : toHash getInitialHashValuesSha512 = Sha512.initial := funext low_initial
  have hlength : 8 * padded.length = (Sha512.pad (bits message)).length := by
    rw [← hbits, length_bits]
  have hwhole := Sha512.length_pad (bits message)
  refine ⟨padded, _, hpad, hbits, by omega, by rw [sha512, hpad]; rfl, ?_⟩
  have hblocks : (Sha512.pad (bits message)).length / 1024 = padded.length / 128 := by omega
  have hhash := @toHash_foldl (List.replicate 80 0) getInitialHashValuesSha512
    List.length_replicate padded (padded.length / 128)
  rw [hinitial] at hhash
  rw [Sha512.digest, Sha512.hashValue, hblocks, ← hbits, ← hhash]
  exact bits_words _

/-- The letters `abc`. -/
def sampleMessage : Bytes := [0x61, 0x62, 0x63]

theorem sha512_eq_sample : ∃ padded digest, padMessage1024 sampleMessage = .ok padded ∧
    bits padded = Sha512.pad (bits sampleMessage) ∧ padded.length % 128 = 0 ∧
    sha512 sampleMessage = .ok digest ∧ bits digest = Sha512.digest (bits sampleMessage) :=
  sha512_eq (by decide)

end Sha

end X509

end Nightfall
