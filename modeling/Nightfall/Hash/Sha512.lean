import Mathlib.Analysis.SpecialFunctions.Pow.NthRootLemmas
import Mathlib.Data.BitVec
import Mathlib.Data.Fin.VecNotation
import Mathlib.Data.Nat.Nth
import Mathlib.Data.Nat.Prime.Nth

/-!
# SHA-512

The hash function SHA-512 of FIPS 180-4, for messages of any number of bits.  A message is padded to
whole blocks of 1024 bits; each block is expanded into a schedule of 80 words, and 80 rounds over
eight working variables add it to the hash value.

The constants are the first 64 bits of the fractional parts of roots of primes, as the standard says
where they come from.
-/

namespace Nightfall

namespace Sha512

/-- A string of bits, the first one first. -/
abbrev Bits := List Bool

/-- A word. -/
abbrev Word := BitVec 64

/-! ### Words and bits -/

/-- The bits of a word, the most significant one first. -/
def toBits {w : ℕ} (x : BitVec w) : Bits := List.ofFn fun i : Fin w => x.getMsbD i

/-- The number that a string of bits denotes, the most significant bit first. -/
def ofBits (bits : Bits) : ℕ := bits.foldl (fun n b => 2 * n + b.toNat) 0

/-- `ROTR` : rotation to the right. -/
def ROTR (n : ℕ) (x : Word) : Word := (x >>> n) ||| (x <<< (64 - n))

/-- `SHR` : shift to the right. -/
def SHR (n : ℕ) (x : Word) : Word := x >>> n

/-- `Ch` : the bits of `x` choose between those of `y` and those of `z`. -/
def Ch (x y z : Word) : Word := (x &&& y) ^^^ (~~~x &&& z)

/-- `Maj` : the majority of three bits. -/
def Maj (x y z : Word) : Word := (x &&& y) ^^^ (x &&& z) ^^^ (y &&& z)

/-- `Σ₀`. -/
def bigSigma0 (x : Word) : Word := ROTR 28 x ^^^ ROTR 34 x ^^^ ROTR 39 x

/-- `Σ₁`. -/
def bigSigma1 (x : Word) : Word := ROTR 14 x ^^^ ROTR 18 x ^^^ ROTR 41 x

/-- `σ₀`. -/
def smallSigma0 (x : Word) : Word := ROTR 1 x ^^^ ROTR 8 x ^^^ SHR 7 x

/-- `σ₁`. -/
def smallSigma1 (x : Word) : Word := ROTR 19 x ^^^ ROTR 61 x ^^^ SHR 6 x

/-! ### Constants -/

/-- The prime with number `t`. -/
noncomputable def prime (t : ℕ) : ℕ := Nat.nth Nat.Prime t

/-- The first 64 bits of the fractional part of the `n`th root of `p`. -/
def fractionalRoot (n p : ℕ) : Word := BitVec.ofNat 64 (Nat.nthRoot n (p * 2 ^ (64 * n)))

/-- The constant of round `t`: the fractional part of the cube root of a prime. -/
noncomputable def K (t : ℕ) : Word := fractionalRoot 3 (prime t)

/-- The first hash value: the fractional parts of the square roots of primes. -/
noncomputable def initial (j : Fin 8) : Word := fractionalRoot 2 (prime j)

/-- The root of a number is the one number whose power is next to it. -/
theorem fractionalRoot_eq {n p r : ℕ} (hn : n ≠ 0) (hle : r ^ n ≤ p * 2 ^ (64 * n))
    (hlt : p * 2 ^ (64 * n) < (r + 1) ^ n) : fractionalRoot n p = BitVec.ofNat 64 r := by
  have hroot : Nat.nthRoot n (p * 2 ^ (64 * n)) = r := by
    have hle' := Nat.pow_nthRoot_le (a := p * 2 ^ (64 * n)) (.inl hn)
    have hlt' := Nat.lt_pow_nthRoot_add_one hn (p * 2 ^ (64 * n))
    have h₁ := lt_of_pow_lt_pow_left₀ n (Nat.zero_le _) (hle'.trans_lt hlt)
    have h₂ := lt_of_pow_lt_pow_left₀ n (Nat.zero_le _) (hle.trans_lt hlt')
    omega
  rw [fractionalRoot, hroot]

/-- Trial division by the numbers up to 20. -/
def isPrime (p : ℕ) : Bool :=
  decide (2 ≤ p) && (List.range 19).all fun m => decide (p ≤ m + 2) || decide (p % (m + 2) ≠ 0)

theorem isPrime_iff {p : ℕ} (hp : p < 441) : isPrime p = true ↔ p.Prime := by
  rw [isPrime, Bool.and_eq_true, decide_eq_true_iff, List.all_eq_true]
  constructor
  · rintro ⟨htwo, hall⟩
    refine Nat.prime_def_le_sqrt.2 ⟨htwo, fun m hm hsqrt hdvd => ?_⟩
    have hlt : m < p := hsqrt.trans_lt (Nat.sqrt_lt_self htwo)
    have hsmall : m < 21 := hsqrt.trans_lt (Nat.sqrt_lt.2 hp)
    have hdivides := hall (m - 2) (List.mem_range.2 (by omega))
    rw [Nat.sub_add_cancel hm, Bool.or_eq_true, decide_eq_true_iff, decide_eq_true_iff] at hdivides
    exact hdivides.elim hlt.not_ge fun hmod => hmod (Nat.mod_eq_zero_of_dvd hdvd)
  · intro hprime
    refine ⟨hprime.two_le, fun m _ => ?_⟩
    rw [Bool.or_eq_true, decide_eq_true_iff, decide_eq_true_iff]
    by_contra hfalse
    rw [not_or, not_le, not_not] at hfalse
    rcases (Nat.dvd_prime hprime).1 (Nat.dvd_of_mod_eq_zero hfalse.2) with hone | hself
    · omega
    · omega

/-- The elements of a set are numbered in their order. -/
theorem nth_eq_getElem_filter (p : ℕ → Prop) [DecidablePred p] (n : ℕ) {t : ℕ}
    (ht : t < ((List.range n).filter fun m => decide (p m)).length) :
    Nat.nth p t = ((List.range n).filter fun m => decide (p m))[t] := by
  induction n with
  | zero => exact absurd ht (Nat.not_lt_zero t)
  | succ n ih =>
    have hfilter : ((List.range (n + 1)).filter fun m => decide (p m)) =
        ((List.range n).filter fun m => decide (p m)) ++ if p n then [n] else [] := by
      rw [List.range_succ, List.filter_append, List.filter_singleton]
      by_cases hn : p n
      · simp [hn]
      · simp [hn]
    by_cases hlt : t < ((List.range n).filter fun m => decide (p m)).length
    · rw [ih hlt, List.getElem_of_eq hfilter, List.getElem_append_left hlt]
    · by_cases hn : p n
      · rw [hfilter, if_pos hn, List.length_append, List.length_singleton] at ht
        have hcount : t = Nat.count p n := by
          rw [Nat.count, List.countP_eq_length_filter]
          omega
        subst hcount
        rw [Nat.nth_count hn, List.getElem_of_eq hfilter, List.getElem_append_right (by omega)]
        simp [hn]
      · rw [hfilter, if_neg hn, List.append_nil] at ht
        exact absurd ht hlt

/-! ### Padding -/

/-- The number of zero bits in the padding of a message of `l` bits. -/
def zeros (l : ℕ) : ℕ := (1024 + 895 - l % 1024) % 1024

/-- The number of zero bits is the least one that leaves 128 bits of the last block. -/
theorem zeros_spec (l : ℕ) : (l + 1 + zeros l) % 1024 = 896 ∧
    ∀ k, (l + 1 + k) % 1024 = 896 → zeros l ≤ k := by
  unfold zeros
  constructor
  · omega
  · intro k hk
    omega

/-- The padded message: a one, zeros, and the length in 128 bits. -/
def pad (message : Bits) : Bits :=
  message ++ true :: List.replicate (zeros message.length) false ++
    toBits (BitVec.ofNat 128 message.length)

/-- The padded message has whole blocks. -/
theorem length_pad (message : Bits) : (pad message).length % 1024 = 0 := by
  have hzeros := (zeros_spec message.length).1
  simp only [pad, toBits, List.length_append, List.length_cons, List.length_replicate,
    List.length_ofFn]
  omega

/-- Word `j` of block `i`. -/
def blockWord (padded : Bits) (i : ℕ) (j : Fin 16) : Word :=
  BitVec.ofNat 64 (ofBits ((padded.drop (1024 * i + 64 * j)).take 64))

/-! ### Blocks -/

/-- The message schedule of a block. -/
def schedule (M : Fin 16 → Word) (t : ℕ) : Word :=
  if h : t < 16 then M ⟨t, h⟩
  else smallSigma1 (schedule M (t - 2)) + schedule M (t - 7) +
    smallSigma0 (schedule M (t - 15)) + schedule M (t - 16)

theorem schedule_of_lt (M : Fin 16 → Word) {t : ℕ} (ht : t < 16) : schedule M t = M ⟨t, ht⟩ := by
  rw [schedule, dif_pos ht]

theorem schedule_of_le (M : Fin 16 → Word) {t : ℕ} (ht : 16 ≤ t) :
    schedule M t = smallSigma1 (schedule M (t - 2)) + schedule M (t - 7) +
      smallSigma0 (schedule M (t - 15)) + schedule M (t - 16) := by
  rw [schedule, dif_neg ht.not_gt]

/-- The working variables. -/
structure Work where
  a : Word
  b : Word
  c : Word
  d : Word
  e : Word
  f : Word
  g : Word
  h : Word

/-- One round, with the word `W` of the schedule and the constant `K`. -/
def round (K W : Word) (v : Work) : Work :=
  let T₁ := v.h + bigSigma1 v.e + Ch v.e v.f v.g + K + W
  let T₂ := bigSigma0 v.a + Maj v.a v.b v.c
  ⟨T₁ + T₂, v.a, v.b, v.c, v.d + T₁, v.e, v.f, v.g⟩

/-- The working variables after the first `n` rounds. -/
noncomputable def rounds (M : Fin 16 → Word) (n : ℕ) (v : Work) : Work :=
  (List.range n).foldl (fun v t => round (K t) (schedule M t) v) v

/-- The hash value after a block. -/
noncomputable def compress (H : Fin 8 → Word) (M : Fin 16 → Word) : Fin 8 → Word :=
  let v := rounds M 80 ⟨H 0, H 1, H 2, H 3, H 4, H 5, H 6, H 7⟩
  ![v.a + H 0, v.b + H 1, v.c + H 2, v.d + H 3, v.e + H 4, v.f + H 5, v.g + H 6, v.h + H 7]

theorem compress_eq {H : Fin 8 → Word} {M : Fin 16 → Word} {v : Work}
    (h : rounds M 80 ⟨H 0, H 1, H 2, H 3, H 4, H 5, H 6, H 7⟩ = v) :
    compress H M = ![v.a + H 0, v.b + H 1, v.c + H 2, v.d + H 3, v.e + H 4, v.f + H 5, v.g + H 6,
      v.h + H 7] := by
  rw [← h]
  rfl

/-- The hash value of a message, after its first `n` blocks. -/
noncomputable def hashValue (padded : Bits) (n : ℕ) : Fin 8 → Word :=
  (List.range n).foldl (fun H i => compress H (blockWord padded i)) initial

/-- The message digest: the eight words of the last hash value. -/
noncomputable def digest (message : Bits) : Bits :=
  (List.ofFn (hashValue (pad message) ((pad message).length / 1024))).flatMap toBits

end Sha512

end Nightfall
