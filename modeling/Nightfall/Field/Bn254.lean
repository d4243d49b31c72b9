import Mathlib.NumberTheory.LucasPrimality
import Mathlib.Tactic.NormNum.Prime
import Mathlib.Algebra.Field.ZMod

/-!
# The two fields of the BN254 cycle

`Fr254` is the scalar field of BN254 (`ark_bn254::Fr`), over which the client, the deposit and
the `bn254` rollup circuits are built; `Fq254` is its base field (`ark_bn254::Fq`), over which
the `grumpkin` rollup circuits are built.  Both are `ZMod` of their modulus.

The scalar modulus is proved prime by Lucas's test: `lucasTest` is the Boolean test for one
number, `prime_of_lucasTest` its soundness, and `prattTree` lists the large primes that the test of
the modulus rests on.  The base field is only used as a ring.
-/

namespace Nightfall

/-! ### Lucas's test from a factorisation -/

/-- `acc * b ^ e % m` by repeated squaring, for exponents of at most `k` bits. -/
def powModAux (m : ℕ) : ℕ → ℕ → ℕ → ℕ → ℕ
  | 0, acc, _, _ => acc % m
  | k + 1, acc, b, e =>
    powModAux m k (if e % 2 = 1 then acc * b % m else acc) (b * b % m) (e / 2)

theorem powModAux_eq (m : ℕ) {k acc b e : ℕ} (he : e < 2 ^ k) :
    powModAux m k acc b e = acc * b ^ e % m := by
  induction k generalizing acc b e with
  | zero =>
    obtain rfl : e = 0 := by simpa using he
    simp [powModAux]
  | succ k ih =>
    have he' : e / 2 < 2 ^ k := by rw [pow_succ] at he; omega
    have hsq : (b * b % m) ^ (e / 2) ≡ b ^ (2 * (e / 2)) [MOD m] := by
      rw [pow_mul, sq]
      exact (Nat.mod_modEq _ _).pow _
    rw [powModAux, ih he']
    split_ifs with hodd
    · have hexp : e = 2 * (e / 2) + 1 := by omega
      calc (acc * b % m) * (b * b % m) ^ (e / 2) % m
          = acc * b * b ^ (2 * (e / 2)) % m := (Nat.mod_modEq _ _).mul hsq
        _ = acc * b ^ e % m := by conv_rhs => rw [hexp, pow_succ]
                                  congr 1; ring
    · have hexp : 2 * (e / 2) = e := by omega
      rw [hexp] at hsq
      exact (Nat.ModEq.refl acc).mul hsq

/-- Lucas's test for `p < 2 ^ 256` with base `a`, where `qs` lists the prime factors of
`p - 1` with their multiplicities. -/
def lucasTest (p a : ℕ) (qs : List ℕ) : Bool :=
  decide (1 < p) && decide (p < 2 ^ 256) && p - 1 == qs.prod &&
    powModAux p 256 1 a (p - 1) == 1 && qs.all fun q => powModAux p 256 1 a ((p - 1) / q) != 1

theorem prime_of_lucasTest {p : ℕ} (a : ℕ) (qs : List ℕ) (hqs : ∀ q ∈ qs, q.Prime)
    (h : lucasTest p a qs = true) : p.Prime := by
  simp only [lucasTest, Bool.and_eq_true, decide_eq_true_eq, beq_iff_eq, List.all_eq_true,
    bne_iff_ne] at h
  obtain ⟨⟨⟨⟨h1, h256⟩, hprod⟩, hone⟩, hne⟩ := h
  have hpow : ∀ e ≤ p - 1, (a : ZMod p) ^ e = 1 ↔ powModAux p 256 1 a e = 1 := by
    intro e he
    rw [powModAux_eq p (by omega), one_mul, ← Nat.cast_pow, ← Nat.cast_one,
      ZMod.natCast_eq_natCast_iff', Nat.mod_eq_of_lt h1]
  refine lucas_primality p a ((hpow _ le_rfl).2 hone) fun q hq hdvd => ?_
  rw [hprod] at hdvd
  obtain ⟨x, hx, hqx⟩ := (Prime.dvd_prod_iff hq.prime).1 hdvd
  rw [(Nat.prime_dvd_prime_iff_eq hq (hqs x hx)).1 hqx, Ne, hpow _ (Nat.div_le_self _ _)]
  exact hne x hx

/-- Lucas's tests `(p, a, qs)` one after the other, where the factors `qs` are known primes or were
tested before. -/
def lucasTests : List ℕ → List (ℕ × ℕ × List ℕ) → Bool
  | _, [] => true
  | known, (p, a, qs) :: ts =>
    qs.all (known.contains ·) && lucasTest p a qs && lucasTests (p :: known) ts

theorem prime_of_lucasTests {known : List ℕ} {ts : List (ℕ × ℕ × List ℕ)}
    (hknown : ∀ q ∈ known, q.Prime) (h : lucasTests known ts = true) : ∀ t ∈ ts, t.1.Prime := by
  induction ts generalizing known with
  | nil => exact List.forall_mem_nil _
  | cons t ts ih =>
    obtain ⟨p, a, qs⟩ := t
    simp only [lucasTests, Bool.and_eq_true, List.all_eq_true, List.contains_iff_mem] at h
    obtain ⟨⟨hqs, htest⟩, hrest⟩ := h
    have hp : p.Prime := prime_of_lucasTest a qs (fun q hq => hknown q (hqs q hq)) htest
    exact List.forall_mem_cons.2 ⟨hp, ih (List.forall_mem_cons.2 ⟨hp, hknown⟩) hrest⟩

/-! ### The scalar field -/

/-- `<Fr254 as PrimeField>::MODULUS`. -/
def frModulus : ℕ :=
  21888242871839275222246405745257275088548364400416034343698204186575808495617

/-- The small primes of the Pratt tree of the modulus. -/
def smallPrimes : List ℕ :=
  [2, 3, 5, 7, 11, 13, 29, 83, 107, 229, 379, 661, 823, 853, 983, 1637, 3691, 4999, 11003, 93001,
    237073, 1593227]

/-- Its large primes, with the bases of their tests. -/
def prattTree : List (ℕ × ℕ × List ℕ) :=
  [(12048837557, 2, [2, 2, 7, 7, 661, 93001]),
    (5156902474397, 2, [2, 2, 107, 12048837557]),
    (1670836401704629, 2, [2, 2, 3, 3, 3, 3, 5156902474397]),
    (639533339, 2, [2, 229, 853, 1637]),
    (65865678001877903, 5, [2, 83, 379, 1637, 639533339]),
    (13818364434197438864469338081, 3,
      [2, 2, 2, 2, 2, 5, 823, 1593227, 65865678001877903]),
    (405928799, 22, [2, 11, 3691, 4999]),
    (frModulus, 5, List.replicate 28 2 ++ [3, 3, 13, 29, 983, 11003, 237073, 405928799,
      1670836401704629, 13818364434197438864469338081])]

theorem frModulus_prime : Nat.Prime frModulus := by
  have hsmall : ∀ q ∈ smallPrimes, q.Prime := by
    simp only [smallPrimes, List.forall_mem_cons]
    norm_num
  have htests : lucasTests smallPrimes prattTree = true := by decide +kernel
  exact prime_of_lucasTests hsmall htests (frModulus, _) (List.mem_of_getLast? rfl)

/-- The scalar field of BN254, `ark_bn254::Fr`. -/
abbrev Fr254 : Type := ZMod frModulus

instance : Fact frModulus.Prime := ⟨frModulus_prime⟩

/-- The coefficient 2 of a gate as a literal of the field. -/
instance atLeastTwo_two : Nat.AtLeastTwo 2 := ⟨le_rfl⟩

/-- The values 5 and 8 of sample circuits as literals of the field. -/
instance atLeastTwo_five : Nat.AtLeastTwo 5 := ⟨by omega⟩

instance atLeastTwo_eight : Nat.AtLeastTwo 8 := ⟨by omega⟩

/-! ### The base field -/

/-- `<Fq254 as PrimeField>::MODULUS`. -/
def fqModulus : ℕ :=
  21888242871839275222246405745257275088696311157297823662689037894645226208583

/-- The base field of BN254, `ark_bn254::Fq`. -/
abbrev Fq254 : Type := ZMod fqModulus

instance : NeZero fqModulus := ⟨by unfold fqModulus; norm_num⟩

theorem frModulus_lt_fqModulus : frModulus < fqModulus := by norm_num [frModulus, fqModulus]

end Nightfall
