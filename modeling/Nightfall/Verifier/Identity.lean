import Nightfall.Verifier.UltraPlonk

/-!
# The arrays of the verifier and the identity

The two arrays that `prepare_PcsInfo` returns have 27 slots for the linearisation, 27 slots for the
polynomials that are opened at their evaluations, three for the opening check and one that stays
empty.  All offsets, indices and powers are followed through the contract, down to one list of
scalars and commitments (`preparePolyCommitments_eq`).

If the commitments are read as polynomials and the evaluations are theirs, then the linearisation
has the value of the identity at the challenge, up to the constant that is taken off the value that
is opened; and each of the other slots has the evaluation of its own polynomial, at its own point
and with its own power (`linearization_identity`).
-/

namespace Nightfall

namespace Verifier

open Evm UltraPlonk
open Node (element)

/-! ### The slots -/

section

variable (chal : ChallengeTranscript) (proof : Proof) (evalData : EvalData) (domain : EvalDomain)
  (vk : VerificationKey)

/-- The scalar and the commitment of each slot of the linearisation. -/
def linearTerms : List (U256 × G1Point) :=
  let w1 := proof.wiresEvals1
  let w2 := proof.wiresEvals2
  let w3 := proof.wiresEvals3
  let w4 := proof.wiresEvals4
  let w5 := proof.wiresEvals5
  let zetaToNPlus2 :=
    mulmod (mulmod (addmod 1 evalData.vanishEval rMod) chal.zeta rMod) chal.zeta rMod
  let coeff := negateFr evalData.vanishEval
  let coeff1 := mulmod coeff zetaToNPlus2 rMod
  let coeff2 := mulmod coeff1 zetaToNPlus2 rMod
  let coeff3 := mulmod coeff2 zetaToNPlus2 rMod
  let coeff4 := mulmod coeff3 zetaToNPlus2 rMod
  let coeff5 := mulmod coeff4 zetaToNPlus2 rMod
  [(computeFirstScalar chal proof evalData vk, proof.prodPermPolyComm),
    (computeSecondScalar chal proof, vk.sigmaComms6),
    (w1, vk.selectorComms1), (w2, vk.selectorComms2), (w3, vk.selectorComms3),
    (w4, vk.selectorComms4), (mulmod w1 w2 rMod, vk.selectorComms5),
    (mulmod w3 w4 rMod, vk.selectorComms6), (power w1 5 rMod, vk.selectorComms7),
    (power w2 5 rMod, vk.selectorComms8), (power w3 5 rMod, vk.selectorComms9),
    (power w4 5 rMod, vk.selectorComms10), (negateFr w5, vk.selectorComms11),
    (1, vk.selectorComms12),
    (mulmod w1 (mulmod w2 (mulmod w3 (mulmod w4 w5 rMod) rMod) rMod) rMod, vk.selectorComms13),
    (addmod (mulmod (mulmod (mulmod w1 w4 rMod) w3 rMod) w4 rMod)
        (mulmod (mulmod (mulmod w2 w3 rMod) w3 rMod) w4 rMod) rMod, vk.selectorComms14),
    (addmod (mulmod w1 w3 rMod) (addmod (mulmod w2 w4 rMod)
        (addmod (mulmod 2 (mulmod w1 w4 rMod) rMod)
          (mulmod 2 (mulmod w2 w3 rMod) rMod) rMod) rMod) rMod, vk.selectorComms15),
    (mulmod (mulmod (mulmod w3 w3 rMod) w4 rMod) w4 rMod, vk.selectorComms16),
    (addmod (mulmod (mulmod w1 w1 rMod) w2 rMod) (mulmod (mulmod w1 w2 rMod) w2 rMod) rMod,
      vk.selectorComms17),
    (addPlookupCommitmentsHelper1 chal proof evalData domain, proof.prodLookupPolyComm),
    (addPlookupCommitmentsHelper2 chal proof domain, proof.hPolyComm2),
    (coeff, proof.splitQuotPolyComms1), (coeff1, proof.splitQuotPolyComms2),
    (coeff2, proof.splitQuotPolyComms3), (coeff3, proof.splitQuotPolyComms4),
    (coeff4, proof.splitQuotPolyComms5), (coeff5, proof.splitQuotPolyComms6)]

/-- A commitment that is opened, its evaluation, and whether it is opened at the next point. -/
structure Opening where
  base : G1Point
  value : U256
  next : Bool

/-- The commitments behind the linearisation, in the order of the slots. -/
def openings : List Opening :=
  [⟨proof.wiresPolyComms1, proof.wiresEvals1, false⟩,
    ⟨proof.wiresPolyComms2, proof.wiresEvals2, false⟩,
    ⟨proof.wiresPolyComms3, proof.wiresEvals3, false⟩,
    ⟨proof.wiresPolyComms4, proof.wiresEvals4, false⟩,
    ⟨proof.wiresPolyComms5, proof.wiresEvals5, false⟩,
    ⟨proof.wiresPolyComms6, proof.wiresEvals6, false⟩,
    ⟨vk.sigmaComms1, proof.wireSigmaEvals1, false⟩, ⟨vk.sigmaComms2, proof.wireSigmaEvals2, false⟩,
    ⟨vk.sigmaComms3, proof.wireSigmaEvals3, false⟩, ⟨vk.sigmaComms4, proof.wireSigmaEvals4, false⟩,
    ⟨vk.sigmaComms5, proof.wireSigmaEvals5, false⟩,
    ⟨proof.prodPermPolyComm, proof.permNextEval, true⟩,
    ⟨vk.rangeTableComm, proof.rangeTableEval, false⟩, ⟨vk.keyTableComm, proof.keyTableEval, false⟩,
    ⟨proof.hPolyComm1, proof.h1Eval, false⟩, ⟨vk.selectorComms18, proof.qLookupEval, false⟩,
    ⟨vk.tableDomSepComm, proof.tableDomSepEval, false⟩, ⟨vk.qDomSepComm, proof.qDomSepEval, false⟩,
    ⟨proof.prodLookupPolyComm, proof.prodNextEval, true⟩,
    ⟨vk.rangeTableComm, proof.rangeTableNextEval, true⟩,
    ⟨vk.keyTableComm, proof.keyTableNextEval, true⟩, ⟨proof.hPolyComm1, proof.h1NextEval, true⟩,
    ⟨proof.hPolyComm2, proof.h2NextEval, true⟩, ⟨vk.selectorComms18, proof.qLookupNextEval, true⟩,
    ⟨proof.wiresPolyComms4, proof.w3NextEval, true⟩,
    ⟨proof.wiresPolyComms5, proof.w4NextEval, true⟩,
    ⟨vk.tableDomSepComm, proof.tableDomSepNextEval, true⟩]

/-- `x`, times a power of `v` by repeated products. -/
def timesPower (v : U256) : ℕ → U256 → U256
  | 0, x => x
  | n + 1, x => mulmod (timesPower v n x) v rMod

/-- The scalars of the commitments that are opened. -/
def openingScalars : List U256 :=
  (List.range 11).map (fun n => timesPower chal.v n chal.v) ++ [chal.u] ++
    (List.range 6).map (fun n => timesPower chal.v (n + 11) chal.v) ++
    (List.range 9).map (fun n => timesPower chal.v (n + 1) chal.u)

/-! ### The arrays -/

theorem replicate_58 {α : Type} (z : α) : List.replicate 58 z =
    [z, z, z, z, z, z, z, z, z, z, z, z, z, z, z, z, z, z, z, z, z, z, z, z, z, z, z, z, z, z, z, z,
      z, z, z, z, z, z, z, z, z, z, z, z, z, z, z, z, z, z, z, z, z, z, z, z, z, z] := rfl

theorem replicate_31 {α : Type} (z : α) : List.replicate 31 z =
    [z, z, z, z, z, z, z, z, z, z, z, z, z, z, z, z, z, z, z, z, z, z, z, z, z, z, z, z, z, z, z] :=
  rfl

theorem replicate_27 {α : Type} (z : α) : List.replicate 27 z =
    [z, z, z, z, z, z, z, z, z, z, z, z, z, z, z, z, z, z, z, z, z, z, z, z, z, z, z] := rfl

/-- **The linearisation** fills the first 27 slots of new arrays. -/
theorem linearizationScalarsAndBases_eq :
    linearizationScalarsAndBases chal proof evalData domain vk .new =
      ⟨(linearTerms chal proof evalData domain vk).map Prod.fst ++ List.replicate 31 0,
        (linearTerms chal proof evalData domain vk).map Prod.snd ++ List.replicate 31 .zero⟩ := by
  -- the offsets are those of these fields
  have hw1 : loadWord proof.memory 0x200 = proof.wiresEvals1 := rfl
  have hw2 : loadWord proof.memory 0x220 = proof.wiresEvals2 := rfl
  have hw3 : loadWord proof.memory 0x240 = proof.wiresEvals3 := rfl
  have hw4 : loadWord proof.memory 0x260 = proof.wiresEvals4 := rfl
  have hw5 : loadWord proof.memory 0x280 = proof.wiresEvals5 := rfl
  have hprod : loadPoint proof.memory 0xc0 = proof.prodPermPolyComm := rfl
  have hsigma : loadPoint vk.memory 0xe0 = vk.sigmaComms6 := rfl
  have hselectors : (List.range 18).map (fun i => loadPoint vk.memory (0x100 + i * 0x20)) =
      vk.selectorComms := rfl
  simp only [linearizationScalarsAndBases, addSelectorPolynomialCommitments, addPlookupCommitments,
    addSplittedQuotientCommitments, Commitments.set, Commitments.new, setFrom, replicate_58, hw1,
    hw2, hw3, hw4, hw5, hprod, hsigma, hselectors, VerificationKey.selectorComms, List.zipIdx_cons,
    List.zipIdx_nil, List.foldl_cons, List.foldl_nil, List.set_cons_zero, List.set_cons_succ,
    Nat.reduceAdd, Nat.reduceDiv, linearTerms, List.map_cons, List.map_nil]
  rfl

/-- The slots behind the linearisation, whatever it has filled in. -/
theorem computeBufferVAndUvBasis_eq {scalars : List U256} {bases : List G1Point}
    (hscalars : scalars.length = 27) (hbases : bases.length = 27) :
    computeBufferVAndUvBasis3 chal proof vk (computeBufferVAndUvBasis2 chal vk
      (computeBufferVAndUvBasis1 chal proof
        ⟨scalars ++ List.replicate 31 0, bases ++ List.replicate 31 .zero⟩)) =
      ⟨openingScalars chal,
        ⟨scalars ++ (openingScalars chal ++ List.replicate 4 0),
          bases ++ ((openings proof vk).map Opening.base ++ List.replicate 4 .zero)⟩,
        timesPower chal.v 17 chal.v, timesPower chal.v 10 chal.u⟩ := by
  -- a slot behind the linearisation is one of the second list
  have hset {α : Type} {l : List α} (hl : l.length = 27) (r : List α) (i : ℕ) (x : α) :
      (l ++ r).set (27 + i) x = l ++ r.set i x := by
    rw [List.set_append_right _ _ (by omega), hl, Nat.add_sub_cancel_left]
  have h38 {α : Type} {l : List α} (hl : l.length = 27) (r : List α) (x : α) :
      (l ++ r).set 38 x = l ++ r.set 11 x := hset hl r 11 x
  have h39 {α : Type} {l : List α} (hl : l.length = 27) (r : List α) (i : ℕ) (x : α) :
      (l ++ r).set (39 + i) x = l ++ r.set (12 + i) x := by
    rw [← hset hl, ← Nat.add_assoc]
  have h45 {α : Type} {l : List α} (hl : l.length = 27) (r : List α) (i : ℕ) (x : α) :
      (l ++ r).set (45 + i) x = l ++ r.set (18 + i) x := by
    rw [← hset hl, ← Nat.add_assoc]
  have hrange6 : List.range 6 = [0, 1, 2, 3, 4, 5] := rfl
  have hrange5 : (List.range 5).map (· + 6) = [6, 7, 8, 9, 10] := rfl
  have hrange11 : List.range 11 = [0, 1, 2, 3, 4, 5, 6, 7, 8, 9, 10] := rfl
  have hrange9 : List.range 9 = [0, 1, 2, 3, 4, 5, 6, 7, 8] := rfl
  simp only [computeBufferVAndUvBasis3, computeBufferVAndUvBasis2, computeBufferVAndUvBasis1,
    Batch.addV, Batch.addUv, Commitments.set, hrange6, hrange5, List.foldl_cons, List.foldl_nil,
    List.zipIdx_cons, List.zipIdx_nil, hset hscalars, hset hbases, h38 hscalars, h38 hbases,
    h39 hscalars, h39 hbases, h45 hscalars, h45 hbases]
  simp only [replicate_31, replicate_27, List.set_cons_zero, List.set_cons_succ, Nat.reduceAdd]
  simp only [openingScalars, openings, hrange11, hrange6, hrange9, List.map_cons, List.map_nil,
    timesPower, List.cons_append, List.nil_append]
  rfl

/-- **The arrays**: the linearisation, the commitments that are opened, and four empty slots. -/
theorem preparePolyCommitments_eq :
    preparePolyCommitments chal proof evalData domain vk .new =
      ⟨openingScalars chal,
        ⟨(linearTerms chal proof evalData domain vk).map Prod.fst ++
            (openingScalars chal ++ List.replicate 4 0),
          (linearTerms chal proof evalData domain vk).map Prod.snd ++
            ((openings proof vk).map Opening.base ++ List.replicate 4 .zero)⟩,
        timesPower chal.v 17 chal.v, timesPower chal.v 10 chal.u⟩ := by
  rw [preparePolyCommitments, linearizationScalarsAndBases_eq]
  exact computeBufferVAndUvBasis_eq chal proof vk rfl rfl

theorem prepareEvaluations_eq (constant : U256) :
    prepareEvaluations proof constant (openingScalars chal) =
      ((openingScalars chal).zip (openings proof vk)).foldl
        (fun eval term => addmod eval (mulmod term.1 term.2.value rMod) rMod)
        (negateFr constant) := rfl

/-- The challenges that `prepare_PcsInfo` fills in. -/
def ChallengeTranscript.fill : ChallengeTranscript :=
  let alpha2 := mulmod chal.alpha chal.alpha rMod
  let alpha3 := mulmod alpha2 chal.alpha rMod
  let alpha4 := mulmod alpha2 alpha2 rMod
  { chal with
    alpha2 := alpha2
    alphaPowers :=
      ![alpha2, alpha3, alpha4, mulmod alpha2 alpha3 rMod, mulmod alpha4 alpha2 rMod]
    alphaBase := 1
    alpha7 := mulmod alpha3 alpha4 rMod }

theorem element_alpha2_fill : element chal.fill.alpha2 = element chal.alpha ^ 2 := by
  simp [ChallengeTranscript.fill, sq]

theorem element_alphaPowers_fill (i : Fin 5) :
    element (chal.fill.alphaPowers i) = element chal.alpha ^ (i.val + 2) := by
  fin_cases i <;> simp [ChallengeTranscript.fill] <;> ring

end

/-! ### The scalars in the field -/

section

variable {chal : ChallengeTranscript} {proof : Proof} {evalData : EvalData} {domain : EvalDomain}
  {vk : VerificationKey} {a b : Values Fr254}

/-- The factors of the permutation that are common to the linearisation and to the constant. -/
def sigmaProduct (chal : ChallengeTranscript) (a : Values Fr254) : Fr254 :=
  ∏ i : Fin 5, (element chal.beta * a.sigmas i.castSucc + element chal.gamma + a.wires i.castSucc)

theorem prod_sigmas (chal : ChallengeTranscript) (a : Values Fr254) :
    (∏ i, (element chal.beta * a.sigmas i + element chal.gamma + a.wires i)) =
      sigmaProduct chal a *
        (element chal.beta * a.sigmas (Fin.last 5) + element chal.gamma + a.wires 5) :=
  Fin.prod_univ_castSucc _

theorem element_computeFirstScalar (h : Evaluated proof a b) :
    element (computeFirstScalar chal.fill proof evalData vk) =
      element chal.alpha ^ 2 * element evalData.lagrange1Eval + element chal.alpha *
        ∏ i, (element chal.beta * (fieldChallenges vk chal).k i * element chal.zeta +
          element chal.gamma + a.wires i) := by
  simp only [Evaluated, Proof.evals, openedValues, List.map_cons, List.cons.injEq] at h
  obtain ⟨h0, h1, h2, h3, h4, h5, -⟩ := h
  have hterms : computeFirstScalar chal.fill proof evalData vk =
      addmod (mulmod chal.fill.alpha2 evalData.lagrange1Eval rMod)
        ([(vk.k1, proof.wiresEvals1), (vk.k2, proof.wiresEvals2), (vk.k3, proof.wiresEvals3),
          (vk.k4, proof.wiresEvals4), (vk.k5, proof.wiresEvals5), (vk.k6, proof.wiresEvals6)].foldl
            (fun acc term => mulmod acc (addmod (addmod (mulmod (mulmod chal.beta term.1 rMod)
              chal.zeta rMod) chal.gamma rMod) term.2 rMod) rMod) chal.alpha) rMod := rfl
  rw [hterms, Fin.prod_univ_six]
  simp only [List.foldl_cons, List.foldl_nil, element_addmod, element_mulmod, element_alpha2_fill,
    h0, h1, h2, h3, h4, h5, fieldChallenges, VerificationKey.ks, mul_assoc]
  rfl

theorem element_computeSecondScalar (h : Evaluated proof a b) :
    element (computeSecondScalar chal.fill proof) =
      -(element chal.alpha * element chal.beta * b.prodPerm * sigmaProduct chal a) := by
  simp only [Evaluated, Proof.evals, openedValues, List.map_cons, List.cons.injEq] at h
  obtain ⟨h0, h1, h2, h3, h4, -, h6, h7, h8, h9, h10, h11, -⟩ := h
  have hterms : computeSecondScalar chal.fill proof =
      negateFr ([(proof.wireSigmaEvals1, proof.wiresEvals1),
        (proof.wireSigmaEvals2, proof.wiresEvals2), (proof.wireSigmaEvals3, proof.wiresEvals3),
        (proof.wireSigmaEvals4, proof.wiresEvals4), (proof.wireSigmaEvals5, proof.wiresEvals5)].foldl
          (fun acc term => mulmod acc (addmod (addmod (mulmod chal.beta term.1 rMod)
            chal.gamma rMod) term.2 rMod) rMod)
              (mulmod (mulmod chal.alpha chal.beta rMod) proof.permNextEval rMod)) := rfl
  rw [hterms, sigmaProduct, Fin.prod_univ_five]
  simp only [List.foldl_cons, List.foldl_nil, element_negateFr, element_addmod, element_mulmod, h0,
    h1, h2, h3, h4, h6, h7, h8, h9, h10, h11, mul_assoc]
  rfl

theorem element_computeTmp (h : Evaluated proof a b) (tmp : U256) :
    element (computeTmp chal.fill proof tmp) = element tmp -
      element chal.alpha * b.prodPerm * (element chal.gamma + a.wires 5) * sigmaProduct chal a := by
  simp only [Evaluated, Proof.evals, openedValues, List.map_cons, List.cons.injEq] at h
  obtain ⟨h0, h1, h2, h3, h4, h5, h6, h7, h8, h9, h10, h11, -⟩ := h
  have horder (w s : Fr254) : element chal.gamma + w + element chal.beta * s =
      element chal.beta * s + element chal.gamma + w := by ring
  have hfill : chal.fill.alpha = chal.alpha ∧ chal.fill.gamma = chal.gamma ∧
      chal.fill.beta = chal.beta := ⟨rfl, rfl, rfl⟩
  rw [computeTmp, sigmaProduct, Fin.prod_univ_five]
  simp only [List.zip_cons_cons, List.zip_nil_left, List.foldl_cons, List.foldl_nil, hfill,
    element_negateFr, element_addmod, element_mulmod, h0, h1, h2, h3, h4, h5, h6, h7, h8, h9, h10,
    h11, horder, mul_assoc, sub_eq_add_neg]
  rfl

theorem canonical_le {x : U256} (hx : Canonical x) : x ≤ rMod := by
  rw [BitVec.le_def, toNat_rMod]
  exact hx.le

theorem sub_rMod_eq_ok {x : U256} (hx : Canonical x) : sub rMod x = .ok (rMod - x) :=
  sub_eq_ok.2 ⟨canonical_le hx, rfl⟩

theorem element_rMod_sub {x : U256} (hx : Canonical x) : element (rMod - x) = -element x := by
  rw [element_sub_of_le (canonical_le hx), element_rMod, zero_sub]

/-- Only the inverse of the generator could make a subtraction revert; the other subtrahends are
reduced. -/
theorem computePlookupConstant_eq_ok (hinv : Canonical domain.groupGenInv) :
    ∃ y, computePlookupConstant chal.fill proof evalData domain = .ok y ∧
      ∀ a b, Evaluated proof a b → element y =
        element evalData.lagrangeNEval * (a.h1 - (b.h2 + element chal.alpha ^ 2)) -
        element chal.alpha * element evalData.lagrange1Eval -
        element chal.alpha ^ 3 * ((element chal.zeta - element domain.groupGenInv) *
          b.prodLookup) * ((element chal.beta + 1) * element chal.gamma + (a.h1 +
            element chal.beta * b.h1)) *
          ((element chal.beta + 1) * element chal.gamma + element chal.beta * b.h2) := by
  have hfill : chal.fill.alpha = chal.alpha ∧ chal.fill.gamma = chal.gamma ∧
      chal.fill.beta = chal.beta ∧ chal.fill.zeta = chal.zeta := ⟨rfl, rfl, rfl, rfl⟩
  have h2 : ((0 : Fin 5) : ℕ) + 2 = 2 := rfl
  have h3 : ((1 : Fin 5) : ℕ) + 2 = 3 := rfl
  unfold computePlookupConstant
  rw [sub_rMod_eq_ok (canonical_addmod _ _), ok_bind, sub_rMod_eq_ok hinv, ok_bind,
    sub_rMod_eq_ok (canonical_mulmod _ _), ok_bind, sub_rMod_eq_ok (canonical_mulmod _ _), ok_bind]
  refine ⟨_, rfl, fun a b h => ?_⟩
  simp only [Evaluated, Proof.evals, openedValues, List.map_cons, List.cons.injEq] at h
  obtain ⟨-, -, -, -, -, -, -, -, -, -, -, -, -, -, -, -, hh1, -, hprod, -, -, -, hh1n, hh2n, -⟩ := h
  simp only [element_addmod, element_mulmod, element_rMod_sub (canonical_mulmod _ _),
    element_rMod_sub (canonical_addmod _ _), element_rMod_sub hinv, element_one, hfill, hh1, hprod,
    hh1n, hh2n, element_alphaPowers_fill, h2, h3]
  ring

theorem element_merged (tau first q w x y z : U256) :
    element (merged tau first q w x y z) = element first + element q * (element tau *
      (element w + element tau * (element x + element tau * (element y +
        element tau * element z)))) := by
  simp only [merged, element_addmod, element_mulmod]

theorem element_addPlookupCommitmentsHelper1 (vk : VerificationKey) (h : Evaluated proof a b) :
    element (addPlookupCommitmentsHelper1 chal.fill proof evalData domain) =
      element chal.alpha ^ 4 * element evalData.lagrange1Eval +
        element chal.alpha ^ 5 * element evalData.lagrangeNEval +
        element chal.alpha ^ 6 * ((element chal.zeta - element domain.groupGenInv) *
          ((1 + element chal.beta) * (element chal.gamma + lookup (fieldChallenges vk chal) a) *
            (element chal.gamma * (1 + element chal.beta) + table (fieldChallenges vk chal) a +
              element chal.beta * table (fieldChallenges vk chal) b))) := by
  simp only [Evaluated, Proof.evals, openedValues, List.map_cons, List.cons.injEq] at h
  obtain ⟨h0, h1, h2, h3, h4, h5, -, -, -, -, -, -, h12, h13, h14, h15, -, h17, -, h19, h20, h21, -,
    -, h24, h25, h26, -⟩ := h
  have hfill : chal.fill.tau = chal.tau ∧ chal.fill.gamma = chal.gamma ∧
      chal.fill.beta = chal.beta ∧ chal.fill.zeta = chal.zeta ∧ chal.fill.alphaBase = 1 :=
    ⟨rfl, rfl, rfl, rfl, rfl⟩
  have ha4 : ((2 : Fin 5) : ℕ) + 2 = 4 := rfl
  have ha5 : ((3 : Fin 5) : ℕ) + 2 = 5 := rfl
  have ha6 : ((4 : Fin 5) : ℕ) + 2 = 6 := rfl
  simp only [addPlookupCommitmentsHelper1, prodLookupTerms, lagrangeTerms, tableTerms,
    mergedLookupX, mergedTableX, mergedTableXw, element_addmod, element_mulmod, element_merged,
    element_negateFr, element_one, hfill, element_alphaPowers_fill, ha4, ha5, ha6, h0, h1, h2, h3,
    h4, h5, h12, h13, h14, h15, h17, h19, h20, h21, h24, h25, h26]
  simp only [lookup, table, fieldChallenges]
  ring

theorem element_addPlookupCommitmentsHelper2 (h : Evaluated proof a b) :
    element (addPlookupCommitmentsHelper2 chal.fill proof domain) =
      -(element chal.alpha ^ 6 * ((element chal.zeta - element domain.groupGenInv) * b.prodLookup *
        (element chal.gamma * (1 + element chal.beta) + a.h1 + element chal.beta * b.h1))) := by
  simp only [Evaluated, Proof.evals, openedValues, List.map_cons, List.cons.injEq] at h
  obtain ⟨-, -, -, -, -, -, -, -, -, -, -, -, -, -, -, -, hh1, -, hprod, -, -, -, hh1n, -⟩ := h
  have hfill : chal.fill.gamma = chal.gamma ∧ chal.fill.beta = chal.beta ∧
      chal.fill.zeta = chal.zeta ∧ chal.fill.alphaBase = 1 := ⟨rfl, rfl, rfl, rfl⟩
  have ha6 : ((4 : Fin 5) : ℕ) + 2 = 6 := rfl
  simp only [addPlookupCommitmentsHelper2, element_addmod, element_mulmod, element_negateFr,
    element_one, hfill, element_alphaPowers_fill, ha6, hh1, hprod, hh1n]
  ring

theorem computeLinPolyConstantTerm_eq_ok (hinv : Canonical domain.groupGenInv) (input : U256)
    (rest : List U256) :
    ∃ y, computeLinPolyConstantTerm chal.fill proof evalData domain (input :: rest) = .ok y ∧
      ∀ a b, Evaluated proof a b → element y =
        element (evaluatePublicInput domain chal.zeta evalData input) -
        element chal.alpha ^ 2 * element evalData.lagrange1Eval -
        element chal.alpha * b.prodPerm * (element chal.gamma + a.wires 5) *
          sigmaProduct chal a +
        element chal.alpha ^ 3 * (element evalData.lagrangeNEval *
          (a.h1 - (b.h2 + element chal.alpha ^ 2)) -
        element chal.alpha * element evalData.lagrange1Eval -
        element chal.alpha ^ 3 * ((element chal.zeta - element domain.groupGenInv) *
          b.prodLookup) * ((element chal.beta + 1) * element chal.gamma + (a.h1 +
            element chal.beta * b.h1)) *
          ((element chal.beta + 1) * element chal.gamma + element chal.beta * b.h2)) := by
  obtain ⟨y, hy, hvalue⟩ :=
    @computePlookupConstant_eq_ok chal proof evalData domain hinv
  have h3 : ((1 : Fin 5) : ℕ) + 2 = 3 := rfl
  have hfill : chal.fill.alpha = chal.alpha ∧ chal.fill.zeta = chal.zeta ∧
      chal.fill.alphaBase = 1 := ⟨rfl, rfl, rfl⟩
  rw [computeLinPolyConstantTerm, hy]
  refine ⟨_, rfl, fun a b h => ?_⟩
  simp only [element_mulmod, element_addmod, element_negateFr, element_computeTmp h, hvalue a b h,
    hfill, element_alpha2_fill, element_alphaPowers_fill, element_one, h3]
  ring

theorem element_two : element (2 : U256) = 2 := by decide +kernel

theorem toNat_five : (5 : U256).toNat = 5 := rfl

end

/-! ### The identity -/

section

variable (poly : G1Point → Polynomial Fr254)

/-- The polynomial of a combination of commitments. -/
noncomputable def combine (terms : List (U256 × G1Point)) : Polynomial Fr254 :=
  (terms.map fun t => Polynomial.C (element t.1) * poly t.2).sum

theorem eval_combine (x : Fr254) (terms : List (U256 × G1Point)) :
    (combine poly terms).eval x = (terms.map fun t => element t.1 * (poly t.2).eval x).sum := by
  induction terms with
  | nil => simp [combine]
  | cons t terms ih => simpa [combine] using ih

variable {poly} {chal : ChallengeTranscript} {proof : Proof} {evalData : EvalData}
  {vk : VerificationKey} {a b : Values Fr254}

/-- The values of the polynomials that the linearisation combines. -/
theorem committed_valuesAt {x : Fr254} (h : a = valuesAt poly vk proof x) :
    [a.selectors 0, a.selectors 1, a.selectors 2, a.selectors 3, a.selectors 4, a.selectors 5,
        a.selectors 6, a.selectors 7, a.selectors 8, a.selectors 9, a.selectors 10, a.selectors 11,
        a.selectors 12, a.selectors 13, a.selectors 14, a.selectors 15, a.selectors 16,
        a.selectors 17] = vk.selectorComms.map (fun p => (poly p).eval x) ∧
      [a.quotients 0, a.quotients 1, a.quotients 2, a.quotients 3, a.quotients 4, a.quotients 5] =
        proof.splitQuotPolyComms.map (fun p => (poly p).eval x) ∧
      a.prodPerm = (poly proof.prodPermPolyComm).eval x ∧
      a.prodLookup = (poly proof.prodLookupPolyComm).eval x ∧
      a.h2 = (poly proof.hPolyComm2).eval x ∧
      a.sigmas (Fin.last 5) = (poly vk.sigmaComms6).eval x := by
  subst h
  exact ⟨rfl, rfl, rfl, rfl, rfl, rfl⟩

/-- **The linearisation and its constant have the value of the identity.** -/
theorem eval_linearTerms (hinv : Canonical vk.groupGenInv)
    (hv : element evalData.vanishEval = element chal.zeta ^ vk.domainSize.toNat - 1)
    (hl1 : element evalData.lagrange1Eval = (domainValues vk chal.zeta).lagrange1)
    (hln : element evalData.lagrangeNEval = (domainValues vk chal.zeta).lagrangeN)
    (input : U256) (rest : List U256) :
    ∃ y, computeLinPolyConstantTerm chal.fill proof evalData (newEvalDomain vk) (input :: rest) =
        .ok y ∧
      ∀ (poly : G1Point → Polynomial Fr254) (a b : Values Fr254),
        a = valuesAt poly vk proof (element chal.zeta) → Evaluated proof a b →
        (combine poly (linearTerms chal.fill proof evalData (newEvalDomain vk) vk)).eval
            (element chal.zeta) + element y =
          remainder (fieldChallenges vk chal) (domainValues vk chal.zeta) a b
            (element (evaluatePublicInput (newEvalDomain vk) chal.zeta evalData input)) := by
  obtain ⟨y, hy, hvalue⟩ :=
    @computeLinPolyConstantTerm_eq_ok chal proof evalData (newEvalDomain vk) hinv input rest
  refine ⟨y, hy, fun poly a b hpoly h => ?_⟩
  -- the commitments are read as the polynomials
  obtain ⟨hselectors, hquotients, hperm, hlookup, hh2, hsigma⟩ := committed_valuesAt hpoly
  simp only [VerificationKey.selectorComms, Proof.splitQuotPolyComms, List.map_cons,
    List.cons.injEq] at hselectors hquotients
  obtain ⟨s0, s1, s2, s3, s4, s5, s6, s7, s8, s9, s10, s11, s12, s13, s14, s15, s16, s17, -⟩ :=
    hselectors
  obtain ⟨q0, q1, q2, q3, q4, q5, -⟩ := hquotients
  have hwires := h
  simp only [Evaluated, Proof.evals, openedValues, List.map_cons, List.cons.injEq] at hwires
  obtain ⟨h0, h1, h2, h3, h4, -⟩ := hwires
  have hgen : element (newEvalDomain vk).groupGenInv = (domainValues vk chal.zeta).genInv := rfl
  have hn : (domainValues vk chal.zeta).n = vk.domainSize.toNat := rfl
  have hlast : a.wires (Fin.last 5) = a.wires 5 := rfl
  have hzeta : chal.fill.zeta = chal.zeta := rfl
  rw [hvalue a b h, eval_combine]
  simp only [linearTerms, List.map_cons, List.map_nil, List.sum_cons, List.sum_nil]
  rw [element_computeFirstScalar h, element_computeSecondScalar h,
    element_addPlookupCommitmentsHelper1 vk h, element_addPlookupCommitmentsHelper2 h]
  simp only [element_mulmod, element_addmod, element_negateFr, element_power, toNat_five,
    element_two, element_one, h0, h1, h2, h3, h4, hv, hl1, hln, hgen, hzeta]
  have halpha : (fieldChallenges vk chal).alpha = element chal.alpha := rfl
  have hpoint : (fieldChallenges vk chal).zeta = element chal.zeta := rfl
  have hbeta : (fieldChallenges vk chal).beta = element chal.beta := rfl
  have hgamma : (fieldChallenges vk chal).gamma = element chal.gamma := rfl
  simp only [remainder, constraints, permutation, plookup, quotient, gate, hn, halpha,
    hpoint, hbeta, hgamma, prod_sigmas, Fin.sum_univ_six, s0, s1, s2, s3, s4, s5, s6, s7, s8, s9, s10,
    s11, s12, s13, s14, s15, s16, q0, q1, q2, q3, q4, q5, hperm, hlookup, hh2, hsigma]
  have hv1 : ((1 : Fin 6) : ℕ) = 1 := rfl
  have hv2 : ((2 : Fin 6) : ℕ) = 2 := rfl
  have hv3 : ((3 : Fin 6) : ℕ) = 3 := rfl
  have hv4 : ((4 : Fin 6) : ℕ) = 4 := rfl
  have hv5 : ((5 : Fin 6) : ℕ) = 5 := rfl
  have hv0 : ((0 : Fin 6) : ℕ) = 0 := rfl
  simp only [hv0, hv1, hv2, hv3, hv4, hv5, pow_mul', pow_add]
  generalize element chal.zeta ^ vk.domainSize.toNat = zetaToN
  ring

/-! ### The evaluations -/

theorem element_timesPower (v x : U256) (n : ℕ) :
    element (timesPower v n x) = element x * element v ^ n := by
  induction n with
  | zero => simp [timesPower]
  | succ n ih => rw [timesPower, element_mulmod, ih, pow_succ, mul_assoc]

/-- The weights of the polynomials that are opened. -/
def openingWeights (v u : Fr254) : List Fr254 :=
  (List.range 11).map (fun n => v ^ (n + 1)) ++ [u] ++
    (List.range 6).map (fun n => v ^ (n + 12)) ++ (List.range 9).map (fun n => u * v ^ (n + 1))

theorem map_openingScalars (chal : ChallengeTranscript) : (openingScalars chal).map element =
    openingWeights (element chal.v) (element chal.u) := by
  simp only [openingScalars, openingWeights, List.map_append, List.map_map, List.map_cons,
    List.map_nil, Function.comp_def, element_timesPower, pow_succ']

theorem element_foldl_terms (terms : List (U256 × Opening)) (eval : U256) :
    element (terms.foldl (fun eval term => addmod eval (mulmod term.1 term.2.value rMod) rMod)
      eval) = element eval + (terms.map fun term => element term.1 * element term.2.value).sum := by
  induction terms generalizing eval with
  | nil => simp
  | cons term terms ih => simp [ih, add_assoc]

/-- The point at which a polynomial is opened. -/
def Opening.point (o : Opening) (zeta next : Fr254) : Fr254 := if o.next then next else zeta

/-- The values that are opened are those of the polynomials. -/
theorem evaluated_iff {zeta next : Fr254} :
    Evaluated proof (valuesAt poly vk proof zeta) (valuesAt poly vk proof next) ↔
      ∀ o ∈ openings proof vk, element o.value = (poly o.base).eval (o.point zeta next) := by
  simp only [Evaluated, Proof.evals, openedValues, openings, List.map_cons, List.map_nil,
    List.cons.injEq, List.forall_mem_cons]
  constructor
  · rintro ⟨w0, w1, w2, w3, w4, w5, s0, s1, s2, s3, s4, perm, range, key, dom, q, h1, sel, prod,
      range', key', dom', h1', h2', sel', w3', w4', -⟩
    exact ⟨w0, w1, w2, w3, w4, w5, s0, s1, s2, s3, s4, perm, range, key, h1, sel, dom, q, prod,
      range', key', h1', h2', sel', w3', w4', dom', List.forall_mem_nil _⟩
  · rintro ⟨w0, w1, w2, w3, w4, w5, s0, s1, s2, s3, s4, perm, range, key, h1, sel, dom, q, prod,
      range', key', h1', h2', sel', w3', w4', dom', -⟩
    exact ⟨w0, w1, w2, w3, w4, w5, s0, s1, s2, s3, s4, perm, range, key, dom, q, h1, sel, prod,
      range', key', dom', h1', h2', sel', w3', w4', trivial⟩

theorem element_prepareEvaluations (chal : ChallengeTranscript) (proof : Proof)
    (vk : VerificationKey) (constant : U256) :
    element (prepareEvaluations proof constant (openingScalars chal)) + element constant =
      (((openingWeights (element chal.v) (element chal.u)).zip (openings proof vk)).map
        fun t => t.1 * element t.2.value).sum := by
  rw [prepareEvaluations_eq chal proof vk, element_foldl_terms, element_negateFr,
    ← map_openingScalars, List.zip_map_left, List.map_map, add_right_comm, neg_add_cancel, zero_add]
  rfl

/-! ### The arrays of a proof -/

theorem preparePcsInfo_eq (chal : ChallengeTranscript) (proof : Proof) (vk : VerificationKey)
    (publicInput : List U256) :
    preparePcsInfo chal proof vk publicInput = (do
      let evalData ← evalDataGen (newEvalDomain vk) chal.zeta publicInput
      let opening ← prepareOpeningProof chal.fill proof evalData (newEvalDomain vk) vk publicInput
        .new
      return (chal.fill, {
        nextEvalPoint := mulmod chal.zeta vk.groupGen rMod
        eval := opening.1
        commScalars := opening.2.scalars
        commBases := opening.2.bases })) := rfl

theorem length_openings (proof : Proof) (vk : VerificationKey) : (openings proof vk).length = 27 :=
  rfl

/-- What the arrays are: the linearisation `linear` with its constant, and the openings. -/
structure PcsInfo.Holds (info : PcsInfo) (chal : ChallengeTranscript) (proof : Proof)
    (vk : VerificationKey) (linear : List (U256 × G1Point)) (constant : Fr254) : Prop where
  nextEvalPoint : element info.nextEvalPoint = element chal.zeta * element vk.groupGen
  length_scalars : info.commScalars.length = 58
  length_bases : info.commBases.length = 58
  length_linear : linear.length = 27
  slots : info.commScalars.zip info.commBases = linear ++
    (openingScalars chal).zip ((openings proof vk).map Opening.base) ++ List.replicate 4 (0, .zero)
  eval : element info.eval + constant =
    (((openingWeights (element chal.v) (element chal.u)).zip (openings proof vk)).map
      fun t => t.1 * element t.2.value).sum

/-- **The arrays of a proof.**  The verifier does not revert outside of its domain, and the
linearisation has the value of the identity wherever the evaluations are those of polynomials. -/
theorem preparePcsInfo_eq_ok (hdomain : (newEvalDomain vk).Consistent)
    (hinv : Canonical vk.groupGenInv) (hzeta : element chal.zeta ≠ 0)
    (houtside : element chal.zeta ^ vk.domainSize.toNat ≠ 1) (proof : Proof) (input : U256)
    (rest : List U256) :
    ∃ info evalData y, preparePcsInfo chal proof vk (input :: rest) = .ok (chal.fill, info) ∧
      evalDataGen (newEvalDomain vk) chal.zeta (input :: rest) = .ok evalData ∧
      computeLinPolyConstantTerm chal.fill proof evalData (newEvalDomain vk) (input :: rest) =
        .ok y ∧
      info.Holds chal proof vk (linearTerms chal.fill proof evalData (newEvalDomain vk) vk)
        (element y) ∧
      ∀ (poly : G1Point → Polynomial Fr254) (a b : Values Fr254),
        a = valuesAt poly vk proof (element chal.zeta) → Evaluated proof a b →
        (combine poly (linearTerms chal.fill proof evalData (newEvalDomain vk) vk)).eval
            (element chal.zeta) + element y =
          remainder (fieldChallenges vk chal) (domainValues vk chal.zeta) a b
            (element input * (domainValues vk chal.zeta).lagrange1) := by
  obtain ⟨v, hvanish, -, hv⟩ := evaluateVanishingPoly_eq_ok (d := newEvalDomain vk) hzeta
  obtain ⟨l, hlagrange, -, hfirst, hlast⟩ := evaluateLagrange1N_eq_ok hdomain hzeta houtside hv
  set evalData : EvalData :=
    ⟨v, l.1, evaluatePiPoly (newEvalDomain vk) chal.zeta v (input :: rest), l.2⟩ with hevalData
  have heval : evalDataGen (newEvalDomain vk) chal.zeta (input :: rest) = .ok evalData := by
    rw [evalDataGen, hvanish, ok_bind, hlagrange]
    rfl
  have hvanishEval : element evalData.vanishEval = element chal.zeta ^ vk.domainSize.toNat - 1 := hv
  obtain ⟨y, hy, hidentity⟩ :=
    @eval_linearTerms chal proof evalData vk hinv hvanishEval hfirst hlast input rest
  rw [(evaluatePublicInput_spec hdomain houtside hvanishEval input).2] at hidentity
  have hlinear : (linearTerms chal.fill proof evalData (newEvalDomain vk) vk).length = 27 := rfl
  have hscalars : (openingScalars chal).length = 27 := rfl
  have hok : preparePcsInfo chal proof vk (input :: rest) = .ok (chal.fill, {
      nextEvalPoint := mulmod chal.zeta vk.groupGen rMod
      eval := prepareEvaluations proof y (openingScalars chal)
      commScalars := (linearTerms chal.fill proof evalData (newEvalDomain vk) vk).map Prod.fst ++
        (openingScalars chal ++ List.replicate 4 0)
      commBases := (linearTerms chal.fill proof evalData (newEvalDomain vk) vk).map Prod.snd ++
        ((openings proof vk).map Opening.base ++ List.replicate 4 .zero) }) := by
    rw [preparePcsInfo_eq, heval, ok_bind, prepareOpeningProof, hy, ok_bind,
      preparePolyCommitments_eq]
    rfl
  refine ⟨_, evalData, y, hok, heval, hy, ⟨element_mulmod _ _, by simp [hlinear, hscalars],
    by simp [hlinear, length_openings], hlinear, ?_, element_prepareEvaluations chal proof vk y⟩,
    hidentity⟩
  rw [List.zip_append (by simp), List.zip_append (by simp [hscalars, length_openings]),
    List.zip_map', List.zip_replicate, List.append_assoc]
  simp

/-- **The arrays are those of the identity.**  The verifier does not revert outside of its domain.
If each commitment is read as a polynomial and the evaluations are the values of these polynomials,
then the first 27 slots are a polynomial that has, up to a constant, the value of the identity; the
next 27 slots are the commitments that are opened, weighted with the powers of the two challenges;
and the value that is opened is, up to the same constant, the sum of their weighted values. -/
theorem linearization_identity (hdomain : (newEvalDomain vk).Consistent)
    (hinv : Canonical vk.groupGenInv) (hzeta : element chal.zeta ≠ 0)
    (houtside : element chal.zeta ^ vk.domainSize.toNat ≠ 1)
    (h : Evaluated proof (valuesAt poly vk proof (element chal.zeta))
      (valuesAt poly vk proof (element chal.zeta * element vk.groupGen)))
    (input : U256) (rest : List U256) :
    let zeta := element chal.zeta
    let next := zeta * element vk.groupGen
    let weights := openingWeights (element chal.v) (element chal.u)
    ∃ info linear opened constant,
      preparePcsInfo chal proof vk (input :: rest) = .ok (chal.fill, info) ∧
      element info.nextEvalPoint = next ∧
      (info.commScalars.length = 58 ∧ info.commBases.length = 58 ∧
        info.commScalars.zip info.commBases = linear ++ opened ++ List.replicate 4 (0, .zero)) ∧
      (linear.length = 27 ∧ (combine poly linear).eval zeta + constant =
        remainder (fieldChallenges vk chal) (domainValues vk chal.zeta) (valuesAt poly vk proof zeta)
          (valuesAt poly vk proof next) (element input * (domainValues vk chal.zeta).lagrange1)) ∧
      opened.map (fun t => (element t.1, t.2)) =
        weights.zip ((openings proof vk).map Opening.base) ∧
      element info.eval + constant = ((weights.zip (openings proof vk)).map
        fun t => t.1 * (poly t.2.base).eval (t.2.point zeta next)).sum := by
  intro zeta next weights
  obtain ⟨info, evalData, y, hok, -, -, hinfo, hidentity⟩ :=
    preparePcsInfo_eq_ok hdomain hinv hzeta houtside proof input rest
  have hvalues (value : Opening → Fr254) : ((weights.zip (openings proof vk)).map
      fun t => t.1 * value t.2) = List.zipWith (· * ·) weights ((openings proof vk).map value) := by
    rw [List.zipWith_map_right, List.zip, List.map_zipWith]
  refine ⟨info, _, (openingScalars chal).zip ((openings proof vk).map Opening.base), element y, hok,
    hinfo.nextEvalPoint, ⟨hinfo.length_scalars, hinfo.length_bases, hinfo.slots⟩,
    ⟨hinfo.length_linear, hidentity poly _ _ rfl h⟩, ?_, ?_⟩
  · have hweights : weights = (openingScalars chal).map element := (map_openingScalars chal).symm
    rw [hweights, List.zip_map_left]
    rfl
  · rw [hinfo.eval, hvalues fun o => element o.value,
      List.map_congr_left (evaluated_iff.1 h), ← hvalues]

/-- The values of `X` at `5` and at its product with the generator of the two square roots of one. -/
def linearProof : Proof :=
  .ofMemory (List.replicate 16 (Slot.point sampleG) ++ List.replicate 11 (Slot.word 5) ++
    [Slot.word (rMod - 5)] ++ List.replicate 6 (Slot.word 5) ++
    List.replicate 9 (Slot.word (rMod - 5)) ++ [Slot.point sampleG, Slot.point sampleG])

def linearChallenges : ChallengeTranscript :=
  { ChallengeTranscript.new with
    tau := 7, beta := 2, gamma := 3, alpha := 11, zeta := 5, v := 13, u := 17 }

theorem evaluated_linearProof :
    Evaluated linearProof (valuesAt (fun _ => Polynomial.X) sampleVk linearProof (element 5))
      (valuesAt (fun _ => Polynomial.X) sampleVk linearProof
        (element 5 * element sampleVk.groupGen)) := by
  have hnext : element 5 * element sampleVk.groupGen = element (rMod - 5) := by decide +kernel
  simp only [Evaluated, openedValues, valuesAt, Polynomial.eval_X, hnext]
  rfl

/-- Every polynomial is `X`, and no challenge is zero. -/
theorem linearization_identity_sample : ∃ info linear opened constant,
    preparePcsInfo linearChallenges linearProof sampleVk [7, 0] =
      .ok (linearChallenges.fill, info) ∧
    info.commScalars.zip info.commBases = linear ++ opened ++ List.replicate 4 (0, .zero) ∧
    (combine (fun _ => Polynomial.X) linear).eval (element 5) + constant =
      remainder (fieldChallenges sampleVk linearChallenges) (domainValues sampleVk 5)
        (valuesAt (fun _ => Polynomial.X) sampleVk linearProof (element 5))
        (valuesAt (fun _ => Polynomial.X) sampleVk linearProof
          (element 5 * element sampleVk.groupGen))
        (element 7 * (domainValues sampleVk 5).lagrange1) ∧
    element info.eval + constant =
      (((openingWeights (element 13) (element 17)).zip (openings linearProof sampleVk)).map
        fun t => t.1 * t.2.point (element 5) (element 5 * element sampleVk.groupGen)).sum := by
  have hzeta : element (5 : U256) ≠ 0 := by decide +kernel
  have hsquare : element (5 : U256) * element 5 ≠ 1 := by decide +kernel
  have houtside : element (5 : U256) ^ sampleVk.domainSize.toNat ≠ 1 := by
    rw [show sampleVk.domainSize.toNat = 2 from rfl, sq]
    exact hsquare
  have hinv : Canonical sampleVk.groupGenInv := by decide +kernel
  obtain ⟨info, linear, opened, constant, hok, -, ⟨-, -, hslots⟩, ⟨-, hidentity⟩, -, hvalue⟩ :=
    @linearization_identity (fun _ => Polynomial.X) linearChallenges linearProof sampleVk
      sampleDomain_consistent hinv hzeta houtside evaluated_linearProof 7 [0]
  simp only [Polynomial.eval_X] at hvalue
  exact ⟨info, linear, opened, constant, hok, hslots, hidentity, hvalue⟩

end

end Verifier

end Nightfall
