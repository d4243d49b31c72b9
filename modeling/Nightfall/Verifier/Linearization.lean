import Nightfall.Verifier.Bn254Crypto
import Nightfall.Verifier.PolynomialEval

/-!
# The commitments and evaluations that are opened

The verifier fills two arrays with scalars and commitments: first those of the linearisation, then
those of the polynomials whose evaluations a proof carries.  Powers of one challenge tell the
polynomials apart, a second one marks those that are evaluated at the next point.  The evaluations
are combined with the same powers.
-/

namespace Nightfall

namespace Verifier

open Evm

/-- `new_EvalDomain`. -/
def newEvalDomain (vk : VerificationKey) : EvalDomain where
  size := vk.domainSize
  sizeInv := vk.sizeInv
  groupGen := vk.groupGen
  groupGenInv := vk.groupGenInv

/-- The slots of `EvalData`. -/
def EvalData.memory (e : EvalData) : List Slot :=
  [e.vanishEval, e.lagrange1Eval, e.piEval, e.lagrangeNEval].map .word

/-- The arrays `commScalars` and `commBases`. -/
structure Commitments where
  scalars : List U256
  bases : List G1Point

/-- New arrays with 58 elements. -/
def Commitments.new : Commitments := ⟨List.replicate 58 0, List.replicate 58 .zero⟩

/-- One element of each array is written. -/
def Commitments.set (c : Commitments) (index : ℕ) (scalar : U256) (base : G1Point) : Commitments :=
  ⟨c.scalars.set index scalar, c.bases.set index base⟩

/-- Elements from `index` on are written. -/
def setFrom {α : Type} (array : List α) (index : ℕ) (values : List α) : List α :=
  values.zipIdx.foldl (fun array value => array.set (index + value.2) value.1) array

section

variable (chal : ChallengeTranscript) (proof : Proof) (evalData : EvalData) (domain : EvalDomain)
  (vk : VerificationKey)

/-! ### The constant term -/

/-- `compute_plookup_constant`. -/
def computePlookupConstant : Except Revert U256 := do
  let gammaMulBetaPlusOne := mulmod (addmod chal.beta 1 rMod) chal.gamma rMod
  let term1 := mulmod evalData.lagrangeNEval
    (addmod proof.h1Eval
      (← sub rMod (addmod proof.h2NextEval (chal.alphaPowers 0) rMod)) rMod) rMod
  let term2 := mulmod chal.alpha evalData.lagrange1Eval rMod
  let part := mulmod (chal.alphaPowers 1)
    (mulmod (addmod chal.zeta (← sub rMod domain.groupGenInv) rMod) proof.prodNextEval rMod) rMod
  let part := mulmod part (addmod gammaMulBetaPlusOne
    (addmod proof.h1Eval (mulmod chal.beta proof.h1NextEval rMod) rMod) rMod) rMod
  let part := mulmod part (addmod gammaMulBetaPlusOne
    (mulmod chal.beta proof.h2NextEval rMod) rMod) rMod
  return addmod (addmod term1 (← sub rMod term2) rMod) (← sub rMod part) rMod

/-- `compute_tmp`. -/
def computeTmp (tmp : U256) : U256 :=
  let firstWEvals := [proof.wiresEvals1, proof.wiresEvals2, proof.wiresEvals3, proof.wiresEvals4,
    proof.wiresEvals5]
  let lastWEval := proof.wiresEvals6
  let sigmaEvals := [proof.wireSigmaEvals1, proof.wireSigmaEvals2, proof.wireSigmaEvals3,
    proof.wireSigmaEvals4, proof.wireSigmaEvals5]
  let acc := mulmod (mulmod chal.alpha proof.permNextEval rMod)
    (addmod chal.gamma lastWEval rMod) rMod
  let acc := (firstWEvals.zip sigmaEvals).foldl (fun acc evals => mulmod acc
    (addmod (addmod chal.gamma evals.1 rMod) (mulmod chal.beta evals.2 rMod) rMod) rMod) acc
  addmod tmp (negateFr acc) rMod

/-- `compute_lin_poly_constant_term`. -/
def computeLinPolyConstantTerm (publicInput : List U256) : Except Revert U256 := do
  match publicInput with
  | [] => .error .outOfBounds
  | input :: _ => do
    let result := evaluatePublicInput domain chal.zeta evalData input
    let tmp := addmod result (negateFr (mulmod chal.alpha2 evalData.lagrange1Eval rMod)) rMod
    let plookupConstant ← computePlookupConstant chal proof evalData domain
    let tmpOut := computeTmp chal proof tmp
    let tmpOut := addmod tmpOut (mulmod (chal.alphaPowers 1) plookupConstant rMod) rMod
    return mulmod chal.alphaBase tmpOut rMod

/-! ### The linearisation -/

/-- `compute_first_scalar`. -/
def computeFirstScalar : U256 :=
  let alpha := loadWord chal.memory 0x60
  let beta := loadWord chal.memory 0x20
  let gamma := loadWord chal.memory 0x40
  let zeta := loadWord chal.memory 0x80
  let firstScalar := mulmod (loadWord chal.memory 0xe0) (loadWord evalData.memory 0x20) rMod
  let acc := [(0x340, 0x200), (0x360, 0x220), (0x380, 0x240), (0x3a0, 0x260), (0x3c0, 0x280),
      (0x3e0, 0x2a0)].foldl (fun acc offsets =>
    let tmp := mulmod beta (loadWord vk.memory offsets.1) rMod
    let tmp := mulmod tmp zeta rMod
    let tmp := addmod tmp gamma rMod
    let tmp := addmod tmp (loadWord proof.memory offsets.2) rMod
    mulmod acc tmp rMod) alpha
  addmod firstScalar acc rMod

/-- `compute_second_scalar`. -/
def computeSecondScalar : U256 :=
  let alpha := loadWord chal.memory 0x60
  let beta := loadWord chal.memory 0x20
  let gamma := loadWord chal.memory 0x40
  let secondScalar := mulmod alpha beta rMod
  let secondScalar := mulmod secondScalar (loadWord proof.memory 0x360) rMod
  let secondScalar := [(0x2c0, 0x200), (0x2e0, 0x220), (0x300, 0x240), (0x320, 0x260),
      (0x340, 0x280)].foldl (fun acc offsets =>
    let tmp := mulmod beta (loadWord proof.memory offsets.1) rMod
    let tmp := addmod tmp gamma rMod
    let tmp := addmod tmp (loadWord proof.memory offsets.2) rMod
    mulmod acc tmp rMod) secondScalar
  negateFr secondScalar

/-- `add_selector_polynomial_commitments`. -/
def addSelectorPolynomialCommitments (c : Commitments) : Commitments :=
  let startIndex := 2
  let w1 := loadWord proof.memory 0x200
  let w2 := loadWord proof.memory 0x220
  let w3 := loadWord proof.memory 0x240
  let w4 := loadWord proof.memory 0x260
  let w5 := loadWord proof.memory 0x280
  let scalars := setFrom c.scalars startIndex
    [w1, w2, w3, w4, mulmod w1 w2 rMod, mulmod w3 w4 rMod]
  let scalars := scalars.set (startIndex + 6) (power proof.wiresEvals1 5 rMod)
  let scalars := scalars.set (startIndex + 7) (power proof.wiresEvals2 5 rMod)
  let scalars := scalars.set (startIndex + 8) (power proof.wiresEvals3 5 rMod)
  let scalars := scalars.set (startIndex + 9) (power proof.wiresEvals4 5 rMod)
  let scalars := setFrom scalars (startIndex + 0x160 / 0x20)
    [1,
      mulmod w1 (mulmod w2 (mulmod w3 (mulmod w4 w5 rMod) rMod) rMod) rMod,
      addmod (mulmod (mulmod (mulmod w1 w4 rMod) w3 rMod) w4 rMod)
        (mulmod (mulmod (mulmod w2 w3 rMod) w3 rMod) w4 rMod) rMod,
      addmod (mulmod w1 w3 rMod) (addmod (mulmod w2 w4 rMod)
        (addmod (mulmod 2 (mulmod w1 w4 rMod) rMod)
          (mulmod 2 (mulmod w2 w3 rMod) rMod) rMod) rMod) rMod,
      mulmod (mulmod (mulmod w3 w3 rMod) w4 rMod) w4 rMod,
      addmod (mulmod (mulmod w1 w1 rMod) w2 rMod) (mulmod (mulmod w1 w2 rMod) w2 rMod) rMod]
  let bases := setFrom c.bases startIndex
    ((List.range 18).map fun i => loadPoint vk.memory (0x100 + i * 0x20))
  let scalars := scalars.set (startIndex + 10) (negateFr proof.wiresEvals5)
  ⟨scalars, bases⟩

/-- The shape of the three merged evaluations: `q` selects a lookup, whose parts are `a`, `b`, `c`
and `d`. -/
def merged (tau first q a b c d : U256) : U256 :=
  addmod first (mulmod q (mulmod tau (addmod a (mulmod tau (addmod b (mulmod tau
    (addmod c (mulmod tau d rMod) rMod) rMod) rMod) rMod) rMod) rMod) rMod) rMod

/-- `add_plookup_commitments_helper1_1`. -/
def mergedLookupX : U256 :=
  merged chal.tau proof.wiresEvals6 proof.qLookupEval proof.qDomSepEval proof.wiresEvals1
    proof.wiresEvals2 proof.wiresEvals3

/-- `add_plookup_commitments_helper1_2`. -/
def mergedTableX : U256 :=
  merged chal.tau proof.rangeTableEval proof.qLookupEval proof.tableDomSepEval proof.keyTableEval
    proof.wiresEvals4 proof.wiresEvals5

/-- `add_plookup_commitments_helper1_3`. -/
def mergedTableXw : U256 :=
  merged chal.tau proof.rangeTableNextEval proof.qLookupNextEval proof.tableDomSepNextEval
    proof.keyTableNextEval proof.w3NextEval proof.w4NextEval

/-- `add_plookup_commitments_helper1_4_2`. -/
def lagrangeTerms : U256 :=
  addmod (mulmod (chal.alphaPowers 2) evalData.lagrange1Eval rMod)
    (mulmod (chal.alphaPowers 3) evalData.lagrangeNEval rMod) rMod

/-- `add_plookup_commitments_helper1_4_3`. -/
def tableTerms (mergedTableX mergedTableXw : U256) : U256 :=
  addmod (addmod (mulmod (addmod chal.beta 1 rMod) chal.gamma rMod) mergedTableX rMod)
    (mulmod chal.beta mergedTableXw rMod) rMod

/-- `add_plookup_commitments_helper1_4_1`. -/
def prodLookupTerms (mergedLookupX mergedTableX mergedTableXw : U256) : U256 :=
  let c := mulmod (chal.alphaPowers 4) (addmod chal.zeta (negateFr domain.groupGenInv) rMod) rMod
  addmod (lagrangeTerms chal evalData)
    (mulmod (mulmod (mulmod c (addmod chal.beta 1 rMod) rMod)
      (addmod chal.gamma mergedLookupX rMod) rMod)
        (tableTerms chal mergedTableX mergedTableXw) rMod) rMod

/-- `add_plookup_commitments_helper1`, with `add_plookup_commitments_helper1_4`. -/
def addPlookupCommitmentsHelper1 : U256 :=
  mulmod chal.alphaBase (prodLookupTerms chal evalData domain (mergedLookupX chal proof)
    (mergedTableX chal proof) (mergedTableXw chal proof)) rMod

/-- `add_plookup_commitments_helper2`. -/
def addPlookupCommitmentsHelper2 : U256 :=
  mulmod (mulmod (mulmod (mulmod (chal.alphaPowers 4)
      (addmod (negateFr chal.zeta) domain.groupGenInv rMod) rMod) proof.prodNextEval rMod)
    (addmod (addmod (mulmod (addmod chal.beta 1 rMod) chal.gamma rMod) proof.h1Eval rMod)
      (mulmod chal.beta proof.h1NextEval rMod) rMod) rMod) chal.alphaBase rMod

/-- `add_plookup_commitments`. -/
def addPlookupCommitments (c : Commitments) : Commitments :=
  let c :=
    c.set 19 (addPlookupCommitmentsHelper1 chal proof evalData domain) proof.prodLookupPolyComm
  c.set 20 (addPlookupCommitmentsHelper2 chal proof domain) proof.hPolyComm2

/-- `add_splitted_quotient_commitments`. -/
def addSplittedQuotientCommitments (index : ℕ) (c : Commitments) : Commitments :=
  let coeff := negateFr evalData.vanishEval
  let zetaToNPlus2 := addmod 1 evalData.vanishEval rMod
  let zetaToNPlus2 := mulmod zetaToNPlus2 chal.zeta rMod
  let zetaToNPlus2 := mulmod zetaToNPlus2 chal.zeta rMod
  let coeff1 := mulmod coeff zetaToNPlus2 rMod
  let coeff2 := mulmod coeff1 zetaToNPlus2 rMod
  let coeff3 := mulmod coeff2 zetaToNPlus2 rMod
  let coeff4 := mulmod coeff3 zetaToNPlus2 rMod
  let coeff5 := mulmod coeff4 zetaToNPlus2 rMod
  ⟨setFrom c.scalars index [coeff, coeff1, coeff2, coeff3, coeff4, coeff5],
    setFrom c.bases index [proof.splitQuotPolyComms1, proof.splitQuotPolyComms2,
      proof.splitQuotPolyComms3, proof.splitQuotPolyComms4, proof.splitQuotPolyComms5,
      proof.splitQuotPolyComms6]⟩

/-- `linearization_scalars_and_bases`. -/
def linearizationScalarsAndBases (c : Commitments) : Commitments :=
  let c := c.set 0 (computeFirstScalar chal proof evalData vk) (loadPoint proof.memory 0xc0)
  let c := c.set 1 (computeSecondScalar chal proof) (loadPoint vk.memory 0xe0)
  let c := addSelectorPolynomialCommitments proof vk c
  let c := addPlookupCommitments chal proof evalData domain c
  addSplittedQuotientCommitments chal proof evalData 21 c

/-! ### The evaluations of the proof -/

/-- The arrays, the powers that are kept for the evaluations, and the next two powers. -/
structure Batch where
  buffer : List U256
  comms : Commitments
  vBase : U256
  uvBase : U256

/-- One commitment with a power of `v`; the next power is a product with `v`. -/
def Batch.addV (b : Batch) (index commIndex : ℕ) (v : U256) (base : G1Point) : Batch where
  buffer := b.buffer.set index b.vBase
  comms := b.comms.set commIndex b.vBase base
  vBase := mulmod b.vBase v rMod
  uvBase := b.uvBase

/-- One commitment with a power of `v` times `u`. -/
def Batch.addUv (b : Batch) (index commIndex : ℕ) (v : U256) (base : G1Point) : Batch where
  buffer := b.buffer.set index b.uvBase
  comms := b.comms.set commIndex b.uvBase base
  vBase := b.vBase
  uvBase := mulmod b.uvBase v rMod

/-- `compute_buffer_v_and_uv_basis_1`.  The slot of the permutation product is written twice. -/
def computeBufferVAndUvBasis1 (c : Commitments) : Batch :=
  let b := (List.range 6).foldl (fun (b : Batch) i =>
    b.addV i (27 + i) chal.v (loadPoint proof.memory (0x00 + i * 0x20)))
    ⟨List.replicate 27 0, c, chal.v, chal.u⟩
  let comms := b.comms.set (27 + 11) b.uvBase (loadPoint proof.memory 0x180)
  Batch.addUv { b with comms := comms } 11 38 chal.v proof.prodPermPolyComm

/-- `compute_buffer_v_and_uv_basis_2`. -/
def computeBufferVAndUvBasis2 (b : Batch) : Batch :=
  ((List.range 5).map (· + 6)).foldl (fun (b : Batch) i =>
    b.addV i (27 + i) chal.v (loadPoint vk.memory (0x40 + (i - 6) * 0x20))) b

/-- `compute_buffer_v_and_uv_basis_3`. -/
def computeBufferVAndUvBasis3 (b : Batch) : Batch :=
  let plookupComms := [vk.rangeTableComm, vk.keyTableComm, proof.hPolyComm1, vk.selectorComms18,
    vk.tableDomSepComm, vk.qDomSepComm]
  let b := plookupComms.zipIdx.foldl
    (fun (b : Batch) comm => b.addV (12 + comm.2) (39 + comm.2) chal.v comm.1) b
  let plookupShiftedComms := [proof.prodLookupPolyComm, vk.rangeTableComm, vk.keyTableComm,
    proof.hPolyComm1, proof.hPolyComm2, vk.selectorComms18, proof.wiresPolyComms4,
    proof.wiresPolyComms5, vk.tableDomSepComm]
  plookupShiftedComms.zipIdx.foldl
    (fun (b : Batch) comm => b.addUv (18 + comm.2) (45 + comm.2) chal.v comm.1) b

/-- `prepare_PolyCommitments`. -/
def preparePolyCommitments (c : Commitments) : Batch :=
  let c := linearizationScalarsAndBases chal proof evalData domain vk c
  let b := computeBufferVAndUvBasis1 chal proof c
  let b := computeBufferVAndUvBasis2 chal vk b
  computeBufferVAndUvBasis3 chal proof vk b

/-- `prepare_evaluations`. -/
def prepareEvaluations (linPolyConstant : U256) (buffer : List U256) : U256 :=
  let eval := negateFr linPolyConstant
  let eval := (List.range 11).foldl (fun eval i => addmod eval
    (mulmod (buffer.getD i 0) (loadWord proof.memory (0x200 + i * 0x20)) rMod) rMod) eval
  [(11, proof.permNextEval), (12, proof.rangeTableEval), (13, proof.keyTableEval),
    (14, proof.h1Eval), (15, proof.qLookupEval), (16, proof.tableDomSepEval),
    (17, proof.qDomSepEval), (18, proof.prodNextEval), (19, proof.rangeTableNextEval),
    (20, proof.keyTableNextEval), (21, proof.h1NextEval), (22, proof.h2NextEval),
    (23, proof.qLookupNextEval), (24, proof.w3NextEval), (25, proof.w4NextEval),
    (26, proof.tableDomSepNextEval)].foldl (fun eval term =>
      addmod eval (mulmod (buffer.getD term.1 0) term.2 rMod) rMod) eval

/-- `prepare_OpeningProof`: the value that is opened, and the arrays. -/
def prepareOpeningProof (publicInput : List U256) (c : Commitments) :
    Except Revert (U256 × Commitments) := do
  let linPolyConstant ← computeLinPolyConstantTerm chal proof evalData domain publicInput
  let b := preparePolyCommitments chal proof evalData domain vk c
  return (prepareEvaluations proof linPolyConstant b.buffer, b.comms)

end

end Verifier

end Nightfall
