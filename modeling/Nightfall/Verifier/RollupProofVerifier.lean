import Nightfall.Evm.Calldata
import Nightfall.Verifier.EqualBases
import Nightfall.Verifier.Linearization
import Nightfall.Verifier.Transcript

/-!
# The verification of a rollup proof

`verify` takes three byte strings, which are parts of the calldata.  The accumulator is sliced; the
words of the proof and of the public input are loaded from where the strings start.

The words of the proof are the fields of the structure, what is accepted is valid in each of them, and
the challenges bind all of them (`proof_words_bound`).
-/

namespace Nightfall

namespace Verifier

open Evm

/-! ### Calldata -/

/-- A string in calldata. -/
structure Slice where
  offset : ℕ
  length : ℕ

/-- The bytes of a string. -/
def Slice.bytes (calldata : Bytes) (s : Slice) : Bytes := (calldata.drop s.offset).take s.length

/-- A call of `verify`, whose strings lie in its calldata. -/
structure VerifyCall where
  calldata : Bytes
  accProof : Slice
  proofBytes : Slice
  publicInputsHashBytes : Slice
  accProof_le : accProof.offset + accProof.length ≤ calldata.length
  proofBytes_le : proofBytes.offset + proofBytes.length ≤ calldata.length
  publicInputsHashBytes_le :
    publicInputsHashBytes.offset + publicInputsHashBytes.length ≤ calldata.length

/-! ### The proof -/

/-- `deserialize_proof`. -/
def deserializeProof (load : ℕ → U256) (offset : ℕ) : Proof :=
  .ofMemory (
    ((List.range 16).map fun i =>
      .point ⟨load (offset + i * 0x40), load (offset + i * 0x40 + 0x20)⟩) ++
    ((List.range 27).map fun i => .word (load (offset + 0x400 + i * 0x20))) ++
    ((List.range 2).map fun i =>
      .point ⟨load (offset + 0x760 + i * 0x40), load (offset + 0x760 + i * 0x40 + 0x20)⟩))

/-- `validate_proof`. -/
def validateProof (proof : Proof) : Except Revert Unit := do
  [proof.wiresPolyComms1, proof.wiresPolyComms2, proof.wiresPolyComms3, proof.wiresPolyComms4,
    proof.wiresPolyComms5, proof.wiresPolyComms6, proof.prodPermPolyComm, proof.splitQuotPolyComms1,
    proof.splitQuotPolyComms2, proof.splitQuotPolyComms3, proof.splitQuotPolyComms4,
    proof.splitQuotPolyComms5, proof.splitQuotPolyComms6, proof.hPolyComm1, proof.hPolyComm2,
    proof.prodLookupPolyComm].forM validateG1Point
  [proof.wiresEvals1, proof.wiresEvals2, proof.wiresEvals3, proof.wiresEvals4, proof.wiresEvals5,
    proof.wiresEvals6, proof.wireSigmaEvals1, proof.wireSigmaEvals2, proof.wireSigmaEvals3,
    proof.wireSigmaEvals4, proof.wireSigmaEvals5, proof.permNextEval, proof.rangeTableEval,
    proof.keyTableEval, proof.tableDomSepEval, proof.qDomSepEval, proof.h1Eval, proof.qLookupEval,
    proof.prodNextEval, proof.rangeTableNextEval, proof.keyTableNextEval, proof.tableDomSepNextEval,
    proof.h1NextEval, proof.h2NextEval, proof.qLookupNextEval, proof.w3NextEval,
    proof.w4NextEval].forM validateScalarField
  [proof.openingProof, proof.shiftedOpeningProof].forM validateG1Point

/-- `RollupProofVerifier.validate_scalar_field`. -/
def validatePublicInputsHash (fr : U256) : Except Revert Unit :=
  require (fr < rMod) "Error: Invalid Scalar Field (Bn254)."

/-! ### The opening -/

section

variable (pre : Precompiles) (chal : ChallengeTranscript) (proof : Proof) (vk : VerificationKey)

/-- `prepare_PcsInfo`, with the challenges that it fills in. -/
def preparePcsInfo (publicInput : List U256) : Except Revert (ChallengeTranscript × PcsInfo) := do
  let alpha2 := mulmod chal.alpha chal.alpha rMod
  let alpha3 := mulmod alpha2 chal.alpha rMod
  let alpha4 := mulmod alpha2 alpha2 rMod
  let alpha5 := mulmod alpha2 alpha3 rMod
  let alpha6 := mulmod alpha4 alpha2 rMod
  let chal := { chal with
    alpha2 := alpha2
    alphaPowers := ![alpha2, alpha3, alpha4, alpha5, alpha6]
    alphaBase := 1
    alpha7 := mulmod alpha3 alpha4 rMod }
  let domain := newEvalDomain vk
  let evalData ← evalDataGen domain chal.zeta publicInput
  let opening ← prepareOpeningProof chal proof evalData domain vk publicInput .new
  return (chal, {
    nextEvalPoint := mulmod chal.zeta domain.groupGen rMod
    eval := opening.1
    commScalars := opening.2.scalars
    commBases := opening.2.bases })

/-- `compute_A`. -/
def computeA : Except Revert G1Point :=
  multiScalarMul pre [proof.openingProof, proof.shiftedOpeningProof] [1, chal.u]

/-- `compute_B`. -/
def computeB (pcsInfo : PcsInfo) : Except Revert G1Point := do
  let c : Commitments := ⟨pcsInfo.commScalars, pcsInfo.commBases⟩
  let c := c.set 54 chal.zeta proof.openingProof
  let c := c.set 55 (mulmod chal.u pcsInfo.nextEvalPoint rMod) proof.shiftedOpeningProof
  let c := c.set 56 (negateFr pcsInfo.eval) vk.openKeyG
  let accumulated ← accumulateScalarWithSameBase c.bases c.scalars
  return negateG1Point (← multiScalarMul pre accumulated.1 accumulated.2)

/-- `verify_OpeningProof`. -/
def verifyOpeningProof (pcsInfo : PcsInfo) : Except Revert Bool := do
  let a ← computeA pre chal proof
  let b ← computeB pre chal proof vk pcsInfo
  pairingProd2 pre a vk.betaH b vk.h

/-- `verify_accumulation`. -/
def verifyAccumulation (accProof : Bytes) : Except Revert Bool := do
  require (accProof.length = 256) "Invalid accumulator proof length"
  let acc (i : ℕ) : U256 := fromBytesBE ((accProof.drop (i * 32)).take 32)
  let res1 ← pairingProd2 pre ⟨acc 2, acc 3⟩ vk.betaH (negateG1Point ⟨acc 0, acc 1⟩) vk.h
  let res2 ← pairingProd2 pre ⟨acc 6, acc 7⟩ vk.betaH (negateG1Point ⟨acc 4, acc 5⟩) vk.h
  return res1 && res2

/-! ### The contract -/

/-- What `verify` does with the words of the proof and of the public input. -/
def verifyWords (keccak256 : Bytes → U256) (publicInputsHash : U256) (accProof : Bytes) :
    Except Revert Bool := do
  validateProof proof
  validatePublicInputsHash publicInputsHash
  let chal := (computeChallengs keccak256 .new vk proof publicInputsHash).challenges
  let publicInputs ← if vk.numInputs = 0 then .error .outOfBounds
    else .ok (publicInputsHash :: List.replicate (vk.numInputs.toNat - 1) 0)
  let pcsInfo ← preparePcsInfo chal proof vk publicInputs
  let opened ← verifyOpeningProof pre pcsInfo.1 proof vk pcsInfo.2
  if opened then verifyAccumulation pre vk accProof else return false

/-- `verify`. -/
def verify (keccak256 : Bytes → U256) (call : VerifyCall) : Except Revert Bool :=
  let load := calldataload call.calldata
  let publicInputsHash := load call.publicInputsHashBytes.offset
  let decodedProof := deserializeProof load call.proofBytes.offset
  verifyWords pre decodedProof vk keccak256 publicInputsHash (call.accProof.bytes call.calldata)

end

/-! ### Validation -/

theorem forM_eq_ok {α : Type} {f : α → Except Revert Unit} {l : List α} :
    l.forM f = .ok () ↔ ∀ a ∈ l, f a = .ok () := by
  induction l with
  | nil => exact iff_of_true rfl (List.forall_mem_nil _)
  | cons a l ih =>
    have hcons : (a :: l).forM f = (f a >>= fun _ => l.forM f) := rfl
    rw [hcons, bind_eq_ok, List.forall_mem_cons]
    constructor
    · rintro ⟨_, ha, hl⟩
      exact ⟨ha, ih.1 hl⟩
    · rintro ⟨ha, hl⟩
      exact ⟨(), ha, ih.2 hl⟩

/-- All points are points of the curve, and all scalars are canonical. -/
structure Proof.Valid (proof : Proof) : Prop where
  comms : ∀ point ∈ proof.comms, point.OnCurve
  evals : ∀ x ∈ proof.evals, Canonical x
  openings : ∀ point ∈ proof.openings, point.OnCurve

/-- **What is accepted is valid in each field.** -/
theorem validateProof_eq_ok {proof : Proof} : validateProof proof = .ok () ↔ proof.Valid := by
  have hpoints (l : List G1Point) : l.forM validateG1Point = .ok () ↔ ∀ p ∈ l, p.OnCurve := by
    simp only [forM_eq_ok, validateG1Point_eq_ok]
  have hscalars (l : List U256) : l.forM validateScalarField = .ok () ↔ ∀ x ∈ l, Canonical x := by
    simp only [forM_eq_ok, validateScalarField_eq_ok]
  have hvalidate : validateProof proof = (do
    proof.comms.forM validateG1Point
    proof.evals.forM validateScalarField
    proof.openings.forM validateG1Point) := rfl
  rw [hvalidate]
  simp only [bind_eq_ok, hpoints, hscalars]
  constructor
  · rintro ⟨_, hcomms, _, hevals, hopenings⟩
    exact ⟨hcomms, hevals, hopenings⟩
  · rintro ⟨hcomms, hevals, hopenings⟩
    exact ⟨(), hcomms, (), hevals, hopenings⟩

/-- **The words of a proof are the fields of the structure**, one after the other. -/
theorem words_deserializeProof (load : ℕ → U256) (offset : ℕ) :
    (deserializeProof load offset).words =
      (List.range 63).map fun i => load (offset + i * 0x20) := by
  simp [deserializeProof, Proof.words, Proof.memory, Proof.comms, Proof.evals, Proof.openings,
    Proof.ofMemory, loadPoint, loadWord, Slot.words, Slot.toPoint, Slot.toWord, List.range_succ,
    Nat.add_assoc]

/-! ### The words of a proof -/

/-- What is verified at all has valid words. -/
theorem valid_of_verify {pre : Precompiles} {vk : VerificationKey} {keccak256 : Bytes → U256}
    {call : VerifyCall} {result : Bool} (h : verify pre vk keccak256 call = .ok result) :
    (deserializeProof (calldataload call.calldata) call.proofBytes.offset).Valid ∧
      Canonical (calldataload call.calldata call.publicInputsHashBytes.offset) := by
  obtain ⟨_, hproof, h⟩ := bind_eq_ok.1 h
  obtain ⟨_, hinput, -⟩ := bind_eq_ok.1 h
  refine ⟨validateProof_eq_ok.1 hproof, ?_⟩
  rw [validatePublicInputsHash, require_eq_ok, BitVec.lt_def, toNat_rMod] at hinput
  exact hinput

/-- **Each word of a proof is checked and bound.**  The words are the fields; in a call that does
not revert all of them are valid; and a challenge binds the fields that are committed to before it,
if the hashes of the two transcripts do not collide. -/
theorem proof_words_bound (pre : Precompiles) (vk : VerificationKey) (keccak256 : Bytes → U256) :
    ((∀ load offset, (deserializeProof load offset).words =
        (List.range 63).map fun i => load (offset + i * 0x20)) ∧ Function.Injective Proof.words) ∧
      (∀ call result, verify pre vk keccak256 call = .ok result →
        (deserializeProof (calldataload call.calldata) call.proofBytes.offset).Valid ∧
          Canonical (calldataload call.calldata call.publicInputsHashBytes.offset)) ∧
      ∀ proof proof' hash hash',
        let chal := (computeChallengs keccak256 .new vk proof hash).challenges
        let chal' := (computeChallengs keccak256 .new vk proof' hash').challenges
        let collisionFree := CollisionFree keccak256 vk hash hash' proof proof'
        let agreeUpTo := AgreeUpTo proof proof' hash hash'
        (collisionFree 0 → chal.tau = chal'.tau → agreeUpTo 0) ∧
        (collisionFree 1 → chal.beta = chal'.beta → agreeUpTo 1) ∧
        (collisionFree 2 → chal.gamma = chal'.gamma → agreeUpTo 2) ∧
        (collisionFree 3 → chal.alpha = chal'.alpha → agreeUpTo 3) ∧
        (collisionFree 4 → chal.zeta = chal'.zeta → agreeUpTo 4) ∧
        (collisionFree 5 → chal.v = chal'.v → agreeUpTo 5) ∧
        (collisionFree 6 → chal.u = chal'.u → agreeUpTo 6 ∧ proof = proof' ∧ hash = hash') := by
  refine ⟨⟨words_deserializeProof, Proof.words_injective⟩, fun call result => valid_of_verify,
    fun proof proof' hash hash' => ?_⟩
  rw [computeChallengs_eq, computeChallengs_eq]
  refine ⟨agreeUpTo_of_challengeFor_eq, agreeUpTo_of_challengeFor_eq, agreeUpTo_of_challengeFor_eq,
    agreeUpTo_of_challengeFor_eq, agreeUpTo_of_challengeFor_eq, agreeUpTo_of_challengeFor_eq, ?_⟩
  intro hfree h
  have hagree := agreeUpTo_of_challengeFor_eq hfree h
  exact ⟨hagree, hagree.eq⟩

/-! ### A proof that is accepted -/

section Sample

/-- The generator. -/
def sampleG : G1Point := ⟨1, 2⟩

/-- The generator of the other group. -/
def sampleH : G2Point where
  x0 := 11559732032986387107991004021392285783925812861821192530917403151452391805634
  x1 := 10857046999023057135944570762232829481370756359578518086990519993285655852781
  y0 := 4082367875863433681332203403145435568316851327593401208105741076214120093531
  y1 := 8495653923123431417604973247489272438418190587263600148770280649306958101930

/-- An opening proof. -/
def sampleOpening : G1Point where
  x := 18975082526603243605289859242567015253178835211401228899491566070313940542608
  y := 17616687907465802813792968486407867318077808733507232320006000958375468971933

/-- An opening proof for the next point. -/
def sampleShiftedOpening : G1Point where
  x := 5744233794749849394684634874223398748785426452311576102036719369750704401693
  y := 21873513635946110664345404453924063864532742511954881980099045016716210948369

/-- A key for the domain of the two square roots of one, whose secret is one: the commitments are
those of polynomials with the value one at one. -/
def sampleVk : VerificationKey :=
  let g := sampleG
  ⟨2, 1, g, g, g, g, g, g, g, g, g, g, g, g, g, g, g, g, g, g, g, g, g, g, g, g, 1, 2, 3, 4, 5, 6,
    g, g, g, g, sampleDomain.sizeInv, sampleDomain.groupGen, sampleDomain.groupGenInv, g, sampleH,
    sampleH⟩

/-- A proof with the value two for each evaluation. -/
def sampleProof (shiftedOpening : G1Point) : Proof :=
  .ofMemory (List.replicate 16 (Slot.point sampleG) ++ List.replicate 27 (Slot.word 2) ++
    [Slot.point sampleOpening, Slot.point shiftedOpening])

/-- The values of keccak256 for the key and the transcripts, by the length, the first and the last
byte of what is hashed. -/
def sampleKeccak (bs : Bytes) : U256 :=
  ([((1992, 0x00, 0x02), 0x263b1d3d054444a3f7d6715e57fdff07b845b0932ee4b78cabdd94fa87c8e195),
    ((480, 0x00, 0x02), 0xb2c103addd7e0dbfd726d645319e9dbf48757db1a09780f294ecc5406fd08c29),
    ((160, 0xb2, 0x02), 0xe4b1cba47db65839847a12994c3bbd09c7fcbdd2cea1dd94b8642751caf2bb02),
    ((32, 0xe4, 0x02), 0x3abb6bcc5de4960644c5530ea18ec5cdcf8bb8048176de0f809756e1df883825),
    ((160, 0x3a, 0x02), 0x95ec2a0c5e9d62c7bd383b331082f40a5689943f75c8e181186589a159015d03),
    ((416, 0x95, 0x02), 0xe5f19b7eb91ed1ffb2b578cadea97115284c29ac119d2b29cc7abe0fef11adbb),
    ((896, 0xe5, 0x02), 0x690bf0bb10de787d51b1a08e4da968bc680fa90e92344460580532694b4e6b05),
    ((160, 0x69, 0x11), 0xc9bdde5384118c42f72980a0cd4f4792b1e96a927f3761579bcf53f4941eff56),
    ((160, 0x69, 0x02), 0x099d4b83a13b091a99d163ff613b981c4d2d19688e792f7043e73ce331a3a739)
    ].lookup ((bs.length, bs.headD 0, bs.getLastD 0) : ℕ × BitVec 8 × BitVec 8)).getD 0

/-- The messages of two transcripts, which differ in the last one. -/
def sampleMessages : List Bytes :=
  (List.range 7).map (hashedFor sampleKeccak sampleVk 7 (sampleProof sampleShiftedOpening)) ++
    [hashedFor sampleKeccak sampleVk 7 (sampleProof sampleG) 6]

theorem mem_sampleMessages {j : ℕ} (hj : j ≤ 6) :
    hashedFor sampleKeccak sampleVk 7 (sampleProof sampleShiftedOpening) j ∈ sampleMessages ∧
      hashedFor sampleKeccak sampleVk 7 (sampleProof sampleG) j ∈ sampleMessages := by
  have hfirst : hashedFor sampleKeccak sampleVk 7 (sampleProof sampleShiftedOpening) j ∈
      sampleMessages :=
    List.mem_append_left _ (List.mem_map_of_mem (List.mem_range.2 (Nat.lt_succ_of_le hj)))
  refine ⟨hfirst, ?_⟩
  rcases Nat.le_succ_iff.1 hj with hj | rfl
  · -- the opening proofs are absorbed last
    have hsame : ∀ k ≤ j, absorbed (computeVkHash sampleKeccak sampleVk) 7 (sampleProof sampleG) k =
        absorbed (computeVkHash sampleKeccak sampleVk) 7 (sampleProof sampleShiftedOpening) k := by
      intro k hk
      have hlt : k < 6 := by omega
      interval_cases k <;> rfl
    rw [hashedFor, HashChain.hashed_congr hsame]
    exact hfirst
  · exact List.mem_append_right _ (List.mem_singleton_self _)

/-- Another opening proof leads to another challenge. -/
theorem proof_words_bound_sample :
    (computeChallengs sampleKeccak .new sampleVk
      (sampleProof sampleShiftedOpening) 7).challenges.u ≠
      (computeChallengs sampleKeccak .new sampleVk (sampleProof sampleG) 7).challenges.u := by
  have hnodup : (sampleMessages.map (toScalar ∘ sampleKeccak)).Nodup := by decide +kernel
  have hfree : CollisionFree sampleKeccak sampleVk 7 7 (sampleProof sampleShiftedOpening)
      (sampleProof sampleG) 6 := by
    have hmem : ∀ m, (∃ j ≤ 6, m = hashedFor sampleKeccak sampleVk 7
        (sampleProof sampleShiftedOpening) j ∨ m = hashedFor sampleKeccak sampleVk 7
          (sampleProof sampleG) j) → m ∈ sampleMessages := by
      rintro m ⟨j, hj, rfl | rfl⟩
      · exact (mem_sampleMessages hj).1
      · exact (mem_sampleMessages hj).2
    exact fun m hm m' hm' heq => List.inj_on_of_nodup_map hnodup (hmem m hm) (hmem m' hm') heq
  intro h
  have hbinds := (proof_words_bound ⟨fun _ _ => none, fun _ _ => none, fun _ => none⟩ sampleVk
    sampleKeccak).2.2 (sampleProof sampleShiftedOpening) (sampleProof sampleG) 7 7
  have hequal := (hbinds.2.2.2.2.2.2 hfree h).2.1
  have hdifferent : (sampleProof sampleShiftedOpening).shiftedOpeningProof ≠
      (sampleProof sampleG).shiftedOpeningProof := by
    decide +kernel
  exact hdifferent (congrArg Proof.shiftedOpeningProof hequal)

end Sample

end Verifier

end Nightfall
