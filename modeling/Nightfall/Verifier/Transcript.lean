import Nightfall.Data.HashChain
import Nightfall.Verifier.Bn254Crypto

/-!
# The transcript of a proof

The challenges are the hashes of what was absorbed before them, reduced to scalars.  A transcript
keeps the last hash; what was absorbed is hashed behind it, and forgotten.

A transcript is a chain of hashes (`computeChallengs_eq`), so a challenge binds what was absorbed up
to it (`agreeUpTo_of_challengeFor_eq`).
-/

namespace Nightfall

namespace Verifier

open Evm

/-- `TranscriptData`; of the two words of the state only the first one is used. -/
structure TranscriptData where
  state : U256
  transcript : Bytes
  challenges : ChallengeTranscript

/-- A transcript in new memory. -/
def TranscriptData.new : TranscriptData := ⟨0, [], .new⟩

section

variable (keccak256 : Bytes → U256) (self : TranscriptData) (vk : VerificationKey) (proof : Proof)

/-! ### What is absorbed -/

/-- `appendMessage`. -/
def appendMessage (message : Bytes) : TranscriptData :=
  { self with transcript := self.transcript ++ message }

/-- `append_field_element`. -/
def appendFieldElement (fieldElement : U256) : TranscriptData :=
  appendMessage self (toBytesBE fieldElement)

/-- `append_G1_element`. -/
def appendG1Element (point : G1Point) : TranscriptData :=
  appendFieldElement (appendFieldElement self point.x) point.y

/-- `compute_vk_hash`: of the size of the domain the last eight bytes are hashed. -/
def computeVkHash : U256 :=
  let h := keccak256 ((toBytesBE (loadWord vk.memory 0x00)).drop 24 ++ abiEncode (
    coordinates ((List.range 6).map fun i => loadPoint vk.memory (0x40 + i * 0x20)) ++
    coordinates ((List.range 18).map fun i => loadPoint vk.memory (0x100 + i * 0x20)) ++
    (List.range 6).map (fun i => loadWord vk.memory (0x340 + i * 0x20)) ++
    coordinates ((List.range 4).map fun i => loadPoint vk.memory (0x400 + i * 0x20))))
  h % rMod

/-! ### Challenges -/

/-- The end of each of the functions that make a challenge: the state and what was absorbed are
hashed. -/
def generateChallenge : TranscriptData × U256 :=
  let buf := keccak256 (toBytesBE self.state ++ self.transcript)
  ({ self with state := buf, transcript := [] }, fromBeBytesModOrder (toBytesBE buf))

/-- `generate_tau_challenge`. -/
def generateTauChallenge : TranscriptData :=
  let result := generateChallenge keccak256 self
  { result.1 with challenges := { result.1.challenges with tau := result.2 } }

/-- `generate_beta_challenges`. -/
def generateBetaChallenges : TranscriptData :=
  let self := appendG1Element self proof.hPolyComm1
  let self := appendG1Element self proof.hPolyComm2
  let result := generateChallenge keccak256 self
  { result.1 with challenges := { result.1.challenges with beta := result.2 } }

/-- `generate_gamma_challenges`. -/
def generateGammaChallenges : TranscriptData × U256 := generateChallenge keccak256 self

/-- `generate_alpha_challenges`. -/
def generateAlphaChallenges : TranscriptData × U256 :=
  let self := appendG1Element self proof.prodPermPolyComm
  let self := appendG1Element self proof.prodLookupPolyComm
  generateChallenge keccak256 self

/-- `generate_zeta_challenges`. -/
def generateZetaChallenges : TranscriptData × U256 :=
  let self := appendG1Element self proof.splitQuotPolyComms1
  let self := appendG1Element self proof.splitQuotPolyComms2
  let self := appendG1Element self proof.splitQuotPolyComms3
  let self := appendG1Element self proof.splitQuotPolyComms4
  let self := appendG1Element self proof.splitQuotPolyComms5
  let self := appendG1Element self proof.splitQuotPolyComms6
  generateChallenge keccak256 self

/-- `generate_v_challenges`. -/
def generateVChallenges : TranscriptData × U256 :=
  let self := appendFieldElement self proof.wiresEvals1
  let self := appendFieldElement self proof.wiresEvals2
  let self := appendFieldElement self proof.wiresEvals3
  let self := appendFieldElement self proof.wiresEvals4
  let self := appendFieldElement self proof.wiresEvals5
  let self := appendFieldElement self proof.wiresEvals6
  let self := appendFieldElement self proof.wireSigmaEvals1
  let self := appendFieldElement self proof.wireSigmaEvals2
  let self := appendFieldElement self proof.wireSigmaEvals3
  let self := appendFieldElement self proof.wireSigmaEvals4
  let self := appendFieldElement self proof.wireSigmaEvals5
  let self := appendFieldElement self proof.permNextEval
  let self := appendFieldElement self proof.keyTableEval
  let self := appendFieldElement self proof.tableDomSepEval
  let self := appendFieldElement self proof.rangeTableEval
  let self := appendFieldElement self proof.qDomSepEval
  let self := appendFieldElement self proof.h1Eval
  let self := appendFieldElement self proof.qLookupEval
  let self := appendFieldElement self proof.prodNextEval
  let self := appendFieldElement self proof.rangeTableNextEval
  let self := appendFieldElement self proof.keyTableNextEval
  let self := appendFieldElement self proof.tableDomSepNextEval
  let self := appendFieldElement self proof.h1NextEval
  let self := appendFieldElement self proof.h2NextEval
  let self := appendFieldElement self proof.qLookupNextEval
  let self := appendFieldElement self proof.w3NextEval
  let self := appendFieldElement self proof.w4NextEval
  generateChallenge keccak256 self

/-- `generate_u_challenges`. -/
def generateUChallenges : TranscriptData × U256 :=
  let self := appendG1Element self proof.openingProof
  let self := appendG1Element self proof.shiftedOpeningProof
  generateChallenge keccak256 self

/-- `compute_challengs`. -/
def computeChallengs (publicInputsHash : U256) : TranscriptData :=
  let self := appendFieldElement self (computeVkHash keccak256 vk)
  let self := appendFieldElement self publicInputsHash
  let self := appendG1Element self proof.wiresPolyComms1
  let self := appendG1Element self proof.wiresPolyComms2
  let self := appendG1Element self proof.wiresPolyComms3
  let self := appendG1Element self proof.wiresPolyComms4
  let self := appendG1Element self proof.wiresPolyComms5
  let self := appendG1Element self proof.wiresPolyComms6
  let self := generateTauChallenge keccak256 self
  let self := generateBetaChallenges keccak256 self proof
  let gamma := generateGammaChallenges keccak256 self
  let self := { gamma.1 with challenges := { gamma.1.challenges with gamma := gamma.2 } }
  let alpha := generateAlphaChallenges keccak256 self proof
  let self := { alpha.1 with challenges := { alpha.1.challenges with alpha := alpha.2 } }
  let zeta := generateZetaChallenges keccak256 self proof
  let self := { zeta.1 with challenges := { zeta.1.challenges with zeta := zeta.2 } }
  let v := generateVChallenges keccak256 self proof
  let self := { v.1 with challenges := { v.1.challenges with v := v.2 } }
  let u := generateUChallenges keccak256 self proof
  { u.1 with challenges := { u.1.challenges with u := u.2 } }

end

/-! ### The transcript as a chain of hashes -/

namespace Proof

variable (p : Proof)

/-- The commitments to the wires. -/
def wiresPolyComms : List G1Point :=
  [p.wiresPolyComms1, p.wiresPolyComms2, p.wiresPolyComms3, p.wiresPolyComms4, p.wiresPolyComms5,
    p.wiresPolyComms6]

/-- The commitments to the sorted lookups. -/
def hPolyComms : List G1Point := [p.hPolyComm1, p.hPolyComm2]

/-- The commitments to the two products. -/
def prodPolyComms : List G1Point := [p.prodPermPolyComm, p.prodLookupPolyComm]

/-- The commitments to the parts of the quotient. -/
def splitQuotPolyComms : List G1Point :=
  [p.splitQuotPolyComms1, p.splitQuotPolyComms2, p.splitQuotPolyComms3, p.splitQuotPolyComms4,
    p.splitQuotPolyComms5, p.splitQuotPolyComms6]

/-- The evaluations, in the order in which they are absorbed. -/
def absorbedEvals : List U256 :=
  [p.wiresEvals1, p.wiresEvals2, p.wiresEvals3, p.wiresEvals4, p.wiresEvals5, p.wiresEvals6,
    p.wireSigmaEvals1, p.wireSigmaEvals2, p.wireSigmaEvals3, p.wireSigmaEvals4, p.wireSigmaEvals5,
    p.permNextEval, p.keyTableEval, p.tableDomSepEval, p.rangeTableEval, p.qDomSepEval, p.h1Eval,
    p.qLookupEval, p.prodNextEval, p.rangeTableNextEval, p.keyTableNextEval, p.tableDomSepNextEval,
    p.h1NextEval, p.h2NextEval, p.qLookupNextEval, p.w3NextEval, p.w4NextEval]

end Proof

/-- The words that are absorbed before each challenge, from tau to u. -/
def absorbed (vkHash publicInputsHash : U256) (proof : Proof) : ℕ → List U256
  | 0 => vkHash :: publicInputsHash :: coordinates proof.wiresPolyComms
  | 1 => coordinates proof.hPolyComms
  | 3 => coordinates proof.prodPolyComms
  | 4 => coordinates proof.splitQuotPolyComms
  | 5 => proof.absorbedEvals
  | 6 => coordinates proof.openings
  | _ => []

/-- What is hashed: the state, and the words that were absorbed. -/
def message (state : U256) (words : List U256) : Bytes := toBytesBE state ++ abiEncode words

theorem message_injective {s s' : U256} {b b' : List U256} (h : message s b = message s' b') :
    s = s' ∧ b = b' := by
  obtain ⟨hstate, hwords⟩ := List.append_inj h (by rw [length_toBytesBE, length_toBytesBE])
  exact ⟨toBytesBE_injective hstate, abiEncode_injective hwords⟩

/-- The scalar of a hash. -/
def toScalar (hash : U256) : U256 := BitVec.ofNat 256 (hash.toNat % frModulus)

section

variable (keccak256 : Bytes → U256) (vk : VerificationKey) (publicInputsHash : U256)
  (proof : Proof)

/-- The messages that are hashed for the seven challenges. -/
def hashedFor (i : ℕ) : Bytes :=
  HashChain.hashed keccak256 message 0
    (absorbed (computeVkHash keccak256 vk) publicInputsHash proof) i

/-- The scalars of their hashes. -/
def challengeFor (i : ℕ) : U256 :=
  HashChain.challenge keccak256 message toScalar 0
    (absorbed (computeVkHash keccak256 vk) publicInputsHash proof) i

theorem abiEncode_append (xs ys : List U256) :
    abiEncode (xs ++ ys) = abiEncode xs ++ abiEncode ys :=
  List.flatMap_append

theorem appendFieldElement_eq (state : U256) (words : List U256) (c : ChallengeTranscript)
    (x : U256) : appendFieldElement ⟨state, abiEncode words, c⟩ x =
      ⟨state, abiEncode (words ++ [x]), c⟩ := by
  rw [abiEncode_append, appendFieldElement, appendMessage]
  simp [abiEncode]

theorem appendG1Element_eq (state : U256) (words : List U256) (c : ChallengeTranscript)
    (point : G1Point) : appendG1Element ⟨state, abiEncode words, c⟩ point =
      ⟨state, abiEncode (words ++ [point.x, point.y]), c⟩ := by
  rw [appendG1Element, appendFieldElement_eq, appendFieldElement_eq, List.append_assoc]
  rfl

theorem generateChallenge_eq (state : U256) (words : List U256) (c : ChallengeTranscript) :
    generateChallenge keccak256 ⟨state, abiEncode words, c⟩ =
      (⟨keccak256 (message state words), abiEncode [], c⟩,
        toScalar (keccak256 (message state words))) := by
  rw [generateChallenge, fromBeBytesModOrder_toBytesBE]
  rfl

/-- **The challenges are those of the chain.** -/
theorem computeChallengs_eq :
    (computeChallengs keccak256 .new vk proof publicInputsHash).challenges =
    { ChallengeTranscript.new with
      tau := challengeFor keccak256 vk publicInputsHash proof 0
      beta := challengeFor keccak256 vk publicInputsHash proof 1
      gamma := challengeFor keccak256 vk publicInputsHash proof 2
      alpha := challengeFor keccak256 vk publicInputsHash proof 3
      zeta := challengeFor keccak256 vk publicInputsHash proof 4
      v := challengeFor keccak256 vk publicInputsHash proof 5
      u := challengeFor keccak256 vk publicInputsHash proof 6 } := by
  have hnew : TranscriptData.new = ⟨0, abiEncode [], .new⟩ := rfl
  rw [computeChallengs, hnew]
  simp only [generateTauChallenge, generateBetaChallenges, generateGammaChallenges,
    generateAlphaChallenges, generateZetaChallenges, generateVChallenges, generateUChallenges,
    appendFieldElement_eq, appendG1Element_eq, generateChallenge_eq, List.nil_append,
    List.cons_append]
  rfl

end

/-! ### What a challenge binds -/

theorem evals_eq (p : Proof) : p.evals =
    [0, 1, 2, 3, 4, 5, 6, 7, 8, 9, 10, 11, 14, 12, 13, 15, 16, 17, 18, 19, 20, 21, 22, 23, 24, 25,
      26].map fun i => p.absorbedEvals.getD i 0 := rfl

/-- Two proofs agree in what is committed to before a challenge. -/
structure AgreeUpTo (proof proof' : Proof) (publicInputsHash publicInputsHash' : U256) (i : ℕ) :
    Prop where
  publicInputsHash : publicInputsHash = publicInputsHash'
  wires : proof.wiresPolyComms = proof'.wiresPolyComms
  h : 1 ≤ i → proof.hPolyComms = proof'.hPolyComms
  products : 3 ≤ i → proof.prodPolyComms = proof'.prodPolyComms
  quotients : 4 ≤ i → proof.splitQuotPolyComms = proof'.splitQuotPolyComms
  evals : 5 ≤ i → proof.evals = proof'.evals
  openings : 6 ≤ i → proof.openings = proof'.openings

section

variable {keccak256 : Bytes → U256} {vk : VerificationKey}
  {publicInputsHash publicInputsHash' : U256} {proof proof' : Proof} {i : ℕ}

/-- The hashes of the two transcripts do not collide, up to a challenge. -/
def CollisionFree (keccak256 : Bytes → U256) (vk : VerificationKey)
    (publicInputsHash publicInputsHash' : U256) (proof proof' : Proof) (i : ℕ) : Prop :=
  Set.InjOn (toScalar ∘ keccak256) {m | ∃ j ≤ i,
    m = hashedFor keccak256 vk publicInputsHash proof j ∨
      m = hashedFor keccak256 vk publicInputsHash' proof' j}

/-- **A challenge binds all that is committed to before it.** -/
theorem agreeUpTo_of_challengeFor_eq
    (hfree : CollisionFree keccak256 vk publicInputsHash publicInputsHash' proof proof' i)
    (h : challengeFor keccak256 vk publicInputsHash proof i =
      challengeFor keccak256 vk publicInputsHash' proof' i) :
    AgreeUpTo proof proof' publicInputsHash publicInputsHash' i := by
  have hblock := HashChain.block_eq_of_challenge_eq message_injective hfree h
  have hfirst := (List.cons.inj (hblock 0 (Nat.zero_le i))).2
  exact {
    publicInputsHash := (List.cons.inj hfirst).1
    wires := coordinates_injective (List.cons.inj hfirst).2
    h := fun hi => coordinates_injective (hblock 1 hi)
    products := fun hi => coordinates_injective (hblock 3 hi)
    quotients := fun hi => coordinates_injective (hblock 4 hi)
    evals := fun hi => by
      have hevals : proof.absorbedEvals = proof'.absorbedEvals := hblock 5 hi
      rw [evals_eq, evals_eq, hevals]
    openings := fun hi => coordinates_injective (hblock 6 hi) }

/-- Nothing of a proof is left out. -/
theorem AgreeUpTo.eq (h : AgreeUpTo proof proof' publicInputsHash publicInputsHash' 6) :
    proof = proof' ∧ publicInputsHash = publicInputsHash' := by
  refine ⟨?_, h.publicInputsHash⟩
  have hwires := h.wires
  have hh := h.h (by omega)
  have hproducts := h.products (by omega)
  have hquotients := h.quotients (by omega)
  have hcomms : proof.comms = proof'.comms := by
    simp only [Proof.wiresPolyComms, Proof.hPolyComms, Proof.prodPolyComms,
      Proof.splitQuotPolyComms, List.cons.injEq, and_true] at hwires hh hproducts hquotients
    simp [Proof.comms, hwires, hh, hproducts, hquotients]
  exact Proof.eq_of_lists_eq hcomms (h.evals (by omega)) (h.openings (by omega))

end

end Verifier

end Nightfall
