import Nightfall.Evm.Word

/-!
# The structures of the verifier

The proof, the verification key and the challenges, with the fields of the contract in its order.
Assembly reads a structure by the offset of a slot: 32 bytes each, with a word, or with the address
of a point.

The words of a proof are 63, and each of them is a part of one field (`words_injective`).
-/

namespace Nightfall

namespace Verifier

open Evm

/-- `G1Point`. -/
structure G1Point where
  x : U256
  y : U256
  deriving DecidableEq

/-- `G2Point`. -/
structure G2Point where
  x0 : U256
  x1 : U256
  y0 : U256
  y1 : U256
  deriving DecidableEq

/-- What a new array of points is filled with. -/
def G1Point.zero : G1Point := ⟨0, 0⟩

/-- A slot of a structure in memory. -/
inductive Slot
  | word (x : U256)
  /-- The address of a point. -/
  | point (p : G1Point)

/-- The slot as a word. -/
def Slot.toWord : Slot → U256
  | word x => x
  | point _ => 0

/-- The point that the slot points to. -/
def Slot.toPoint : Slot → G1Point
  | word _ => .zero
  | point p => p

/-- The words of a slot, and of the point that it points to. -/
def Slot.words : Slot → List U256
  | word x => [x]
  | point p => [p.x, p.y]

/-- `mload(add(struct, offset))`. -/
def loadWord (memory : List Slot) (offset : ℕ) : U256 :=
  ((memory[offset / 0x20]?).map Slot.toWord).getD 0

/-- `mload(add(struct, offset))`, of a slot with the address of a point. -/
def loadPoint (memory : List Slot) (offset : ℕ) : G1Point :=
  ((memory[offset / 0x20]?).map Slot.toPoint).getD .zero

/-- `Proof`. -/
structure Proof where
  wiresPolyComms1 : G1Point
  wiresPolyComms2 : G1Point
  wiresPolyComms3 : G1Point
  wiresPolyComms4 : G1Point
  wiresPolyComms5 : G1Point
  wiresPolyComms6 : G1Point
  prodPermPolyComm : G1Point
  splitQuotPolyComms1 : G1Point
  splitQuotPolyComms2 : G1Point
  splitQuotPolyComms3 : G1Point
  splitQuotPolyComms4 : G1Point
  splitQuotPolyComms5 : G1Point
  splitQuotPolyComms6 : G1Point
  hPolyComm1 : G1Point
  hPolyComm2 : G1Point
  prodLookupPolyComm : G1Point
  wiresEvals1 : U256
  wiresEvals2 : U256
  wiresEvals3 : U256
  wiresEvals4 : U256
  wiresEvals5 : U256
  wiresEvals6 : U256
  wireSigmaEvals1 : U256
  wireSigmaEvals2 : U256
  wireSigmaEvals3 : U256
  wireSigmaEvals4 : U256
  wireSigmaEvals5 : U256
  permNextEval : U256
  rangeTableEval : U256
  keyTableEval : U256
  tableDomSepEval : U256
  qDomSepEval : U256
  h1Eval : U256
  qLookupEval : U256
  prodNextEval : U256
  rangeTableNextEval : U256
  keyTableNextEval : U256
  tableDomSepNextEval : U256
  h1NextEval : U256
  h2NextEval : U256
  qLookupNextEval : U256
  w3NextEval : U256
  w4NextEval : U256
  openingProof : G1Point
  shiftedOpeningProof : G1Point

/-- The index types of the arrays of the verifier. -/
scoped instance neZeroFive : NeZero 5 := ⟨by decide⟩

scoped instance neZeroSix : NeZero 6 := ⟨by decide⟩

scoped instance neZeroEighteen : NeZero 18 := ⟨by decide⟩

/-- `ChallengeTranscript`. -/
structure ChallengeTranscript where
  tau : U256
  beta : U256
  gamma : U256
  alpha : U256
  zeta : U256
  v : U256
  u : U256
  alpha2 : U256
  alphaPowers : Fin 5 → U256
  alpha7 : U256
  alphaBase : U256

/-- `VerificationKey`. -/
structure VerificationKey where
  domainSize : U256
  numInputs : U256
  sigmaComms1 : G1Point
  sigmaComms2 : G1Point
  sigmaComms3 : G1Point
  sigmaComms4 : G1Point
  sigmaComms5 : G1Point
  sigmaComms6 : G1Point
  selectorComms1 : G1Point
  selectorComms2 : G1Point
  selectorComms3 : G1Point
  selectorComms4 : G1Point
  selectorComms5 : G1Point
  selectorComms6 : G1Point
  selectorComms7 : G1Point
  selectorComms8 : G1Point
  selectorComms9 : G1Point
  selectorComms10 : G1Point
  selectorComms11 : G1Point
  selectorComms12 : G1Point
  selectorComms13 : G1Point
  selectorComms14 : G1Point
  selectorComms15 : G1Point
  selectorComms16 : G1Point
  selectorComms17 : G1Point
  selectorComms18 : G1Point
  k1 : U256
  k2 : U256
  k3 : U256
  k4 : U256
  k5 : U256
  k6 : U256
  rangeTableComm : G1Point
  keyTableComm : G1Point
  tableDomSepComm : G1Point
  qDomSepComm : G1Point
  sizeInv : U256
  groupGen : U256
  groupGenInv : U256
  openKeyG : G1Point
  h : G2Point
  betaH : G2Point

/-- `PcsInfo`. -/
structure PcsInfo where
  /-- The shifted point. -/
  nextEvalPoint : U256
  /-- The value of the combination of all polynomials. -/
  eval : U256
  commScalars : List U256
  commBases : List G1Point

/-! ### Structures in memory -/

namespace Proof

/-- The group elements before the evaluations. -/
def comms (p : Proof) : List G1Point :=
  [p.wiresPolyComms1, p.wiresPolyComms2, p.wiresPolyComms3, p.wiresPolyComms4, p.wiresPolyComms5,
    p.wiresPolyComms6, p.prodPermPolyComm, p.splitQuotPolyComms1, p.splitQuotPolyComms2,
    p.splitQuotPolyComms3, p.splitQuotPolyComms4, p.splitQuotPolyComms5, p.splitQuotPolyComms6,
    p.hPolyComm1, p.hPolyComm2, p.prodLookupPolyComm]

/-- The evaluations. -/
def evals (p : Proof) : List U256 :=
  [p.wiresEvals1, p.wiresEvals2, p.wiresEvals3, p.wiresEvals4, p.wiresEvals5, p.wiresEvals6,
    p.wireSigmaEvals1, p.wireSigmaEvals2, p.wireSigmaEvals3, p.wireSigmaEvals4, p.wireSigmaEvals5,
    p.permNextEval, p.rangeTableEval, p.keyTableEval, p.tableDomSepEval, p.qDomSepEval, p.h1Eval,
    p.qLookupEval, p.prodNextEval, p.rangeTableNextEval, p.keyTableNextEval, p.tableDomSepNextEval,
    p.h1NextEval, p.h2NextEval, p.qLookupNextEval, p.w3NextEval, p.w4NextEval]

/-- The two opening proofs. -/
def openings (p : Proof) : List G1Point := [p.openingProof, p.shiftedOpeningProof]

/-- The slots of a proof. -/
def memory (p : Proof) : List Slot :=
  p.comms.map .point ++ p.evals.map .word ++ p.openings.map .point

/-- The structure with the slots `memory`. -/
def ofMemory (memory : List Slot) : Proof where
  wiresPolyComms1 := loadPoint memory 0x00
  wiresPolyComms2 := loadPoint memory 0x20
  wiresPolyComms3 := loadPoint memory 0x40
  wiresPolyComms4 := loadPoint memory 0x60
  wiresPolyComms5 := loadPoint memory 0x80
  wiresPolyComms6 := loadPoint memory 0xa0
  prodPermPolyComm := loadPoint memory 0xc0
  splitQuotPolyComms1 := loadPoint memory 0xe0
  splitQuotPolyComms2 := loadPoint memory 0x100
  splitQuotPolyComms3 := loadPoint memory 0x120
  splitQuotPolyComms4 := loadPoint memory 0x140
  splitQuotPolyComms5 := loadPoint memory 0x160
  splitQuotPolyComms6 := loadPoint memory 0x180
  hPolyComm1 := loadPoint memory 0x1a0
  hPolyComm2 := loadPoint memory 0x1c0
  prodLookupPolyComm := loadPoint memory 0x1e0
  wiresEvals1 := loadWord memory 0x200
  wiresEvals2 := loadWord memory 0x220
  wiresEvals3 := loadWord memory 0x240
  wiresEvals4 := loadWord memory 0x260
  wiresEvals5 := loadWord memory 0x280
  wiresEvals6 := loadWord memory 0x2a0
  wireSigmaEvals1 := loadWord memory 0x2c0
  wireSigmaEvals2 := loadWord memory 0x2e0
  wireSigmaEvals3 := loadWord memory 0x300
  wireSigmaEvals4 := loadWord memory 0x320
  wireSigmaEvals5 := loadWord memory 0x340
  permNextEval := loadWord memory 0x360
  rangeTableEval := loadWord memory 0x380
  keyTableEval := loadWord memory 0x3a0
  tableDomSepEval := loadWord memory 0x3c0
  qDomSepEval := loadWord memory 0x3e0
  h1Eval := loadWord memory 0x400
  qLookupEval := loadWord memory 0x420
  prodNextEval := loadWord memory 0x440
  rangeTableNextEval := loadWord memory 0x460
  keyTableNextEval := loadWord memory 0x480
  tableDomSepNextEval := loadWord memory 0x4a0
  h1NextEval := loadWord memory 0x4c0
  h2NextEval := loadWord memory 0x4e0
  qLookupNextEval := loadWord memory 0x500
  w3NextEval := loadWord memory 0x520
  w4NextEval := loadWord memory 0x540
  openingProof := loadPoint memory 0x560
  shiftedOpeningProof := loadPoint memory 0x580

/-- The words of a proof, in the order of its fields. -/
def words (p : Proof) : List U256 := p.memory.flatMap Slot.words

theorem ofMemory_memory (p : Proof) : ofMemory p.memory = p := rfl

theorem eq_of_lists_eq {p p' : Proof} (hcomms : p.comms = p'.comms) (hevals : p.evals = p'.evals)
    (hopenings : p.openings = p'.openings) : p = p' := by
  have hmemory : p.memory = p'.memory := by rw [memory, hcomms, hevals, hopenings, ← memory]
  rw [← ofMemory_memory p, hmemory, ofMemory_memory]

end Proof

/-- The coordinates of points. -/
def coordinates (points : List G1Point) : List U256 :=
  points.flatMap fun point => [point.x, point.y]

theorem coordinates_injective : Function.Injective coordinates := by
  intro xs
  induction xs with
  | nil =>
    intro ys h
    cases ys with
    | nil => rfl
    | cons y ys => cases h
  | cons x xs ih =>
    intro ys h
    cases ys with
    | nil => cases h
    | cons y ys =>
      obtain ⟨hx, hy, htail⟩ : x.x = y.x ∧ x.y = y.y ∧ coordinates xs = coordinates ys := by
        simpa [coordinates] using h
      obtain ⟨x, y⟩ := x
      obtain rfl : x = _ := hx
      obtain rfl : y = _ := hy
      rw [ih htail]

namespace Proof

theorem words_eq (p : Proof) :
    p.words = coordinates p.comms ++ p.evals ++ coordinates p.openings := by
  have hpoints (l : List G1Point) : (l.map Slot.point).flatMap Slot.words = coordinates l :=
    List.flatMap_map _ _ l
  have hscalars (l : List U256) : (l.map Slot.word).flatMap Slot.words = l :=
    (List.flatMap_map _ _ l).trans (List.flatMap_singleton' l)
  rw [words, memory, List.flatMap_append, List.flatMap_append, hpoints, hscalars, hpoints]

/-- **Each word is a part of one field.** -/
theorem words_injective : Function.Injective words := by
  intro p p' h
  rw [words_eq, words_eq] at h
  obtain ⟨hfront, hopenings⟩ := List.append_inj h rfl
  obtain ⟨hcomms, hevals⟩ := List.append_inj hfront rfl
  exact eq_of_lists_eq (coordinates_injective hcomms) hevals (coordinates_injective hopenings)

end Proof

namespace ChallengeTranscript

/-- The challenges that are read by their offsets. -/
def memory (c : ChallengeTranscript) : List Slot :=
  [c.tau, c.beta, c.gamma, c.alpha, c.zeta, c.v, c.u, c.alpha2].map .word

/-- The challenges of a new transcript. -/
def new : ChallengeTranscript := ⟨0, 0, 0, 0, 0, 0, 0, 0, fun _ => 0, 0, 0⟩

end ChallengeTranscript

namespace VerificationKey

/-- The commitments to the permutation. -/
def sigmaComms (vk : VerificationKey) : List G1Point :=
  [vk.sigmaComms1, vk.sigmaComms2, vk.sigmaComms3, vk.sigmaComms4, vk.sigmaComms5, vk.sigmaComms6]

/-- The commitments to the selectors. -/
def selectorComms (vk : VerificationKey) : List G1Point :=
  [vk.selectorComms1, vk.selectorComms2, vk.selectorComms3, vk.selectorComms4, vk.selectorComms5,
    vk.selectorComms6, vk.selectorComms7, vk.selectorComms8, vk.selectorComms9, vk.selectorComms10,
    vk.selectorComms11, vk.selectorComms12, vk.selectorComms13, vk.selectorComms14,
    vk.selectorComms15, vk.selectorComms16, vk.selectorComms17, vk.selectorComms18]

/-- The representatives of the cosets. -/
def ks (vk : VerificationKey) : List U256 := [vk.k1, vk.k2, vk.k3, vk.k4, vk.k5, vk.k6]

/-- The commitments to the tables. -/
def tableComms (vk : VerificationKey) : List G1Point :=
  [vk.rangeTableComm, vk.keyTableComm, vk.tableDomSepComm, vk.qDomSepComm]

/-- The slots of a key that are read by their offsets. -/
def memory (vk : VerificationKey) : List Slot :=
  [.word vk.domainSize, .word vk.numInputs] ++ (vk.sigmaComms ++ vk.selectorComms).map .point ++
    vk.ks.map .word ++ vk.tableComms.map .point

end VerificationKey

end Verifier

end Nightfall
