import Nightfall.Evm.Word
import Nightfall.Plonk.MembershipProof
import Mathlib.Data.Fin.VecNotation
import Mathlib.Data.List.OfFn

/-!
# The gadgets of the transfer/withdraw circuit

`verifyCommitments`, `verifyNullifiers` and `verifyDuplicates`, each with its specification.  A
commitment is the hash of its `Preimage`; a nullifier slot opens a commitment (`OpensNote`): its
hash is a leaf of the slot's root, and if its owner is the neutral point, its salt is the hash of
a secret.  The first slot has to open a commitment; the other three may hold value 0 instead, and
then their nullifier is 0 (`openSlot`).
-/

namespace Nightfall

namespace Client

open Plonk Merkle

/-- What a commitment commits to. -/
structure Preimage (F : Type) where
  nfTokenId : F
  nfSlotId : F
  value : F
  publicKey : Point F
  salt : F
  deriving DecidableEq, Repr

/-- The commitment. -/
def Preimage.hash {F : Type} (poseidon : List F → F) (n : Preimage F) : F :=
  poseidon [n.nfTokenId, n.nfSlotId, n.value, n.publicKey.x, n.publicKey.y, n.salt]

variable {F : Type} [CommRing F] [DecidableEq F]

/-! ### Commitments -/

/-- `verify_commitments`: the commitments that the transaction creates.
`newCommitmentsValues 0` is the transfer change and `newCommitmentsValues 1` the fee change. -/
def verifyCommitments (poseidon : List F → F)
    (feeTokenId nfAddress tokenId slotId value fee sharedSecretY : Variable)
    (newCommitmentsValues : Fin 2 → Variable) (recipientPublicKey : Fin 2 → PointVariable)
    (newCommitmentsSalts : Fin 3 → Variable) (withdrawFlag : BoolVar) :
    CircuitM F (Fin 4 → Variable) := do
  let firstCommitmentHash ← poseidonHash poseidon [tokenId, slotId, value,
    (recipientPublicKey 0).x, (recipientPublicKey 0).y, sharedSecretY]
  let firstCommitment ← conditionalSelect withdrawFlag firstCommitmentHash zero
  let isTransferChangeZero ← isZero (newCommitmentsValues 0)
  let secondCommitmentHash ← poseidonHash poseidon [tokenId, slotId, newCommitmentsValues 0,
    (recipientPublicKey 1).x, (recipientPublicKey 1).y, newCommitmentsSalts 0]
  let secondCommitment ← conditionalSelect isTransferChangeZero secondCommitmentHash zero
  -- the owner (0, nf_address) of the fee commitment is not a key that anyone has
  let isFeeZero ← isZero fee
  let thirdCommitmentHash ← poseidonHash poseidon [feeTokenId, feeTokenId, fee, zero, nfAddress,
    newCommitmentsSalts 1]
  let thirdCommitment ← conditionalSelect isFeeZero thirdCommitmentHash zero
  let isFeeChangeZero ← isZero (newCommitmentsValues 1)
  let finalCommitmentHash ← poseidonHash poseidon [feeTokenId, feeTokenId, newCommitmentsValues 1,
    (recipientPublicKey 1).x, (recipientPublicKey 1).y, newCommitmentsSalts 2]
  let finalCommitment ← conditionalSelect isFeeChangeZero finalCommitmentHash zero
  return ![firstCommitment, secondCommitment, thirdCommitment, finalCommitment]

/-- The commitment to a note, but 0 for value 0. -/
def newCommitment (poseidon : List F → F) (n : Preimage F) : F :=
  if n.value = 0 then 0 else n.hash poseidon

variable {P : Prover} {w : Variable → F}

theorem select_isZero_ensures [Nontrivial F] {b : BoolVar} {a : Variable}
    (hb : w b.var = ofBool (decide (w a = 0))) (x₀ x₁ : Variable) :
    Ensures P w (conditionalSelect b x₀ x₁) fun o =>
      w o = if w a = 0 then w x₁ else w x₀ := by
  refine (conditionalSelect_ensures _ _ _).mono fun o ho => ?_
  rw [ho, hb]
  by_cases h : w a = 0 <;> simp [h]

theorem verifyCommitments_ensures [Nontrivial F] (poseidon : List F → F)
    (feeTokenId nfAddress tokenId slotId value fee sharedSecretY : Variable)
    (newCommitmentsValues : Fin 2 → Variable) (recipientPublicKey : Fin 2 → PointVariable)
    (newCommitmentsSalts : Fin 3 → Variable) (withdrawFlag : BoolVar) :
    Ensures P w (verifyCommitments poseidon feeTokenId nfAddress tokenId slotId value fee
      sharedSecretY newCommitmentsValues recipientPublicKey newCommitmentsSalts withdrawFlag)
      fun out =>
        w (out 0) = (if w withdrawFlag.var = 0 then
          Preimage.hash poseidon ⟨w tokenId, w slotId, w value, (recipientPublicKey 0).map w,
            w sharedSecretY⟩ else 0) ∧
        w (out 1) = newCommitment poseidon ⟨w tokenId, w slotId, w (newCommitmentsValues 0),
          (recipientPublicKey 1).map w, w (newCommitmentsSalts 0)⟩ ∧
        w (out 2) = newCommitment poseidon ⟨w feeTokenId, w feeTokenId, w fee,
          ⟨0, w nfAddress⟩, w (newCommitmentsSalts 1)⟩ ∧
        w (out 3) = newCommitment poseidon ⟨w feeTokenId, w feeTokenId,
          w (newCommitmentsValues 1), (recipientPublicKey 1).map w, w (newCommitmentsSalts 2)⟩ := by
  unfold verifyCommitments
  refine Ensures.const fun h0 _ => ?_
  refine (poseidonHash_ensures _ _).bind fun c₁ hc₁ => ?_
  refine (conditionalSelect_ensures _ _ _).bind fun o₁ ho₁ => ?_
  refine (isZero_ensures _).bind fun b₂ hb₂ => ?_
  refine (poseidonHash_ensures _ _).bind fun c₂ hc₂ => ?_
  refine (select_isZero_ensures hb₂ _ _).bind fun o₂ ho₂ => ?_
  refine (isZero_ensures _).bind fun b₃ hb₃ => ?_
  refine (poseidonHash_ensures _ _).bind fun c₃ hc₃ => ?_
  refine (select_isZero_ensures hb₃ _ _).bind fun o₃ ho₃ => ?_
  refine (isZero_ensures _).bind fun b₄ hb₄ => ?_
  refine (poseidonHash_ensures _ _).bind fun c₄ hc₄ => ?_
  refine (select_isZero_ensures hb₄ _ _).bind fun o₄ ho₄ => ?_
  have hz : w zero = 0 := h0
  refine .pure ⟨?_, ?_, ?_, ?_⟩
  · exact ho₁.trans (by rw [hc₁, hz]; rfl)
  · exact ho₂.trans (by rw [hc₂, hz]; rfl)
  · refine ho₃.trans ?_
    rw [hc₃, hz]
    simp only [List.map_cons, List.map_nil, hz]
    rfl
  · exact ho₄.trans (by rw [hc₄, hz]; rfl)

/-! ### Nullifiers -/

/-- The commitment to note `n` is a leaf of `root`, reached by `path`, and if the owner is the
neutral point, the salt is the hash of `secret`. -/
structure OpensNote (poseidon : List F → F) (n : Preimage F) (path : List (PathElement F))
    (secret : Fin 3 → F) (root : F) : Prop where
  /-- The path leads from the commitment to the root. -/
  root_eq : foldPath (nodeHash poseidon) path (n.hash poseidon) = root
  /-- The salt of a deposit is the hash of a secret. -/
  salt_eq : n.publicKey = Point.neutral → poseidon (List.ofFn secret) = n.salt

instance (poseidon : List F → F) (n : Preimage F) (path : List (PathElement F))
    (secret : Fin 3 → F) (root : F) : Decidable (OpensNote poseidon n path secret root) :=
  decidable_of_iff (foldPath (nodeHash poseidon) path (n.hash poseidon) = root ∧
      (n.publicKey = Point.neutral → poseidon (List.ofFn secret) = n.salt))
    ⟨fun h => ⟨h.1, h.2⟩, fun h => ⟨h.1, h.2⟩⟩

/-- The nullifier of a note. -/
def Preimage.nullifier (poseidon : List F → F) (nullifierKey : F) (n : Preimage F) : F :=
  poseidon [nullifierKey, n.hash poseidon]

/-- The nullifier of a note, but 0 for value 0. -/
def openSlot (poseidon : List F → F) (nullifierKey : F) (n : Preimage F) : F :=
  if n.value = 0 then 0 else n.nullifier poseidon nullifierKey

/-- The first part of `verify_nullifiers`: the nullifier of the first slot. -/
def verifyFirstNullifier (poseidon : List F → F)
    (tokenId slotId nullifiersKey value salt root : Variable) (publicKey : PointVariable)
    (membershipProof : MembershipProofVar) (secretPreimage : Fin 3 → Variable) :
    CircuitM F Variable := do
  let commitmentHash ← poseidonHash poseidon
    [tokenId, slotId, value, publicKey.x, publicKey.y, salt]
  let nullifier ← poseidonHash poseidon [nullifiersKey, commitmentHash]
  let calcRoot ← calculateNewRoot poseidon membershipProof commitmentHash
  enforceEqual calcRoot root
  let secretHash ← poseidonHash poseidon (List.ofFn secretPreimage)
  let neutralPoint ← isNeutralPoint publicKey
  let saltToEnforce ← conditionalSelect neutralPoint salt secretHash
  enforceEqual saltToEnforce salt
  return nullifier

/-- The part of `verify_nullifiers` for each of the other slots. -/
def verifyOtherNullifier (poseidon : List F → F)
    (tokenId slotId nullifiersKey value salt root : Variable) (publicKey : PointVariable)
    (membershipProof : MembershipProofVar) (secretPreimage : Fin 3 → Variable) :
    CircuitM F Variable := do
  let isZero ← isZero value
  let commitmentHash ← poseidonHash poseidon
    [tokenId, slotId, value, publicKey.x, publicKey.y, salt]
  let nullifier ← poseidonHash poseidon [nullifiersKey, commitmentHash]
  let calcRoot ← calculateNewRoot poseidon membershipProof commitmentHash
  let rootIsEqual ← isEqual calcRoot root
  let isValid ← conditionalSelect isZero rootIsEqual.var one
  enforceTrue isValid
  let nullifierOut ← conditionalSelect isZero nullifier zero
  let secretHash ← poseidonHash poseidon (List.ofFn secretPreimage)
  let neutralPoint ← isNeutralPoint publicKey
  let saltToEnforce ← conditionalSelect neutralPoint salt secretHash
  let saltToEnforce ← conditionalSelect isZero saltToEnforce zero
  enforceEqual saltToEnforce salt
  return nullifierOut

/-- `verify_nullifiers`: slots 0 and 1 hold the transferred token, slots 2 and 3 the fee token. -/
def verifyNullifiers (poseidon : List F → F)
    (feeTokenId nfTokenId nfSlotId nullifiersKey : Variable) (publicKeys : Fin 4 → PointVariable)
    (roots oldCommitmentValues oldCommitmentSalts : Fin 4 → Variable)
    (membershipProofs : Fin 4 → MembershipProofVar) (secretPreimages : Fin 4 → Fin 3 → Variable) :
    CircuitM F (Fin 4 → Variable) := do
  let nullifier₁ ← verifyFirstNullifier poseidon nfTokenId nfSlotId nullifiersKey
    (oldCommitmentValues 0) (oldCommitmentSalts 0) (roots 0) (publicKeys 0) (membershipProofs 0)
    (secretPreimages 0)
  let nullifier₂ ← verifyOtherNullifier poseidon nfTokenId nfSlotId nullifiersKey
    (oldCommitmentValues 1) (oldCommitmentSalts 1) (roots 1) (publicKeys 1) (membershipProofs 1)
    (secretPreimages 1)
  let nullifier₃ ← verifyOtherNullifier poseidon feeTokenId feeTokenId nullifiersKey
    (oldCommitmentValues 2) (oldCommitmentSalts 2) (roots 2) (publicKeys 2) (membershipProofs 2)
    (secretPreimages 2)
  let nullifier₄ ← verifyOtherNullifier poseidon feeTokenId feeTokenId nullifiersKey
    (oldCommitmentValues 3) (oldCommitmentSalts 3) (roots 3) (publicKeys 3) (membershipProofs 3)
    (secretPreimages 3)
  return ![nullifier₁, nullifier₂, nullifier₃, nullifier₄]

/-- The salt that the owner key asks for equals the salt. -/
theorem salt_select_iff [Nontrivial F] {b : BoolVar} {Q : PointVariable} {salt secretHash : F}
    (hb : w b.var = ofBool (decide (Q.map w = Point.neutral))) :
    (if w b.var = 0 then salt else secretHash) = salt ↔
      (Q.map w = Point.neutral → secretHash = salt) := by
  rw [hb]
  by_cases h : Q.map w = Point.neutral <;> simp [h]

theorem verifyFirstNullifier_ensures [Nontrivial F] (poseidon : List F → F)
    {tokenId slotId nullifiersKey value salt root : Variable} {publicKey : PointVariable}
    {membershipProof : MembershipProofVar} {secretPreimage : Fin 3 → Variable} {n : Preimage F}
    (hn : n = ⟨w tokenId, w slotId, w value, publicKey.map w, w salt⟩)
    (h : P = .honest → OpensNote poseidon n
      (MembershipProofVar.eval w membershipProof).siblingPath (w ∘ secretPreimage) (w root)) :
    Ensures P w (verifyFirstNullifier poseidon tokenId slotId nullifiersKey value salt root
      publicKey membershipProof secretPreimage) fun o =>
        w o = n.nullifier poseidon (w nullifiersKey) ∧ OpensNote poseidon n
          (MembershipProofVar.eval w membershipProof).siblingPath (w ∘ secretPreimage)
          (w root) := by
  subst hn
  unfold verifyFirstNullifier
  refine (poseidonHash_ensures _ _).bind fun c hc => ?_
  refine (poseidonHash_ensures _ _).bind fun o ho => ?_
  refine (calculateNewRoot_ensures _ _ _).bind fun r hr => ?_
  have hc' : w c = Preimage.hash poseidon
      ⟨w tokenId, w slotId, w value, publicKey.map w, w salt⟩ := hc
  rw [hc'] at hr
  refine (enforceEqual_ensures fun hP => hr.trans (h hP).root_eq).bind fun _ hroot => ?_
  refine (poseidonHash_ensures _ _).bind fun s hs => ?_
  refine (isNeutralPoint_ensures _).bind fun b hb => ?_
  refine (conditionalSelect_ensures _ _ _).bind fun e he => ?_
  rw [List.map_ofFn] at hs
  refine (enforceEqual_ensures fun hP => ?_).bind fun _ hsalt => ?_
  · rw [he, salt_select_iff hb, hs]
    exact (h hP).salt_eq
  · rw [he, salt_select_iff hb, hs] at hsalt
    refine .pure ⟨?_, hr ▸ hroot, hsalt⟩
    rw [ho, Preimage.nullifier, ← hc', List.map_cons, List.map_cons, List.map_nil]

theorem verifyOtherNullifier_ensures [Nontrivial F] (poseidon : List F → F)
    {tokenId slotId nullifiersKey value salt root : Variable} {publicKey : PointVariable}
    {membershipProof : MembershipProofVar} {secretPreimage : Fin 3 → Variable} {n : Preimage F}
    (hn : n = ⟨w tokenId, w slotId, w value, publicKey.map w, w salt⟩)
    (h₀ : P = .honest → n.value = 0 → n.salt = 0)
    (h : P = .honest → n.value ≠ 0 → OpensNote poseidon n
      (MembershipProofVar.eval w membershipProof).siblingPath (w ∘ secretPreimage) (w root)) :
    Ensures P w (verifyOtherNullifier poseidon tokenId slotId nullifiersKey value salt root
      publicKey membershipProof secretPreimage) fun o =>
        w o = openSlot poseidon (w nullifiersKey) n ∧ (n.value = 0 → n.salt = 0) ∧
          (n.value ≠ 0 → OpensNote poseidon n
            (MembershipProofVar.eval w membershipProof).siblingPath (w ∘ secretPreimage)
            (w root)) := by
  subst hn
  unfold verifyOtherNullifier
  refine Ensures.const fun h0 h1 => ?_
  have hz : w zero = 0 := h0
  have hone : w one = 1 := h1
  refine (isZero_ensures _).bind fun z hzero => ?_
  refine (poseidonHash_ensures _ _).bind fun c hc => ?_
  refine (poseidonHash_ensures _ _).bind fun o ho => ?_
  refine (calculateNewRoot_ensures _ _ _).bind fun r hr => ?_
  have hc' : w c = Preimage.hash poseidon
      ⟨w tokenId, w slotId, w value, publicKey.map w, w salt⟩ := hc
  rw [hc'] at hr
  refine (isEqual_ensures _ _).bind fun q hq => ?_
  refine (select_isZero_ensures hzero _ _).bind fun v hv => ?_
  have hvalid : w v = 1 ↔ w value = 0 ∨ w r = w root := by
    rw [hv, hone, hq]
    by_cases hval : w value = 0 <;> simp [hval]
  refine (enforceTrue_ensures fun hP => ?_).bind fun _ hroot => ?_
  · rw [hvalid, hr]
    exact or_iff_not_imp_left.2 fun hval => (h hP hval).root_eq
  rw [hvalid, hr] at hroot
  refine (select_isZero_ensures hzero _ _).bind fun out hout => ?_
  refine (poseidonHash_ensures _ _).bind fun s hs => ?_
  refine (isNeutralPoint_ensures _).bind fun b hb => ?_
  refine (conditionalSelect_ensures _ _ _).bind fun e he => ?_
  refine (select_isZero_ensures hzero _ _).bind fun e' he' => ?_
  rw [List.map_ofFn] at hs
  have hsalt : w e' = w salt ↔ (w value = 0 → w salt = 0) ∧
      (w value ≠ 0 → publicKey.map w = Point.neutral → poseidon (List.ofFn (w ∘ secretPreimage)) =
        w salt) := by
    rw [he', he, hz, hs]
    by_cases hval : w value = 0
    · simp [hval, eq_comm]
    · simp [hval, salt_select_iff hb]
  refine (enforceEqual_ensures fun hP => ?_).bind fun _ heq => ?_
  · exact hsalt.2 ⟨h₀ hP, fun hval => (h hP hval).salt_eq⟩
  · rw [hsalt] at heq
    refine .pure ⟨?_, heq.1, fun hval => ⟨hroot.resolve_left hval, heq.2 hval⟩⟩
    rw [hout, hz, ho, openSlot, Preimage.nullifier, ← hc', List.map_cons, List.map_cons,
      List.map_nil]

/-- What `verifyNullifiers` enforces of the notes `n` in the four slots. -/
structure OpensSlots (poseidon : List F → F) (n : Fin 4 → Preimage F)
    (path : Fin 4 → List (PathElement F)) (secret : Fin 4 → Fin 3 → F) (root : Fin 4 → F) :
    Prop where
  /-- The first slot opens a commitment. -/
  opens_first : OpensNote poseidon (n 0) (path 0) (secret 0) (root 0)
  /-- The other slots open a commitment or hold value 0. -/
  opens_other : ∀ i ≠ 0, (n i).value ≠ 0 → OpensNote poseidon (n i) (path i) (secret i) (root i)
  /-- A slot with value 0 has salt 0. -/
  salt_eq_zero : ∀ i ≠ 0, (n i).value = 0 → (n i).salt = 0

instance (poseidon : List F → F) (n : Fin 4 → Preimage F) (path : Fin 4 → List (PathElement F))
    (secret : Fin 4 → Fin 3 → F) (root : Fin 4 → F) :
    Decidable (OpensSlots poseidon n path secret root) :=
  decidable_of_iff (OpensNote poseidon (n 0) (path 0) (secret 0) (root 0) ∧
      (∀ i ≠ 0, (n i).value ≠ 0 → OpensNote poseidon (n i) (path i) (secret i) (root i)) ∧
      ∀ i ≠ 0, (n i).value = 0 → (n i).salt = 0)
    ⟨fun h => ⟨h.1, h.2.1, h.2.2⟩, fun h => ⟨h.1, h.2, h.3⟩⟩

/-- The nullifiers of the four slots. -/
def slotNullifiers (poseidon : List F → F) (nullifierKey : F) (n : Fin 4 → Preimage F)
    (i : Fin 4) : F :=
  if i = 0 then (n 0).nullifier poseidon nullifierKey else openSlot poseidon nullifierKey (n i)

theorem verifyNullifiers_ensures [Nontrivial F] (poseidon : List F → F)
    {feeTokenId nfTokenId nfSlotId nullifiersKey : Variable} {publicKeys : Fin 4 → PointVariable}
    {roots oldCommitmentValues oldCommitmentSalts : Fin 4 → Variable}
    {membershipProofs : Fin 4 → MembershipProofVar} {secretPreimages : Fin 4 → Fin 3 → Variable}
    {n : Fin 4 → Preimage F} {path : Fin 4 → List (PathElement F)}
    (hn : n = fun i => ⟨if i < 2 then w nfTokenId else w feeTokenId,
      if i < 2 then w nfSlotId else w feeTokenId, w (oldCommitmentValues i),
      (publicKeys i).map w, w (oldCommitmentSalts i)⟩)
    (hpath : path = fun i => (MembershipProofVar.eval w (membershipProofs i)).siblingPath)
    (h : P = .honest → OpensSlots poseidon n path (fun i => w ∘ secretPreimages i) (w ∘ roots)) :
    Ensures P w (verifyNullifiers poseidon feeTokenId nfTokenId nfSlotId nullifiersKey publicKeys
      roots oldCommitmentValues oldCommitmentSalts membershipProofs secretPreimages) fun out =>
        (∀ i, w (out i) = slotNullifiers poseidon (w nullifiersKey) n i) ∧
          OpensSlots poseidon n path (fun i => w ∘ secretPreimages i) (w ∘ roots) := by
  subst hpath
  unfold verifyNullifiers
  refine (verifyFirstNullifier_ensures poseidon (n := n 0) (by rw [hn]; rfl)
    fun hP => (h hP).opens_first).bind fun o₁ ⟨ho₁, hopen₁⟩ => ?_
  refine (verifyOtherNullifier_ensures poseidon (n := n 1) (by rw [hn]; rfl)
    (fun hP => (h hP).salt_eq_zero 1 (by decide))
    fun hP => (h hP).opens_other 1 (by decide)).bind fun o₂ ⟨ho₂, hsalt₂, hopen₂⟩ => ?_
  refine (verifyOtherNullifier_ensures poseidon (n := n 2) (by rw [hn]; rfl)
    (fun hP => (h hP).salt_eq_zero 2 (by decide))
    fun hP => (h hP).opens_other 2 (by decide)).bind fun o₃ ⟨ho₃, hsalt₃, hopen₃⟩ => ?_
  refine (verifyOtherNullifier_ensures poseidon (n := n 3) (by rw [hn]; rfl)
    (fun hP => (h hP).salt_eq_zero 3 (by decide))
    fun hP => (h hP).opens_other 3 (by decide)).bind fun o₄ ⟨ho₄, hsalt₄, hopen₄⟩ => ?_
  refine .pure ⟨?_, hopen₁, ?_, ?_⟩
  · intro i
    fin_cases i
    · exact ho₁
    · exact ho₂
    · exact ho₃
    · exact ho₄
  · intro i hi
    fin_cases i
    · exact absurd rfl hi
    · exact hopen₂
    · exact hopen₃
    · exact hopen₄
  · intro i hi
    fin_cases i
    · exact absurd rfl hi
    · exact hsalt₂
    · exact hsalt₃
    · exact hsalt₄

/-! ### Duplicates -/

/-- The pairs `i < j` in the order of the loops. -/
def pairs : List (Fin 4 × Fin 4) :=
  [(0, 1), (0, 2), (0, 3), (1, 2), (1, 3), (2, 3)]

/-- The body of the loops of `verify_duplicates`. -/
def verifyDistinct (vars : Fin 4 → Variable) (ij : Fin 4 × Fin 4) : CircuitM F PUnit := do
  let tmpOne ← isEqual (vars ij.2) zero
  let tmpTwo ← isEqual (vars ij.2) (vars ij.1)
  let tmpThree ← logicNeg tmpTwo
  logicOrGate tmpOne tmpThree

/-- `verify_duplicates`: no non-zero nullifier or commitment appears twice. -/
def verifyDuplicates (nullifiersVars commitmentsVars : Fin 4 → Variable) : CircuitM F PUnit := do
  pairs.forM (verifyDistinct nullifiersVars)
  pairs.forM (verifyDistinct commitmentsVars)

/-- The non-zero entries are pairwise distinct. -/
def NoDuplicates (x : Fin 4 → F) : Prop := ∀ i j, i ≠ j → x j ≠ 0 → x i ≠ x j

instance (x : Fin 4 → F) : Decidable (NoDuplicates x) :=
  inferInstanceAs (Decidable (∀ i j, i ≠ j → x j ≠ 0 → x i ≠ x j))

omit [DecidableEq F] in
theorem noDuplicates_iff {x : Fin 4 → F} :
    NoDuplicates x ↔ ∀ ij ∈ pairs, x ij.2 = 0 ∨ x ij.2 ≠ x ij.1 := by
  have hlt : ∀ i j : Fin 4, i < j ↔ (i, j) ∈ pairs := by decide
  have hne : ∀ ij ∈ pairs, ij.1 ≠ ij.2 := by decide
  constructor
  · intro h ij hij
    exact or_iff_not_imp_left.2 fun h0 => (h ij.1 ij.2 (hne ij hij) h0).symm
  · intro h i j hij h0 he
    rcases lt_or_gt_of_ne hij with hlt' | hlt'
    · exact (h (i, j) ((hlt i j).1 hlt')).elim h0 fun h' => h' he.symm
    · exact (h (j, i) ((hlt j i).1 hlt')).elim (fun h' => h0 (he ▸ h')) fun h' => h' he

theorem verifyDistinct_ensures [Nontrivial F] {vars : Fin 4 → Variable} {ij : Fin 4 × Fin 4}
    (h : P = .honest → w (vars ij.2) = 0 ∨ w (vars ij.2) ≠ w (vars ij.1)) :
    Ensures P w (verifyDistinct vars ij) fun _ =>
      w (vars ij.2) = 0 ∨ w (vars ij.2) ≠ w (vars ij.1) := by
  unfold verifyDistinct
  refine Ensures.const fun h0 _ => ?_
  have hz : w zero = 0 := h0
  refine (isEqual_ensures _ _).bind fun a ha => ?_
  refine (isEqual_ensures _ _).bind fun b hb => ?_
  refine (logicNeg_ensures _).bind fun c hc => ?_
  have hor : w a.var = 1 ∨ w c.var = 1 ↔
      w (vars ij.2) = 0 ∨ w (vars ij.2) ≠ w (vars ij.1) := by
    rw [ha, hc, hb, hz]
    by_cases he : w (vars ij.2) = w (vars ij.1) <;> simp [he]
  exact (logicOrGate_ensures fun hP => hor.2 (h hP)).mono fun _ h' => hor.1 h'

theorem verifyDuplicates_ensures [Nontrivial F] {nullifiersVars commitmentsVars : Fin 4 → Variable}
    (h : P = .honest → NoDuplicates (w ∘ nullifiersVars) ∧ NoDuplicates (w ∘ commitmentsVars)) :
    Ensures P w (verifyDuplicates nullifiersVars commitmentsVars) fun _ =>
      NoDuplicates (w ∘ nullifiersVars) ∧ NoDuplicates (w ∘ commitmentsVars) := by
  simp only [noDuplicates_iff] at h ⊢
  unfold verifyDuplicates
  refine (Ensures.forM fun ij hij => verifyDistinct_ensures fun hP => (h hP).1 ij hij).bind
    fun _ h₁ => ?_
  exact (Ensures.forM fun ij hij => verifyDistinct_ensures fun hP => (h hP).2 ij hij).mono
    fun _ h₂ => ⟨h₁, h₂⟩

/-! ### Success -/

section Succeeds

variable {n : ℕ} {poseidon : List F → F}

theorem verifyCommitments_succeeds (hn : 2 ≤ n)
    {feeTokenId nfAddress tokenId slotId value fee sharedSecretY : Variable}
    {newCommitmentsValues : Fin 2 → Variable} {recipientPublicKey : Fin 2 → PointVariable}
    {newCommitmentsSalts : Fin 3 → Variable} {withdrawFlag : BoolVar}
    (hv : ∀ v ∈ [feeTokenId, nfAddress, tokenId, slotId, value, fee, sharedSecretY,
      withdrawFlag.var], v.Below n)
    (hvalues : ∀ i, (newCommitmentsValues i).Below n)
    (hkeys : ∀ i, (recipientPublicKey i).Below n)
    (hsalts : ∀ i, (newCommitmentsSalts i).Below n) :
    Succeeds n (verifyCommitments poseidon feeTokenId nfAddress tokenId slotId value fee
      sharedSecretY newCommitmentsValues recipientPublicKey newCommitmentsSalts withdrawFlag)
      fun m out => ∀ i, (out i).Below m := by
  unfold verifyCommitments
  simp only [List.forall_mem_cons] at hv
  obtain ⟨h₁, h₂, h₃, h₄, h₅, h₆, h₇, h₈, -⟩ := hv
  have hz := zero_below hn
  have hv₀ := hvalues 0
  have hv₁ := hvalues 1
  have hk₀ := hkeys 0
  have hk₁ := hkeys 1
  have hs₀ := hsalts 0
  have hs₁ := hsalts 1
  have hs₂ := hsalts 2
  refine (Succeeds.applyGate (by grind)).bind fun m₁ c₁ l₁ hc₁ => ?_
  refine (Succeeds.applyGate (by grind)).bind fun m₂ o₁ l₂ ho₁ => ?_
  refine (Succeeds.applyBoolGate (by grind)).bind fun m₃ b₂ l₃ hb₂ => ?_
  refine (Succeeds.applyGate (by grind)).bind fun m₄ c₂ l₄ hc₂ => ?_
  refine (Succeeds.applyGate (by grind)).bind fun m₅ o₂ l₅ ho₂ => ?_
  refine (Succeeds.applyBoolGate (by grind)).bind fun m₆ b₃ l₆ hb₃ => ?_
  refine (Succeeds.applyGate (by grind)).bind fun m₇ c₃ l₇ hc₃ => ?_
  refine (Succeeds.applyGate (by grind)).bind fun m₈ o₃ l₈ ho₃ => ?_
  refine (Succeeds.applyBoolGate (by grind)).bind fun m₉ b₄ l₉ hb₄ => ?_
  refine (Succeeds.applyGate (by grind)).bind fun m₁₀ c₄ l₁₀ hc₄ => ?_
  refine (Succeeds.applyGate (by grind)).bind fun m₁₁ o₄ l₁₁ ho₄ => ?_
  refine .pure fun m hm i => ?_
  fin_cases i
  · exact ho₁.mono (by omega)
  · exact ho₂.mono (by omega)
  · exact ho₃.mono (by omega)
  · exact ho₄.mono (by omega)

theorem verifyFirstNullifier_succeeds {tokenId slotId nullifiersKey value salt root : Variable}
    {publicKey : PointVariable} {membershipProof : MembershipProofVar}
    {secretPreimage : Fin 3 → Variable}
    (hv : ∀ v ∈ [tokenId, slotId, nullifiersKey, value, salt, root], v.Below n)
    (hQ : publicKey.Below n) (hp : membershipProof.Below n) (hs : ∀ i, (secretPreimage i).Below n) :
    Succeeds n (verifyFirstNullifier poseidon tokenId slotId nullifiersKey value salt root
      publicKey membershipProof secretPreimage) fun m o => o.Below m := by
  unfold verifyFirstNullifier
  simp only [List.forall_mem_cons] at hv
  obtain ⟨htoken, hslot, hkey, hvalue, hsalt, hroot, -⟩ := hv
  refine (Succeeds.applyGate (by grind)).bind fun m₁ c l₁ hc => ?_
  refine (Succeeds.applyGate (by grind)).bind fun m₂ o l₂ ho => ?_
  refine (Succeeds.calculateNewRoot (hp.mono (by omega)) (by grind)).bind fun m₃ r l₃ hr => ?_
  refine (Succeeds.enforce (by grind)).bind fun m₄ _ l₄ _ => ?_
  refine (Succeeds.applyGate (by simp only [List.mem_ofFn]; grind)).bind fun m₅ s l₅ hs => ?_
  refine (Succeeds.applyBoolGate (by grind)).bind fun m₆ b l₆ hb => ?_
  refine (Succeeds.applyGate (by grind)).bind fun m₇ e l₇ he => ?_
  refine (Succeeds.enforce (by grind)).bind fun m₈ _ l₈ _ => ?_
  exact .pure fun m hm => ho.mono (by omega)

theorem verifyOtherNullifier_succeeds (hn : 2 ≤ n)
    {tokenId slotId nullifiersKey value salt root : Variable}
    {publicKey : PointVariable} {membershipProof : MembershipProofVar}
    {secretPreimage : Fin 3 → Variable}
    (hv : ∀ v ∈ [tokenId, slotId, nullifiersKey, value, salt, root], v.Below n)
    (hQ : publicKey.Below n) (hp : membershipProof.Below n) (hs : ∀ i, (secretPreimage i).Below n) :
    Succeeds n (verifyOtherNullifier poseidon tokenId slotId nullifiersKey value salt root
      publicKey membershipProof secretPreimage) fun m o => o.Below m := by
  unfold verifyOtherNullifier
  simp only [List.forall_mem_cons] at hv
  obtain ⟨htoken, hslot, hkey, hvalue, hsalt, hroot, -⟩ := hv
  have hz := zero_below hn
  have hone := one_below hn
  refine (Succeeds.applyBoolGate (by grind)).bind fun m₁ z l₁ hzero => ?_
  refine (Succeeds.applyGate (by grind)).bind fun m₂ c l₂ hc => ?_
  refine (Succeeds.applyGate (by grind)).bind fun m₃ o l₃ ho => ?_
  refine (Succeeds.calculateNewRoot (hp.mono (by omega)) (by grind)).bind fun m₄ r l₄ hr => ?_
  refine (Succeeds.applyBoolGate (by grind)).bind fun m₅ q l₅ hq => ?_
  refine (Succeeds.applyGate (by grind)).bind fun m₆ v l₆ hvalid => ?_
  refine (Succeeds.enforce (by grind)).bind fun m₇ _ l₇ _ => ?_
  refine (Succeeds.applyGate (by grind)).bind fun m₈ out l₈ hout => ?_
  refine (Succeeds.applyGate (by simp only [List.mem_ofFn]; grind)).bind fun m₉ s l₉ hs => ?_
  refine (Succeeds.applyBoolGate (by grind)).bind fun m₁₀ b l₁₀ hb => ?_
  refine (Succeeds.applyGate (by grind)).bind fun m₁₁ e l₁₁ he => ?_
  refine (Succeeds.applyGate (by grind)).bind fun m₁₂ e' l₁₂ he' => ?_
  refine (Succeeds.enforce (by grind)).bind fun m₁₃ _ l₁₃ _ => ?_
  exact .pure fun m hm => hout.mono (by omega)

theorem verifyNullifiers_succeeds (hn : 2 ≤ n)
    {feeTokenId nfTokenId nfSlotId nullifiersKey : Variable} {publicKeys : Fin 4 → PointVariable}
    {roots oldCommitmentValues oldCommitmentSalts : Fin 4 → Variable}
    {membershipProofs : Fin 4 → MembershipProofVar} {secretPreimages : Fin 4 → Fin 3 → Variable}
    (hv : ∀ v ∈ [feeTokenId, nfTokenId, nfSlotId, nullifiersKey], v.Below n)
    (hkeys : ∀ i, (publicKeys i).Below n) (hroots : ∀ i, (roots i).Below n)
    (hvalues : ∀ i, (oldCommitmentValues i).Below n)
    (hsalts : ∀ i, (oldCommitmentSalts i).Below n)
    (hproofs : ∀ i, (membershipProofs i).Below n)
    (hsecrets : ∀ i j, (secretPreimages i j).Below n) :
    Succeeds n (verifyNullifiers poseidon feeTokenId nfTokenId nfSlotId nullifiersKey publicKeys
      roots oldCommitmentValues oldCommitmentSalts membershipProofs secretPreimages)
      fun m out => ∀ i, (out i).Below m := by
  unfold verifyNullifiers
  simp only [List.forall_mem_cons] at hv
  obtain ⟨hfee, htoken, hslot, hkey, -⟩ := hv
  have hslots : ∀ i, ∀ v ∈ [oldCommitmentValues i, oldCommitmentSalts i, roots i], v.Below n :=
    fun i => by simp [hvalues i, hsalts i, hroots i]
  refine (verifyFirstNullifier_succeeds (by grind) (hkeys 0) (hproofs 0) (hsecrets 0)).bind
    fun m₁ o₁ l₁ h₁ => ?_
  refine (verifyOtherNullifier_succeeds (by omega) (by grind) ((hkeys 1).mono (by omega))
    ((hproofs 1).mono (by omega)) (fun i => (hsecrets 1 i).mono (by omega))).bind
      fun m₂ o₂ l₂ h₂ => ?_
  refine (verifyOtherNullifier_succeeds (by omega) (by grind) ((hkeys 2).mono (by omega))
    ((hproofs 2).mono (by omega)) (fun i => (hsecrets 2 i).mono (by omega))).bind
      fun m₃ o₃ l₃ h₃ => ?_
  refine (verifyOtherNullifier_succeeds (by omega) (by grind) ((hkeys 3).mono (by omega))
    ((hproofs 3).mono (by omega)) (fun i => (hsecrets 3 i).mono (by omega))).bind
      fun m₄ o₄ l₄ h₄ => ?_
  refine .pure fun m hm i => ?_
  fin_cases i
  · exact h₁.mono (by omega)
  · exact h₂.mono (by omega)
  · exact h₃.mono (by omega)
  · exact h₄.mono hm

theorem verifyDistinct_succeeds (hn : 2 ≤ n) {vars : Fin 4 → Variable} (h : ∀ i, (vars i).Below n)
    (ij : Fin 4 × Fin 4) :
    Succeeds n (verifyDistinct vars ij : CircuitM F PUnit) fun _ _ => True := by
  unfold verifyDistinct
  have hz := zero_below hn
  have h₁ := h ij.1
  have h₂ := h ij.2
  refine (Succeeds.applyBoolGate (by grind)).bind fun m₁ a l₁ ha => ?_
  refine (Succeeds.applyBoolGate (by grind)).bind fun m₂ b l₂ hb => ?_
  refine (Succeeds.applyBoolGate (by grind)).bind fun m₃ c l₃ hc => ?_
  exact .enforce (by grind)

theorem verifyDuplicates_succeeds (hn : 2 ≤ n) {nullifiersVars commitmentsVars : Fin 4 → Variable}
    (h₁ : ∀ i, (nullifiersVars i).Below n) (h₂ : ∀ i, (commitmentsVars i).Below n) :
    Succeeds n (verifyDuplicates nullifiersVars commitmentsVars : CircuitM F PUnit)
      fun _ _ => True := by
  refine (Succeeds.forM fun ij _ m hm => verifyDistinct_succeeds (hn.trans hm)
    (fun i => (h₁ i).mono hm) ij).bind fun m _ hm _ => ?_
  exact .forM fun ij _ k hk => verifyDistinct_succeeds (hn.trans (hm.trans hk))
    (fun i => (h₂ i).mono (hm.trans hk)) ij

end Succeeds

end Client

end Nightfall
