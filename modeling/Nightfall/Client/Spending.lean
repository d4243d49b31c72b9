import Nightfall.Client.Assignment

/-!
# Who can spend a commitment, and how often

The circuit takes the nullifier key and the sender's private key as unrelated inputs, and neither
is related to the owner of a note that is spent.  So:

* `exists_spend` : any note whose owner is not the neutral point can be spent with any nullifier
  key and any private key;
* `nullifier_eq_iff` : a commitment has the same nullifier in two assignments exactly if they
  agree on the nullifier key;
* `authorised_iff` : a spent note is the sender's or a deposit of the sender exactly if its owner
  key is the sender's or the neutral point;
* `feeSound_iff` : the fee is paid in the fee token of the deployed contract, to an owner without
  a private key, exactly if two inputs of the prover have the right values.
-/

namespace Nightfall

namespace Client

open Plonk Merkle

/-! ### A transfer of one note -/

section Spend

variable (Pr : Primitives) (n : Preimage Fr254) (path : List (PathElement Fr254))
  (nullifierKey : Fr254) (zkpPrivateKey : BJJScalar)

/-- Private inputs that transfer note `n` without a fee. -/
def spendPrivate : PrivateInputs where
  feeTokenId := 0
  nfAddress := 0
  value := n.value
  nfTokenId := n.nfTokenId
  nfSlotId := n.nfSlotId
  nullifiersValues := ![n.value, 0, 0, 0]
  nullifiersSalts := ![n.salt, 0, 0, 0]
  membershipProofs _ := ⟨0, path⟩
  commitmentsValues _ := 0
  commitmentsSalts _ := 0
  publicKeys _ := n.publicKey
  recipientPublicKey := ⟨1, 0⟩
  nullifierKey := nullifierKey
  zkpPrivateKey := zkpPrivateKey
  ephemeralKey := 0
  withdrawAddress := 0
  secretPreimages _ _ := 0

/-- Public inputs for the transfer of note `n`: the root that `path` leads to. -/
def spendPublic : PublicInputs Fr254 where
  fee := 0
  roots _ := foldPath (nodeHash Pr.poseidon) path (n.hash Pr.poseidon)
  commitments _ := 0
  nullifiers _ := 0
  compressedSecrets _ := 0

/-- The transfer of note `n`. -/
def spend : Operation :=
  suggested Pr (spendPublic Pr n path) (spendPrivate n path nullifierKey zkpPrivateKey)

theorem spend_note_zero : (spend Pr n path nullifierKey zkpPrivateKey).note 0 = n := rfl

theorem noDuplicates_of_forall_ne_zero {x : Fin 4 → Fr254} (h : ∀ i ≠ 0, x i = 0) :
    NoDuplicates x := by
  intro i j hij hj
  have hj0 : j = 0 := not_imp_comm.1 (h j) hj
  rw [h i fun hi => hij (hi.trans hj0.symm)]
  exact hj.symm

theorem spend_integrity (hvalue : n.value.val < 2 ^ 96) (howner : n.publicKey ≠ .neutral) :
    (spend Pr n path nullifierKey zkpPrivateKey).Integrity Pr := by
  have hother : ∀ i ≠ 0, ((spend Pr n path nullifierKey zkpPrivateKey).note i).value = 0 := by
    intro i hi
    fin_cases i
    · exact absurd rfl hi
    all_goals rfl
  constructor
  case withdrawAddress_lt => simp [spend, suggested, PrivateInputs.values, withFeeTokenId, spendPrivate]
  case token_balance => rfl
  case fee_balance => simp [spend, suggested, PrivateInputs.values, withFeeTokenId, spendPrivate, spendPublic]
  case value_lt => exact hvalue
  case fee_lt => simp [spend, suggested, spendPublic]
  case commitmentsValues_lt => simp [spend, suggested, PrivateInputs.values, withFeeTokenId, spendPrivate]
  case opens =>
    refine ⟨⟨rfl, fun h => absurd h howner⟩, fun i hi hv => absurd (hother i hi) hv, fun i hi _ => ?_⟩
    fin_cases i
    · exact absurd rfl hi
    all_goals rfl
  case noDuplicates =>
    refine ⟨noDuplicates_of_forall_ne_zero fun i hi => ?_,
      noDuplicates_of_forall_ne_zero fun i hi => ?_⟩
    · rw [Operation.nullifiers, slotNullifiers, if_neg hi, openSlot, if_pos (hother i hi)]
    · have hzero : ((spend Pr n path nullifierKey zkpPrivateKey).newNote Pr i).value = 0 := by
        fin_cases i
        · exact absurd rfl hi
        all_goals rfl
      rw [Operation.commitments, if_neg hi, newCommitment, if_pos hzero]
  case withdraw_iff =>
    simp [spend, suggested, PrivateInputs.values, withFeeTokenId, spendPrivate, Point.neutral]

/-- **Any note can be spent by anyone**: if its owner is not the neutral point, there is an
assignment that opens it in the first slot with any nullifier key and any private key. -/
theorem exists_spend (hvalue : n.value.val < 2 ^ 96) (howner : n.publicKey ≠ .neutral) :
    ∃ A : TransferAssignment Pr, A.operation = spend Pr n path nullifierKey zkpPrivateKey :=
  exists_transferAssignment (spend_integrity Pr n path nullifierKey zkpPrivateKey hvalue howner)

end Spend

namespace TransferAssignment

variable {Pr : Primitives} {A B : TransferAssignment Pr} {i j : Fin 4}

/-! ### One nullifier for a commitment -/

/-- **The nullifiers of a commitment**: two assignments that open the same commitment output the
same nullifier exactly if they have the same nullifier key. -/
theorem nullifier_eq_iff (hopen : A.openedCommitment i = B.openedCommitment j)
    (hA : A.nullifier i ≠ 0) (hB : B.nullifier j ≠ 0)
    (hcf : Set.InjOn Pr.poseidon {[A.operation.privateInputs.nullifierKey, A.openedCommitment i],
      [B.operation.privateInputs.nullifierKey, A.openedCommitment i]}) :
    A.nullifier i = B.nullifier j ↔
      A.operation.privateInputs.nullifierKey = B.operation.privateInputs.nullifierKey := by
  have hA' : A.nullifier i =
      Pr.poseidon [A.operation.privateInputs.nullifierKey, A.openedCommitment i] :=
    (opens_of_nullifier_ne_zero hA).1
  have hB' : B.nullifier j =
      Pr.poseidon [B.operation.privateInputs.nullifierKey, B.openedCommitment j] :=
    (opens_of_nullifier_ne_zero hB).1
  rw [hA', hB', ← hopen]
  constructor
  · intro h
    exact (List.cons.inj (hcf (Set.mem_insert _ _) (Set.mem_insert_of_mem _ rfl) h)).1
  · intro h
    rw [h]

theorem nullifier_of_operation {n : Preimage Fr254} {path : List (PathElement Fr254)} {k : Fr254}
    {z : BJJScalar} (h : A.operation = spend Pr n path k z) :
    A.openedCommitment 0 = n.hash Pr.poseidon ∧ A.nullifier 0 = n.nullifier Pr.poseidon k := by
  refine ⟨by rw [openedCommitment, h, spend_note_zero], ?_⟩
  have hnull : A.nullifier 0 = A.operation.nullifiers Pr 0 := congrFun A.nullifiers_eq 0
  rw [hnull, h]
  rfl

/-- Any two nullifier keys give two spends of one note. -/
theorem exists_two_spends (Pr : Primitives) (n : Preimage Fr254) (path : List (PathElement Fr254))
    (k l : Fr254) (hvalue : n.value.val < 2 ^ 96) (howner : n.publicKey ≠ .neutral) :
    ∃ A B : TransferAssignment Pr, A.openedCommitment 0 = n.hash Pr.poseidon ∧
      B.openedCommitment 0 = n.hash Pr.poseidon ∧
      A.nullifier 0 = n.nullifier Pr.poseidon k ∧ B.nullifier 0 = n.nullifier Pr.poseidon l ∧
      A.operation.privateInputs.nullifierKey = k ∧
      B.operation.privateInputs.nullifierKey = l := by
  obtain ⟨A, hA⟩ := exists_spend Pr n path k 1 hvalue howner
  obtain ⟨B, hB⟩ := exists_spend Pr n path l 1 hvalue howner
  exact ⟨A, B, (nullifier_of_operation hA).1, (nullifier_of_operation hB).1,
    (nullifier_of_operation hA).2, (nullifier_of_operation hB).2, by rw [hA]; rfl, by rw [hB]; rfl⟩

theorem nullifier_eq_iff_sample : ∃ A B : TransferAssignment samplePrimitives,
    A.nullifier 0 = B.nullifier 0 ↔
      A.operation.privateInputs.nullifierKey = B.operation.privateInputs.nullifierKey := by
  obtain ⟨A, B, hA, hB, hnA, hnB, hkA, hkB⟩ := exists_two_spends samplePrimitives
    (sampleNote ⟨43, 0⟩) samplePath 1 2 (by decide +kernel) (by decide +kernel)
  refine ⟨A, B, nullifier_eq_iff (hA.trans hB.symm) ?_ ?_ ?_⟩
  · rw [hnA]; exact samplePrimitives_ne_zero _
  · rw [hnB]; exact samplePrimitives_ne_zero _
  · rw [hA, hkA, hkB, Set.injOn_pair]
    decide +kernel

/-- One commitment with two nullifiers. -/
theorem two_nullifiers : ∃ A B : TransferAssignment samplePrimitives,
    Set.InjOn samplePrimitives.poseidon
      {[A.operation.privateInputs.nullifierKey, A.openedCommitment 0],
        [B.operation.privateInputs.nullifierKey, A.openedCommitment 0]} ∧
    A.openedCommitment 0 = B.openedCommitment 0 ∧ A.nullifier 0 ≠ 0 ∧ B.nullifier 0 ≠ 0 ∧
    A.nullifier 0 ≠ B.nullifier 0 := by
  obtain ⟨A, B, hA, hB, hnA, hnB, hkA, hkB⟩ := exists_two_spends samplePrimitives
    (sampleNote ⟨43, 0⟩) samplePath 1 2 (by decide +kernel) (by decide +kernel)
  refine ⟨A, B, ?_, hA.trans hB.symm, ?_, ?_, ?_⟩
  · rw [hA, hkA, hkB, Set.injOn_pair]
    decide +kernel
  · rw [hnA]; exact samplePrimitives_ne_zero _
  · rw [hnB]; exact samplePrimitives_ne_zero _
  · rw [hnA, hnB]
    decide +kernel

/-! ### The owner of a spent note -/

/-- The sender's public key. -/
def senderKey (A : TransferAssignment Pr) : Point Fr254 :=
  Pr.scalarMul A.operation.privateInputs.zkpPrivateKey Pr.generator

/-- The note of slot `i` is the sender's, or it is a deposit of which the sender knows the
secret. -/
def Authorised (A : TransferAssignment Pr) (i : Fin 4) : Prop :=
  (A.operation.note i).publicKey = A.senderKey ∨
    ((A.operation.note i).publicKey = .neutral ∧
      Pr.poseidon (List.ofFn (A.operation.privateInputs.secretPreimages i)) =
        (A.operation.note i).salt)

/-- **Spend authority.**  The note that is judged is the one whose nullifier is published. -/
theorem authorised_iff (h : A.nullifier i ≠ 0) :
    A.nullifier i = (A.operation.note i).nullifier Pr.poseidon
        A.operation.privateInputs.nullifierKey ∧
      (A.Authorised i ↔ A.operation.privateInputs.publicKeys i = A.senderKey ∨
        A.operation.privateInputs.publicKeys i = .neutral) := by
  obtain ⟨hnull, hopens⟩ := opens_of_nullifier_ne_zero h
  exact ⟨hnull, or_congr Iff.rfl ⟨fun h' => h'.1, fun howner => ⟨howner, hopens.salt_eq howner⟩⟩⟩

theorem authorised_iff_sample : ∃ A : TransferAssignment samplePrimitives,
    A.nullifier 0 = (A.operation.note 0).nullifier samplePrimitives.poseidon
        A.operation.privateInputs.nullifierKey ∧
      (A.Authorised 0 ↔ A.operation.privateInputs.publicKeys 0 = A.senderKey ∨
        A.operation.privateInputs.publicKeys 0 = .neutral) := by
  obtain ⟨A, hA⟩ := exists_spend samplePrimitives (sampleNote ⟨43, 0⟩) samplePath 1 43
    (by decide +kernel) (by decide +kernel)
  refine ⟨A, authorised_iff ?_⟩
  rw [(nullifier_of_operation hA).2]
  exact samplePrimitives_ne_zero _

/-- The fee commitment of the contract at address 77, spent by someone with private key 43. -/
theorem fee_commitment_spent : ∃ A : TransferAssignment samplePrimitives,
    A.nullifier 0 ≠ 0 ∧ (A.operation.note 0).publicKey = ⟨0, 77⟩ ∧ ¬A.Authorised 0 := by
  obtain ⟨A, hA⟩ := exists_spend samplePrimitives (sampleNote ⟨0, 77⟩) samplePath 1 43
    (by decide +kernel) (by decide +kernel)
  refine ⟨A, ?_, ?_, ?_⟩
  · rw [(nullifier_of_operation hA).2]
    exact samplePrimitives_ne_zero _
  · rw [hA, spend_note_zero, sampleNote]
  · rw [Authorised, senderKey, hA, spend_note_zero]
    decide +kernel

/-! ### The fee -/

/-- The fee token id of the contract at an address. -/
def feeId (Pr : Primitives) (deployed : BitVec 160) : Fr254 :=
  ((feeTokenIdOf Pr.keccak256 deployed).toNat : Fr254)

/-- The fee is paid in the fee token of the deployed contract, to an owner without a private
key. -/
structure FeeSound (A : TransferAssignment Pr) (deployed : BitVec 160) : Prop where
  /-- The notes spent for the fee are fee tokens. -/
  spent : ∀ i ≥ 2, (A.operation.note i).nfTokenId = feeId Pr deployed ∧
    (A.operation.note i).nfSlotId = feeId Pr deployed
  /-- The fee and its change are fee tokens. -/
  created : ∀ i ≥ 2, (A.operation.newNote Pr i).nfTokenId = feeId Pr deployed ∧
    (A.operation.newNote Pr i).nfSlotId = feeId Pr deployed
  /-- The owner of the fee commitment is nobody's public key. -/
  unspendable : ∀ s, Pr.scalarMul s Pr.generator ≠ (A.operation.newNote Pr 2).publicKey

theorem tokenId_of_le {o : Operation} {i : Fin 4} (hi : 2 ≤ i) :
    o.tokenId i = o.privateInputs.feeTokenId ∧ o.slotId i = o.privateInputs.feeTokenId :=
  ⟨if_neg (not_lt.2 hi), if_neg (not_lt.2 hi)⟩

/-- **Fee soundness.**  The notes that are judged are those of the published nullifiers and commitments.
The point with first coordinate 0 that has a private key is the neutral point only. -/
theorem feeSound_iff {deployed : BitVec 160}
    (hG : ∀ y, (∃ s, Pr.scalarMul s Pr.generator = ⟨0, y⟩) ↔ y = 1) :
    A.publicValues.nullifiers = A.operation.nullifiers Pr ∧
      A.publicValues.commitments = A.operation.commitments Pr ∧
      (A.FeeSound deployed ↔ A.operation.privateInputs.feeTokenId = feeId Pr deployed ∧
        A.operation.privateInputs.nfAddress ≠ 1) := by
  have howner : (A.operation.newNote Pr 2).publicKey =
      ⟨0, A.operation.privateInputs.nfAddress⟩ := rfl
  refine ⟨A.nullifiers_eq, A.commitments_eq, ?_⟩
  constructor
  · intro h
    refine ⟨(tokenId_of_le (le_refl 2)).1.symm.trans (h.spent 2 le_rfl).1, fun haddr => ?_⟩
    obtain ⟨s, hs⟩ := (hG _).2 haddr
    exact h.unspendable s (hs.trans howner.symm)
  · rintro ⟨htoken, haddr⟩
    have hid : ∀ i ≥ 2, A.operation.tokenId i = feeId Pr deployed ∧
        A.operation.slotId i = feeId Pr deployed := fun i hi =>
      ⟨(tokenId_of_le hi).1.trans htoken, (tokenId_of_le hi).2.trans htoken⟩
    exact ⟨hid, hid, fun s hs => haddr ((hG _).1 ⟨s, hs.trans howner⟩)⟩

theorem samplePrimitives_scalarMul (y : Fr254) :
    (∃ s, samplePrimitives.scalarMul s samplePrimitives.generator = ⟨0, y⟩) ↔ y = 1 := by
  constructor
  · rintro ⟨s, hs⟩
    by_cases h0 : s = 0
    · simpa [samplePrimitives, h0, Point.neutral, eq_comm] using hs
    · simp [samplePrimitives, h0] at hs
  · rintro rfl
    exact ⟨0, by simp [samplePrimitives, Point.neutral]⟩

theorem feeSound_iff_sample : ∃ A : TransferAssignment samplePrimitives,
    A.publicValues.nullifiers = A.operation.nullifiers samplePrimitives ∧
      A.publicValues.commitments = A.operation.commitments samplePrimitives ∧
      (A.FeeSound 77 ↔ A.operation.privateInputs.feeTokenId = feeId samplePrimitives 77 ∧
        A.operation.privateInputs.nfAddress ≠ 1) := by
  obtain ⟨A, -⟩ := exists_transferAssignment sampleOperation_integrity
  exact ⟨A, feeSound_iff samplePrimitives_scalarMul⟩

/-- A fee of 4 paid in the token of address 77 when the deployed contract is at 78. -/
theorem fee_paid_in_other_token : ∃ A : TransferAssignment samplePrimitives,
    A.publicValues.fee = 4 ∧ ¬A.FeeSound 78 := by
  obtain ⟨A, hA⟩ := exists_transferAssignment sampleOperation_integrity
  refine ⟨A, congrArg Operation.fee hA, fun h => ?_⟩
  have htoken := (h.spent 2 le_rfl).1
  rw [hA] at htoken
  exact absurd htoken (by decide +kernel)

end TransferAssignment

end Client

end Nightfall
