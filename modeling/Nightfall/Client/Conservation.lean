import Nightfall.Client.Assignment

/-!
# Value conservation and the form of the outputs

The circuit checks that the values balance in the field.  With the range checks on the outputs
and inputs below `2 ^ 96` neither side wraps around, so they balance as integers
(`Conserves`).  `OutputForm` collects what the public inputs of a satisfying assignment look
like; the withdraw address decides between a transfer and a withdraw.
-/

namespace Nightfall

namespace Client

open Plonk Merkle

/-- Sums of two values below `2 ^ 96` do not wrap around. -/
theorem val_add_of_lt {a b : Fr254} (ha : a.val < 2 ^ 96) (hb : b.val < 2 ^ 96) :
    (a + b).val = a.val + b.val := by
  refine ZMod.val_add_of_lt ?_
  have hr : 2 ^ 97 < frModulus := by decide +kernel
  omega

theorem balance_val {a b c d : Fr254} (h : a + b = c + d) (ha : a.val < 2 ^ 96)
    (hb : b.val < 2 ^ 96) (hc : c.val < 2 ^ 96) (hd : d.val < 2 ^ 96) :
    c.val + d.val = a.val + b.val := by
  rw [← val_add_of_lt ha hb, ← val_add_of_lt hc hd, h]

namespace TransferAssignment

variable {Pr : Primitives}

/-- The values of the token and of the fee are conserved as integers. -/
structure Conserves (A : TransferAssignment Pr) : Prop where
  token : (A.operation.privateInputs.nullifiersValues 0).val +
      (A.operation.privateInputs.nullifiersValues 1).val =
    A.operation.privateInputs.value.val + (A.operation.privateInputs.commitmentsValues 0).val
  fee : (A.operation.privateInputs.nullifiersValues 2).val +
      (A.operation.privateInputs.nullifiersValues 3).val =
    A.publicValues.fee.val + (A.operation.privateInputs.commitmentsValues 1).val
  value_lt : A.operation.privateInputs.value.val < 2 ^ 96
  fee_lt : A.publicValues.fee.val < 2 ^ 96
  change_lt : ∀ i, (A.operation.privateInputs.commitmentsValues i).val < 2 ^ 96

/-- The form of the public inputs. -/
structure OutputForm (A : TransferAssignment Pr) : Prop where
  nullifiers_distinct : ∀ i j, i ≠ j → A.nullifier j ≠ 0 → A.nullifier i ≠ A.nullifier j
  commitments_distinct : ∀ i j, i ≠ j → A.publicValues.commitments j ≠ 0 →
    A.publicValues.commitments i ≠ A.publicValues.commitments j
  /-- The first nullifier is that of a leaf of the first root. -/
  first_nullifier : A.nullifier 0 =
      Pr.poseidon [A.operation.privateInputs.nullifierKey, A.openedCommitment 0] ∧
    foldPath (nodeHash Pr.poseidon) (A.operation.path 0) (A.openedCommitment 0) =
      A.publicValues.roots 0
  /-- The change of the token, the fee and its change are committed to unless they are zero. -/
  commitment_zero : ∀ i ≠ 0, (A.operation.newNote Pr i).value = 0 →
    A.publicValues.commitments i = 0
  commitment_ne_zero : ∀ i ≠ 0, (A.operation.newNote Pr i).value ≠ 0 →
    A.publicValues.commitments i = (A.operation.newNote Pr i).hash Pr.poseidon
  /-- The first commitment is missing exactly in a withdraw. -/
  first_commitment : A.publicValues.commitments 0 = 0 ↔
    A.operation.privateInputs.withdrawAddress ≠ 0
  withdraw_recipient : A.operation.privateInputs.withdrawAddress ≠ 0 ↔
    A.operation.privateInputs.recipientPublicKey = .neutral
  /-- The public data of a withdraw. -/
  withdraw_data : A.operation.privateInputs.withdrawAddress ≠ 0 →
    A.operation.privateInputs.withdrawAddress.val < 2 ^ 160 ∧
    List.ofFn A.publicValues.compressedSecrets = [A.operation.privateInputs.nfTokenId,
      A.operation.privateInputs.withdrawAddress, A.operation.privateInputs.value, 0, 0]

variable {A : TransferAssignment Pr}

theorem conserves_of_lt (h : ∀ i, (A.operation.privateInputs.nullifiersValues i).val < 2 ^ 96) :
    A.Conserves where
  token := balance_val A.integrity.token_balance A.integrity.value_lt
    (A.integrity.commitmentsValues_lt 0) (h 0) (h 1)
  fee := balance_val A.integrity.fee_balance A.integrity.fee_lt
    (A.integrity.commitmentsValues_lt 1) (h 2) (h 3)
  value_lt := A.integrity.value_lt
  fee_lt := A.integrity.fee_lt
  change_lt := A.integrity.commitmentsValues_lt

theorem commitments_of_ne_zero {i : Fin 4} (hi : i ≠ 0) :
    A.publicValues.commitments i = newCommitment Pr.poseidon (A.operation.newNote Pr i) := by
  rw [A.commitments_eq, Operation.commitments, if_neg hi]

theorem first_commitment_eq_zero_iff (hne : ∀ l, Pr.poseidon l ≠ 0) :
    A.publicValues.commitments 0 = 0 ↔ A.operation.privateInputs.withdrawAddress ≠ 0 := by
  rw [A.commitments_eq, Operation.commitments, if_pos rfl]
  split_ifs with haddr
  · exact iff_of_false (hne _) (not_not.2 haddr)
  · exact iff_of_true rfl haddr

theorem outputForm (hne : ∀ l, Pr.poseidon l ≠ 0) : A.OutputForm where
  nullifiers_distinct := by
    have h := A.integrity.noDuplicates.1
    rw [← A.nullifiers_eq] at h
    exact h
  commitments_distinct := by
    have h := A.integrity.noDuplicates.2
    rw [← A.commitments_eq] at h
    exact h
  first_nullifier := ⟨congrFun A.nullifiers_eq 0, A.integrity.opens.opens_first.root_eq⟩
  commitment_zero i hi h := by rw [commitments_of_ne_zero hi, newCommitment, if_pos h]
  commitment_ne_zero i hi h := by rw [commitments_of_ne_zero hi, newCommitment, if_neg h]
  first_commitment := first_commitment_eq_zero_iff hne
  withdraw_recipient := A.integrity.withdraw_iff
  withdraw_data haddr := by
    obtain ⟨k, hk⟩ := A.publicData_eq
    refine ⟨A.integrity.withdrawAddress_lt, ?_⟩
    rw [hk, Operation.publicData, if_neg haddr, withdrawData]

/-- **Value conservation and output form** of every satisfying assignment whose inputs are below
`2 ^ 96`. -/
theorem conserves_and_outputForm (hne : ∀ l, Pr.poseidon l ≠ 0)
    (h : ∀ i, (A.operation.privateInputs.nullifiersValues i).val < 2 ^ 96) :
    A.Conserves ∧ A.OutputForm :=
  ⟨conserves_of_lt h, outputForm hne⟩

theorem conserves_and_outputForm_sample : ∃ A : TransferAssignment samplePrimitives,
    A.operation = sampleOperation 77 ∧ A.Conserves ∧ A.OutputForm := by
  obtain ⟨A, hA⟩ := exists_transferAssignment sampleOperation_integrity
  refine ⟨A, hA, conserves_and_outputForm samplePrimitives_ne_zero ?_⟩
  rw [hA]
  decide +kernel

end TransferAssignment

end Client

end Nightfall
