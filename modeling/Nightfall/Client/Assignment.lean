import Nightfall.Client.UnifiedCircuit

/-!
# Satisfying assignments of the transfer/withdraw circuit

A `TransferAssignment` is the circuit that `assessOperationIntegrity` builds for some inputs,
with an assignment that satisfies it.  The inputs shape the circuit only through the lengths of
the Merkle paths; the assignment is unrelated to them.

* `TransferAssignment.integrity` : the operation that the assignment chooses has integrity;
* `TransferAssignment.publicInput_eq` : the values of the public variables;
* `exists_transferAssignment` : inputs with integrity have an assignment that chooses them.
-/

namespace Nightfall

namespace Client

open Plonk Merkle

/-- The circuit for some inputs and an assignment that satisfies it. -/
structure TransferAssignment (Pr : Primitives) where
  givenPublic : PublicInputs Fr254
  givenPrivate : PrivateInputs
  result : PublicInputs Fr254 × PrivateInputs × TransferWires
  circuit : PlonkCircuit Fr254
  /-- The circuit was built for the given inputs. -/
  run_eq : (assessOperationIntegrity Pr givenPublic givenPrivate).run (.newUltraPlonk Fr254) =
    .ok (result, circuit)
  assignment : Variable → Fr254
  /-- The assignment satisfies the circuit. -/
  satisfied : circuit.Satisfies assignment

namespace TransferAssignment

variable {Pr : Primitives} (A : TransferAssignment Pr)

/-- The operation that the assignment chooses. -/
def operation : Operation := A.result.2.2.operation A.assignment

/-- The values of the public inputs. -/
def publicValues : PublicInputs Fr254 := A.result.2.2.publicInputs.map A.assignment

/-- The commitment that slot `i` opens. -/
def openedCommitment (i : Fin 4) : Fr254 := (A.operation.note i).hash Pr.poseidon

/-- The nullifier that slot `i` outputs. -/
def nullifier (i : Fin 4) : Fr254 := A.publicValues.nullifiers i

theorem spec : A.operation.Integrity Pr ∧ ∃ k, A.result.2.2.Computes Pr A.assignment k := by
  have h := Ensures.sound (assessOperationIntegrity_ensures Pr A.givenPublic A.givenPrivate nofun)
    A.run_eq A.satisfied
  exact ⟨h.1, h.2.1.imp fun _ hk => hk.1⟩

theorem integrity : A.operation.Integrity Pr := A.spec.1

theorem commitments_eq : A.publicValues.commitments = A.operation.commitments Pr :=
  funext A.spec.2.choose_spec.commitments

theorem nullifiers_eq : A.publicValues.nullifiers = A.operation.nullifiers Pr :=
  funext A.spec.2.choose_spec.nullifiers

theorem publicData_eq :
    ∃ k, List.ofFn A.publicValues.compressedSecrets = A.operation.publicData Pr k := by
  obtain ⟨k, hk⟩ := A.spec.2
  exact ⟨k, (List.map_ofFn ..).symm.trans hk.publicData⟩

/-- The public variables of the circuit hold the public inputs. -/
theorem publicInput_eq : A.circuit.publicInput.map A.assignment = A.publicValues.toList := by
  obtain ⟨r, c', hrun, hpub⟩ := assessOperationIntegrity_run Pr A.givenPublic A.givenPrivate
    (c := .newUltraPlonk Fr254) le_rfl
  obtain ⟨rfl, rfl⟩ := Prod.mk.inj (Except.ok.inj (hrun.symm.trans A.run_eq))
  rw [hpub, publicValues, PublicInputs.toList_map]
  rfl

variable {A}

/-- A slot with a non-zero nullifier opens a commitment. -/
theorem opens_of_nullifier_ne_zero {i : Fin 4} (h : A.nullifier i ≠ 0) :
    A.nullifier i = (A.operation.note i).nullifier Pr.poseidon
        A.operation.privateInputs.nullifierKey ∧
      OpensNote Pr.poseidon (A.operation.note i) (A.operation.path i)
        (A.operation.privateInputs.secretPreimages i) (A.operation.roots i) := by
  have hnull : A.nullifier i = A.operation.nullifiers Pr i := congrFun A.nullifiers_eq i
  rw [hnull] at h ⊢
  by_cases hi : i = 0
  · subst hi
    exact ⟨rfl, A.integrity.opens.opens_first⟩
  · simp only [Operation.nullifiers, slotNullifiers, if_neg hi, openSlot] at h ⊢
    have hvalue : (A.operation.note i).value ≠ 0 := fun h0 => h (if_pos h0)
    exact ⟨if_neg hvalue, A.integrity.opens.opens_other i hi hvalue⟩

end TransferAssignment

/-- **Completeness**: inputs with integrity have an assignment that chooses them. -/
theorem exists_transferAssignment {Pr : Primitives} {publicInputs : PublicInputs Fr254}
    {privateInputs : PrivateInputs}
    (h : (suggested Pr publicInputs privateInputs).Integrity Pr) :
    ∃ A : TransferAssignment Pr, A.operation = suggested Pr publicInputs privateInputs := by
  obtain ⟨r, c, hrun, -⟩ := assessOperationIntegrity_run Pr publicInputs privateInputs
    (c := .newUltraPlonk Fr254) le_rfl
  have hagrees : (PlonkCircuit.newUltraPlonk Fr254).Agrees c.value :=
    c.agrees_value.of_le ((assessOperationIntegrity Pr publicInputs privateInputs).grows hrun)
  obtain ⟨hsat, hr⟩ := Ensures.complete hrun
    (assessOperationIntegrity_ensures Pr publicInputs privateInputs fun _ => h)
    (PlonkCircuit.newUltraPlonk_satisfies hagrees)
  exact ⟨⟨publicInputs, privateInputs, r, c, hrun, c.value, hsat⟩, hr.2.2 rfl⟩

/-! ### A sample transaction -/

/-- Primitives for samples. -/
def samplePrimitives : Primitives where
  poseidon l :=
    let v := l.foldl (fun a x => a * 1000003 + x + 1) (7 : Fr254)
    if v = 0 then 1 else v
  scalarMul k Q := if k = 0 then .neutral else ⟨k * Q.x, Q.y⟩
  generator := ⟨1, 0⟩
  keccak256 bs := bs.foldl (fun a b => a * 257 + b.zeroExtend 256) 1

theorem samplePrimitives_ne_zero (l : List Fr254) : samplePrimitives.poseidon l ≠ 0 := by
  simp only [samplePrimitives]
  split
  · exact one_ne_zero
  · assumption

/-- A transfer of 3 of a note of value 5, with fee 4 paid to the contract at `nfAddress`. -/
def samplePrivate (nfAddress : BitVec 160) : PrivateInputs where
  feeTokenId := 0
  nfAddress := nfAddress
  value := 3
  nfTokenId := 11
  nfSlotId := 11
  nullifiersValues := ![5, 0, 4, 0]
  nullifiersSalts := ![17, 0, 19, 0]
  membershipProofs _ := ⟨0, List.replicate 32 ⟨false, 0⟩⟩
  commitmentsValues := ![2, 0]
  commitmentsSalts := ![23, 29, 31]
  publicKeys _ := ⟨43, 0⟩
  recipientPublicKey := ⟨37, 41⟩
  nullifierKey := 53
  zkpPrivateKey := 43
  ephemeralKey := 47
  withdrawAddress := 0
  secretPreimages _ _ := 0

/-- A note for samples. -/
def sampleNote (owner : Point Fr254) : Preimage Fr254 := ⟨11, 11, 5, owner, 17⟩

/-- The path of the sample note. -/
def samplePath : List (PathElement Fr254) := List.replicate 32 ⟨false, 0⟩

/-- The roots that the paths of the sample lead to. -/
def sampleRoots (nfAddress : BitVec 160) (i : Fin 4) : Fr254 :=
  let values := (withFeeTokenId samplePrimitives (samplePrivate nfAddress)).values
  foldPath (nodeHash samplePrimitives.poseidon) (values.membershipProofs i).siblingPath
    ((Operation.note ⟨4, 0, values, .neutral⟩ i).hash samplePrimitives.poseidon)

/-- The sample transaction. -/
def sampleOperation (nfAddress : BitVec 160) : Operation :=
  suggested samplePrimitives ⟨4, sampleRoots nfAddress, 0, 0, 0⟩ (samplePrivate nfAddress)

theorem sampleOperation_integrity : (sampleOperation 77).Integrity samplePrimitives := by
  decide +kernel

end Client

end Nightfall
