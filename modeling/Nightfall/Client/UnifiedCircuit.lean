import Nightfall.Client.VerifyGadgets
import Nightfall.Client.Encryption
import Mathlib.Tactic.LinearCombination

/-!
# The transfer/withdraw circuit

`assessOperationIntegrity` builds the circuit.  What it enforces is stated on values: an
`Operation` is a choice of values for the inputs of the circuit, from which the commitments,
nullifiers and public data follow, and `Operation.Integrity` collects the conditions on them.

* `assessOperationIntegrity_ensures` : the values that a satisfying assignment gives to the
  inputs have integrity, and the public inputs are those that follow from them; conversely the
  circuit built for inputs with integrity is satisfied by the honest values;
* `TransferAssignment` : a satisfying assignment of the circuit, with the circuit.
-/

namespace Nightfall

namespace Client

open Plonk Merkle

/-! ### Operations -/

/-- Values of the inputs of the circuit. -/
structure Operation where
  fee : Fr254
  roots : Fin 4 → Fr254
  privateInputs : PrivateValues
  /-- The point that the circuit multiplies for the sender's public key.  It is a new variable
  of the circuit; an honest prover makes it the generator. -/
  pubPoint : Point Fr254

namespace Operation

variable (Pr : Primitives) (o : Operation)

/-- The public key that the circuit derives from the sender's private key. -/
def zkpPubKey : Point Fr254 := Pr.scalarMul o.privateInputs.zkpPrivateKey o.pubPoint

/-- The secret shared with the recipient. -/
def sharedSecret : Point Fr254 :=
  Pr.scalarMul o.privateInputs.ephemeralKey o.privateInputs.recipientPublicKey

/-- The token of the notes in slot `i`, spent or created. -/
def tokenId (i : Fin 4) : Fr254 :=
  if i < 2 then o.privateInputs.nfTokenId else o.privateInputs.feeTokenId

/-- The slot id of the notes in slot `i`, spent or created. -/
def slotId (i : Fin 4) : Fr254 :=
  if i < 2 then o.privateInputs.nfSlotId else o.privateInputs.feeTokenId

/-- The note that is spent in slot `i`. -/
def note (i : Fin 4) : Preimage Fr254 where
  nfTokenId := o.tokenId i
  nfSlotId := o.slotId i
  value := o.privateInputs.nullifiersValues i
  publicKey := o.privateInputs.publicKeys i
  salt := o.privateInputs.nullifiersSalts i

/-- The note that is created in slot `i`: for the recipient, the change of the token, the fee
and the change of the fee. -/
def newNote (i : Fin 4) : Preimage Fr254 where
  nfTokenId := o.tokenId i
  nfSlotId := o.slotId i
  value := ![o.privateInputs.value, o.privateInputs.commitmentsValues 0, o.fee,
    o.privateInputs.commitmentsValues 1] i
  publicKey := ![o.privateInputs.recipientPublicKey, o.zkpPubKey Pr,
    ⟨0, o.privateInputs.nfAddress⟩, o.zkpPubKey Pr] i
  salt := ![(o.sharedSecret Pr).y, o.privateInputs.commitmentsSalts 0,
    o.privateInputs.commitmentsSalts 1, o.privateInputs.commitmentsSalts 2] i

/-- The public commitments. -/
def commitments (i : Fin 4) : Fr254 :=
  if i = 0 then
    if o.privateInputs.withdrawAddress = 0 then (o.newNote Pr 0).hash Pr.poseidon else 0
  else newCommitment Pr.poseidon (o.newNote Pr i)

/-- The public nullifiers. -/
def nullifiers : Fin 4 → Fr254 :=
  slotNullifiers Pr.poseidon o.privateInputs.nullifierKey o.note

/-- The public data. -/
def publicData (k : KeyStream) : List Fr254 :=
  if o.privateInputs.withdrawAddress = 0 then
    transferData Pr k o.privateInputs.nfTokenId o.privateInputs.nfSlotId o.privateInputs.value
      (o.sharedSecret Pr) o.privateInputs.ephemeralKey
  else withdrawData o.privateInputs.nfTokenId o.privateInputs.withdrawAddress o.privateInputs.value

/-- The path from the note in slot `i` to the root. -/
def path (i : Fin 4) : List (PathElement Fr254) := (o.privateInputs.membershipProofs i).siblingPath

/-- The conditions on the inputs of a transfer or withdraw. -/
structure Integrity : Prop where
  withdrawAddress_lt : o.privateInputs.withdrawAddress.val < 2 ^ 160
  token_balance : o.privateInputs.value + o.privateInputs.commitmentsValues 0 =
    o.privateInputs.nullifiersValues 0 + o.privateInputs.nullifiersValues 1
  fee_balance : o.fee + o.privateInputs.commitmentsValues 1 =
    o.privateInputs.nullifiersValues 2 + o.privateInputs.nullifiersValues 3
  value_lt : o.privateInputs.value.val < 2 ^ 96
  fee_lt : o.fee.val < 2 ^ 96
  commitmentsValues_lt : ∀ i, (o.privateInputs.commitmentsValues i).val < 2 ^ 96
  opens : OpensSlots Pr.poseidon o.note o.path o.privateInputs.secretPreimages o.roots
  noDuplicates : NoDuplicates (o.nullifiers Pr) ∧ NoDuplicates (o.commitments Pr)
  withdraw_iff : o.privateInputs.withdrawAddress ≠ 0 ↔
    o.privateInputs.recipientPublicKey = Point.neutral

/-- `Integrity` without the names of the conditions. -/
theorem integrity_iff : o.Integrity Pr ↔
    o.privateInputs.withdrawAddress.val < 2 ^ 160 ∧
    o.privateInputs.value + o.privateInputs.commitmentsValues 0 =
      o.privateInputs.nullifiersValues 0 + o.privateInputs.nullifiersValues 1 ∧
    o.fee + o.privateInputs.commitmentsValues 1 =
      o.privateInputs.nullifiersValues 2 + o.privateInputs.nullifiersValues 3 ∧
    o.privateInputs.value.val < 2 ^ 96 ∧ o.fee.val < 2 ^ 96 ∧
    (∀ i, (o.privateInputs.commitmentsValues i).val < 2 ^ 96) ∧
    OpensSlots Pr.poseidon o.note o.path o.privateInputs.secretPreimages o.roots ∧
    (NoDuplicates (o.nullifiers Pr) ∧ NoDuplicates (o.commitments Pr)) ∧
    (o.privateInputs.withdrawAddress ≠ 0 ↔
      o.privateInputs.recipientPublicKey = Point.neutral) :=
  ⟨fun ⟨h₁, h₂, h₃, h₄, h₅, h₆, h₇, h₈, h₉⟩ => ⟨h₁, h₂, h₃, h₄, h₅, h₆, h₇, h₈, h₉⟩,
    fun ⟨h₁, h₂, h₃, h₄, h₅, h₆, h₇, h₈, h₉⟩ => ⟨h₁, h₂, h₃, h₄, h₅, h₆, h₇, h₈, h₉⟩⟩

instance : Decidable (o.Integrity Pr) := decidable_of_iff' _ (o.integrity_iff Pr)

end Operation

/-! ### The circuit -/

/-- The variables of the circuit that its claims are about. -/
structure TransferWires where
  publicInputs : PublicInputs Variable
  privateInputs : PrivateInputsVar
  pubPoint : PointVariable

/-- The values that an assignment gives to the inputs. -/
def TransferWires.operation (w : Variable → Fr254) (x : TransferWires) : Operation where
  fee := w x.publicInputs.fee
  roots i := w (x.publicInputs.roots i)
  privateInputs := PrivateInputsVar.eval w x.privateInputs
  pubPoint := x.pubPoint.map w

/-- The private inputs with the fee token id computed from the address. -/
def withFeeTokenId (Pr : Primitives) (x : PrivateInputs) : PrivateInputs :=
  { x with feeTokenId := ((feeTokenIdOf Pr.keccak256 x.nfAddress).toNat : Fr254) }

/-- The part of `assess_operation_integrity` that lays down the constraints. -/
def operationCircuit (Pr : Primitives) (publicInputs : PublicInputs Fr254)
    (privateInputs : PrivateInputs) : CircuitM Fr254 TransferWires := do
  let fee ← createVariable publicInputs.fee
  let roots ← forArray 4 fun i => createVariable (publicInputs.roots i)
  let x ← fromPrivateInputs (withFeeTokenId Pr privateInputs)
  enforceInRange x.withdrawAddress 160
  lcGate [x.value, x.commitmentsValues 0, x.nullifiersValues 0, x.nullifiersValues 1, zero]
    [1, 1, -1, -1]
  lcGate [fee, x.commitmentsValues 1, x.nullifiersValues 2, x.nullifiersValues 3, zero]
    [1, 1, -1, -1]
  enforceInRange x.value 96
  enforceInRange fee 96
  enforceInRange (x.commitmentsValues 0) 96
  enforceInRange (x.commitmentsValues 1) 96
  let pubPoint ← createPointVariable Pr.generator
  let zkpPubKey ← variableBaseScalarMul Pr.scalarMul x.zkpPrivateKey pubPoint
  let sharedSecret ← variableBaseScalarMul Pr.scalarMul x.ephemeralKey x.recipientPublicKey
  let isTransfer ← isZero x.withdrawAddress
  let withdrawFlag ← logicNeg isTransfer
  let commitments ← verifyCommitments Pr.poseidon x.feeTokenId x.nfAddress x.nfTokenId x.nfSlotId
    x.value fee sharedSecret.y x.commitmentsValues ![x.recipientPublicKey, zkpPubKey]
    x.commitmentsSalts withdrawFlag
  let nullifiers ← verifyNullifiers Pr.poseidon x.feeTokenId x.nfTokenId x.nfSlotId x.nullifierKey
    x.publicKeys roots x.nullifiersValues x.nullifiersSalts x.membershipProofs x.secretPreimages
  verifyDuplicates nullifiers commitments
  let publicData ← verifyEncryption Pr x.nfTokenId x.nfSlotId x.value sharedSecret x.ephemeralKey
    x.withdrawAddress withdrawFlag
  let isNeutral ← isNeutralPoint x.recipientPublicKey
  -- a withdraw has the neutral point as its recipient, and only a withdraw does
  quadPolyGate [isNeutral.var, withdrawFlag.var, zero, zero, one] [-1, -1, 0, 0] [2, 0] 1 1
  let compressedSecrets ← toArray 5 "Could not convert public data to fixed length array" publicData
  return ⟨⟨fee, roots, commitments, nullifiers, compressedSecrets⟩, x, pubPoint⟩

/-- `assess_operation_integrity`: the completed public and private inputs, and the variables. -/
def assessOperationIntegrity (Pr : Primitives) (publicInputs : PublicInputs Fr254)
    (privateInputs : PrivateInputs) :
    CircuitM Fr254 (PublicInputs Fr254 × PrivateInputs × TransferWires) := do
  let x ← operationCircuit Pr publicInputs privateInputs
  let fee ← publish x.publicInputs.fee
  let roots ← forArray 4 fun i => publish (x.publicInputs.roots i)
  let commitments ← forArray 4 fun i => publish (x.publicInputs.commitments i)
  let nullifiers ← forArray 4 fun i => publish (x.publicInputs.nullifiers i)
  let compressedSecrets ← forArray 5 fun i => publish (x.publicInputs.compressedSecrets i)
  return (⟨fee, roots, commitments, nullifiers, compressedSecrets⟩,
    withFeeTokenId Pr privateInputs, x)

/-! ### What the circuit enforces -/

/-- The operation that the given inputs suggest. -/
def suggested (Pr : Primitives) (publicInputs : PublicInputs Fr254)
    (privateInputs : PrivateInputs) : Operation where
  fee := publicInputs.fee
  roots := publicInputs.roots
  privateInputs := (withFeeTokenId Pr privateInputs).values
  pubPoint := Pr.generator

/-- The public inputs that assignment `w` gives to the wires are those that follow from its
values for the inputs. -/
structure TransferWires.Computes (Pr : Primitives) (w : Variable → Fr254) (x : TransferWires)
    (k : KeyStream) : Prop where
  commitments : ∀ i, w (x.publicInputs.commitments i) = (x.operation w).commitments Pr i
  nullifiers : ∀ i, w (x.publicInputs.nullifiers i) = (x.operation w).nullifiers Pr i
  publicData : (List.ofFn x.publicInputs.compressedSecrets).map w = (x.operation w).publicData Pr k

variable {P : Prover} {w : Variable → Fr254}

theorem balance_iff {a b c d : Fr254} : 1 * a + 1 * b + -1 * c + -1 * d = 0 ↔ a + b = c + d := by
  constructor <;> intro h <;> linear_combination h

/-- The gate that ties the recipient to the withdraw flag. -/
theorem withdraw_gate_iff {p q : Prop} [Decidable p] [Decidable q] :
    (-1 * ofBool (decide p) + -1 * (1 - ofBool (decide q)) + 0 * 0 + 0 * 0 +
      2 * (ofBool (decide p) * (1 - ofBool (decide q))) + 0 * (0 * 0) + 1 : Fr254) = 1 * 1 ↔
      (¬q ↔ p) := by
  have h2 : (2 : Fr254) ≠ 0 := by decide +kernel
  by_cases hp : p <;> by_cases hq : q <;> simp [hp, hq]
  · ring_nf

/-- The new commitments are those of the operation, if the points are. -/
theorem verifyCommitments_operation (Pr : Primitives) {o : Operation} {fee : Variable}
    {x : PrivateInputsVar} {sharedSecret zkpPubKey : PointVariable} {withdrawFlag : BoolVar}
    (hfee : w fee = o.fee) (hx : PrivateInputsVar.eval w x = o.privateInputs)
    (hss : sharedSecret.map w = o.sharedSecret Pr) (hzkp : zkpPubKey.map w = o.zkpPubKey Pr)
    (hflag : w withdrawFlag.var = 0 ↔ o.privateInputs.withdrawAddress = 0) :
    Ensures P w (verifyCommitments Pr.poseidon x.feeTokenId x.nfAddress x.nfTokenId x.nfSlotId x.value
      fee sharedSecret.y x.commitmentsValues ![x.recipientPublicKey, zkpPubKey] x.commitmentsSalts
      withdrawFlag) fun commitments => ∀ i, w (commitments i) = o.commitments Pr i := by
  obtain ⟨ofee, roots, privateInputs, G⟩ := o
  dsimp only at hfee hx
  subst hfee hx
  refine (verifyCommitments_ensures _ _ _ _ _ _ _ _ _ _ _ _).mono fun commitments h i => ?_
  obtain ⟨hc₀, hc₁, hc₂, hc₃⟩ := h
  fin_cases i
  · refine hc₀.trans ?_
    simp only [hflag, ← Point.map_y w sharedSecret, hss]
    rfl
  · refine hc₁.trans ?_
    change newCommitment Pr.poseidon ⟨_, _, _, zkpPubKey.map w, _⟩ = _
    rw [hzkp]
    rfl
  · exact hc₂
  · refine hc₃.trans ?_
    change newCommitment Pr.poseidon ⟨_, _, _, zkpPubKey.map w, _⟩ = _
    rw [hzkp]
    rfl

/-- The withdraw flag of an operation. -/
theorem withdrawFlag_eq_zero_iff {a : Fr254} {flag : Fr254}
    (h : flag = 1 - ofBool (decide (a = 0))) : flag = 0 ↔ a = 0 := by
  rw [h]
  by_cases ha : a = 0 <;> simp [ha]

theorem operationCircuit_ensures (Pr : Primitives) (publicInputs : PublicInputs Fr254)
    (privateInputs : PrivateInputs)
    (h : P = .honest → (suggested Pr publicInputs privateInputs).Integrity Pr) :
    Ensures P w (operationCircuit Pr publicInputs privateInputs) fun x =>
      (x.operation w).Integrity Pr ∧ (∃ k, x.Computes Pr w k ∧ (P = .honest → k = honestStream)) ∧
        (P = .honest → x.operation w = suggested Pr publicInputs privateInputs) := by
  unfold operationCircuit
  refine Ensures.const fun h0 h1 => ?_
  have hz : w zero = 0 := h0
  have hone : w one = 1 := h1
  refine (createVariable_ensures _).bind fun fee hfee => ?_
  refine (createArray_ensures _).bind fun roots hroots => ?_
  refine (fromPrivateInputs_ensures _).bind fun x ⟨hx, _⟩ => ?_
  have hI : ∀ G, G = Pr.generator → P = .honest →
      (⟨w fee, fun i => w (roots i), PrivateInputsVar.eval w x, G⟩ : Operation).Integrity Pr := by
    rintro _ rfl hP
    rw [hfee hP, hroots hP, hx hP]
    exact h hP
  have hG := hI _ rfl
  refine (enforceInRange_ensures fun hP => (hG hP).withdrawAddress_lt).bind fun _ haddr => ?_
  refine (lcGate_ensures fun hP => ?_).bind fun _ htoken => ?_
  · rw [hz, balance_iff]
    exact (hG hP).token_balance
  refine (lcGate_ensures fun hP => ?_).bind fun _ hfees => ?_
  · rw [hz, balance_iff]
    exact (hG hP).fee_balance
  rw [hz, balance_iff] at htoken hfees
  refine (enforceInRange_ensures fun hP => (hG hP).value_lt).bind fun _ hvalue => ?_
  refine (enforceInRange_ensures fun hP => (hG hP).fee_lt).bind fun _ hfeelt => ?_
  refine (enforceInRange_ensures fun hP => (hG hP).commitmentsValues_lt 0).bind
    fun _ hchange₀ => ?_
  refine (enforceInRange_ensures fun hP => (hG hP).commitmentsValues_lt 1).bind
    fun _ hchange₁ => ?_
  refine (createPointVariable_ensures _).bind fun pubPoint hpub => ?_
  -- the operation that `w` chooses
  let o : Operation :=
    ⟨w fee, fun i => w (roots i), PrivateInputsVar.eval w x, pubPoint.map w⟩
  have ho : P = .honest → o.Integrity Pr := fun hP => hI _ (hpub hP) hP
  refine (variableBaseScalarMul_ensures _ _ _).bind fun zkpPubKey hzkp => ?_
  refine (variableBaseScalarMul_ensures _ _ _).bind fun sharedSecret hss => ?_
  refine (isZero_ensures _).bind fun isTransfer htransfer => ?_
  refine (logicNeg_ensures _).bind fun withdrawFlag hflag => ?_
  rw [htransfer] at hflag
  have hflag0 : w withdrawFlag.var = 0 ↔ o.privateInputs.withdrawAddress = 0 :=
    withdrawFlag_eq_zero_iff hflag
  have hss' : sharedSecret.map w = o.sharedSecret Pr := hss
  refine (@verifyCommitments_operation _ w Pr o _ _ _ _ _ rfl rfl hss hzkp hflag0).bind
    fun commitments hcomm => ?_
  refine (verifyNullifiers_ensures Pr.poseidon (show o.note = _ from rfl)
    (show o.path = _ from rfl) fun hP => (ho hP).opens).bind fun nullifiers ⟨hnull, hopens⟩ => ?_
  have hcomm' : w ∘ commitments = o.commitments Pr := funext hcomm
  have hnull' : w ∘ nullifiers = o.nullifiers Pr := funext hnull
  refine (verifyDuplicates_ensures fun hP => ?_).bind fun _ hdup => ?_
  · rw [hcomm', hnull']
    exact (ho hP).noDuplicates
  rw [hcomm', hnull'] at hdup
  refine (verifyEncryption_ensures Pr _ _ _ _ _ _ _).bind fun publicData ⟨k, hdata, hk⟩ => ?_
  refine (isNeutralPoint_ensures _).bind fun isNeutral hneutral => ?_
  refine (quadPolyGate_ensures fun hP => ?_).bind fun _ hwithdraw => ?_
  · rw [hz, hone, hneutral, hflag, withdraw_gate_iff]
    exact (ho hP).withdraw_iff
  rw [hz, hone, hneutral, hflag, withdraw_gate_iff] at hwithdraw
  refine toArray_ensures.bind fun compressedSecrets hsecrets => ?_
  refine .pure ⟨?_, ⟨k, ⟨hcomm, hnull, ?_⟩, hk⟩, fun hP => ?_⟩
  · exact ⟨haddr, htoken, hfees, hvalue, hfeelt, Fin.forall_fin_two.2 ⟨hchange₀, hchange₁⟩, hopens,
      ⟨hdup.1, hdup.2⟩, hwithdraw⟩
  · rw [hsecrets, hdata, hss']
    simp only [hflag0]
    rfl
  · simp only [TransferWires.operation, suggested, hfee hP, hroots hP, hx hP, hpub hP]

theorem assessOperationIntegrity_ensures (Pr : Primitives) (publicInputs : PublicInputs Fr254)
    (privateInputs : PrivateInputs)
    (h : P = .honest → (suggested Pr publicInputs privateInputs).Integrity Pr) :
    Ensures P w (assessOperationIntegrity Pr publicInputs privateInputs) fun r =>
      (r.2.2.operation w).Integrity Pr ∧
        (∃ k, r.2.2.Computes Pr w k ∧ (P = .honest → k = honestStream)) ∧
        (P = .honest → r.2.2.operation w = suggested Pr publicInputs privateInputs) := by
  unfold assessOperationIntegrity
  refine (operationCircuit_ensures Pr _ _ h).bind fun x hx => ?_
  refine (publish_ensures _).bind fun fee _ => ?_
  refine (Ensures.forArray fun i => publish_ensures _).bind fun roots _ => ?_
  refine (Ensures.forArray fun i => publish_ensures _).bind fun commitments _ => ?_
  refine (Ensures.forArray fun i => publish_ensures _).bind fun nullifiers _ => ?_
  refine (Ensures.forArray fun i => publish_ensures _).bind fun compressedSecrets _ => ?_
  exact .pure hx

/-! ### Success -/

/-- The public variables are below `n`. -/
structure PublicInputsBelow (x : PublicInputs Variable) (n : ℕ) : Prop where
  fee : x.fee.Below n
  roots : ∀ i, (x.roots i).Below n
  commitments : ∀ i, (x.commitments i).Below n
  nullifiers : ∀ i, (x.nullifiers i).Below n
  compressedSecrets : ∀ i, (x.compressedSecrets i).Below n

theorem operationCircuit_succeeds (Pr : Primitives) (publicInputs : PublicInputs Fr254)
    (privateInputs : PrivateInputs) :
    Succeeds 2 (operationCircuit Pr publicInputs privateInputs) fun m x =>
      PublicInputsBelow x.publicInputs m := by
  unfold operationCircuit
  refine (Succeeds.createVariable _).bind fun m₁ fee l₁ hfee => ?_
  refine (createArray_succeeds _).bind fun m₂ roots l₂ hroots => ?_
  refine (fromPrivateInputs_succeeds _).bind fun m₃ x l₃ hx => ?_
  have hz := zero_below (l₁.trans (l₂.trans l₃))
  have hone := one_below (l₁.trans (l₂.trans l₃))
  have haddr := hx.withdrawAddress
  have hvalue := hx.value
  have hc₀ := hx.commitmentsValues 0
  have hc₁ := hx.commitmentsValues 1
  have hn₀ := hx.nullifiersValues 0
  have hn₁ := hx.nullifiersValues 1
  have hn₂ := hx.nullifiersValues 2
  have hn₃ := hx.nullifiersValues 3
  refine (Succeeds.enforce (by grind)).bind fun m₄ _ l₄ _ => ?_
  refine (Succeeds.enforce (by grind)).bind fun m₅ _ l₅ _ => ?_
  refine (Succeeds.enforce (by grind)).bind fun m₆ _ l₆ _ => ?_
  refine (Succeeds.enforce (by grind)).bind fun m₇ _ l₇ _ => ?_
  refine (Succeeds.enforce (by grind)).bind fun m₈ _ l₈ _ => ?_
  refine (Succeeds.enforce (by grind)).bind fun m₉ _ l₉ _ => ?_
  refine (Succeeds.enforce (by grind)).bind fun m₁₀ _ l₁₀ _ => ?_
  refine (Succeeds.createPointVariable _).bind fun m₁₁ pubPoint l₁₁ hpub => ?_
  have hx' := hx.mono (show m₃ ≤ m₁₁ by omega)
  refine (Succeeds.variableBaseScalarMul hx'.zkpPrivateKey hpub).bind
    fun m₁₂ zkpPubKey l₁₂ hzkp => ?_
  refine (Succeeds.variableBaseScalarMul (hx'.ephemeralKey.mono l₁₂)
    (hx'.recipientPublicKey.mono l₁₂)).bind fun m₁₃ sharedSecret l₁₃ hss => ?_
  refine (Succeeds.applyBoolGate (by grind)).bind fun m₁₄ isTransfer l₁₄ htransfer => ?_
  refine (Succeeds.applyBoolGate (by grind)).bind fun m₁₅ withdrawFlag l₁₅ hflag => ?_
  have hx'' := hx'.mono (show m₁₁ ≤ m₁₅ by omega)
  have hss' : sharedSecret.Below m₁₅ := hss.mono (by omega)
  have hfee' : fee.Below m₁₅ := hfee.mono (by omega)
  refine (verifyCommitments_succeeds (by omega)
    (by simp [hx''.feeTokenId, hx''.nfAddress, hx''.nfTokenId, hx''.nfSlotId, hx''.value, hfee',
      hss'.2, hflag]) hx''.commitmentsValues
    (Fin.forall_fin_two.2 ⟨hx''.recipientPublicKey, hzkp.mono (by omega)⟩)
    hx''.commitmentsSalts).bind fun m₁₆ commitments l₁₆ hcomm => ?_
  have hx₃ := hx''.mono l₁₆
  refine (verifyNullifiers_succeeds (by omega)
    (by simp [hx₃.feeTokenId, hx₃.nfTokenId, hx₃.nfSlotId, hx₃.nullifierKey]) hx₃.publicKeys
    (fun i => (hroots i).mono (by omega)) hx₃.nullifiersValues hx₃.nullifiersSalts
    hx₃.membershipProofs hx₃.secretPreimages).bind fun m₁₇ nullifiers l₁₇ hnull => ?_
  refine (verifyDuplicates_succeeds (by omega) hnull fun i => (hcomm i).mono l₁₇).bind
    fun m₁₈ _ l₁₈ _ => ?_
  have hx₄ := hx₃.mono (show m₁₆ ≤ m₁₈ by omega)
  have hflag' : withdrawFlag.var.Below m₁₈ := hflag.mono (by omega)
  refine (verifyEncryption_succeeds (by omega)
    (by simp [hx₄.nfTokenId, hx₄.nfSlotId, hx₄.value, hx₄.ephemeralKey, hx₄.withdrawAddress,
      hflag']) (hss.mono (by omega))).bind fun m₁₉ publicData l₁₉ hdata => ?_
  have hrecipient := hx''.recipientPublicKey
  refine (Succeeds.applyBoolGate (by grind)).bind fun m₂₀ isNeutral l₂₀ hneutral => ?_
  refine (Succeeds.enforce (by grind)).bind fun m₂₁ _ l₂₁ _ => ?_
  refine (Succeeds.toArray hdata.1 fun v hv => (hdata.2 v hv).mono (by omega)).bind
    fun m₂₂ compressedSecrets l₂₂ hsecrets => ?_
  refine .pure fun m hm => ⟨hfee.mono (by omega), fun i => (hroots i).mono (by omega),
    fun i => (hcomm i).mono (by omega), fun i => (hnull i).mono (by omega),
    fun i => (hsecrets i).mono hm⟩

/-- **The circuit can be built for any inputs**, and its public variables are those of the public
inputs, in their order. -/
theorem assessOperationIntegrity_run (Pr : Primitives) (publicInputs : PublicInputs Fr254)
    (privateInputs : PrivateInputs) {c : PlonkCircuit Fr254} (hc : 2 ≤ c.numVars) :
    ∃ r c', (assessOperationIntegrity Pr publicInputs privateInputs).run c = .ok (r, c') ∧
      c'.publicInput = c.publicInput ++ r.2.2.publicInputs.toList := by
  obtain ⟨x, c₀, hrun, hpub, hbelow⟩ := operationCircuit_succeeds Pr publicInputs privateInputs c hc
  obtain ⟨fee, hfee⟩ := publish_run hbelow.fee
  obtain ⟨roots, c₂, hroots, hpub₂, hnum₂⟩ :=
    publishArray_run (c := c₀.pushPublic x.publicInputs.fee) (v := x.publicInputs.roots)
      hbelow.roots
  obtain ⟨commitments, c₃, hcomm, hpub₃, hnum₃⟩ :=
    publishArray_run (c := c₂) (v := x.publicInputs.commitments)
      fun i => (hbelow.commitments i).mono hnum₂.ge
  obtain ⟨nullifiers, c₄, hnull, hpub₄, hnum₄⟩ :=
    publishArray_run (c := c₃) (v := x.publicInputs.nullifiers)
      fun i => (hbelow.nullifiers i).mono (hnum₃.trans hnum₂).ge
  obtain ⟨secrets, c₅, hsecrets, hpub₅, -⟩ :=
    publishArray_run (c := c₄) (v := x.publicInputs.compressedSecrets)
      fun i => (hbelow.compressedSecrets i).mono (hnum₄.trans (hnum₃.trans hnum₂)).ge
  refine ⟨(⟨fee, roots, commitments, nullifiers, secrets⟩, withFeeTokenId Pr privateInputs, x),
    c₅, ?_, ?_⟩
  · simp only [assessOperationIntegrity, CircuitM.run_bind, hrun, hfee, hroots, hcomm, hnull,
      hsecrets]
    rfl
  · rw [hpub₅, hpub₄, hpub₃, hpub₂]
    simp only [PlonkCircuit.pushPublic, hpub, PublicInputs.toList, List.append_assoc]

end Client

end Nightfall
