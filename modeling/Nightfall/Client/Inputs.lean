import Nightfall.Field.Bn254
import Nightfall.Evm.Word
import Nightfall.Plonk.MembershipProof
import Mathlib.Data.List.OfFn

/-!
# Inputs of the transfer/withdraw circuit

`PublicInputs` and `PrivateInputs` are what the client's prover is given, `PrivateInputsVar` the
variables made of the private inputs.  An assignment gives the variables values, which need not
be the ones that the private inputs suggested: `PrivateInputsVar.eval`.

* `fromPrivateInputs` : the variables of given private inputs;
* `fromPrivateInputs_ensures` : nothing constrains them but the directions of the Merkle paths,
  which are bits; an honest prover's values are those of the private inputs.
-/

namespace Nightfall

namespace Client

open Plonk Merkle

/-- The primitives of the circuit that the repository takes from its cryptographic libraries. -/
structure Primitives where
  /-- The Poseidon hash. -/
  poseidon : List Fr254 → Fr254
  /-- Multiplication of a scalar and a point of BabyJubjub. -/
  scalarMul : Fr254 → Point Fr254 → Point Fr254
  /-- The generator of the prime order subgroup of BabyJubjub. -/
  generator : Point Fr254
  /-- The Keccak hash. -/
  keccak256 : Evm.Bytes → Evm.U256

/-- The fee token id of a contract: `keccak256(abi.encode(nf_address, 0)) >> 4`. -/
def feeTokenIdOf (keccak256 : Evm.Bytes → Evm.U256) (nfAddress : BitVec 160) : Evm.U256 :=
  keccak256 (Evm.abiEncode [nfAddress.zeroExtend 256, 0]) >>> 4

/-- The order of the prime order subgroup of BabyJubjub. -/
def bjjOrder : ℕ := 2736030358979909402780800718157159386076813972158567259200215660948447373041

/-- Scalars of BabyJubjub. -/
abbrev BJJScalar := ZMod bjjOrder

/-- The public inputs of a transfer or withdraw, as field elements or as variables. -/
structure PublicInputs (V : Type) where
  fee : V
  roots : Fin 4 → V
  commitments : Fin 4 → V
  nullifiers : Fin 4 → V
  compressedSecrets : Fin 5 → V

namespace PublicInputs

variable {V W : Type}

/-- The public inputs in the order of the circuit. -/
def toList (x : PublicInputs V) : List V :=
  [x.fee] ++ List.ofFn x.roots ++ List.ofFn x.commitments ++ List.ofFn x.nullifiers ++
    List.ofFn x.compressedSecrets

/-- Apply `f` to every public input. -/
def map (f : V → W) (x : PublicInputs V) : PublicInputs W :=
  ⟨f x.fee, f ∘ x.roots, f ∘ x.commitments, f ∘ x.nullifiers, f ∘ x.compressedSecrets⟩

theorem toList_map (f : V → W) (x : PublicInputs V) : (x.map f).toList = x.toList.map f := by
  simp only [toList, map, List.map_append, List.map_ofFn, List.map_cons, List.map_nil]

@[simp] theorem length_toList (x : PublicInputs V) : x.toList.length = 18 := by
  simp [toList]

end PublicInputs

/-- The private inputs, with values of type `V` and membership proofs of type `M`. -/
structure PrivateWitness (V M : Type) where
  /-- Token id for the fee. -/
  feeTokenId : V
  /-- Address of the Nightfall contract. -/
  nfAddress : V
  /-- Value of the transfer or withdraw. -/
  value : V
  nfTokenId : V
  nfSlotId : V
  nullifiersValues : Fin 4 → V
  nullifiersSalts : Fin 4 → V
  membershipProofs : Fin 4 → M
  /-- The values of any change: of the token, then of the fee. -/
  commitmentsValues : Fin 2 → V
  commitmentsSalts : Fin 3 → V
  /-- The owners of the commitments that are nullified. -/
  publicKeys : Fin 4 → Point V
  recipientPublicKey : Point V
  nullifierKey : V
  zkpPrivateKey : V
  ephemeralKey : V
  /-- The address to withdraw to, 0 in a transfer. -/
  withdrawAddress : V
  /-- The preimages of the salts of deposited commitments. -/
  secretPreimages : Fin 4 → Fin 3 → V

/-- The variables of the private inputs. -/
abbrev PrivateInputsVar := PrivateWitness Variable MembershipProofVar

/-- Values of the variables. -/
abbrev PrivateValues := PrivateWitness Fr254 (MembershipProof Fr254 (PathElement Fr254))

/-- The private inputs of the client's prover. -/
structure PrivateInputs where
  feeTokenId : Fr254
  nfAddress : BitVec 160
  value : Fr254
  nfTokenId : Fr254
  nfSlotId : Fr254
  nullifiersValues : Fin 4 → Fr254
  nullifiersSalts : Fin 4 → Fr254
  membershipProofs : Fin 4 → MembershipProof Fr254 (PathElement Fr254)
  commitmentsValues : Fin 2 → Fr254
  commitmentsSalts : Fin 3 → Fr254
  publicKeys : Fin 4 → Point Fr254
  recipientPublicKey : Point Fr254
  nullifierKey : Fr254
  zkpPrivateKey : BJJScalar
  ephemeralKey : Fr254
  withdrawAddress : Fr254
  secretPreimages : Fin 4 → Fin 3 → Fr254

/-- The values that the private inputs suggest for the variables. -/
def PrivateInputs.values (x : PrivateInputs) : PrivateValues where
  feeTokenId := x.feeTokenId
  nfAddress := (x.nfAddress.toNat : Fr254)
  value := x.value
  nfTokenId := x.nfTokenId
  nfSlotId := x.nfSlotId
  nullifiersValues := x.nullifiersValues
  nullifiersSalts := x.nullifiersSalts
  membershipProofs := x.membershipProofs
  commitmentsValues := x.commitmentsValues
  commitmentsSalts := x.commitmentsSalts
  publicKeys := x.publicKeys
  recipientPublicKey := x.recipientPublicKey
  nullifierKey := x.nullifierKey
  zkpPrivateKey := (x.zkpPrivateKey.val : Fr254)
  ephemeralKey := x.ephemeralKey
  withdrawAddress := x.withdrawAddress
  secretPreimages := x.secretPreimages

/-- The values that an assignment gives to the variables. -/
def PrivateInputsVar.eval (w : Variable → Fr254) (x : PrivateInputsVar) : PrivateValues where
  feeTokenId := w x.feeTokenId
  nfAddress := w x.nfAddress
  value := w x.value
  nfTokenId := w x.nfTokenId
  nfSlotId := w x.nfSlotId
  nullifiersValues i := w (x.nullifiersValues i)
  nullifiersSalts i := w (x.nullifiersSalts i)
  membershipProofs i := MembershipProofVar.eval w (x.membershipProofs i)
  commitmentsValues i := w (x.commitmentsValues i)
  commitmentsSalts i := w (x.commitmentsSalts i)
  publicKeys i := (x.publicKeys i).map w
  recipientPublicKey := x.recipientPublicKey.map w
  nullifierKey := w x.nullifierKey
  zkpPrivateKey := w x.zkpPrivateKey
  ephemeralKey := w x.ephemeralKey
  withdrawAddress := w x.withdrawAddress
  secretPreimages i j := w (x.secretPreimages i j)

/-- `PrivateInputsVar::from_private_inputs`. -/
def fromPrivateInputs (x : PrivateInputs) : CircuitM Fr254 PrivateInputsVar := do
  let feeTokenId ← createVariable x.feeTokenId
  let nfAddress ← createVariable (x.nfAddress.toNat : Fr254)
  let value ← createVariable x.value
  let nfTokenId ← createVariable x.nfTokenId
  let nfSlotId ← createVariable x.nfSlotId
  let nullifiersValues ← forArray 4 fun i => createVariable (x.nullifiersValues i)
  let nullifiersSalts ← forArray 4 fun i => createVariable (x.nullifiersSalts i)
  let membershipProofs ← forArray 4 fun i => fromMembershipProof (x.membershipProofs i)
  let commitmentsValues ← forArray 2 fun i => createVariable (x.commitmentsValues i)
  let commitmentsSalts ← forArray 3 fun i => createVariable (x.commitmentsSalts i)
  let publicKeys ← forArray 4 fun i => createPointVariable (x.publicKeys i)
  let recipientPublicKey ← createPointVariable x.recipientPublicKey
  let nullifierKey ← createVariable x.nullifierKey
  let zkpPrivateKey ← createVariable (x.zkpPrivateKey.val : Fr254)
  let ephemeralKey ← createVariable x.ephemeralKey
  let withdrawAddress ← createVariable x.withdrawAddress
  let secretPreimages ← forArray 4 fun i => forArray 3 fun j =>
    createVariable (x.secretPreimages i j)
  return { feeTokenId, nfAddress, value, nfTokenId, nfSlotId, nullifiersValues, nullifiersSalts,
           membershipProofs, commitmentsValues, commitmentsSalts, publicKeys, recipientPublicKey,
           nullifierKey, zkpPrivateKey, ephemeralKey, withdrawAddress, secretPreimages }

variable {P : Prover} {w : Variable → Fr254}

theorem createArray_ensures {n : ℕ} (x : Fin n → Fr254) :
    Ensures P w (forArray n fun i => createVariable (x i)) fun v =>
      P = .honest → (fun i => w (v i)) = x :=
  (Ensures.forArray fun i => createVariable_ensures (x i)).mono fun _ h hP =>
    funext fun i => h i hP

theorem fromPrivateInputs_ensures (x : PrivateInputs) :
    Ensures P w (fromPrivateInputs x) fun v =>
      (P = .honest → PrivateInputsVar.eval w v = x.values) ∧
        ∀ i, (v.membershipProofs i).siblingPath.length =
          (x.membershipProofs i).siblingPath.length := by
  unfold fromPrivateInputs
  refine (createVariable_ensures _).bind fun feeTokenId h₁ => ?_
  refine (createVariable_ensures _).bind fun nfAddress h₂ => ?_
  refine (createVariable_ensures _).bind fun value h₃ => ?_
  refine (createVariable_ensures _).bind fun nfTokenId h₄ => ?_
  refine (createVariable_ensures _).bind fun nfSlotId h₅ => ?_
  refine (createArray_ensures _).bind fun nullifiersValues h₆ => ?_
  refine (createArray_ensures _).bind fun nullifiersSalts h₇ => ?_
  refine (Ensures.forArray fun i => fromMembershipProof_ensures _).bind
    fun membershipProofs h₈ => ?_
  refine (createArray_ensures _).bind fun commitmentsValues h₉ => ?_
  refine (createArray_ensures _).bind fun commitmentsSalts h₁₀ => ?_
  refine (Ensures.forArray fun i => createPointVariable_ensures _).bind fun publicKeys h₁₁ => ?_
  refine (createPointVariable_ensures _).bind fun recipientPublicKey h₁₂ => ?_
  refine (createVariable_ensures _).bind fun nullifierKey h₁₃ => ?_
  refine (createVariable_ensures _).bind fun zkpPrivateKey h₁₄ => ?_
  refine (createVariable_ensures _).bind fun ephemeralKey h₁₅ => ?_
  refine (createVariable_ensures _).bind fun withdrawAddress h₁₆ => ?_
  refine (Ensures.forArray fun i => createArray_ensures _).bind fun secretPreimages h₁₇ => ?_
  refine .pure ⟨fun hP => ?_, fun i => (h₈ i).2⟩
  have hproofs : (fun i => MembershipProofVar.eval w (membershipProofs i)) = x.membershipProofs :=
    funext fun i => (h₈ i).1 hP
  have hkeys : (fun i => (publicKeys i).map w) = x.publicKeys := funext fun i => h₁₁ i hP
  have hsecrets : (fun i j => w (secretPreimages i j)) = x.secretPreimages :=
    funext fun i => h₁₇ i hP
  simp only [PrivateInputsVar.eval, PrivateInputs.values, h₁ hP, h₂ hP, h₃ hP, h₄ hP, h₅ hP,
    h₆ hP, h₇ hP, hproofs, h₉ hP, h₁₀ hP, hkeys, h₁₂ hP, h₁₃ hP, h₁₄ hP, h₁₅ hP, h₁₆ hP, hsecrets]

/-! ### Success -/

/-- The variables are below `n`. -/
structure PrivateInputsVar.Below (x : PrivateInputsVar) (n : ℕ) : Prop where
  feeTokenId : x.feeTokenId.Below n
  nfAddress : x.nfAddress.Below n
  value : x.value.Below n
  nfTokenId : x.nfTokenId.Below n
  nfSlotId : x.nfSlotId.Below n
  nullifiersValues : ∀ i, (x.nullifiersValues i).Below n
  nullifiersSalts : ∀ i, (x.nullifiersSalts i).Below n
  membershipProofs : ∀ i, (x.membershipProofs i).Below n
  commitmentsValues : ∀ i, (x.commitmentsValues i).Below n
  commitmentsSalts : ∀ i, (x.commitmentsSalts i).Below n
  publicKeys : ∀ i, (x.publicKeys i).Below n
  recipientPublicKey : x.recipientPublicKey.Below n
  nullifierKey : x.nullifierKey.Below n
  zkpPrivateKey : x.zkpPrivateKey.Below n
  ephemeralKey : x.ephemeralKey.Below n
  withdrawAddress : x.withdrawAddress.Below n
  secretPreimages : ∀ i j, (x.secretPreimages i j).Below n

theorem PrivateInputsVar.Below.mono {x : PrivateInputsVar} {n m : ℕ} (h : x.Below n)
    (hnm : n ≤ m) : x.Below m where
  feeTokenId := h.feeTokenId.mono hnm
  nfAddress := h.nfAddress.mono hnm
  value := h.value.mono hnm
  nfTokenId := h.nfTokenId.mono hnm
  nfSlotId := h.nfSlotId.mono hnm
  nullifiersValues i := (h.nullifiersValues i).mono hnm
  nullifiersSalts i := (h.nullifiersSalts i).mono hnm
  membershipProofs i := (h.membershipProofs i).mono hnm
  commitmentsValues i := (h.commitmentsValues i).mono hnm
  commitmentsSalts i := (h.commitmentsSalts i).mono hnm
  publicKeys i := (h.publicKeys i).mono hnm
  recipientPublicKey := h.recipientPublicKey.mono hnm
  nullifierKey := h.nullifierKey.mono hnm
  zkpPrivateKey := h.zkpPrivateKey.mono hnm
  ephemeralKey := h.ephemeralKey.mono hnm
  withdrawAddress := h.withdrawAddress.mono hnm
  secretPreimages i j := (h.secretPreimages i j).mono hnm

theorem createArray_succeeds {m n : ℕ} (x : Fin m → Fr254) :
    Succeeds n (forArray m fun i => createVariable (x i)) fun k v => ∀ i, (v i).Below k :=
  .forArray (fun _ _ _ h hmk => h.mono hmk) fun i _ _ => .createVariable (x i)

theorem fromPrivateInputs_succeeds {n : ℕ} (x : PrivateInputs) :
    Succeeds n (fromPrivateInputs x) fun m v => v.Below m := by
  unfold fromPrivateInputs
  refine (Succeeds.createVariable _).bind fun m₁ feeTokenId l₁ h₁ => ?_
  refine (Succeeds.createVariable _).bind fun m₂ nfAddress l₂ h₂ => ?_
  refine (Succeeds.createVariable _).bind fun m₃ value l₃ h₃ => ?_
  refine (Succeeds.createVariable _).bind fun m₄ nfTokenId l₄ h₄ => ?_
  refine (Succeeds.createVariable _).bind fun m₅ nfSlotId l₅ h₅ => ?_
  refine (createArray_succeeds _).bind fun m₆ nullifiersValues l₆ h₆ => ?_
  refine (createArray_succeeds _).bind fun m₇ nullifiersSalts l₇ h₇ => ?_
  refine (Succeeds.forArray (S := fun n p => MembershipProofVar.Below p n)
    (fun _ _ _ h hmk => h.mono hmk) fun i _ _ => .fromMembershipProof _).bind
      fun m₈ membershipProofs l₈ h₈ => ?_
  refine (createArray_succeeds _).bind fun m₉ commitmentsValues l₉ h₉ => ?_
  refine (createArray_succeeds _).bind fun m₁₀ commitmentsSalts l₁₀ h₁₀ => ?_
  refine (Succeeds.forArray (S := fun n R => Point.Below R n) (fun _ _ _ h hmk => h.mono hmk)
    fun i _ _ => .createPointVariable _).bind fun m₁₁ publicKeys l₁₁ h₁₁ => ?_
  refine (Succeeds.createPointVariable _).bind fun m₁₂ recipientPublicKey l₁₂ h₁₂ => ?_
  refine (Succeeds.createVariable _).bind fun m₁₃ nullifierKey l₁₃ h₁₃ => ?_
  refine (Succeeds.createVariable _).bind fun m₁₄ zkpPrivateKey l₁₄ h₁₄ => ?_
  refine (Succeeds.createVariable _).bind fun m₁₅ ephemeralKey l₁₅ h₁₅ => ?_
  refine (Succeeds.createVariable _).bind fun m₁₆ withdrawAddress l₁₆ h₁₆ => ?_
  refine (Succeeds.forArray (S := fun n v => ∀ i : Fin 3, (v i).Below n)
    (fun _ _ _ h hmk i => (h i).mono hmk) fun i _ _ => createArray_succeeds _).bind
      fun m₁₇ secretPreimages l₁₇ h₁₇ => ?_
  refine .pure fun m l₁₈ => ?_
  constructor
  case feeTokenId => exact h₁.mono (by omega)
  case nfAddress => exact h₂.mono (by omega)
  case value => exact h₃.mono (by omega)
  case nfTokenId => exact h₄.mono (by omega)
  case nfSlotId => exact h₅.mono (by omega)
  case nullifiersValues => exact fun i => (h₆ i).mono (by omega)
  case nullifiersSalts => exact fun i => (h₇ i).mono (by omega)
  case membershipProofs => exact fun i => (h₈ i).mono (by omega)
  case commitmentsValues => exact fun i => (h₉ i).mono (by omega)
  case commitmentsSalts => exact fun i => (h₁₀ i).mono (by omega)
  case publicKeys => exact fun i => (h₁₁ i).mono (by omega)
  case recipientPublicKey => exact h₁₂.mono (by omega)
  case nullifierKey => exact h₁₃.mono (by omega)
  case zkpPrivateKey => exact h₁₄.mono (by omega)
  case ephemeralKey => exact h₁₅.mono (by omega)
  case withdrawAddress => exact h₁₆.mono (by omega)
  case secretPreimages => exact fun i j => (h₁₇ i j).mono l₁₈

end Client

end Nightfall
