import Nightfall.Contract.BlockHash
import Nightfall.Field.Bn254
import Nightfall.Plonk.MembershipProof

/-!
# The rollup circuits

The checks that `RollupProver` adds to the circuits of the recursion.  A base circuit checks the
membership proofs and the tree insertions that the proposer provides for four transactions, and
hashes their public inputs; merge circuits over the two fields join the results of two circuits,
and the decider circuit those of the last two.

What a circuit reads with `witness` and writes into new variables is not tied to the variables that
it was read from.  The new variables are returned with the result here (`BaseChecks`,
`BaseExtraChecks`, `DeciderChecks`), so that one can speak of their values.
-/

namespace Nightfall

namespace Rollup

open Plonk Evm Contract

open Merkle (PathElement)

/-! ### Hashes of field elements -/

/-- The 32 bytes of a field element, as a word. -/
def toWord {n : ℕ} (x : ZMod n) : U256 := BitVec.ofNat 256 x.val

/-- The word with its top bit set to the given bit. -/
def setTopBit (bit : Bool) (x : U256) : U256 := if bit then x ||| BitVec.twoPow 256 255 else x

/-- The words with the top bit of the last one set. -/
def setLastBit (bit : Bool) (xs : List U256) : List U256 :=
  xs.dropLast ++ (xs.getLast?.map (setTopBit bit)).toList

section

variable (sha256 : Bytes → U256)

/-- The shifted hash of words as a field element. -/
def shiftedSha256 (xs : List U256) : Fr254 := (sha256AndShift sha256 (abiEncode xs)).toNat

/-- `full_shifted_sha256_hash`. -/
def fullShiftedSha256Hash (ins : List Variable) : CircuitM Fr254 Variable :=
  applyGate ins fun xs => shiftedSha256 sha256 (xs.map toWord)

/-- `full_shifted_sha256_hash_with_bit`. -/
def fullShiftedSha256HashWithBit (ins : List Variable) (bit : BoolVar) : CircuitM Fr254 Variable :=
  applyGate (bit.var :: ins) fun
    | b :: xs => shiftedSha256 sha256 (setLastBit (decide (b = 1)) (xs.map toWord))
    | [] => 0

/-! ### The base circuits -/

/-- `base_grumpkin_checks`. -/
def baseGrumpkinChecks (specificPis : Fin 2 → Fin 18 → Variable) :
    CircuitM Fq254 (Fin 36 → Variable) :=
  return Fin.append (specificPis 0) (specificPis 1)

/-- The public inputs of four transactions. -/
def piSlices (specificPis : Fin 2 → Fin 36 → Variable) : Fin 4 → Fin 18 → Variable :=
  ![fun i => specificPis 0 (i.castAdd 18), fun i => specificPis 0 (i.natAdd 18),
    fun i => specificPis 1 (i.castAdd 18), fun i => specificPis 1 (i.natAdd 18)]

/-- The words of a transaction that are hashed. -/
def fieldVars (piSlice : Fin 18 → Variable) : List Variable :=
  [piSlice 5, piSlice 6, piSlice 7, piSlice 8, piSlice 9, piSlice 10, piSlice 11, piSlice 12,
    piSlice 13, piSlice 14, piSlice 15, piSlice 16]

/-- The hash of a transaction, and the bit that goes into it. -/
def transactionHash (piSlice : Fin 18 → Variable) : CircuitM Fr254 (BoolVar × Variable) := do
  let piSlice17 ← witness (piSlice 17)
  let bitVar ← createBooleanVariable (decide (piSlice17 = 1))
  let sha256Var ← fullShiftedSha256HashWithBit sha256 (fieldVars piSlice) bitVar
  return (bitVar, sha256Var)

/-- What `base_bn254_checks` creates and returns. -/
structure BaseChecks where
  bits : Fin 4 → BoolVar
  /-- The fee sum and the hash. -/
  returned : Fin 2 → Variable

/-- `base_bn254_checks`. -/
def baseBn254Checks (specificPis : Fin 2 → Fin 36 → Variable) : CircuitM Fr254 BaseChecks := do
  let feeSum ← (List.ofFn (piSlices specificPis)).foldlM (fun acc slice => add acc (slice 0)) zero
  let shaVars ← forArray 4 fun i => transactionHash sha256 (piSlices specificPis i)
  let first ← fullShiftedSha256Hash sha256 [(shaVars 0).2, (shaVars 1).2]
  let second ← fullShiftedSha256Hash sha256 [(shaVars 2).2, (shaVars 3).2]
  let finalShaVar ← fullShiftedSha256Hash sha256 [first, second]
  return ⟨fun i => (shaVars i).1, ![feeSum, finalShaVar]⟩

/-! ### The merge circuits -/

/-- `bn254_merge_circuit_checks`. -/
def bn254MergeCircuitChecks (specificPis : Fin 2 → Fin 7 → Variable) :
    CircuitM Fr254 (Fin 6 → Variable) := do
  enforceEqual (specificPis 0 1) (specificPis 1 0)
  enforceEqual (specificPis 0 3) (specificPis 1 2)
  let feeSum ← add (specificPis 0 4) (specificPis 1 4)
  let shaLeft ← fullShiftedSha256Hash sha256 [specificPis 0 5, specificPis 0 6]
  let shaRight ← fullShiftedSha256Hash sha256 [specificPis 1 5, specificPis 1 6]
  let finalSha ← fullShiftedSha256Hash sha256 [shaLeft, shaRight]
  return ![specificPis 0 0, specificPis 1 1, specificPis 0 2, specificPis 1 3, feeSum, finalSha]

end

/-- `grumpkin_merge_circuit_checks`. -/
def grumpkinMergeCircuitChecks (specificPis : Fin 2 → Fin 6 → Variable) :
    CircuitM Fq254 (Fin 7 → Variable) := do
  enforceEqual (specificPis 0 1) (specificPis 1 0)
  enforceEqual (specificPis 0 3) (specificPis 1 2)
  let feeSum ← add (specificPis 0 4) (specificPis 1 4)
  return ![specificPis 0 0, specificPis 1 1, specificPis 0 2, specificPis 1 3, feeSum,
    specificPis 0 5, specificPis 1 5]

/-! ### The trees -/

/-- The variables of an insertion of a subtree. -/
structure InsertionVar where
  oldRoot : Variable
  newRoot : Variable
  /-- The path from the subtree to the roots. -/
  siblingPath : List PathElementVar
  /-- The leaves of the subtree. -/
  leaves : List Variable

/-- What the circuits use of the library of trees. -/
structure TreeLibrary where
  poseidon : List Fr254 → Fr254
  /-- `MembershipProof::try_from`. -/
  membershipProof : List Fr254 → Option (MembershipProof Fr254 (PathElement Fr254))
  /-- Make the variables of a `CircuitInsertionInfo` and verify the insertion. -/
  commitmentInsertion : List Fr254 → CircuitM Fr254 InsertionVar
  /-- Make the variables of an `IMTCircuitInsertionInfo` and verify the insertion. -/
  nullifierInsertion : List Fr254 → CircuitM Fr254 InsertionVar

/-- What the proposer provides for two transactions: variables, or their values. -/
structure ExtraPis (V : Type) where
  /-- The roots of the client proofs. -/
  leafRoots : Fin 8 → V
  /-- A membership proof for each of them. -/
  proofs : Fin 8 → List V
  /-- The root that the proof leads to. -/
  roots : Fin 8 → V
  commitmentInfo : List V
  nullifierInfo : List V

/-- The parts of a slice of public inputs, of which there are enough. -/
def ExtraPis.slice {V : Type} (z : V)
    (rootMProofLength commitmentInfoLength nullifierInfoLength : ℕ) (pi : List V) : ExtraPis V where
  leafRoots i := pi.getD i z
  proofs i := (pi.drop (8 + i * (rootMProofLength + 1))).take rootMProofLength
  roots i := pi.getD (8 + i * (rootMProofLength + 1) + rootMProofLength) z
  commitmentInfo := (pi.drop (8 * (rootMProofLength + 2))).take commitmentInfoLength
  nullifierInfo :=
    (pi.drop (8 * (rootMProofLength + 2) + commitmentInfoLength)).take nullifierInfoLength

/-- The parts of a slice of public inputs; an index out of its bounds is an error. -/
def ExtraPis.ofSlice (rootMProofLength commitmentInfoLength nullifierInfoLength : ℕ)
    (pi : List Variable) : Option (ExtraPis Variable) :=
  if 8 * (rootMProofLength + 2) + commitmentInfoLength ≤ pi.length then
    some (.slice zero rootMProofLength commitmentInfoLength nullifierInfoLength pi)
  else none

/-- The value, or the given error. -/
def orFail {α : Type} (msg : String) : Option α → CircuitM Fr254 α
  | some a => pure a
  | none => fail (.parameterError msg)

section

variable (sha256 : Bytes → U256) (lib : TreeLibrary)

/-- The variables of a membership proof with the values of the given ones. -/
def copyMembershipProof (vars : List Variable) : CircuitM Fr254 MembershipProofVar := do
  let fieldElems ← vars.mapM witness
  let membershipProof ← orFail "Could not convert to MembershipProof"
    (lib.membershipProof fieldElems)
  fromMembershipProof membershipProof

/-- The check of a root of a client proof. -/
def checkRoot (leafRoot : Variable) (proof : List Variable) (root : Variable) :
    CircuitM Fr254 MembershipProofVar := do
  let mProofVar ← copyMembershipProof lib proof
  let checkVar ← verifyMembershipProof lib.poseidon mProofVar leafRoot root
  enforceTrue checkVar.var
  return mProofVar

/-- What is created for two transactions. -/
structure HalfChecks where
  proofs : Fin 8 → MembershipProofVar
  commitments : InsertionVar
  nullifiers : InsertionVar

/-- The checks for two transactions. -/
def halfChecks (pi : ExtraPis Variable) : CircuitM Fr254 HalfChecks := do
  let proofs ← forArray 8 fun i => checkRoot lib (pi.leafRoots i) (pi.proofs i) (pi.roots i)
  let commInsertVec ← pi.commitmentInfo.mapM witness
  let commitments ← lib.commitmentInsertion commInsertVec
  let nullifierInsertVec ← pi.nullifierInfo.mapM witness
  let nullifiers ← lib.nullifierInsertion nullifierInsertVec
  return ⟨proofs, commitments, nullifiers⟩

/-- What `base_bn254_extra_checks` reads, creates and returns. -/
structure BaseExtraChecks where
  pis : Fin 2 → ExtraPis Variable
  halves : Fin 2 → HalfChecks
  /-- The roots of both trees before and after the insertions. -/
  returned : Fin 4 → Variable

/-- `base_bn254_extra_checks`. -/
def baseBn254ExtraChecks (specificPis : List Variable)
    (rootMProofLength commitmentInfoLength nullifierInfoLength : ℕ) :
    CircuitM Fr254 BaseExtraChecks := do
  let pis := specificPis.splitAt (specificPis.length / 2)
  let ofSlice := ExtraPis.ofSlice rootMProofLength commitmentInfoLength nullifierInfoLength
  let firstPis ← orFail "index out of bounds" (ofSlice pis.1)
  let secondPis ← orFail "index out of bounds" (ofSlice pis.2)
  let first ← halfChecks lib firstPis
  let second ← halfChecks lib secondPis
  enforceEqual second.commitments.oldRoot first.commitments.newRoot
  enforceEqual second.nullifiers.oldRoot first.nullifiers.newRoot
  checkCircuitSatisfiability []
  return ⟨![firstPis, secondPis], ![first, second],
    ![first.commitments.oldRoot, second.commitments.newRoot, first.nullifiers.oldRoot,
      second.nullifiers.newRoot]⟩

/-! ### The decider circuit -/

/-- What `decider_circuit_checks` creates and returns. -/
structure DeciderChecks where
  /-- The proof for the new leaf of the historic root tree. -/
  mProofVar : MembershipProofVar
  returned : Fin 8 → Variable

/-- `decider_circuit_checks`; `deciderPis` is `specific_pis[2]`. -/
def deciderCircuitChecks (specificPis : Fin 2 → Fin 7 → Variable) (deciderPis : List Variable)
    (rootMProofLength : ℕ) : CircuitM Fr254 DeciderChecks := do
  enforceEqual (specificPis 0 1) (specificPis 1 0)
  enforceEqual (specificPis 0 3) (specificPis 1 2)
  let feeSum ← add (specificPis 0 4) (specificPis 1 4)
  let shaLeft ← fullShiftedSha256Hash sha256 [specificPis 0 5, specificPis 0 6]
  let shaRight ← fullShiftedSha256Hash sha256 [specificPis 1 5, specificPis 1 6]
  let finalSha ← fullShiftedSha256Hash sha256 [shaLeft, shaRight]
  let oldRoot ← orFail "index out of bounds" deciderPis[rootMProofLength]?
  let mProofVar ← copyMembershipProof lib (deciderPis.take rootMProofLength)
  let newHistoricRoot ← calculateNewRoot lib.poseidon mProofVar (specificPis 1 1)
  let oldRootCalc ← calculateNewRoot lib.poseidon mProofVar zero
  enforceEqual oldRootCalc oldRoot
  return ⟨mProofVar, ![feeSum, finalSha, specificPis 0 0, specificPis 1 1, specificPis 0 2,
    specificPis 1 3, oldRoot, newHistoricRoot]⟩

end

end Rollup

end Nightfall
