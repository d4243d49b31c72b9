import Nightfall.Node.Selection

/-!
# The assembly of a block

A block is assembled in three steps.  Its transactions are taken out of the mempool, proofs are made
for its deposits, and its leaves are inserted into the trees for the rollup proof (`assembleBlock`).
A block that was assembled waits in a queue for its submission (`Assembler.submit`).

Each step can fail, and nothing that an earlier step did is undone: what was selected comes back only
if nothing was selected (`restored_iff`).
-/

namespace Nightfall

namespace Node

open Evm Trees Stateful
open Contract (Address)

/-! ### The prover -/

/-- The circuits that make the proofs of transactions. -/
inductive CircuitType
  | deposit
  | client
  deriving DecidableEq, Repr

/-- `RollupPreppedInfo`; `O` are the outputs of the proofs of transactions. -/
structure RollupPreppedInfo (O : Type) where
  outputsAndCircuitType : List (O × CircuitType)
  specificPi : List (List Fr254)
  extraInfo : List (List Fr254)
  extraDeciderInfo : List Fr254

/-- What the assembly uses of the proof systems, with the texts of their errors, and the conversions
of witnesses to field elements. -/
structure RollupEngine (P O : Type) where
  /-- `create_deposit_proof`, with the public inputs. -/
  createDepositProof : (Fin 4 → DepositData) → Except String (P × Client.PublicInputs Fr254)
  /-- `RecursiveOutput::try_from`. -/
  recursiveOutput : P → Except String O
  /-- `recursive_prove`. -/
  recursiveProve : RollupPreppedInfo O → Except String (List Fq254)
  membershipVec : MembershipProof Fr254 → List Fr254
  insertionVec : CircuitInsertionInfo Fr254 → List Fr254
  nullifierVec : IMTCircuitInsertionInfo Fr254 → List Fr254

/-- The calls on trees in the assembly of a block. -/
inductive AssemblyCall
  | currentHistoricRoot
  | commitments
  | nullifiers
  | newCommitmentRoot
  | rootProof
  | nullifierRoot
  | oldHistoricRoot
  | metadata
  | updatedHistoricRoot
  | historicRootProof
  deriving DecidableEq, Repr

/-- The text of an error of a tree. -/
def MerkleTreeError.text : MerkleTreeError → String
  | .treeIsFull => "The tree is full"
  | .incorrectBatchSize => "Incorrect batch size"
  | .noLeaves => "No leaves"
  -- the text of the database follows
  | .databaseError => "Database error "
  | .treeNotFound => "Tree not found"
  | .leafExists => "Leaf already exists"
  | .invalidProof => "Invalid proof"
  | .itemNotFound => "Item not found"
  | .invalidIndex => "Invalid index"
  | .serializationError => "Serialization error "
  | .error message => "Error " ++ message

/-- `BlockAssemblyError::from`, of a `RollupProofError` with the text of its cause. -/
def rollupProofError (cause : String) : BlockAssemblyError :=
  .provingError ("RollupProofError: " ++ cause)

/-- `RollupProofError::from`, of the error of a tree. -/
def rollupTreeError (e : MerkleTreeError) : BlockAssemblyError := rollupProofError (MerkleTreeError.text e)

/-! ### The state transition -/

/-- `get_membership_proof` of the tree of historic roots: the zero root is the first leaf. -/
def historicMembershipProof (root : Fr254) : TreeM Fr254 (MembershipProof Fr254) :=
  if root = 0 then getMembershipProof none (some 0) else getMembershipProof (some root) none

/-- The public inputs of the transactions of a block. -/
def blockPublicInputs {P : Type} (deposits : List (P × Client.PublicInputs Fr254))
    (txs : List (ClientTransactionWithMetaData P)) : List (Client.PublicInputs Fr254) :=
  deposits.map Prod.snd ++ txs.map fun tx => tx.clientTransaction.publicInputs

/-- The part of the extra information for two transactions. -/
def extraInfoHalf (lengths : List Fr254) (pi₀ pi₁ : Client.PublicInputs Fr254)
    (rootProof₀ rootProof₁ commitmentInfo nullifierInfo : List Fr254) : List Fr254 :=
  lengths ++ (List.ofFn pi₀.roots ++ List.ofFn pi₁.roots) ++ (rootProof₀ ++ rootProof₁) ++
    commitmentInfo ++ nullifierInfo

/-- The extra information for four transactions, if there are four. -/
def extraInfoChunk (rootProofLength : ℕ) :
    List (Client.PublicInputs Fr254) → List (List Fr254) → List (List Fr254) → List (List Fr254) →
      Option (List Fr254)
  | [pi₀, pi₁, pi₂, pi₃], [root₀, root₁, root₂, root₃], [commitment₀, commitment₁],
    [nullifier₀, nullifier₁] =>
    let lengths : List Fr254 :=
      [(rootProofLength : Fr254), (commitment₀.length : Fr254), (nullifier₀.length : Fr254)]
    some (extraInfoHalf lengths pi₀ pi₁ root₀ root₁ commitment₀ nullifier₀ ++
      extraInfoHalf lengths pi₂ pi₃ root₂ root₃ commitment₁ nullifier₁)
  | _, _, _, _ => none

/-- The extra information of a block. -/
def blockExtraInfo (rootProofLength : ℕ) (pis : List (Client.PublicInputs Fr254))
    (rootProofs commitmentInfo nullifierInfo : List (List Fr254)) : Option (List (List Fr254)) :=
  (((chunks 4 pis).zip (chunks 4 rootProofs)).zip
    ((chunks 2 commitmentInfo).zip (chunks 2 nullifierInfo))).mapM fun chunk =>
      extraInfoChunk rootProofLength chunk.1.1 chunk.1.2 chunk.2.1 chunk.2.2

section Assembly

variable {P O : Type} (engine : RollupEngine P O) (cfg : ProposerConfig P)
  (fault : AssemblyCall → Fault)

/-- The historic roots whose proofs are known, with their proofs, and the length of the last one. -/
abbrev RootProofs := List (Fr254 × List Fr254) × ℕ

/-- The proof of one historic root, from the ones that are known or from the tree. -/
def rootProof (currentRoot : Fr254) (known : RootProofs) (root : Fr254) :
    AssemblyM P (RootProofs × List Fr254) :=
  match known.1.lookup root with
  | some proof => pure (known, proof)
  | none => do
    let proof ← onHistoricRoots rollupTreeError
      (withFault (fault .rootProof) (historicMembershipProof root))
    let proofVec := engine.membershipVec proof
    let withRoot := proofVec ++ [currentRoot]
    pure (((root, withRoot) :: known.1, proofVec.length), withRoot)

/-- The proofs of the four historic roots of a transaction, one after the other. -/
def transactionRootProofs (currentRoot : Fr254) (known : RootProofs)
    (pi : Client.PublicInputs Fr254) : AssemblyM P (RootProofs × List Fr254) :=
  (List.ofFn pi.roots).foldlM (fun acc root => do
    let proof ← rootProof engine fault currentRoot acc.1 root
    pure (proof.1, acc.2 ++ proof.2)) (known, [])

/-- The proofs of the historic roots of all transactions. -/
def blockRootProofs (currentRoot : Fr254) (pis : List (Client.PublicInputs Fr254)) :
    AssemblyM P (RootProofs × List (List Fr254)) :=
  pis.foldlM (fun acc pi => do
    let proofs ← transactionRootProofs engine fault currentRoot acc.1 pi
    pure (proofs.1, acc.2 ++ [proofs.2])) (([], 0), [])

/-- The outputs of the proofs of the transactions. -/
def recursiveOutputs (deposits : List (P × Client.PublicInputs Fr254))
    (txs : List (ClientTransactionWithMetaData P)) : AssemblyM P (List (O × CircuitType)) := do
  let depositOutputs ← deposits.mapM fun deposit => do
    let output ← okOrElse rollupProofError (engine.recursiveOutput deposit.1)
    pure (output, CircuitType.deposit)
  let clientOutputs ← txs.mapM fun tx => do
    let output ← okOrElse rollupProofError (engine.recursiveOutput tx.clientTransaction.proof)
    pure (output, CircuitType.client)
  pure (depositOutputs ++ clientOutputs)

/-- `prepare_state_transition`: what is proved, and the new roots of the commitments, the nullifiers
and the historic roots. -/
def prepareStateTransition (deposits : List (P × Client.PublicInputs Fr254))
    (txs : List (ClientTransactionWithMetaData P)) :
    AssemblyM P (RollupPreppedInfo O × Fr254 × Fr254 × Fr254) := do
  let outputs ← recursiveOutputs engine deposits txs
  let pis := blockPublicInputs deposits txs
  let currentRoot ← onHistoricRoots rollupTreeError (withFault (fault .currentHistoricRoot) getRoot)
  let commitmentInfo ← onCommitments rollupTreeError (withFault (fault .commitments)
    (batchInsertWithCircuitInfo cfg.treeHash (pis.flatMap fun pi => List.ofFn pi.commitments)))
  let nullifierInfo ← onNullifiers rollupTreeError (withFault (fault .nullifiers)
    (batchInsertNullifiersWithCircuitInfo cfg.treeHash cfg.leafHash
      (pis.flatMap fun pi => List.ofFn pi.nullifiers)))
  let commitmentRoot ← onCommitments rollupTreeError (withFault (fault .newCommitmentRoot) getRoot)
  let rootProofs ← blockRootProofs engine fault currentRoot pis
  let nullifierRoot ← onNullifiers rollupTreeError (withFault (fault .nullifierRoot) getRoot)
  let oldRoot ← onHistoricRoots rollupTreeError (withFault (fault .oldHistoricRoot) getRoot)
  let metadata ← onHistoricRoots rollupTreeError (withFault (fault .metadata) getMetadata)
  -- the tree of historic roots is not updated before the block is on the chain
  let updatedRoot ← onHistoricRoots rollupTreeError (withFault (fault .updatedHistoricRoot)
    (appendSubTrees cfg.treeHash [commitmentRoot] false))
  let historicProof ← onHistoricRoots rollupTreeError (withFault (fault .historicRootProof)
    (getMembershipProof none (some metadata.subTreeCount)))
  let extraInfo ← expect "index out of bounds" (blockExtraInfo rootProofs.1.2 pis rootProofs.2
    (commitmentInfo.map engine.insertionVec) (nullifierInfo.map engine.nullifierVec))
  let historicVec := engine.membershipVec historicProof
  pure ({
    outputsAndCircuitType := outputs
    specificPi := pis.map Client.PublicInputs.toList
    extraInfo := extraInfo
    extraDeciderInfo := (historicVec.length : Fr254) :: historicVec ++ [oldRoot] },
    commitmentRoot, nullifierRoot, updatedRoot.1)

/-- The bytes of a rollup proof, most significant byte first in each element. -/
def proofBytes (proof : List Fq254) : Bytes :=
  proof.flatMap fun x => (bytesLE 32 x.val).reverse.map (BitVec.ofNat 8)

/-- `prove_block`. -/
def proveBlock (deposits : List (P × Client.PublicInputs Fr254))
    (txs : List (ClientTransactionWithMetaData P)) : AssemblyM P Block := do
  let prepared ← prepareStateTransition engine cfg fault deposits txs
  let proof ← okOrElse rollupProofError (engine.recursiveProve prepared.1)
  pure {
    commitmentsRoot := prepared.2.1
    nullifiersRoot := prepared.2.2.1
    commitmentsRootRoot := prepared.2.2.2
    transactions := deposits.map (fun deposit => .ofPublicInputs deposit.2) ++
      txs.map fun tx => tx.clientTransaction.toOnChain
    rollupProof := proofBytes proof }

/-- The proof of four deposits. -/
def depositProof (deposits : Fin 4 → DepositData) :
    AssemblyM P (P × Client.PublicInputs Fr254) :=
  okOrElse (fun cause => .provingError ("Proving Error: RollupProofError: " ++ cause))
    (engine.createDepositProof deposits)

/-- The proof of a group of deposits. -/
def groupProof (group : List DepositData) : AssemblyM P (P × Client.PublicInputs Fr254) :=
  if group.length = 4 then depositProof engine fun i => group.getD i .default
  else throwErr (.provingError "Could not convert deposit data chunk to fixed-length array")

/-- `make_block`: default deposits fill the block up. -/
def makeBlock (deposits : List (List DepositData))
    (txs : List (ClientTransactionWithMetaData P)) : AssemblyM P Block := do
  let depositProofs ← deposits.mapM (groupProof engine)
  let blockSize ← getBlockSize cfg.blockSize
  let count := depositProofs.length + txs.length
  if count < blockSize then do
    let proof ← depositProof engine fun _ => .default
    proveBlock engine cfg fault (depositProofs ++ List.replicate (blockSize - count) proof) txs
  else proveBlock engine cfg fault depositProofs txs

/-- The document for an assembled block: its number is the number of documents. -/
def storedOwnBlock (blocks : ProposedBlocks) (block : Block) : StoredBlock :=
  .ofTransactions blocks.length block.transactions cfg.ourAddress

/-- `assemble_block`. -/
def assembleBlock : AssemblyM P Block := do
  let selected ← prepareBlockData cfg
  let block ← makeBlock engine cfg fault
    (selected.1.map fun group => group.map DepositDatawithFee.depositData) selected.2
  modify fun s => { s with blocks := s.blocks ++ [storedOwnBlock cfg s.blocks block] }
  pure block

end Assembly

/-! ### The submission -/

/-- A proposer with the blocks that wait for their submission. -/
structure Assembler (P : Type) where
  proposer : ProposerState P
  pendingBlocks : List Block

/-- Submit the pending blocks: all of them leave the queue, and the ones that the contract doesn't
accept are returned. -/
def Assembler.submit {P : Type} (accepts : Block → Bool) (a : Assembler P) :
    List Block × Assembler P :=
  (a.pendingBlocks.filter fun block => !accepts block, { a with pendingBlocks := [] })

/-! ### A block that isn't produced -/

section Failures

variable {P O : Type} (engine : RollupEngine P O) (cfg : ProposerConfig P)
  (fault : AssemblyCall → Fault)

/-- The root of a tree, if the tree was created. -/
def treeRoot (db : TreeDb Fr254) : Option Fr254 := db.metadata.map TreeMetadata.root

/-- A block isn't produced: its assembly fails, or the contract doesn't accept it. -/
inductive BlockFails : ProposerState P → ProposerState P → Prop
  | assembly {s s' : ProposerState P} {f : Failure BlockAssemblyError} :
      (assembleBlock engine cfg fault).run s = .error f s' → BlockFails s s'
  | submission {s s' : ProposerState P} {block : Block} {queue : List Block}
      {accepts : Block → Bool} :
      (assembleBlock engine cfg fault).run s = .ok block s' →
      block ∈ (Assembler.submit accepts ⟨s', queue ++ [block]⟩).1 →
      BlockFails s (Assembler.submit accepts ⟨s', queue ++ [block]⟩).2.proposer

/-- What was selected in `s` is available again in `s'`, and the trees have the roots that they had. -/
structure Restored (s s' : ProposerState P) : Prop where
  deposits : (preparedDeposits cfg s).Subperm s'.transactions.deposits
  transactions : ∀ tx ∈ preparedTransactions cfg s, tx ∈ s'.transactions.mempool
  commitmentRoot : treeRoot s'.commitments = treeRoot s.commitments
  nullifierRoot : treeRoot s'.nullifiers = treeRoot s.nullifiers
  historicRoot : treeRoot s'.historicRoots = treeRoot s.historicRoots

variable {engine cfg fault} {s s' : ProposerState P}

/-! ### What the proofs leave alone -/

theorem preserves_rootProof (currentRoot : Fr254) (known : RootProofs) (root : Fr254) :
    Preserves (fun s : ProposerState P => (s.transactions, s.blocks))
      (rootProof engine fault currentRoot known root) := by
  rw [rootProof]
  cases known.1.lookup root with
  | some proof => exact .pure _
  | none => exact .bind (preserves_onTree fun _ _ => rfl) fun proof => .pure _

theorem preserves_blockRootProofs (currentRoot : Fr254)
    (pis : List (Client.PublicInputs Fr254)) :
    Preserves (fun s : ProposerState P => (s.transactions, s.blocks))
      (blockRootProofs engine fault currentRoot pis) := by
  have htransaction : ∀ known pi, Preserves (fun s : ProposerState P => (s.transactions, s.blocks))
      (transactionRootProofs engine fault currentRoot known pi) := fun known pi =>
    .foldlM (fun acc root => (preserves_rootProof _ _ _).bind fun proof => .pure _) _ _
  exact .foldlM (fun acc pi => (htransaction _ _).bind fun proofs => .pure _) _ _

theorem preserves_recursiveOutputs {γ : Type} {p : ProposerState P → γ}
    (deposits : List (P × Client.PublicInputs Fr254)) (txs : List (ClientTransactionWithMetaData P)) :
    Preserves p (recursiveOutputs engine deposits txs) := by
  refine .bind (.mapM (fun deposit => ?_) _) fun depositOutputs => ?_
  · exact (preserves_okOrElse _ _).bind fun output => .pure _
  · refine .bind (.mapM (fun tx => ?_) _) fun clientOutputs => .pure _
    exact (preserves_okOrElse _ _).bind fun output => .pure _

theorem preserves_prepareStateTransition (deposits : List (P × Client.PublicInputs Fr254))
    (txs : List (ClientTransactionWithMetaData P)) :
    Preserves (fun s : ProposerState P => (s.transactions, s.blocks))
      (prepareStateTransition engine cfg fault deposits txs) := by
  refine .bind (preserves_recursiveOutputs _ _) fun outputs => ?_
  refine .bind (preserves_onTree fun _ _ => rfl) fun currentRoot => ?_
  refine .bind (preserves_onTree fun _ _ => rfl) fun commitmentInfo => ?_
  refine .bind (preserves_onTree fun _ _ => rfl) fun nullifierInfo => ?_
  refine .bind (preserves_onTree fun _ _ => rfl) fun commitmentRoot => ?_
  refine .bind (preserves_blockRootProofs _ _) fun rootProofs => ?_
  refine .bind (preserves_onTree fun _ _ => rfl) fun nullifierRoot => ?_
  refine .bind (preserves_onTree fun _ _ => rfl) fun oldRoot => ?_
  refine .bind (preserves_onTree fun _ _ => rfl) fun metadata => ?_
  refine .bind (preserves_onTree fun _ _ => rfl) fun updatedRoot => ?_
  refine .bind (preserves_onTree fun _ _ => rfl) fun historicProof => ?_
  exact .bind (preserves_expect _ _) fun extraInfo => .pure _

/-- The proofs of a block leave the mempool and the stored blocks alone. -/
theorem preserves_makeBlock (deposits : List (List DepositData))
    (txs : List (ClientTransactionWithMetaData P)) :
    Preserves (fun s : ProposerState P => (s.transactions, s.blocks))
      (makeBlock engine cfg fault deposits txs) := by
  have hprove : ∀ proofs, Preserves (fun s : ProposerState P => (s.transactions, s.blocks))
      (proveBlock engine cfg fault proofs txs) := fun proofs =>
    .bind (preserves_prepareStateTransition _ _) fun prepared =>
      (preserves_okOrElse _ _).bind fun proof => .pure _
  have hsize : Preserves (fun s : ProposerState P => (s.transactions, s.blocks))
      (getBlockSize cfg.blockSize) := .ite (.pure _) (.throw _)
  refine .bind (.mapM (fun group => ?_) _) fun depositProofs => .bind hsize fun blockSize => ?_
  · exact .ite (preserves_okOrElse _ _) (.throw _)
  · exact .ite (.bind (preserves_okOrElse _ _) fun proof => hprove _) (hprove _)

/-! ### What comes back -/

/-- An assembly with a selection, however it ends, leaves the mempool as the selection left it. -/
theorem transactions_of_assembleBlock {used : List (List DepositDatawithFee)}
    {txs : List (ClientTransactionWithMetaData P)} {t : ProposerState P}
    (hprepare : (prepareBlockData cfg).run s = .ok (used, txs) t) :
    (stateAfter (assembleBlock engine cfg fault) s).transactions = t.transactions := by
  have hrest : Preserves ProposerState.transactions (do
      let block ← makeBlock engine cfg fault
        (used.map fun group => group.map DepositDatawithFee.depositData) txs
      modify fun s => { s with blocks := s.blocks ++ [storedOwnBlock cfg s.blocks block] }
      pure block : AssemblyM P Block) := by
    refine .bind ?_ fun block => .bind (.modify fun s => rfl) fun _ => .pure _
    have hmake : Preserves (fun s : ProposerState P => (s.transactions, s.blocks))
        (makeBlock engine cfg fault
          (used.map fun group => group.map DepositDatawithFee.depositData) txs) :=
      preserves_makeBlock _ _
    exact ⟨fun s a s' h => congrArg Prod.fst (hmake.keeps s a s' h),
      fun s e s' h => congrArg Prod.fst (hmake.of_error s e s' h)⟩
  rw [assembleBlock, stateAfter_bind_of_ok hprepare]
  exact Preserves.stateAfter hrest t

theorem run_assembleBlock_of_error {f : Failure BlockAssemblyError}
    (hprepare : (prepareBlockData cfg).run s = .error f s') :
    (assembleBlock engine cfg fault).run s = .error f s' := by
  rw [assembleBlock, EStateM.run_bind, hprepare]

/-- A block that fails leaves the mempool and the trees as its assembly does. -/
theorem BlockFails.eq_stateAfter (h : BlockFails engine cfg fault s s') :
    s' = stateAfter (assembleBlock engine cfg fault) s := by
  cases h with
  | assembly hrun => exact (stateAfter_of_error hrun).symm
  | submission hrun _ => exact (stateAfter_of_ok hrun).symm

theorem Restored.of_nothing_prepared {f : Failure BlockAssemblyError}
    (hprepare : (prepareBlockData cfg).run s = .error f s')
    (hcommitments : s'.commitments = s.commitments) (hnullifiers : s'.nullifiers = s.nullifiers)
    (hhistoric : s'.historicRoots = s.historicRoots) : Restored cfg s s' where
  deposits := by
    rw [preparedDeposits, hprepare]
    exact List.nil_subperm
  transactions tx htx := by
    rw [preparedTransactions, hprepare] at htx
    exact absurd htx List.not_mem_nil
  commitmentRoot := congrArg treeRoot hcommitments
  nullifierRoot := congrArg treeRoot hnullifiers
  historicRoot := congrArg treeRoot hhistoric

/-- Nothing that was chosen is left in the mempool. -/
theorem not_restored_of_pending (hsize : AllowedBlockSize cfg.blockSize)
    (hpending : ¬ NothingPending cfg s) (hs' : s'.transactions = preparedDb cfg s) :
    ¬ Restored cfg s s' := by
  have hprepare := run_prepareBlockData_of_pending hsize hpending
  intro hrestored
  rcases chosen_of_pending hsize hpending with ⟨d, hd⟩ | ⟨tx, htx⟩
  · have hback : d ∈ preparedDeposits cfg s := by
      rw [preparedDeposits, hprepare]
      exact hd
    have hmem := hrestored.deposits.subset hback
    rw [hs', deposits_preparedDb, List.mem_filter,
      not_kept_of_mem_chosen (List.mem_append_right _ hd)] at hmem
    cases hmem.2
  · have hback : tx ∈ preparedTransactions cfg s := by
      rw [preparedTransactions, hprepare]
      exact htx
    have hmem := hrestored.transactions tx hback
    rw [hs', mempool_preparedDb, List.mem_filter, decide_eq_true_iff] at hmem
    exact hmem.2 (List.mem_map_of_mem (List.mem_append_right _ htx))

/-- **When a block that isn't produced costs nothing**: if, and only if, nothing was selected for it,
since its size is not allowed or nothing was pending. -/
theorem restored_iff (h : BlockFails engine cfg fault s s') :
    Restored cfg s s' ↔ ¬ AllowedBlockSize cfg.blockSize ∨ NothingPending cfg s := by
  obtain rfl := h.eq_stateAfter
  by_cases hsize : AllowedBlockSize cfg.blockSize
  · by_cases hnothing : NothingPending cfg s
    · have hprepare := run_prepareBlockData_of_nothing hsize hnothing
      rw [stateAfter_of_error (run_assembleBlock_of_error hprepare)]
      exact iff_of_true (.of_nothing_prepared hprepare rfl rfl rfl) (.inr hnothing)
    · have hprepare := run_prepareBlockData_of_pending hsize hnothing
      refine iff_of_false ?_ (not_or.2 ⟨not_not.2 hsize, hnothing⟩)
      exact not_restored_of_pending hsize hnothing (transactions_of_assembleBlock hprepare)
  · have hprepare := run_prepareBlockData_of_not_allowed (s := s) hsize
    rw [stateAfter_of_error (run_assembleBlock_of_error hprepare)]
    exact iff_of_true (.of_nothing_prepared hprepare rfl rfl rfl) (.inl hsize)

/-- A rollup proof that fails leaves the leaves of the block in the trees. -/
theorem run_proveBlock_of_failed_proof {deposits : List (P × Client.PublicInputs Fr254)}
    {txs : List (ClientTransactionWithMetaData P)}
    {prepared : RollupPreppedInfo O × Fr254 × Fr254 × Fr254} {cause : String}
    (hprepare : (prepareStateTransition engine cfg fault deposits txs).run s = .ok prepared s')
    (hproof : engine.recursiveProve prepared.1 = .error cause) :
    (proveBlock engine cfg fault deposits txs).run s = .error (.err (rollupProofError cause)) s' := by
  rw [proveBlock, EStateM.run_bind, hprepare]
  dsimp only
  rw [hproof]
  rfl

end Failures

/-! ### A deposit proof that fails -/

/-- A prover without proofs of deposits. -/
def sampleEngine : RollupEngine (PlonkProof ℕ) ℕ where
  createDepositProof _ := .error "no proving key"
  recursiveOutput proof := .ok proof.proof
  recursiveProve _ := .ok []
  membershipVec proof := proof.siblingPath.map Merkle.PathElement.value
  insertionVec info := info.leaves
  nullifierVec info := info.circuitInfo.leaves

/-- A proposer with a deposit in its mempool. -/
def sampleDepositor : ProposerState (PlonkProof ℕ) :=
  { sampleProposer with transactions := ⟨[], [sampleDeposit 10]⟩ }

theorem sampleDepositor_pending : ¬ NothingPending sampleConfig sampleDepositor := by
  rintro ⟨hnone, -⟩
  cases hnone

/-- The deposit is taken out of the mempool, and its proof fails. -/
theorem sampleDepositor_fails : BlockFails sampleEngine sampleConfig (fun _ => none) sampleDepositor
    { sampleDepositor with transactions := preparedDb sampleConfig sampleDepositor } := by
  have hprepare := run_prepareBlockData_of_pending (.inl rfl) sampleDepositor_pending
  have hgroups : chosenGroups sampleConfig sampleDepositor = [[sampleDeposit 10]] := by
    decide +kernel
  have hrun : (assembleBlock sampleEngine sampleConfig (fun _ => none)).run sampleDepositor =
      .error (.err (.provingError "Proving Error: RollupProofError: no proving key"))
        { sampleDepositor with transactions := preparedDb sampleConfig sampleDepositor } := by
    rw [assembleBlock, EStateM.run_bind, hprepare, hgroups]
    rfl
  exact .assembly hrun

/-- The deposit is neither in a block nor in the mempool. -/
theorem not_restored :
    ∃ s', BlockFails sampleEngine sampleConfig (fun _ => none) sampleDepositor s' ∧
      ¬ Restored sampleConfig sampleDepositor s' :=
  ⟨_, sampleDepositor_fails, not_restored_of_pending (.inl rfl) sampleDepositor_pending rfl⟩

/-- The deposit stays in the mempool if five is no block size, and is lost with one that is. -/
theorem restored_iff_sample :
    (∃ s', BlockFails sampleEngine { sampleConfig with blockSize := 5 } (fun _ => none)
        sampleDepositor s' ∧ Restored { sampleConfig with blockSize := 5 } sampleDepositor s') ∧
      ∃ s', BlockFails sampleEngine sampleConfig (fun _ => none) sampleDepositor s' ∧
        ¬ Restored sampleConfig sampleDepositor s' := by
  have hsize : ¬ AllowedBlockSize 5 := by decide
  have hfails : BlockFails sampleEngine { sampleConfig with blockSize := 5 } (fun _ => none)
      sampleDepositor _ :=
    .assembly (run_assembleBlock_of_error (run_prepareBlockData_of_not_allowed hsize))
  refine ⟨⟨_, hfails, (restored_iff hfails).2 (.inl hsize)⟩, _, sampleDepositor_fails, fun h => ?_⟩
  rcases (restored_iff sampleDepositor_fails).1 h with hnot | hnothing
  · exact hnot (.inl rfl)
  · exact sampleDepositor_pending hnothing

end Node

end Nightfall
