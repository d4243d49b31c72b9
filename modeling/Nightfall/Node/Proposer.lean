import Nightfall.Node.Mempool

/-!
# The proposer

The proposer follows the chain with three trees, the number of the block it expects next, a flag that
says whether it is synchronised, and the blocks it knows of.  It inserts the leaves of a block when
the event of the block arrives, unless it is its own block: those were inserted when the block was
assembled.

The numbers and the flag are locked while a block is processed, so that two events are handled one
after the other.  A missing block or a block other than the one stored makes the listener reset the
trees and listen again (`restartEventListener`); every other error makes it panic.
-/

namespace Nightfall

namespace Node

open Evm Trees Stateful
open Contract (Address sha256AndShift)

/-! ### The state -/

/-- What a proposer remembers. -/
structure ProposerState (P : Type) where
  commitments : TreeDb Fr254
  nullifiers : TreeDb Fr254
  historicRoots : TreeDb Fr254
  /-- `get_expected_layer2_blocknumber`. -/
  expected : ℤ
  /-- `get_synchronisation_status`. -/
  synchronised : Bool
  blocks : ProposedBlocks
  transactions : TransactionsDb P

/-- An event handler of the proposer. -/
abbrev ProposerM (P : Type) := NodeM EventHandlerError (ProposerState P)

/-- What a proposer is started with. -/
structure ProposerConfig (P : Type) extends Hashing where
  keccak256 : Bytes → U256
  ourAddress : Address
  /-- The address of the Nightfall contract. -/
  nfAddress : Address
  /-- `DepositDatawithFee::hash`, if the deposit can be serialised. -/
  depositHash : DepositDatawithFee → Option Bytes
  /-- `ClientTransaction::hash`, if the transaction can be serialised. -/
  transactionHash : ClientTransaction P → Option Bytes
  poseidon : List Fr254 → Fr254
  /-- The block size of the settings. -/
  blockSize : ℕ

/-- `get_fee_token_id`. -/
def ProposerConfig.feeTokenId {P : Type} (cfg : ProposerConfig P) : Fr254 :=
  ((Client.feeTokenIdOf cfg.keccak256 cfg.nfAddress).toNat : Fr254)

/-- The calls on trees in the handler of a block. -/
inductive ProposerCall
  | commitmentRoot
  | commitments
  | nullifiers
  | historicRoot
  | newCommitmentRoot
  deriving DecidableEq, Repr

/-- What the handler of an event sees of its surroundings. -/
structure ProposerEnv where
  /-- The first answer to `get_transaction_by_hash`, and the second one. -/
  transaction : Lookup
  sender : Lookup
  /-- `get_current_layer2_blocknumber`, if the contract answers. -/
  currentNumber : Option ℤ
  fault : ProposerCall → Fault

/-- The events of the contract. -/
inductive Event
  | blockProposed (layer2BlockNumber : ℤ)
  | depositEscrowed (nfSlotId value : U256)
  /-- `Initialized`, `Upgraded`, `AuthoritiesUpdated` and `OwnershipTransferred`. -/
  | administrative
  deriving DecidableEq, Repr

section OnTrees

variable {P ε α : Type} (toError : MerkleTreeError → ε) (x : TreeM Fr254 α)

/-- A call on the commitment tree. -/
def onCommitments : NodeM ε (ProposerState P) α :=
  onTree ProposerState.commitments (fun db s => { s with commitments := db }) toError x

/-- A call on the nullifier tree. -/
def onNullifiers : NodeM ε (ProposerState P) α :=
  onTree ProposerState.nullifiers (fun db s => { s with nullifiers := db }) toError x

/-- A call on the tree of historic roots. -/
def onHistoricRoots : NodeM ε (ProposerState P) α :=
  onTree ProposerState.historicRoots (fun db s => { s with historicRoots := db }) toError x

end OnTrees

/-- Any error of a tree becomes an `IOError`. -/
def ioError (message : String) : MerkleTreeError → EventHandlerError := fun _ => .ioError message

/-- The commitments of a block. -/
def blockCommitments (blk : Contract.Block) : List U256 :=
  blk.transactions.flatMap fun transaction => List.ofFn transaction.commitments

/-- The nullifiers of a block. -/
def blockNullifiers (blk : Contract.Block) : List U256 :=
  blk.transactions.flatMap fun transaction => List.ofFn transaction.nullifiers

/-! ### Blocks -/

section Handlers

variable {P : Type} (cfg : ProposerConfig P) (env : ProposerEnv)

/-- `set_synchronised` and `clear_synchronised`. -/
def setSynchronised (synchronised : Bool) : ProposerM P Unit :=
  modify fun s => { s with synchronised := synchronised }

/-- The address that signed the transaction. -/
def senderAddress {σ : Type} : Lookup → NodeM EventHandlerError σ Address
  | .failed _ => throwErr (.ioError "Could not retrieve transaction")
  | .notFound => throw (.panic "called Option::unwrap() on a None value")
  | .found tx => pure tx.signer

/-- Insert the leaves of a block into the trees. -/
def insertBlock (blk : Contract.Block) : ProposerM P Unit := do
  let commitments ← expect "Could not convert commitments to U256" (convertAll (blockCommitments blk))
  let _ ← onCommitments (ioError "Could not store commitments")
    (withFault (env.fault .commitments) (appendSubTrees cfg.treeHash commitments true))
  let nullifiers ← expect "Could not convert nullifiers to U256" (convertAll (blockNullifiers blk))
  let _ ← onNullifiers (ioError "Could not store nullifiers")
    (withFault (env.fault .nullifiers) (insertLeaves cfg.treeHash cfg.leafHash nullifiers))

/-- The rest of `process_propose_block_event` for the block that is expected: it moves on to the next
block first. -/
def applyBlock (blk : Contract.Block) (number : ℤ) (sender : Address) (pending : StoredBlock) :
    ProposerM P Unit := do
  modify fun s => { s with expected := s.expected + 1 }
  let current ← okOr (.ioError "Could not retrieve current block number") env.currentNumber
  when (current = 1) (setSynchronised true)
  let root ← onCommitments (ioError "Could not retrieve commitment root")
    (withFault (env.fault .commitmentRoot) getRoot)
  let s ← get
  when (cfg.ourAddress ≠ sender ∨ s.synchronised = false ∨ root = 0) (insertBlock cfg env blk)
  let historicRoot ← okOr (.ioError "Could not convert to Fr254") (tryFrom blk.commitmentsRoot)
  let _ ← onHistoricRoots (ioError "Could not store historic root")
    (withFault (env.fault .historicRoot) (appendSubTrees cfg.treeHash [historicRoot] true))
  -- the root is compared with the historic root, but only to write the result to the log
  let _ ← onCommitments (ioError "Could not retrieve commitment root")
    (withFault (env.fault .newCommitmentRoot) getRoot)
  setSynchronised (decide (current - number - 1 = 0))
  modify fun s => { s with blocks := s.blocks.storeBlock pending }

/-- The comparison with the stored block: another block is deleted. -/
def checkStored (expected number : ℕ) (pending : StoredBlock) : ProposerM P Unit := do
  let s ← get
  match s.blocks.getBlockByNumber expected with
  | none => pure ()
  | some stored =>
    if expected = number ∧ stored.hash cfg.sha256 ≠ pending.hash cfg.sha256 then do
      set { s with blocks := s.blocks.deleteBlockByNumber expected, synchronised := false }
      throwErr (.blockHashError (stored.hash cfg.sha256) (pending.hash cfg.sha256))
    else pure ()

/-- `process_propose_block_event`. -/
def processProposeBlockEvent (blk : Contract.Block) (layer2BlockNumber : ℤ) : ProposerM P Unit := do
  let sender ← senderAddress env.sender
  let number ← expect "I256 to u64 conversion failed" (toU64 layer2BlockNumber)
  let pending ← orPanic (pendingBlock number blk sender)
  let s ← get
  if s.expected < layer2BlockNumber then do
    setSynchronised false
    let missing ← expect "I256 to usize conversion failed" (toU64 s.expected)
    throwErr (.missingBlocks missing)
  else if layer2BlockNumber < s.expected then pure ()
  else do
    let expected ← expect "I256 to u64 conversion failed" (toU64 s.expected)
    checkStored cfg expected number pending
    applyBlock cfg env blk layer2BlockNumber sender pending

/-- The transaction of an event. -/
def getTransaction {σ : Type} : Lookup → NodeM EventHandlerError σ Transaction
  | .failed _ => throwErr (.ioError "Could not retrieve transaction")
  | .notFound => throw (.panic "Transaction not found when looking up calldata")
  | .found tx => pure tx

/-- `process_nightfall_calldata`. -/
def processNightfallCalldata (layer2BlockNumber : ℤ) : ProposerM P Unit := do
  let tx ← getTransaction env.transaction
  match tx.input with
  | .undecodable _ => throwErr .invalidCalldata
  | .proposeBlock blk => processProposeBlockEvent cfg env blk layer2BlockNumber
  | .escrowFunds _ _ _ _ => pure ()
  | .other => pure ()

/-! ### Deposits -/

/-- `process_deposit_transaction`.  Deposits are looked up among the client transactions. -/
def processDepositTransaction (deposit : DepositDatawithFee) : ProposerM P Unit := do
  let s ← get
  -- a document that is found there is not a deposit
  if ∃ v ∈ s.transactions.clientTransactions, some v.hash = cfg.depositHash deposit then
    throw (.panic "Database error")
  else set { s with transactions := s.transactions.setMempoolDeposits [deposit] }

/-- `to_nf_token_id_from_solidity`. -/
def toNfTokenIdFromSolidity (sha256 : Bytes → U256) (ercAddress : Address) (tokenId : U256) : Fr254 :=
  (sha256AndShift sha256 (abiEncode [ercAddress.toWord, tokenId])).toNat

/-- `process_deposit_escrowed_event`. -/
def processDepositEscrowedEvent (nfSlotId value : U256) : ProposerM P Unit := do
  let tx ← getTransaction env.transaction
  match tx.input with
  | .undecodable _ => throwErr .invalidCalldata
  | .escrowFunds fee ercAddress tokenId secretHash => do
    let fee ← okOr (.ioError "Could not convert to Fr254") (tryFrom fee)
    let secretHash ← okOr (.ioError "Could not convert to Fr254") (tryFrom secretHash)
    let nfSlotId ← okOr (.ioError "Could not convert to Fr254") (tryFrom nfSlotId)
    let value ← okOr (.ioError "Could not convert to Fr254") (tryFrom value)
    let nfTokenId := toNfTokenIdFromSolidity cfg.sha256 ercAddress tokenId
    let deposit : DepositData :=
      if nfSlotId = cfg.feeTokenId then ⟨cfg.feeTokenId, cfg.feeTokenId, value, secretHash⟩
      else ⟨nfTokenId, nfSlotId, value, secretHash⟩
    processDepositTransaction cfg ⟨fee, deposit⟩
  | .proposeBlock _ => pure ()
  | .other => pure ()

/-- Return another error; a panic stays a panic. -/
def mapErr {ε σ α : Type} (e : ε) (x : NodeM ε σ α) : NodeM ε σ α := fun s =>
  match x.run s with
  | .ok a s => .ok a s
  | .error (.err _) s => .error (.err e) s
  | .error (.panic m) s => .error (.panic m) s

/-- `handle_event` of the proposer. -/
def proposerHandleEvent : Event → ProposerM P Unit
  | .blockProposed layer2BlockNumber => processNightfallCalldata cfg env layer2BlockNumber
  | .depositEscrowed nfSlotId value =>
    mapErr .invalidCalldata (processDepositEscrowedEvent cfg env nfSlotId value)
  | .administrative => pure ()

end Handlers

/-! ### The listener -/

/-- The errors on which the listener of the proposer restarts. -/
def EventHandlerError.Restarts : EventHandlerError → Prop
  | .missingBlocks _ => True
  | .blockHashError _ _ => True
  | _ => False

/-- A call on a tree whose error is ignored. -/
def ignoreErr {ε σ : Type} (get : σ → TreeDb Fr254) (put : TreeDb Fr254 → σ → σ)
    (x : TreeM Fr254 Unit) : NodeM ε σ Unit := fun s =>
  match x.run (get s) with
  | .ok _ db => .ok () (put db s)
  | .error (.err _) db => .ok () (put db s)
  | .error (.panic m) db => .error (.panic m) (put db s)

/-- `reset_tree` of the commitment tree. -/
def resetCommitmentTree : TreeM Fr254 Unit := do
  resetMutableTree
  newMutableTree 29 3

/-- `reset_tree` of the tree of historic roots. -/
def resetHistoricRootTree : TreeM Fr254 Unit := do
  resetMutableTree
  newMutableTree 32 0

section Listener

variable {P : Type} (cfg : ProposerConfig P)

/-- `reset_tree` of the nullifier tree. -/
def resetNullifierTree : TreeM Fr254 Unit := do
  resetMutableTree
  modify fun db => { db with indexedLeaves := .empty }
  newIndexedTree cfg.treeHash cfg.leafHash 29 3

/-- `restart_event_listener`, up to the start of the new listener. -/
def restartEventListener : ProposerM P Unit := do
  let s ← get
  if s.synchronised = true then
    throw (.panic "Restarting event listener while synchronised. This should not happen")
  else do
    ignoreErr ProposerState.commitments (fun db s => { s with commitments := db }) resetCommitmentTree
    ignoreErr ProposerState.historicRoots (fun db s => { s with historicRoots := db })
      resetHistoricRootTree
    ignoreErr ProposerState.nullifiers (fun db s => { s with nullifiers := db })
      (resetNullifierTree cfg)
    modify fun s => { s with transactions := .empty }

/-- The state before the first connection to the database. -/
def ProposerState.initial : ProposerState P where
  commitments := .empty
  nullifiers := .empty
  historicRoots := .empty
  expected := 0
  synchronised := false
  blocks := []
  transactions := .empty

/-- The initialisation of the database: new trees, and zero as the first historic root. -/
def initialiseDb : ProposerM P Unit := do
  onCommitments (ioError "") (Trees.expect "Could not create commitment tree" (newMutableTree 29 3))
  onHistoricRoots (ioError "") (Trees.expect "Could not create historic root tree" (newMutableTree 32 0))
  onNullifiers (ioError "") (Trees.expect "Could not create historic root tree"
    (newIndexedTree cfg.treeHash cfg.leafHash 29 3))
  let _ ← onHistoricRoots (ioError "") (Trees.expect "Couldn't insert zero leaf into the historic root tree"
    (appendSubTrees cfg.treeHash [0] true))

/-- A proposer that was initialised. -/
def ProposerState.Fresh (s : ProposerState P) : Prop :=
  (initialiseDb cfg).run .initial = .ok () s

end Listener

end Node

end Nightfall
