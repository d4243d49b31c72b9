import Nightfall.Data.Chunks
import Nightfall.Data.Ranking
import Nightfall.Node.Admission

/-!
# The transactions of a block

The proposer fills a block with units: a unit is a client transaction or a group of four deposits.
Deposits are grouped in the order of their fees and the last group is filled up with default deposits;
the units with the highest fees go into the block.  Deposits and transactions that are in a stored
block already are dropped (`prepareBlockData`).

What was chosen or dropped leaves the mempool by a part of its fields: a deposit by its secret hash and
its slot, and a client transaction by its hash.  A deposit or a transaction that was left out goes with
it if these fields are the same, and only then: `preparesRight_iff`.
-/

namespace Nightfall

namespace Node

open Evm Trees Stateful

/-! ### Preparing a block -/

/-- `BlockAssemblyError`. -/
inductive BlockAssemblyError
  | insufficientTransactions
  | provingError (message : String)
  deriving DecidableEq, Repr

/-- A computation of the block assembly. -/
abbrev AssemblyM (P : Type) := NodeM BlockAssemblyError (ProposerState P)

/-- The block sizes for which there are circuits. -/
def AllowedBlockSize (blockSize : ℕ) : Prop :=
  blockSize = 64 ∨ blockSize = 256 ∨ blockSize = 1024

instance instDecidableAllowedBlockSize (blockSize : ℕ) : Decidable (AllowedBlockSize blockSize) :=
  inferInstanceAs (Decidable (blockSize = 64 ∨ blockSize = 256 ∨ blockSize = 1024))

/-- `get_block_size`. -/
def getBlockSize {σ : Type} (blockSize : ℕ) : NodeM BlockAssemblyError σ ℕ :=
  if AllowedBlockSize blockSize then pure blockSize
  else throwErr (.provingError "Block size must be one of 64, 256, or 1024")

/-- `transactions_to_include_in_block`. -/
def transactionsToIncludeInBlock {K V : Type} (mempoolTransactions : Option (List (K × V))) :
    List (K × V) :=
  mempoolTransactions.getD []

/-- The commitments of the stored blocks. -/
def commitmentsOnchain (blocks : ProposedBlocks) : List (List Char) :=
  blocks.flatMap StoredBlock.commitments

/-- The commitment of a deposit. -/
def DepositData.commitment (poseidon : List Fr254 → Fr254) (deposit : DepositData) : Fr254 :=
  poseidon [deposit.nfTokenId, deposit.nfSlotId, deposit.value, 0, 1, deposit.secretHash]

/-- The deposit is not in a stored block. -/
def DepositDatawithFee.isPending (poseidon : List Fr254 → Fr254) (onchain : List (List Char))
    (deposit : DepositDatawithFee) : Bool :=
  decide (toHexString (deposit.depositData.commitment poseidon) ∉ onchain)

/-- No commitment of the transaction is in a stored block. -/
def ClientTransactionWithMetaData.isPending {P : Type} (onchain : List (List Char))
    (tx : ClientTransactionWithMetaData P) : Bool :=
  ((List.ofFn tx.clientTransaction.commitments).filter fun c => toHexString c ≠ toHexString 0).all
    fun c => toHexString c ∉ onchain

/-- The loop that groups deposits by four. -/
def groupDeposits : List DepositDatawithFee → List (List DepositDatawithFee) →
    List DepositDatawithFee → List (List DepositDatawithFee) × List DepositDatawithFee
  | [], depositGroups, currentGroup => (depositGroups, currentGroup)
  | deposit :: deposits, depositGroups, currentGroup =>
    if (currentGroup ++ [deposit]).length = 4 then
      groupDeposits deposits (depositGroups ++ [currentGroup ++ [deposit]]) []
    else groupDeposits deposits depositGroups (currentGroup ++ [deposit])

/-- Fill a group up with default deposits. -/
def padGroup (group : List DepositDatawithFee) : List DepositDatawithFee :=
  group ++ List.replicate (4 - group.length) .default

/-- The groups of four deposits. -/
def depositGroups (deposits : List DepositDatawithFee) : List (List DepositDatawithFee) :=
  let (depositGroups, currentGroup) := groupDeposits deposits [] []
  if currentGroup.isEmpty then depositGroups else depositGroups ++ [padGroup currentGroup]

/-- `ALLTransactionData`: a group of deposits or a client transaction, and its total fee. -/
abbrev ALLTransactionData (P : Type) :=
  Option (List DepositDatawithFee) × Option (ClientTransactionWithMetaData P) × Fr254

/-- The units of a block: the groups of deposits, and the client transactions. -/
def allTransactions {P : Type} (groups : List (List DepositDatawithFee))
    (clientTransactions : List (ClientTransactionWithMetaData P)) : List (ALLTransactionData P) :=
  groups.map (fun group => (some group, none, (group.map DepositDatawithFee.fee).sum)) ++
    clientTransactions.map fun tx => (none, some tx, tx.clientTransaction.fee)

/-- Select the units with the highest total fees: their deposits, in groups of four, and their client
transactions. -/
def selectTransactions {P : Type} (blockSize : ℕ) (pendingDeposits : List DepositDatawithFee)
    (pendingClientTransactions : List (ClientTransactionWithMetaData P)) :
    List (List DepositDatawithFee) × List (ClientTransactionWithMetaData P) :=
  let groups := depositGroups (ranked (fun d => d.fee.val) pendingDeposits)
  let selected := (ranked (fun unit : ALLTransactionData P => unit.2.2.val)
    (allTransactions groups pendingClientTransactions)).take blockSize
  (selected.filterMap fun unit => unit.1, selected.filterMap fun unit => unit.2.1)

/-- Delete deposits from the mempool. -/
def dropDeposits {P : Type} (deposits : List (List DepositDatawithFee)) : AssemblyM P Unit :=
  modify fun s => { s with transactions := s.transactions.removeMempoolDeposits deposits }

/-- Take client transactions out of the mempool. -/
def dropTransactions {P : Type} (txs : List (ClientTransactionWithMetaData P)) : AssemblyM P Unit :=
  modify fun s => { s with transactions := s.transactions.setInMempool txs false }

/-- Take what is in a stored block out of the mempool. -/
def cleanMempool {P : Type} (staleDeposits : List DepositDatawithFee)
    (staleClientTransactions : List (ClientTransactionWithMetaData P)) : AssemblyM P Unit := do
  when (staleDeposits ≠ []) (dropDeposits [staleDeposits])
  when (staleClientTransactions ≠ []) (dropTransactions staleClientTransactions)

/-- `prepare_block_data`. -/
def prepareBlockData {P : Type} (cfg : ProposerConfig P) :
    AssemblyM P (List (List DepositDatawithFee) × List (ClientTransactionWithMetaData P)) := do
  let blockSize ← getBlockSize cfg.blockSize
  let s ← get
  let allDeposits := s.transactions.getMempoolDeposits.getD []
  let mempoolClientTransactions :=
    (transactionsToIncludeInBlock s.transactions.getAllMempoolClientTransactions).map Prod.snd
  let onchain := commitmentsOnchain s.blocks
  let deposits := allDeposits.partition (DepositDatawithFee.isPending cfg.poseidon onchain)
  let transactions :=
    mempoolClientTransactions.partition (ClientTransactionWithMetaData.isPending onchain)
  cleanMempool deposits.2 transactions.2
  if deposits.1 = [] ∧ transactions.1 = [] then throwErr .insufficientTransactions
  else do
    let selected := selectTransactions blockSize deposits.1 transactions.1
    dropDeposits selected.1
    dropTransactions selected.2
    pure selected

/-! ### Units -/

/-- A group of deposits that aren't padded, or a client transaction. -/
inductive BlockUnit (P : Type)
  | deposits (group : List DepositDatawithFee)
  | client (tx : ClientTransactionWithMetaData P)

namespace BlockUnit

variable {P : Type}

/-- The fees of the deposits, or the fee of the transaction. -/
def totalFee : BlockUnit P → Fr254
  | deposits group => (group.map DepositDatawithFee.fee).sum
  | client tx => tx.clientTransaction.fee

/-- The deposits of a unit. -/
def group? : BlockUnit P → Option (List DepositDatawithFee)
  | deposits group => some group
  | client _ => none

/-- The client transaction of a unit. -/
def client? : BlockUnit P → Option (ClientTransactionWithMetaData P)
  | deposits _ => none
  | client tx => some tx

/-- The unit as the code ranks it. -/
def toData : BlockUnit P → ALLTransactionData P
  | deposits group => (some (padGroup group), none, ((padGroup group).map DepositDatawithFee.fee).sum)
  | client tx => (none, some tx, tx.clientTransaction.fee)

/-- Default deposits pay nothing. -/
theorem sum_fee_padGroup (group : List DepositDatawithFee) :
    ((padGroup group).map DepositDatawithFee.fee).sum =
      (group.map DepositDatawithFee.fee).sum := by
  rw [padGroup, List.map_append, List.map_replicate, List.sum_append]
  exact (congrArg _ (List.sum_replicate _ _)).trans (by rw [DepositDatawithFee.default, smul_zero, add_zero])

theorem toData_fee (unit : BlockUnit P) : unit.toData.2.2.val = unit.totalFee.val := by
  cases unit with
  | deposits group => rw [toData, totalFee, sum_fee_padGroup]
  | client tx => rfl

theorem filterMap_toData_fst (l : List (BlockUnit P)) :
    (l.map toData).filterMap (fun unit => unit.1) = (l.filterMap group?).map padGroup := by
  rw [List.filterMap_map, List.map_filterMap]
  congr 1
  funext unit
  cases unit with
  | deposits group => rfl
  | client tx => rfl

theorem filterMap_toData_snd (l : List (BlockUnit P)) :
    (l.map toData).filterMap (fun unit => unit.2.1) = l.filterMap client? := by
  rw [List.filterMap_map]
  congr 1
  funext unit
  cases unit with
  | deposits group => rfl
  | client tx => rfl

end BlockUnit

theorem length_padGroup {group : List DepositDatawithFee} (h : group.length ≤ 4) :
    (padGroup group).length = 4 := by
  rw [padGroup, List.length_append, List.length_replicate]
  omega

theorem padGroup_of_length {group : List DepositDatawithFee} (h : group.length = 4) :
    padGroup group = group := by
  rw [padGroup, h, Nat.sub_self, List.replicate_zero, List.append_nil]

/-- What the loop adds to the groups, with the current group filled up. -/
theorem groupDeposits_eq (deposits : List DepositDatawithFee)
    (groups : List (List DepositDatawithFee)) {current : List DepositDatawithFee}
    (hcurrent : current.length < 4) :
    (if (groupDeposits deposits groups current).2.isEmpty then
      (groupDeposits deposits groups current).1
    else (groupDeposits deposits groups current).1 ++
      [padGroup (groupDeposits deposits groups current).2]) =
      groups ++ (chunks 4 (current ++ deposits)).map padGroup := by
  induction deposits generalizing groups current with
  | nil =>
    rw [groupDeposits, List.append_nil]
    cases current with
    | nil => rw [chunks_nil (by omega)]; simp
    | cons d current =>
      rw [chunks_of_ne_nil (by omega) (List.cons_ne_nil _ _), List.take_of_length_le (by omega),
        List.drop_of_length_le (by omega), chunks_nil (by omega)]
      rfl
  | cons d deposits ih =>
    have happend : current ++ d :: deposits = (current ++ [d]) ++ deposits := by simp
    have hlength : (current ++ [d]).length = current.length + 1 := by simp
    rw [groupDeposits]
    by_cases hfull : (current ++ [d]).length = 4
    · rw [if_pos hfull, ih _ (by simp), happend, chunks_append (by omega) hfull, List.map_cons,
        padGroup_of_length hfull, List.nil_append, List.append_assoc, List.singleton_append]
    · rw [if_neg hfull, ih _ (by omega), happend]

theorem depositGroups_eq (deposits : List DepositDatawithFee) :
    depositGroups deposits = (chunks 4 deposits).map padGroup := by
  have hnil : ([] : List DepositDatawithFee).length < 4 := by simp
  have h := groupDeposits_eq deposits [] hnil
  rwa [List.nil_append, List.nil_append] at h

/-! ### What is chosen -/

section Choice

variable {P : Type} (cfg : ProposerConfig P) (s : ProposerState P)

/-- The client transactions in the mempool. -/
def TransactionsDb.mempool (db : TransactionsDb P) : List (ClientTransactionWithMetaData P) :=
  db.clientTransactions.filter (·.inMempool)

/-- The deposits that are not in a stored block. -/
def pendingDeposits : List DepositDatawithFee :=
  s.transactions.deposits.filter
    (DepositDatawithFee.isPending cfg.poseidon (commitmentsOnchain s.blocks))

/-- The deposits that are in a stored block. -/
def staleDeposits : List DepositDatawithFee :=
  s.transactions.deposits.filter fun d =>
    !d.isPending cfg.poseidon (commitmentsOnchain s.blocks)

/-- The client transactions that are not in a stored block. -/
def pendingTransactions : List (ClientTransactionWithMetaData P) :=
  s.transactions.mempool.filter
    (ClientTransactionWithMetaData.isPending (commitmentsOnchain s.blocks))

/-- The client transactions that are in a stored block. -/
def staleTransactions : List (ClientTransactionWithMetaData P) :=
  s.transactions.mempool.filter fun tx => !tx.isPending (commitmentsOnchain s.blocks)

/-- The groups as they are formed: fours of deposits in the order of their fees. -/
def formedGroups : List (List DepositDatawithFee) :=
  chunks 4 (ranked (fun d => d.fee.val) (pendingDeposits cfg s))

/-- The units that a block can be filled with. -/
def blockUnits : List (BlockUnit P) :=
  (formedGroups cfg s).map .deposits ++ (pendingTransactions s).map .client

/-- The units with the highest fees. -/
def chosenUnits : List (BlockUnit P) :=
  (ranked (fun u => u.totalFee.val) (blockUnits cfg s)).take cfg.blockSize

/-- The units that are left out. -/
def leftUnits : List (BlockUnit P) :=
  (ranked (fun u => u.totalFee.val) (blockUnits cfg s)).drop cfg.blockSize

/-- The groups of deposits that are chosen. -/
def chosenGroups : List (List DepositDatawithFee) := (chosenUnits cfg s).filterMap BlockUnit.group?

/-- The client transactions that are chosen. -/
def chosenTransactions : List (ClientTransactionWithMetaData P) :=
  (chosenUnits cfg s).filterMap BlockUnit.client?

/-- The deposits that are left out. -/
def leftDeposits : List DepositDatawithFee :=
  ((leftUnits cfg s).filterMap BlockUnit.group?).flatten

/-- The client transactions that are left out. -/
def leftTransactions : List (ClientTransactionWithMetaData P) :=
  (leftUnits cfg s).filterMap BlockUnit.client?

/-- The deposits that a preparation chooses for a block. -/
def preparedDeposits : List DepositDatawithFee :=
  match (prepareBlockData cfg).run s with
  | .ok _ _ => (chosenGroups cfg s).flatten
  | .error _ _ => []

/-- The client transactions that a preparation chooses for a block. -/
def preparedTransactions : List (ClientTransactionWithMetaData P) :=
  match (prepareBlockData cfg).run s with
  | .ok _ _ => chosenTransactions cfg s
  | .error _ _ => []

variable {cfg s}

theorem filterMap_group?_blockUnits :
    (blockUnits cfg s).filterMap BlockUnit.group? = formedGroups cfg s := by
  rw [blockUnits, List.filterMap_append, List.filterMap_map, List.filterMap_map]
  simp [Function.comp_def, BlockUnit.group?]

theorem filterMap_client?_blockUnits (cfg : ProposerConfig P) (s : ProposerState P) :
    (blockUnits cfg s).filterMap BlockUnit.client? = pendingTransactions s := by
  rw [blockUnits, List.filterMap_append, List.filterMap_map, List.filterMap_map]
  simp [Function.comp_def, BlockUnit.client?]

/-- Every deposit of the mempool is in a stored block, chosen or left out. -/
theorem deposits_perm :
    s.transactions.deposits.Perm
      ((staleDeposits cfg s ++ (chosenGroups cfg s).flatten) ++ leftDeposits cfg s) := by
  have hunits : (formedGroups cfg s).Perm
      (chosenGroups cfg s ++ (leftUnits cfg s).filterMap BlockUnit.group?) := by
    rw [chosenGroups, ← List.filterMap_append, chosenUnits, leftUnits, List.take_append_drop,
      ← filterMap_group?_blockUnits]
    exact ((ranked_perm _ _).filterMap _).symm
  have hpending : (pendingDeposits cfg s).Perm
      ((chosenGroups cfg s).flatten ++ leftDeposits cfg s) := by
    have hflatten := hunits.flatten
    rw [formedGroups, flatten_chunks (by omega), List.flatten_append] at hflatten
    exact (ranked_perm _ _).symm.trans hflatten
  have hfilter := (List.filter_append_perm (DepositDatawithFee.isPending cfg.poseidon
    (commitmentsOnchain s.blocks)) s.transactions.deposits).symm
  rw [List.append_assoc]
  exact (hfilter.trans List.perm_append_comm).trans (hpending.append_left _)

/-- Every client transaction that isn't in a stored block is chosen or left out. -/
theorem pendingTransactions_perm (cfg : ProposerConfig P) (s : ProposerState P) :
    (pendingTransactions s).Perm (chosenTransactions cfg s ++ leftTransactions cfg s) := by
  rw [chosenTransactions, leftTransactions, ← List.filterMap_append, chosenUnits, leftUnits,
    List.take_append_drop, ← filterMap_client?_blockUnits cfg s]
  exact ((ranked_perm _ _).filterMap _).symm

/-- Every client transaction of the mempool is in a stored block, chosen or left out. -/
theorem mempool_perm :
    s.transactions.mempool.Perm
      ((staleTransactions s ++ chosenTransactions cfg s) ++ leftTransactions cfg s) := by
  have hfilter := (List.filter_append_perm
    (ClientTransactionWithMetaData.isPending (commitmentsOnchain s.blocks))
    s.transactions.mempool).symm
  rw [List.append_assoc]
  exact (hfilter.trans List.perm_append_comm).trans
    ((pendingTransactions_perm cfg s).append_left _)

end Choice

/-! ### What a preparation does -/

section Preparation

variable {P : Type} {cfg : ProposerConfig P} {s s' : ProposerState P}
  {used : List (List DepositDatawithFee)} {txs : List (ClientTransactionWithMetaData P)}

/-- There is nothing that a block can be filled with. -/
def NothingPending (cfg : ProposerConfig P) (s : ProposerState P) : Prop :=
  pendingDeposits cfg s = [] ∧ pendingTransactions s = []

/-- The database without what is in a stored block. -/
def cleanedDb (cfg : ProposerConfig P) (s : ProposerState P) : TransactionsDb P :=
  (s.transactions.removeMempoolDeposits [staleDeposits cfg s]).setInMempool (staleTransactions s)
    false

/-- The database after a preparation. -/
def preparedDb (cfg : ProposerConfig P) (s : ProposerState P) : TransactionsDb P :=
  ((cleanedDb cfg s).removeMempoolDeposits ((chosenGroups cfg s).map padGroup)).setInMempool
    (chosenTransactions cfg s) false

theorem run_cleanMempool (deposits : List DepositDatawithFee)
    (txs : List (ClientTransactionWithMetaData P)) (s : ProposerState P) :
    (cleanMempool deposits txs).run s =
      .ok () { s with transactions :=
        (s.transactions.removeMempoolDeposits [deposits]).setInMempool txs false } := by
  have hdeposits : s.transactions.removeMempoolDeposits [[]] = s.transactions := by
    simp [TransactionsDb.removeMempoolDeposits]
  have htxs : ∀ db : TransactionsDb P, db.setInMempool [] false = db := by
    intro db
    simp [TransactionsDb.setInMempool]
  cases deposits with
  | nil =>
    cases txs with
    | nil =>
      rw [hdeposits, htxs]
      rfl
    | cons tx txs =>
      rw [hdeposits]
      rfl
  | cons d deposits =>
    cases txs with
    | nil =>
      rw [htxs]
      rfl
    | cons tx txs => rfl

/-- The selection of the code, in terms of units. -/
theorem selectTransactions_eq (cfg : ProposerConfig P) (s : ProposerState P) :
    selectTransactions cfg.blockSize (pendingDeposits cfg s) (pendingTransactions s) =
      ((chosenGroups cfg s).map padGroup, chosenTransactions cfg s) := by
  have hunits : allTransactions
      (depositGroups (ranked (fun d => d.fee.val) (pendingDeposits cfg s))) (pendingTransactions s) =
      (blockUnits cfg s).map BlockUnit.toData := by
    rw [allTransactions, depositGroups_eq, blockUnits, List.map_append, List.map_map, List.map_map,
      List.map_map]
    rfl
  have hselected := map_ranked (fun unit : ALLTransactionData P => unit.2.2.val)
    BlockUnit.toData_fee (blockUnits cfg s)
  rw [selectTransactions, hunits, ← hselected, ← List.map_take]
  exact Prod.ext (BlockUnit.filterMap_toData_fst _) (BlockUnit.filterMap_toData_snd _)

theorem run_prepareBlockData_of_not_allowed (hsize : ¬ AllowedBlockSize cfg.blockSize) :
    (prepareBlockData cfg).run s =
      .error (.err (.provingError "Block size must be one of 64, 256, or 1024")) s := by
  rw [prepareBlockData, EStateM.run_bind, getBlockSize, if_neg hsize]
  rfl

/-- A preparation after the mempool was cleaned. -/
theorem run_prepareBlockData (hsize : AllowedBlockSize cfg.blockSize) :
    (prepareBlockData cfg).run s =
      (if pendingDeposits cfg s = [] ∧ pendingTransactions s = [] then
        throwErr .insufficientTransactions
      else do
        let selected :=
          selectTransactions cfg.blockSize (pendingDeposits cfg s) (pendingTransactions s)
        dropDeposits selected.1
        dropTransactions selected.2
        pure selected : AssemblyM P _).run { s with transactions := cleanedDb cfg s } := by
  have hblock : (getBlockSize cfg.blockSize : AssemblyM P ℕ).run s = .ok cfg.blockSize s := by
    rw [getBlockSize, if_pos hsize]
    rfl
  rw [prepareBlockData, EStateM.run_bind, hblock]
  simp only [EStateM.run_bind, EStateM.run_get, TransactionsDb.getD_getMempoolDeposits,
    transactionsToIncludeInBlock, TransactionsDb.map_getAllMempoolClientTransactions,
    List.partition_eq_filter_filter, run_cleanMempool]
  rfl

theorem run_prepareBlockData_of_nothing (hsize : AllowedBlockSize cfg.blockSize)
    (hnothing : NothingPending cfg s) :
    (prepareBlockData cfg).run s =
      .error (.err .insufficientTransactions) { s with transactions := cleanedDb cfg s } := by
  rw [run_prepareBlockData hsize, if_pos ⟨hnothing.1, hnothing.2⟩]
  rfl

theorem run_prepareBlockData_of_pending (hsize : AllowedBlockSize cfg.blockSize)
    (hpending : ¬ NothingPending cfg s) :
    (prepareBlockData cfg).run s =
      .ok ((chosenGroups cfg s).map padGroup, chosenTransactions cfg s)
        { s with transactions := preparedDb cfg s } := by
  rw [run_prepareBlockData hsize, if_neg fun h => hpending ⟨h.1, h.2⟩, selectTransactions_eq]
  rfl

theorem run_prepareBlockData_eq_ok :
    (prepareBlockData cfg).run s = .ok (used, txs) s' ↔
      (AllowedBlockSize cfg.blockSize ∧ ¬ NothingPending cfg s) ∧
        used = (chosenGroups cfg s).map padGroup ∧ txs = chosenTransactions cfg s ∧
        s' = { s with transactions := preparedDb cfg s } := by
  by_cases hsize : AllowedBlockSize cfg.blockSize
  · by_cases hnothing : NothingPending cfg s
    · rw [run_prepareBlockData_of_nothing hsize hnothing]
      constructor
      · intro h
        cases h
      · rintro ⟨⟨-, hpending⟩, -⟩
        exact absurd hnothing hpending
    · rw [run_prepareBlockData_of_pending hsize hnothing, EStateM.Result.ok.injEq, Prod.mk.injEq,
        eq_comm (b := used), eq_comm (b := txs), eq_comm (b := s'), and_assoc]
      exact ⟨fun h => ⟨⟨hsize, hnothing⟩, h⟩, fun h => h.2⟩
  · rw [run_prepareBlockData_of_not_allowed hsize]
    constructor
    · intro h
      cases h
    · rintro ⟨⟨hallowed, -⟩, -⟩
      exact absurd hallowed hsize

/-! ### What leaves the mempool -/

theorem deposits_removeMempoolDeposits (db : TransactionsDb P)
    (deposits : List (List DepositDatawithFee)) :
    (db.removeMempoolDeposits deposits).deposits = db.deposits.filter fun d =>
      d.deleteKey ∉ deposits.flatten.map DepositDatawithFee.deleteKey := rfl

theorem deposits_setInMempool (db : TransactionsDb P)
    (txs : List (ClientTransactionWithMetaData P)) (inMempool : Bool) :
    (db.setInMempool txs inMempool).deposits = db.deposits := rfl

theorem mempool_removeMempoolDeposits (db : TransactionsDb P)
    (deposits : List (List DepositDatawithFee)) :
    (db.removeMempoolDeposits deposits).mempool = db.mempool := rfl

theorem mempool_setInMempool (db : TransactionsDb P)
    (txs : List (ClientTransactionWithMetaData P)) :
    (db.setInMempool txs false).mempool =
      db.mempool.filter fun v => v.hash ∉ txs.map ClientTransactionWithMetaData.hash := by
  rw [TransactionsDb.mempool, TransactionsDb.mempool, TransactionsDb.setInMempool]
  induction db.clientTransactions with
  | nil => rfl
  | cons v docs ih =>
    rw [List.map_cons, List.filter_cons, List.filter_cons, ih]
    by_cases hhash : v.hash ∈ txs.map ClientTransactionWithMetaData.hash
    · rw [if_pos hhash, if_neg Bool.false_ne_true]
      cases v.inMempool with
      | true => rw [if_pos rfl, List.filter_cons, if_neg (by simpa using hhash)]
      | false => rw [if_neg Bool.false_ne_true]
    · rw [if_neg hhash]
      cases v.inMempool with
      | true => rw [if_pos rfl, if_pos rfl, List.filter_cons, if_pos (by simpa using hhash)]
      | false => rw [if_neg Bool.false_ne_true, if_neg Bool.false_ne_true]

/-- The deposits that a preparation deletes are those with the fields of a stale or a chosen deposit,
or of a default deposit that fills up a chosen group. -/
theorem deposits_preparedDb :
    (preparedDb cfg s).deposits = s.transactions.deposits.filter fun d =>
      d.deleteKey ∉ (staleDeposits cfg s ++ ((chosenGroups cfg s).map padGroup).flatten).map
        DepositDatawithFee.deleteKey := by
  rw [preparedDb, cleanedDb, deposits_setInMempool, deposits_removeMempoolDeposits,
    deposits_setInMempool, deposits_removeMempoolDeposits, List.filter_filter, List.flatten_singleton]
  refine List.filter_congr fun d _ => ?_
  rw [Bool.eq_iff_iff, Bool.and_eq_true, decide_eq_true_iff, decide_eq_true_iff,
    decide_eq_true_iff, List.map_append, List.mem_append]
  tauto

theorem mempool_preparedDb :
    (preparedDb cfg s).mempool = s.transactions.mempool.filter fun v =>
      v.hash ∉ (staleTransactions s ++ chosenTransactions cfg s).map
        ClientTransactionWithMetaData.hash := by
  rw [preparedDb, cleanedDb, mempool_setInMempool, mempool_removeMempoolDeposits,
    mempool_setInMempool, mempool_removeMempoolDeposits, List.filter_filter]
  refine List.filter_congr fun v _ => ?_
  rw [Bool.eq_iff_iff, Bool.and_eq_true, decide_eq_true_iff, decide_eq_true_iff,
    decide_eq_true_iff, List.map_append, List.mem_append]
  tauto

/-! ### Nothing is lost and nothing is used twice -/

/-- What a preparation that returned `used` and `txs` and left the state `s'` should have done. -/
structure PreparesRight (cfg : ProposerConfig P) (s : ProposerState P)
    (used : List (List DepositDatawithFee)) (txs : List (ClientTransactionWithMetaData P))
    (s' : ProposerState P) : Prop where
  /-- The deposits of the selection are the chosen groups, filled up. -/
  used_eq : used = (chosenGroups cfg s).map padGroup
  txs_eq : txs = chosenTransactions cfg s
  /-- A deposit is in a stored block, in the selection or still there. -/
  deposits : s.transactions.deposits.Perm
    ((staleDeposits cfg s ++ (chosenGroups cfg s).flatten) ++ s'.transactions.deposits)
  /-- A client transaction is in a stored block, in the selection or still in the mempool. -/
  transactions : s.transactions.mempool.Perm
    ((staleTransactions s ++ txs) ++ s'.transactions.mempool)
  size : used.length + txs.length ≤ cfg.blockSize
  fours : ∀ group ∈ used, group.length = 4
  /-- Only the last of the groups that were formed is filled up. -/
  padding : ∀ group ∈ (formedGroups cfg s).dropLast, group.length = 4
  fees : ∀ unit ∈ chosenUnits cfg s, ∀ other ∈ leftUnits cfg s,
    other.totalFee.val ≤ unit.totalFee.val

/-- Nothing that is left out has the fields of something that leaves the mempool. -/
structure LeftAlone (cfg : ProposerConfig P) (s : ProposerState P) : Prop where
  deposits : ∀ d ∈ leftDeposits cfg s,
    ∀ e ∈ staleDeposits cfg s ++ ((chosenGroups cfg s).map padGroup).flatten,
      ¬ (e.depositData.secretHash = d.depositData.secretHash ∧
        e.depositData.nfSlotId = d.depositData.nfSlotId)
  transactions : ∀ v ∈ leftTransactions cfg s,
    ∀ w ∈ staleTransactions s ++ chosenTransactions cfg s, w.hash ≠ v.hash

theorem length_chosen : (chosenGroups cfg s).length + (chosenTransactions cfg s).length =
    (chosenUnits cfg s).length := by
  rw [chosenGroups, chosenTransactions]
  induction chosenUnits cfg s with
  | nil => rfl
  | cons unit units ih =>
    cases unit with
    | deposits group =>
      change (group :: units.filterMap BlockUnit.group?).length +
        (units.filterMap BlockUnit.client?).length = _
      rw [List.length_cons, List.length_cons, ← ih]
      omega
    | client tx =>
      change (units.filterMap BlockUnit.group?).length +
        (tx :: units.filterMap BlockUnit.client?).length = _
      rw [List.length_cons, List.length_cons, ← ih]
      omega

theorem mem_formedGroups {group : List DepositDatawithFee} (h : group ∈ chosenGroups cfg s) :
    group ∈ formedGroups cfg s := by
  obtain ⟨unit, hunit, hgroup⟩ := List.mem_filterMap.1 h
  have hmem : unit ∈ blockUnits cfg s := mem_ranked.1 (List.mem_of_mem_take hunit)
  rw [← filterMap_group?_blockUnits]
  exact List.mem_filterMap.2 ⟨unit, hmem, hgroup⟩

/-- Something is chosen if something is pending. -/
theorem chosen_of_pending (hsize : AllowedBlockSize cfg.blockSize)
    (hpending : ¬ NothingPending cfg s) :
    (∃ d, d ∈ (chosenGroups cfg s).flatten) ∨ ∃ tx, tx ∈ chosenTransactions cfg s := by
  have hpos : 0 < cfg.blockSize := by
    rcases hsize with h | h | h <;> omega
  have hunits : blockUnits cfg s ≠ [] := by
    intro hnil
    obtain ⟨hgroups, htxs⟩ := List.append_eq_nil_iff.1 hnil
    refine hpending ⟨?_, List.map_eq_nil_iff.1 htxs⟩
    have hflatten := flatten_chunks (by omega : 0 < 4)
      (ranked (fun d => d.fee.val) (pendingDeposits cfg s))
    rw [← formedGroups, List.map_eq_nil_iff.1 hgroups] at hflatten
    exact ((List.Perm.of_eq hflatten).trans (ranked_perm _ _)).nil_eq.symm
  have hchosen : chosenUnits cfg s ≠ [] := by
    rw [← List.length_pos_iff, chosenUnits, List.length_take, (ranked_perm _ _).length_eq]
    exact lt_min hpos (List.length_pos_iff.2 hunits)
  obtain ⟨unit, hunit⟩ := List.exists_mem_of_ne_nil _ hchosen
  cases unit with
  | deposits group =>
    have hgroup : group ∈ chosenGroups cfg s := List.mem_filterMap.2 ⟨_, hunit, rfl⟩
    obtain ⟨d, hd⟩ := List.exists_mem_of_ne_nil _
      (ne_nil_of_mem_chunks (by omega) (mem_formedGroups hgroup))
    exact .inl ⟨d, List.mem_flatten.2 ⟨group, hgroup, hd⟩⟩
  | client tx => exact .inr ⟨tx, List.mem_filterMap.2 ⟨_, hunit, rfl⟩⟩

theorem not_kept_of_mem_chosen {d : DepositDatawithFee}
    (h : d ∈ staleDeposits cfg s ++ (chosenGroups cfg s).flatten) :
    decide (d.deleteKey ∉ (staleDeposits cfg s ++ ((chosenGroups cfg s).map padGroup).flatten).map
      DepositDatawithFee.deleteKey) = false := by
  rw [decide_eq_false_iff_not, not_not]
  refine List.mem_map_of_mem (List.mem_append.2 ((List.mem_append.1 h).imp_right fun hmem => ?_))
  obtain ⟨group, hgroup, hdeposit⟩ := List.mem_flatten.1 hmem
  exact List.mem_flatten.2 ⟨padGroup group, List.mem_map_of_mem hgroup,
    List.mem_append_left _ hdeposit⟩

theorem deposits_conserved_iff :
    s.transactions.deposits.Perm ((staleDeposits cfg s ++ (chosenGroups cfg s).flatten) ++
        (preparedDb cfg s).deposits) ↔
      ∀ d ∈ leftDeposits cfg s,
        ∀ e ∈ staleDeposits cfg s ++ ((chosenGroups cfg s).map padGroup).flatten,
          ¬ (e.depositData.secretHash = d.depositData.secretHash ∧
            e.depositData.nfSlotId = d.depositData.nfSlotId) := by
  rw [deposits_preparedDb, perm_append_filter_iff deposits_perm fun d => not_kept_of_mem_chosen]
  refine forall₂_congr fun d _ => ?_
  rw [decide_eq_true_iff, List.mem_map]
  constructor
  · intro hno e he heq
    exact hno ⟨e, he, DepositDatawithFee.deleteKey_inj.2 heq⟩
  · rintro hall ⟨e, he, heq⟩
    exact hall e he (DepositDatawithFee.deleteKey_inj.1 heq)

theorem mempool_conserved_iff :
    s.transactions.mempool.Perm ((staleTransactions s ++ chosenTransactions cfg s) ++
        (preparedDb cfg s).mempool) ↔
      ∀ v ∈ leftTransactions cfg s, ∀ w ∈ staleTransactions s ++ chosenTransactions cfg s,
        w.hash ≠ v.hash := by
  rw [mempool_preparedDb, perm_append_filter_iff mempool_perm]
  · refine forall₂_congr fun v _ => ?_
    rw [decide_eq_true_iff, List.mem_map]
    constructor
    · intro hno w hw heq
      exact hno ⟨w, hw, heq⟩
    · rintro hall ⟨w, hw, heq⟩
      exact hall w hw heq
  · intro v hv
    rw [decide_eq_false_iff_not, not_not]
    exact List.mem_map_of_mem hv

/-- **When a preparation neither loses nor duplicates anything**: if, and only if, nothing that is left
out of the block has the secret hash and the slot of a deposit that leaves the mempool, or of a
default deposit in the block, or the hash of a transaction that leaves it. -/
theorem preparesRight_iff (h : (prepareBlockData cfg).run s = .ok (used, txs) s') :
    PreparesRight cfg s used txs s' ↔ LeftAlone cfg s := by
  obtain ⟨-, rfl, rfl, rfl⟩ := run_prepareBlockData_eq_ok.1 h
  constructor
  · intro hright
    exact ⟨deposits_conserved_iff.1 hright.deposits, mempool_conserved_iff.1 hright.transactions⟩
  · intro halone
    refine ⟨rfl, rfl, deposits_conserved_iff.2 halone.deposits,
      mempool_conserved_iff.2 halone.transactions, ?_, ?_, ?_, ?_⟩
    · rw [List.length_map, length_chosen, chosenUnits]
      exact List.length_take_le _ _
    · intro group hgroup
      obtain ⟨formed, hformed, rfl⟩ := List.mem_map.1 hgroup
      exact length_padGroup (length_le_of_mem_chunks (mem_formedGroups hformed))
    · intro group hgroup
      exact length_of_mem_dropLast_chunks (by omega) hgroup
    · intro unit hunit other hother
      exact key_le_of_mem_drop (fun u : BlockUnit P => u.totalFee.val) hunit hother

end Preparation

/-! ### A deposit that is lost -/

/-- A deposit. -/
def sampleDeposit (value : ℕ) : DepositDatawithFee := ⟨0, (3 : ℕ), (2 : ℕ), value, (8 : ℕ)⟩

/-- Enough client transactions to fill a block. -/
def sampleCrowd : List (ClientTransactionWithMetaData (PlonkProof ℕ)) :=
  (List.range 64).map fun i => sampleTransaction.admitted [BitVec.ofNat 8 i]

/-- A proposer with a deposit that is in a stored block, another one with the same secret hash and
slot, and 64 client transactions that pay more. -/
def crowdedProposer : ProposerState (PlonkProof ℕ) :=
  { sampleProposer with
    blocks := [⟨0, [toHexString ((sampleDeposit 10).depositData.commitment List.sum)], 1⟩]
    transactions := ⟨sampleCrowd, [sampleDeposit 10, sampleDeposit 20]⟩ }

theorem pendingTransactions_crowdedProposer :
    pendingTransactions crowdedProposer = sampleCrowd := by
  have hpending : (sampleTransaction.admitted []).isPending (commitmentsOnchain crowdedProposer.blocks) =
      true := by decide +kernel
  have hmempool : crowdedProposer.transactions.mempool = sampleCrowd := by decide +kernel
  rw [pendingTransactions, hmempool, List.filter_eq_self]
  intro doc hdoc
  obtain ⟨i, -, rfl⟩ := List.mem_map.1 hdoc
  exact hpending

theorem mem_leftDeposits_crowdedProposer :
    sampleDeposit 20 ∈ leftDeposits sampleConfig crowdedProposer := by
  have hgroups : formedGroups sampleConfig crowdedProposer = [[sampleDeposit 20]] := by decide +kernel
  rw [leftDeposits, leftUnits, blockUnits, pendingTransactions_crowdedProposer, hgroups]
  decide +kernel

/-- The second deposit is left out of the block, and deleted with the first one. -/
theorem not_preparesRight :
    ∃ used txs s', (prepareBlockData sampleConfig).run crowdedProposer = .ok (used, txs) s' ∧
      ¬ PreparesRight sampleConfig crowdedProposer used txs s' := by
  have hpending : ¬ NothingPending sampleConfig crowdedProposer := by
    rintro ⟨-, hnone⟩
    rw [pendingTransactions_crowdedProposer] at hnone
    cases hnone
  refine ⟨_, _, _, run_prepareBlockData_of_pending (.inl rfl) hpending, ?_⟩
  intro hright
  have hstale : sampleDeposit 10 ∈ staleDeposits sampleConfig crowdedProposer := by decide +kernel
  exact deposits_conserved_iff.1 hright.deposits _ mem_leftDeposits_crowdedProposer _
    (List.mem_append_left _ hstale) ⟨rfl, rfl⟩

theorem preparesRight_sample :
    ∃ used txs s', (prepareBlockData sampleConfig).run { sampleProposer with
        transactions := ⟨[], [sampleDeposit 10, sampleDeposit 20]⟩ } = .ok (used, txs) s' ∧
      PreparesRight sampleConfig { sampleProposer with
        transactions := ⟨[], [sampleDeposit 10, sampleDeposit 20]⟩ } used txs s' := by
  have hpending : ¬ NothingPending sampleConfig { sampleProposer with
      transactions := ⟨[], [sampleDeposit 10, sampleDeposit 20]⟩ } := by
    rintro ⟨hnone, -⟩
    cases hnone
  have hrun := run_prepareBlockData_of_pending (.inl rfl) hpending
  refine ⟨_, _, _, hrun, (preparesRight_iff hrun).2 ⟨?_, ?_⟩⟩
  · have hleft : leftDeposits sampleConfig { sampleProposer with
        transactions := ⟨[], [sampleDeposit 10, sampleDeposit 20]⟩ } = [] := by decide +kernel
    rw [hleft]
    exact fun d hd => absurd hd List.not_mem_nil
  · have hleft : leftTransactions sampleConfig { sampleProposer with
        transactions := ⟨[], [sampleDeposit 10, sampleDeposit 20]⟩ } = [] := by decide +kernel
    rw [hleft]
    exact fun v hv => absurd hv List.not_mem_nil

end Node

end Nightfall
