import Nightfall.Client.Inputs
import Nightfall.Node.Events

/-!
# The transactions of the proposer

The proposer keeps deposits in one collection and client transactions in another.  The mempool are
all deposits, and the client transactions that are marked as being in it.  A deposit that was used is
deleted, by its secret hash and its slot; a client transaction that was used stays in its collection
and loses the mark, by its hash.
-/

namespace Nightfall

namespace Node

open Evm Trees

/-! ### Deposits and client transactions -/

/-- A deposit, as the proposer stores it. -/
structure DepositData where
  nfTokenId : Fr254
  nfSlotId : Fr254
  value : Fr254
  secretHash : Fr254
  deriving DecidableEq, Repr

/-- A deposit and its fee. -/
structure DepositDatawithFee where
  fee : Fr254
  depositData : DepositData
  deriving DecidableEq, Repr

/-- `DepositData::default`. -/
def DepositData.default : DepositData := ⟨0, 0, 0, 0⟩

/-- `DepositDatawithFee::default`. -/
def DepositDatawithFee.default : DepositDatawithFee := ⟨0, .default⟩

/-- A transaction that a client hands to a proposer, with a proof of type `P`. -/
structure ClientTransaction (P : Type) where
  fee : Fr254
  historicCommitmentRoots : Fin 4 → Fr254
  commitments : Fin 4 → Fr254
  nullifiers : Fin 4 → Fr254
  compressedSecrets : CompressedSecrets
  proof : P
  deriving DecidableEq

/-- A client transaction with what the proposer knows of it. -/
structure ClientTransactionWithMetaData (P : Type) where
  clientTransaction : ClientTransaction P
  blockL2 : Option ℕ
  inMempool : Bool
  hash : Bytes
  historicRoots : List Fr254
  deriving DecidableEq

section Conversions

variable {P : Type}

/-- `PublicInputs::from`. -/
def ClientTransaction.publicInputs (tx : ClientTransaction P) : Client.PublicInputs Fr254 where
  fee := tx.fee
  roots := tx.historicCommitmentRoots
  commitments := tx.commitments
  nullifiers := tx.nullifiers
  compressedSecrets := tx.compressedSecrets.cipherText

/-- `OnChainTransaction::from`, of public inputs. -/
def OnChainTransaction.ofPublicInputs (p : Client.PublicInputs Fr254) : OnChainTransaction where
  fee := p.fee
  commitments := p.commitments
  nullifiers := p.nullifiers
  publicData := ⟨p.compressedSecrets⟩

/-- `OnChainTransaction::from`, of a client transaction. -/
def ClientTransaction.toOnChain (tx : ClientTransaction P) : OnChainTransaction where
  fee := tx.fee
  commitments := tx.commitments
  nullifiers := tx.nullifiers
  publicData := tx.compressedSecrets

end Conversions

/-! ### The database -/

/-- The two collections of transactions, the oldest documents first. -/
structure TransactionsDb (P : Type) where
  clientTransactions : List (ClientTransactionWithMetaData P)
  deposits : List DepositDatawithFee
  deriving DecidableEq

/-- The fields by which a deposit is deleted, in hexadecimal digits. -/
def DepositDatawithFee.deleteKey (deposit : DepositDatawithFee) : List Char × List Char :=
  (toHexString deposit.depositData.secretHash, toHexString deposit.depositData.nfSlotId)

namespace TransactionsDb

variable {P : Type}

/-- No documents. -/
def empty : TransactionsDb P := ⟨[], []⟩

/-- `store_transaction`. -/
def storeTransaction (db : TransactionsDb P) (transaction : ClientTransactionWithMetaData P) :
    TransactionsDb P :=
  { db with clientTransactions := db.clientTransactions ++ [transaction] }

/-- `get_all_mempool_client_transactions`. -/
def getAllMempoolClientTransactions (db : TransactionsDb P) :
    Option (List (Bytes × ClientTransactionWithMetaData P)) :=
  let result := (db.clientTransactions.filter (·.inMempool)).map fun v => (v.hash, v)
  if result.isEmpty then none else some result

/-- `set_in_mempool`: all documents with the hash of one of the transactions are marked. -/
def setInMempool (db : TransactionsDb P) (txs : List (ClientTransactionWithMetaData P))
    (inMempool : Bool) : TransactionsDb P :=
  { db with clientTransactions := db.clientTransactions.map fun v =>
      if v.hash ∈ txs.map ClientTransactionWithMetaData.hash then { v with inMempool := inMempool }
      else v }

/-- `find_transaction`, for the hash of the transaction: only the mempool is searched. -/
def findTransaction (db : TransactionsDb P) (hash : Bytes) :
    Option (ClientTransactionWithMetaData P) :=
  db.clientTransactions.find? fun v => decide (v.hash = hash ∧ v.inMempool = true)

/-- `set_mempool_deposits`. -/
def setMempoolDeposits (db : TransactionsDb P) (deposits : List DepositDatawithFee) :
    TransactionsDb P :=
  { db with deposits := db.deposits ++ deposits }

/-- `get_mempool_deposits`. -/
def getMempoolDeposits (db : TransactionsDb P) : Option (List DepositDatawithFee) :=
  if db.deposits.isEmpty then none else some db.deposits

/-- `remove_mempool_deposits`: all documents with the secret hash and the slot of a used deposit are
deleted. -/
def removeMempoolDeposits (db : TransactionsDb P) (usedDeposits : List (List DepositDatawithFee)) :
    TransactionsDb P :=
  { db with deposits := db.deposits.filter fun d =>
      d.deleteKey ∉ usedDeposits.flatten.map DepositDatawithFee.deleteKey }

@[simp] theorem getD_getMempoolDeposits (db : TransactionsDb P) :
    db.getMempoolDeposits.getD [] = db.deposits := by
  rw [getMempoolDeposits]
  split_ifs with h
  · exact (List.isEmpty_iff.1 h).symm
  · rfl

@[simp] theorem map_getAllMempoolClientTransactions (db : TransactionsDb P) :
    (db.getAllMempoolClientTransactions.getD []).map Prod.snd =
      db.clientTransactions.filter (·.inMempool) := by
  rw [getAllMempoolClientTransactions]
  split_ifs with h
  · rw [List.isEmpty_iff, List.map_eq_nil_iff] at h
    rw [h, Option.getD_none, List.map_nil]
  · rw [Option.getD_some, List.map_map]
    exact List.map_id _

theorem findTransaction_eq_none {db : TransactionsDb P} {hash : Bytes} :
    db.findTransaction hash = none ↔
      ∀ doc ∈ db.clientTransactions, doc.inMempool = true → doc.hash ≠ hash := by
  rw [findTransaction, List.find?_eq_none]
  refine forall₂_congr fun doc _ => ?_
  rw [decide_eq_true_iff, not_and']

end TransactionsDb

theorem toHexString_inj {a b : Fr254} : toHexString a = toHexString b ↔ a = b := by
  rw [toHexString, toHexString, ← serializeToPaddedHex_eq, ← serializeToPaddedHex_eq,
    serializeToPaddedHex_inj]

theorem DepositDatawithFee.deleteKey_inj {d e : DepositDatawithFee} :
    d.deleteKey = e.deleteKey ↔
      d.depositData.secretHash = e.depositData.secretHash ∧
        d.depositData.nfSlotId = e.depositData.nfSlotId := by
  rw [deleteKey, deleteKey, Prod.mk.injEq, toHexString_inj, toHexString_inj]

end Node

end Nightfall
