import Nightfall.Node.Words
import Nightfall.Semantics.Stateful
import Nightfall.Trees.Indexed

/-!
# What the nodes read from the blockchain

The proposer and the client follow the events of the Nightfall contract.  For an event they retrieve
the transaction that emitted it and decode its calldata.  A handler that fails returns an error or
panics; what it wrote before stays written.

The database is modelled as one that answers, except for the calls on trees: how a call fails is
part of the surroundings (`Fault`).
-/

namespace Nightfall

namespace Node

open Evm Trees Stateful
open Contract (Address)

/-! ### Failures -/

/-- The errors of an event handler. -/
inductive EventHandlerError
  | noEventStream
  | streamTerminated
  | invalidCalldata
  | ioError (message : String)
  /-- The number is the one of the block that is expected. -/
  | missingBlocks (n : ℕ)
  | hashError
  | blockNotFound (n : ℕ)
  | blockHashError (expected found : Fr254)
  deriving DecidableEq, Repr

/-- How a computation of a node fails. -/
inductive Failure (ε : Type)
  /-- It returns an error. -/
  | err (e : ε)
  /-- It panics. -/
  | panic (message : String)
  deriving DecidableEq, Repr

/-- A computation of a node with the given errors and the given state. -/
abbrev NodeM (ε σ : Type) := EStateM (Failure ε) σ

section Helpers

variable {ε σ α : Type}

/-- The state that a computation leaves, however it ends. -/
def stateAfter (x : NodeM ε σ α) (s : σ) : σ :=
  match x.run s with
  | .ok _ s' => s'
  | .error _ s' => s'

/-- Return an error. -/
def throwErr (e : ε) : NodeM ε σ α := throw (.err e)

/-- The value, or an error. -/
def okOr (e : ε) : Option α → NodeM ε σ α
  | some a => pure a
  | none => throwErr e

/-- The value, or an error made of its text. -/
def okOrElse (toError : String → ε) : Except String α → NodeM ε σ α
  | .ok a => pure a
  | .error message => throwErr (toError message)

/-- The value, or a panic. -/
def expect (message : String) : Option α → NodeM ε σ α
  | some a => pure a
  | none => throw (.panic message)

/-- The value of a conversion, or its panic. -/
def orPanic : Except String α → NodeM ε σ α
  | .ok a => pure a
  | .error message => throw (.panic message)

/-- Do something if a condition holds. -/
def when (c : Prop) [Decidable c] (x : NodeM ε σ Unit) : NodeM ε σ Unit := if c then x else pure ()

variable {s s' : σ} {a : α}

theorem stateAfter_of_ok {x : NodeM ε σ α} (h : x.run s = .ok a s') : stateAfter x s = s' := by
  rw [stateAfter, h]

theorem stateAfter_of_error {x : NodeM ε σ α} {f : Failure ε} (h : x.run s = .error f s') :
    stateAfter x s = s' := by
  rw [stateAfter, h]

theorem Preserves.stateAfter {γ : Type} {p : σ → γ} {x : NodeM ε σ α} (h : Preserves p x) (s : σ) :
    p (stateAfter x s) = p s := by
  rcases run_cases x s with ⟨a, s', hrun⟩ | ⟨e, s', hrun⟩
  · rw [stateAfter_of_ok hrun, h.keeps s a s' hrun]
  · rw [stateAfter_of_error hrun, h.of_error s e s' hrun]

theorem stateAfter_bind_of_ok {β : Type} {x : NodeM ε σ α} {f : α → NodeM ε σ β}
    (h : x.run s = .ok a s') : stateAfter (x >>= f) s = stateAfter (f a) s' := by
  rw [stateAfter, EStateM.run_bind, h]
  rfl

theorem run_okOr_eq_ok {e : ε} {o : Option α} :
    (okOr e o : NodeM ε σ α).run s = .ok a s' ↔ o = some a ∧ s' = s := by
  cases o with
  | none => exact ⟨fun h => absurd h run_throw_ne_ok, fun h => (by cases h.1)⟩
  | some b => rw [okOr, run_pure_eq_ok, Option.some_inj, eq_comm (a := s)]

theorem run_okOr_eq_error {e : ε} {o : Option α} {f : Failure ε} :
    (okOr e o : NodeM ε σ α).run s = .error f s' ↔ o = none ∧ f = .err e ∧ s' = s := by
  cases o with
  | none =>
    rw [okOr, throwErr, run_throw_eq_error, eq_comm (a := f), eq_comm (a := s')]
    exact ⟨fun h => ⟨rfl, h⟩, fun h => h.2⟩
  | some b => exact ⟨fun h => absurd h run_pure_ne_error, fun h => (by cases h.1)⟩

theorem run_okOrElse_eq_ok {toError : String → ε} {x : Except String α} :
    (okOrElse toError x : NodeM ε σ α).run s = .ok a s' ↔ x = .ok a ∧ s' = s := by
  cases x with
  | error m => exact ⟨fun h => absurd h run_throw_ne_ok, fun h => (by cases h.1)⟩
  | ok b => rw [okOrElse, run_pure_eq_ok, Except.ok.injEq, eq_comm (a := s)]

theorem run_okOrElse_eq_error {toError : String → ε} {x : Except String α} {f : Failure ε} :
    (okOrElse toError x : NodeM ε σ α).run s = .error f s' ↔
      (∃ m, x = .error m ∧ f = .err (toError m)) ∧ s' = s := by
  cases x with
  | error m =>
    rw [okOrElse, throwErr, run_throw_eq_error]
    constructor
    · rintro ⟨rfl, rfl⟩
      exact ⟨⟨m, rfl, rfl⟩, rfl⟩
    · rintro ⟨⟨_, ⟨⟩, rfl⟩, rfl⟩
      exact ⟨rfl, rfl⟩
  | ok b =>
    constructor
    · intro h
      exact absurd h run_pure_ne_error
    · rintro ⟨⟨_, ⟨⟩, _⟩, _⟩

theorem run_expect_eq_ok {message : String} {o : Option α} :
    (expect message o : NodeM ε σ α).run s = .ok a s' ↔ o = some a ∧ s' = s := by
  cases o with
  | none => exact ⟨fun h => absurd h run_throw_ne_ok, fun h => (by cases h.1)⟩
  | some b => rw [expect, run_pure_eq_ok, Option.some_inj, eq_comm (a := s)]

theorem run_expect_eq_error {message : String} {o : Option α} {f : Failure ε} :
    (expect message o : NodeM ε σ α).run s = .error f s' ↔
      o = none ∧ f = .panic message ∧ s' = s := by
  cases o with
  | none =>
    rw [expect, run_throw_eq_error, eq_comm (a := f), eq_comm (a := s')]
    exact ⟨fun h => ⟨rfl, h⟩, fun h => h.2⟩
  | some b => exact ⟨fun h => absurd h run_pure_ne_error, fun h => (by cases h.1)⟩

theorem run_orPanic_eq_ok {x : Except String α} :
    (orPanic x : NodeM ε σ α).run s = .ok a s' ↔ x = .ok a ∧ s' = s := by
  cases x with
  | error m => exact ⟨fun h => absurd h run_throw_ne_ok, fun h => (by cases h.1)⟩
  | ok b => rw [orPanic, run_pure_eq_ok, Except.ok.injEq, eq_comm (a := s)]

theorem run_orPanic_eq_error {x : Except String α} {f : Failure ε} :
    (orPanic x : NodeM ε σ α).run s = .error f s' ↔ (∃ m, x = .error m ∧ f = .panic m) ∧ s' = s := by
  cases x with
  | error m =>
    rw [orPanic, run_throw_eq_error]
    constructor
    · rintro ⟨rfl, rfl⟩
      exact ⟨⟨m, rfl, rfl⟩, rfl⟩
    · rintro ⟨⟨_, ⟨⟩, rfl⟩, rfl⟩
      exact ⟨rfl, rfl⟩
  | ok b =>
    constructor
    · intro h
      exact absurd h run_pure_ne_error
    · rintro ⟨⟨_, ⟨⟩, _⟩, _⟩

end Helpers

section Preservation

variable {ε σ α γ : Type} {p : σ → γ}

theorem preserves_okOr (e : ε) (o : Option α) : Preserves p (okOr e o : NodeM ε σ α) := by
  cases o with
  | some a => exact .pure a
  | none => exact .throw _

theorem preserves_okOrElse (toError : String → ε) (x : Except String α) :
    Preserves p (okOrElse toError x : NodeM ε σ α) := by
  cases x with
  | ok a => exact .pure a
  | error message => exact .throw _

theorem preserves_expect (message : String) (o : Option α) :
    Preserves p (expect message o : NodeM ε σ α) := by
  cases o with
  | some a => exact .pure a
  | none => exact .throw _

theorem preserves_orPanic (x : Except String α) : Preserves p (orPanic x : NodeM ε σ α) := by
  cases x with
  | ok a => exact .pure a
  | error m => exact .throw _

end Preservation

/-! ### Conversions -/

/-- The conversion of a block number to 64 bits. -/
def toU64 (n : ℤ) : Option ℕ := if 0 ≤ n ∧ n < 2 ^ 64 then some n.toNat else none

theorem toU64_eq_some {n : ℤ} {m : ℕ} : toU64 n = some m ↔ n = m ∧ m < 2 ^ 64 := by
  unfold toU64
  split_ifs with h
  · rw [Option.some_inj]
    omega
  · constructor
    · intro hsome
      cases hsome
    · intro hand
      omega

/-- `to_hex_string`: the digits of the 32 bytes, most significant first. -/
def toHexString (a : Fr254) : List Char := (bytesLE 32 a.val).reverse.flatMap hexByte

/-- Convert words one by one, until one doesn't convert. -/
def convertAll (words : List U256) : Option (List Fr254) := words.mapM tryFrom

/-! ### Stored blocks -/

/-- The 20 bytes of an address. -/
def addressBytes (a : Address) : Bytes :=
  List.ofFn fun i : Fin 20 => a.extractLsb' (8 * (19 - i)) 8

/-- What a node stores of a block. -/
structure StoredBlock where
  layer2BlockNumber : ℕ
  /-- The commitments, in hexadecimal digits. -/
  commitments : List (List Char)
  proposerAddress : Address
  deriving DecidableEq, Repr

/-- `StoredBlock::hash`: of the commitments and the proposer, not of the number. -/
def StoredBlock.hash (sha256 : Bytes → U256) (block : StoredBlock) : Fr254 :=
  (sha256 (block.commitments.flatten.map (fun c => BitVec.ofNat 8 c.toNat) ++
    addressBytes block.proposerAddress)).toNat

/-- What is stored of a block whose transactions were converted. -/
def StoredBlock.ofTransactions (number : ℕ) (transactions : List OnChainTransaction)
    (proposer : Address) : StoredBlock :=
  ⟨number, transactions.flatMap fun tx => (List.ofFn tx.commitments).map toHexString, proposer⟩

/-- The block that an event says is on the chain. -/
def pendingBlock (number : ℕ) (blk : Contract.Block) (proposer : Address) :
    Except String StoredBlock := do
  let transactions ← blk.transactions.mapM OnChainTransaction.ofContract
  return .ofTransactions number transactions proposer

/-- What is stored of a block whose words convert. -/
def convertedBlock (number : ℕ) (blk : Contract.Block) (proposer : Address) : StoredBlock :=
  .ofTransactions number (blk.transactions.map .converted) proposer

theorem pendingBlock_eq_ok {number : ℕ} {blk : Contract.Block} {proposer : Address}
    {block : StoredBlock} :
    pendingBlock number blk proposer = .ok block ↔
      (∀ ntx ∈ blk.transactions, TransactionConverts ntx) ∧
        block = convertedBlock number blk proposer := by
  rw [pendingBlock, bind_eq_ok]
  constructor
  · rintro ⟨txs, htxs, h⟩
    obtain ⟨hwords, rfl⟩ := mapM_ofContract_eq_ok.1 htxs
    exact ⟨hwords, (pure_eq_ok.1 h).symm⟩
  · rintro ⟨hwords, rfl⟩
    exact ⟨_, mapM_ofContract_eq_ok.2 ⟨hwords, rfl⟩, rfl⟩

/-- The blocks that a node has stored, in the order of their insertion. -/
abbrev ProposedBlocks := List StoredBlock

/-- `get_block_by_number`. -/
def ProposedBlocks.getBlockByNumber (blocks : ProposedBlocks) (number : ℕ) : Option StoredBlock :=
  blocks.find? fun block => decide (block.layer2BlockNumber = number)

/-- `delete_block_by_number`. -/
def ProposedBlocks.deleteBlockByNumber (blocks : ProposedBlocks) (number : ℕ) : ProposedBlocks :=
  blocks.eraseP fun block => decide (block.layer2BlockNumber = number)

/-- The first block with the number gets new commitments. -/
def ProposedBlocks.updateCommitments (number : ℕ) (commitments : List (List Char)) :
    ProposedBlocks → ProposedBlocks
  | [] => []
  | block :: blocks =>
    if block.layer2BlockNumber = number then { block with commitments := commitments } :: blocks
    else block :: ProposedBlocks.updateCommitments number commitments blocks

/-- `store_block`: a block that is there gets the new commitments and keeps its proposer. -/
def ProposedBlocks.storeBlock (blocks : ProposedBlocks) (block : StoredBlock) : ProposedBlocks :=
  if (blocks.getBlockByNumber block.layer2BlockNumber).isSome then
    blocks.updateCommitments block.layer2BlockNumber block.commitments
  else blocks ++ [block]

/-! ### The surroundings of a handler -/

/-- What the calldata of a transaction decode to. -/
inductive Calldata
  | proposeBlock (blk : Contract.Block)
  /-- `escrow_funds`, with the arguments that are read. -/
  | escrowFunds (fee : U256) (ercAddress : Address) (tokenId secretHash : U256)
  /-- Another function of the contract. -/
  | other
  /-- Not the calldata of a function of the contract. -/
  | undecodable (message : String)

/-- A transaction of the first layer. -/
structure Transaction where
  input : Calldata
  signer : Address

/-- The answer to `get_transaction_by_hash`. -/
inductive Lookup
  | failed (message : String)
  | notFound
  | found (tx : Transaction)

/-- How the database fails in a call, and what it leaves of the collections of the tree; `none` if it
doesn't fail. -/
abbrev Fault := Option (TreeDb Fr254 → TreeDb Fr254)

/-- A call on a tree that may meet a failing database. -/
def withFault {α : Type} (fault : Fault) (x : TreeM Fr254 α) : TreeM Fr254 α :=
  match fault with
  | none => x
  | some f => fun db => .error (.err .databaseError) (f db)

/-- A call on a tree of the node, with the error that is returned for the tree's. -/
def onTree {ε σ α : Type} (get : σ → TreeDb Fr254) (put : TreeDb Fr254 → σ → σ)
    (toError : MerkleTreeError → ε) (x : TreeM Fr254 α) : NodeM ε σ α := fun s =>
  match x.run (get s) with
  | .ok a db => .ok a (put db s)
  | .error (.err e) db => .error (.err (toError e)) (put db s)
  | .error (.panic m) db => .error (.panic m) (put db s)

section OnTree

variable {ε σ α : Type} {get : σ → TreeDb Fr254} {put : TreeDb Fr254 → σ → σ}
  {toError : MerkleTreeError → ε} {x : TreeM Fr254 α} {s s' : σ}

theorem run_onTree_eq_ok {a : α} :
    (onTree get put toError x).run s = .ok a s' ↔
      ∃ db, x.run (get s) = .ok a db ∧ s' = put db s := by
  rw [EStateM.run, onTree]
  cases x.run (get s) with
  | ok b db =>
    constructor
    · rintro ⟨⟩
      exact ⟨db, rfl, rfl⟩
    · rintro ⟨_, ⟨⟩, rfl⟩
      rfl
  | error e db =>
    constructor
    · intro h
      cases e with
      | err e => cases h
      | panic m => cases h
    · rintro ⟨_, ⟨⟩, _⟩

theorem run_onTree_eq_error {f : Failure ε} (h : (onTree get put toError x).run s = .error f s') :
    ∃ db, s' = put db s ∧ ((∃ e, x.run (get s) = .error (.err e) db ∧ f = .err (toError e)) ∨
      ∃ m, x.run (get s) = .error (.panic m) db ∧ f = .panic m) := by
  rw [EStateM.run, onTree] at h
  cases hx : x.run (get s) with
  | ok b db =>
    rw [hx] at h
    cases h
  | error e db =>
    rw [hx] at h
    cases e with
    | err e =>
      cases h
      exact ⟨db, rfl, .inl ⟨e, rfl, rfl⟩⟩
    | panic m =>
      cases h
      exact ⟨db, rfl, .inr ⟨m, rfl, rfl⟩⟩

/-- A call on a tree leaves what doesn't depend on the tree. -/
theorem preserves_onTree {γ : Type} {p : σ → γ} (hp : ∀ db s, p (put db s) = p s) :
    Preserves p (onTree get put toError x) where
  keeps s a s' h := by
    obtain ⟨db, -, rfl⟩ := run_onTree_eq_ok.1 h
    exact hp db s
  of_error s e s' h := by
    obtain ⟨db, rfl, -⟩ := run_onTree_eq_error h
    exact hp db s

end OnTree

/-- The hash functions of a node: of the nodes and the leaves of its trees and of bytes. -/
structure Hashing where
  treeHash : Fr254 → Fr254 → Fr254
  leafHash : Fr254 → Fr254 → Fr254 → Fr254
  sha256 : Bytes → U256

end Node

end Nightfall
