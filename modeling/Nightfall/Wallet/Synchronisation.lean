import Nightfall.Wallet.CommitmentDb

/-!
# The synchronisation status of a client

`getSynchronisationStatus` compares the number of the block that the client expects with the one that
the contract gives to the next block.  If they are equal, it looks for a stored block to compare with
the last block of the chain.  Both numbers are those of the next block, so that is where it looks,
and not under the number of the last one.

* `run_getSynchronisationStatus_eq_desynchronized` : when the client is told to start again;
* `run_getSynchronisationStatus_of_stored_lt` : without a block from the future no block is compared;
* `verdictRight_iff` : when the verdict is right.
-/

namespace Nightfall

namespace Wallet

open Node Stateful
open Contract (Address)

/-! ### The chain -/

/-- A block on the chain. -/
structure OnChainBlock where
  blk : Contract.Block
  proposer : Address
  /-- The transaction with the `BlockProposed` event. -/
  transaction : Transaction

/-- The blocks that the contract has accepted, in order. -/
structure Chain where
  /-- The number of the first block. -/
  initialLayer2BlockNumber : ℤ
  blocks : List OnChainBlock

/-- `layer2_block_number` of the contract: the number of the next block. -/
def Chain.layer2BlockNumber (chain : Chain) : ℤ :=
  chain.initialLayer2BlockNumber + chain.blocks.length

/-- The block of which the `BlockProposed` event has the number. -/
def Chain.getBlock (chain : Chain) (number : ℤ) : Option OnChainBlock :=
  if chain.initialLayer2BlockNumber ≤ number then
    chain.blocks[(number - chain.initialLayer2BlockNumber).toNat]?
  else none

theorem Chain.getBlock_last (chain : Chain) :
    chain.getBlock (chain.layer2BlockNumber - 1) = chain.blocks.getLast? := by
  rw [getBlock, layer2BlockNumber, List.getLast?_eq_getElem?]
  by_cases hempty : chain.blocks = []
  · rw [hempty]
    simp
  · have hlen := List.length_pos_iff.2 hempty
    have hindex : (chain.initialLayer2BlockNumber + chain.blocks.length - 1 -
        chain.initialLayer2BlockNumber).toNat = chain.blocks.length - 1 := by omega
    rw [if_pos (by omega), hindex]

/-- Which calls of the provider and of the database fail, and how. -/
structure ChainFaults where
  /-- `layer2_block_number`. -/
  layer2BlockNumber : Option String
  /-- `get_block_by_number` of the database. -/
  storedBlock : Option String
  /-- `get_block_number`. -/
  blockNumber : Option String
  /-- `get_logs`. -/
  logs : Option String
  /-- The log has no transaction hash. -/
  transactionHash : Bool
  /-- `get_transaction_by_hash`. -/
  transaction : Option String
  /-- `get_transaction_by_hash` finds nothing. -/
  transactionMissing : Bool

/-- Nothing fails. -/
def ChainFaults.none : ChainFaults := ⟨.none, .none, .none, .none, false, .none, false⟩

/-- The errors of reading a block. -/
inductive NightfallContractError
  | blockNotFound (n : ℕ)
  | providerError (message : String)
  | missingTransactionHash (message : String)
  | transactionNotFound
  | abiDecodeError (message : String)
  | decodedCallError (message : String)
  deriving DecidableEq, Repr

/-- A call of the provider, which fails or does nothing. -/
def attempt (prefixText : String) : Option String → Except (Failure NightfallContractError) Unit
  | none => .ok ()
  | some e => .error (.err (.providerError (prefixText ++ e)))

/-- `as_u64` of the number in the error panics if it is negative or too large. -/
def blockNotFound (number : ℤ) : Failure NightfallContractError :=
  match toU64 number with
  | some n => .err (.blockNotFound n)
  | none => .panic "as_u64"

/-- The call that the transaction of a block makes. -/
def decodedBlock (tx : Transaction) :
    Except (Failure NightfallContractError) (Address × Contract.Block) :=
  match tx.input with
  | .undecodable e => .error (.err (.abiDecodeError ("ABI decode error: " ++ e)))
  | .proposeBlock blk => .ok (tx.signer, blk)
  | .escrowFunds _ _ _ _ => .error (.err (.decodedCallError "Decoded call was not propose_block"))
  | .other => .error (.err (.decodedCallError "Decoded call was not propose_block"))

/-- `get_layer2_block_by_number`: the block before the one with the number, and its signer. -/
def getLayer2BlockByNumber (chain : Chain) (faults : ChainFaults) (number : ℤ) :
    Except (Failure NightfallContractError) (Address × Contract.Block) := do
  attempt "get_block_number error: " faults.blockNumber
  attempt "Provider error: " faults.logs
  match chain.getBlock (number - 1) with
  | none => throw (blockNotFound (number - 1))
  | some block =>
    if faults.transactionHash then
      throw (.err (.missingTransactionHash "Log has no transaction hash"))
    else do
      attempt "get_transaction error: " faults.transaction
      if faults.transactionMissing then throw (.err .transactionNotFound)
      else decodedBlock block.transaction

/-! ### The status -/

/-- `SynchronisationPhase`. -/
inductive SynchronisationPhase
  | synchronized
  | aheadOfChain (blocksAhead : ℕ)
  | desynchronized
  deriving DecidableEq, Repr

section Status

variable (sha256 : Evm.Bytes → Evm.U256) (chain : Chain) (faults : ChainFaults)

/-- `layer2_block_number`, if it is read. -/
def readLayer2BlockNumber : Option ℤ :=
  match faults.layer2BlockNumber with
  | none => some chain.layer2BlockNumber
  | some _ => none

/-- `get_block_by_number` of the database: a failure is as good as no block. -/
def readStoredBlock (blocks : ProposedBlocks) (number : ℕ) : Option StoredBlock :=
  match faults.storedBlock with
  | none => blocks.getBlockByNumber number
  | some _ => none

/-- An error becomes an `IOError`; a panic is no error. -/
def orIoError {α : Type} (message : String) :
    Except (Failure NightfallContractError) α → ClientM EventHandlerError α
  | .ok a => pure a
  | .error (.err _) => throwErr (.ioError message)
  | .error (.panic m) => throw (.panic m)

/-- The comparison of a stored block with the block before the current number. -/
def compareStoredBlock (current : ℤ) (number : ℕ) (stored : StoredBlock) :
    ClientM EventHandlerError SynchronisationPhase := do
  let block ← orIoError "Could not read block from blockchain"
    (getLayer2BlockByNumber chain faults current)
  let pending ← orPanic (pendingBlock number block.2 block.1)
  if pending.hash sha256 ≠ stored.hash sha256 then pure .desynchronized else pure .synchronized

/-- Without a stored block the client counts as synchronised. -/
def compareIfStored (current : ℤ) (number : ℕ) :
    Option StoredBlock → ClientM EventHandlerError SynchronisationPhase
  | none => pure .synchronized
  | some stored => compareStoredBlock sha256 chain faults current number stored

/-- The comparison for a client that expects the next block of the chain. -/
def compareBlocks (current : ℤ) : ClientM EventHandlerError SynchronisationPhase := do
  let s ← get
  when (s.expected < 0)
    (throw (.panic ("expected_block_number is negative: " ++ toString s.expected)))
  let number ← expect "expected_block_number must be within u64 range" (toU64 s.expected)
  compareIfStored sha256 chain faults current number (readStoredBlock faults s.blocks number)

/-- `get_synchronisation_status`; `as_usize` panics if the number is too large. -/
def getSynchronisationStatus : ClientM EventHandlerError SynchronisationPhase := do
  let s ← get
  let current ← okOr (.ioError "Could not read current block") (readLayer2BlockNumber chain faults)
  if s.expected < current then pure .desynchronized
  else if current < s.expected then do
    let ahead ← expect "as_usize" (toU64 (s.expected - current))
    pure (.aheadOfChain ahead)
  else compareBlocks sha256 chain faults current

end Status

/-! ### Runs -/

/-- The calls for a block succeed. -/
def ChainFaults.ReadsBlock (faults : ChainFaults) : Prop :=
  faults.blockNumber = .none ∧ faults.logs = .none ∧ faults.transactionHash = false ∧
    faults.transaction = .none ∧ faults.transactionMissing = false

section Runs

variable {sha256 : Evm.Bytes → Evm.U256} {chain : Chain} {faults : ChainFaults}
  {s s' : ClientState} {current : ℤ} {number : ℕ} {stored : StoredBlock}
  {phase : SynchronisationPhase}

theorem decodedBlock_eq_ok {tx : Transaction} {block : Address × Contract.Block} :
    decodedBlock tx = .ok block ↔ tx.input = .proposeBlock block.2 ∧ tx.signer = block.1 := by
  rw [decodedBlock]
  cases tx.input with
  | proposeBlock blk =>
    constructor
    · rintro ⟨⟩
      exact ⟨rfl, rfl⟩
    · rintro ⟨⟨⟩, hsigner⟩
      rw [hsigner]
  | escrowFunds fee ercAddress tokenId secretHash =>
    exact iff_of_false (fun h => by cases h) (fun h => by cases h.1)
  | other => exact iff_of_false (fun h => by cases h) (fun h => by cases h.1)
  | undecodable message => exact iff_of_false (fun h => by cases h) (fun h => by cases h.1)

/-- What is read of the block before a number is its signer and its calldata. -/
theorem getLayer2BlockByNumber_eq_ok {block : Address × Contract.Block} :
    getLayer2BlockByNumber chain faults current = .ok block ↔
      faults.ReadsBlock ∧ ∃ b, chain.getBlock (current - 1) = some b ∧
        b.transaction.input = .proposeBlock block.2 ∧ b.transaction.signer = block.1 := by
  rw [getLayer2BlockByNumber, ChainFaults.ReadsBlock]
  cases hblock : faults.blockNumber with
  | some e => exact iff_of_false (fun h => by cases h) (fun h => by cases h.1.1)
  | none =>
    cases hlogs : faults.logs with
    | some e => exact iff_of_false (fun h => by cases h) (fun h => by cases h.1.2.1)
    | none =>
      cases hget : chain.getBlock (current - 1) with
      | none =>
        refine iff_of_false (fun h => by cases h) ?_
        rintro ⟨-, b, hb, -⟩
        cases hb
      | some b =>
        cases hhash : faults.transactionHash with
        | true => exact iff_of_false (fun h => by cases h) (fun h => by cases h.1.2.2.1)
        | false =>
          cases htx : faults.transaction with
          | some e => exact iff_of_false (fun h => by cases h) (fun h => by cases h.1.2.2.2.1)
          | none =>
            cases hmissing : faults.transactionMissing with
            | true => exact iff_of_false (fun h => by cases h) (fun h => by cases h.1.2.2.2.2)
            | false =>
              refine Iff.trans decodedBlock_eq_ok ?_
              constructor
              · intro h
                exact ⟨⟨rfl, rfl, rfl, rfl, rfl⟩, b, rfl, h⟩
              · rintro ⟨-, _, ⟨⟩, h⟩
                exact h

theorem run_orIoError_eq_ok {α : Type} {message : String}
    {x : Except (Failure NightfallContractError) α} {a : α} :
    (orIoError message x).run s = .ok a s' ↔ x = .ok a ∧ s' = s := by
  cases x with
  | error e =>
    cases e with
    | err e => exact ⟨fun h => absurd h run_throw_ne_ok, fun h => (by cases h.1)⟩
    | panic m => exact ⟨fun h => absurd h run_throw_ne_ok, fun h => (by cases h.1)⟩
  | ok b => rw [orIoError, run_pure_eq_ok, Except.ok.injEq, eq_comm (a := s)]

theorem run_compareStoredBlock_eq_ok :
    (compareStoredBlock sha256 chain faults current number stored).run s = .ok phase s' ↔
      s' = s ∧ ∃ block pending, getLayer2BlockByNumber chain faults current = .ok block ∧
        pendingBlock number block.2 block.1 = .ok pending ∧
          phase = if pending.hash sha256 ≠ stored.hash sha256 then .desynchronized
            else .synchronized := by
  rw [compareStoredBlock, run_bind_eq_ok]
  constructor
  · rintro ⟨block, t, hread, hrest⟩
    obtain ⟨hblock, rfl⟩ := run_orIoError_eq_ok.1 hread
    obtain ⟨pending, t, hconvert, hverdict⟩ := run_bind_eq_ok.1 hrest
    obtain ⟨hpending, rfl⟩ := run_orPanic_eq_ok.1 hconvert
    split_ifs at hverdict with hhash
    · obtain ⟨rfl, rfl⟩ := run_pure_eq_ok.1 hverdict
      exact ⟨rfl, block, pending, hblock, hpending, (if_pos hhash).symm⟩
    · obtain ⟨rfl, rfl⟩ := run_pure_eq_ok.1 hverdict
      exact ⟨rfl, block, pending, hblock, hpending, (if_neg hhash).symm⟩
  · rintro ⟨rfl, block, pending, hblock, hpending, rfl⟩
    refine ⟨block, s', run_orIoError_eq_ok.2 ⟨hblock, rfl⟩, ?_⟩
    refine run_bind_eq_ok.2 ⟨pending, s', run_orPanic_eq_ok.2 ⟨hpending, rfl⟩, ?_⟩
    split_ifs with hhash
    · rfl
    · rfl

theorem run_compareBlocks_eq_ok :
    (compareBlocks sha256 chain faults current).run s = .ok phase s' ↔
      ∃ number : ℕ, s.expected = number ∧ number < 2 ^ 64 ∧
        (compareIfStored sha256 chain faults current number
          (readStoredBlock faults s.blocks number)).run s = .ok phase s' := by
  rw [compareBlocks, run_bind_eq_ok]
  constructor
  · rintro ⟨_, _, ⟨⟩, hassert⟩
    obtain ⟨_, t, hnonneg, hrest⟩ := run_bind_eq_ok.1 hassert
    obtain ⟨number, t', hconvert, hcompare⟩ := run_bind_eq_ok.1 hrest
    obtain ⟨hnumber, rfl⟩ := run_expect_eq_ok.1 hconvert
    obtain ⟨heq, hlt⟩ := toU64_eq_some.1 hnumber
    rw [when, if_neg (by omega), run_pure_eq_ok] at hnonneg
    obtain ⟨-, rfl⟩ := hnonneg
    exact ⟨number, heq, hlt, hcompare⟩
  · rintro ⟨number, heq, hlt, hcompare⟩
    refine ⟨s, s, rfl, run_bind_eq_ok.2 ⟨(), s, ?_, run_bind_eq_ok.2 ⟨number, s, ?_, hcompare⟩⟩⟩
    · rw [when, if_neg (by omega), run_pure_eq_ok]
      exact ⟨rfl, rfl⟩
    · exact run_expect_eq_ok.2 ⟨toU64_eq_some.2 ⟨heq, hlt⟩, rfl⟩

theorem readLayer2BlockNumber_eq_some {n : ℤ} :
    readLayer2BlockNumber chain faults = some n ↔
      faults.layer2BlockNumber = none ∧ chain.layer2BlockNumber = n := by
  rw [readLayer2BlockNumber]
  cases faults.layer2BlockNumber with
  | none => exact ⟨fun h => ⟨rfl, Option.some_inj.1 h⟩, fun h => Option.some_inj.2 h.2⟩
  | some e => exact iff_of_false (fun h => by cases h) (fun h => by cases h.1)

/-- A verdict follows from the order of the two numbers, or from the comparison if they are equal. -/
theorem run_getSynchronisationStatus_eq_ok :
    (getSynchronisationStatus sha256 chain faults).run s = .ok phase s' ↔
      faults.layer2BlockNumber = none ∧
        ((s.expected < chain.layer2BlockNumber ∧ phase = .desynchronized ∧ s' = s) ∨
          (chain.layer2BlockNumber < s.expected ∧ (∃ ahead : ℕ,
            s.expected - chain.layer2BlockNumber = ahead ∧ ahead < 2 ^ 64 ∧
              phase = .aheadOfChain ahead) ∧ s' = s) ∨
          s.expected = chain.layer2BlockNumber ∧
            (compareBlocks sha256 chain faults chain.layer2BlockNumber).run s = .ok phase s') := by
  rw [getSynchronisationStatus, run_bind_eq_ok]
  constructor
  · rintro ⟨_, _, ⟨⟩, hrest⟩
    obtain ⟨current, t, hread, hverdict⟩ := run_bind_eq_ok.1 hrest
    obtain ⟨hcurrent, rfl⟩ := run_okOr_eq_ok.1 hread
    obtain ⟨hfault, rfl⟩ := readLayer2BlockNumber_eq_some.1 hcurrent
    refine ⟨hfault, ?_⟩
    split_ifs at hverdict with hbehind hahead
    · obtain ⟨rfl, rfl⟩ := run_pure_eq_ok.1 hverdict
      exact .inl ⟨hbehind, rfl, rfl⟩
    · obtain ⟨ahead, t, hnumber, hphase⟩ := run_bind_eq_ok.1 hverdict
      obtain ⟨hahead', rfl⟩ := run_expect_eq_ok.1 hnumber
      obtain ⟨heq, hlt⟩ := toU64_eq_some.1 hahead'
      obtain ⟨rfl, rfl⟩ := run_pure_eq_ok.1 hphase
      exact .inr (.inl ⟨hahead, ⟨ahead, heq, hlt, rfl⟩, rfl⟩)
    · exact .inr (.inr ⟨le_antisymm (not_lt.1 hahead) (not_lt.1 hbehind), hverdict⟩)
  · rintro ⟨hfault, hverdict⟩
    refine ⟨s, s, rfl, run_bind_eq_ok.2 ⟨chain.layer2BlockNumber, s,
      run_okOr_eq_ok.2 ⟨readLayer2BlockNumber_eq_some.2 ⟨hfault, rfl⟩, rfl⟩, ?_⟩⟩
    rcases hverdict with ⟨hbehind, rfl, rfl⟩ | ⟨hahead, ⟨ahead, heq, hlt, rfl⟩, rfl⟩ |
      ⟨heq, hcompare⟩
    · rw [if_pos hbehind]
      rfl
    · rw [if_neg hahead.not_gt, if_pos hahead]
      exact run_bind_eq_ok.2 ⟨ahead, _, run_expect_eq_ok.2 ⟨toU64_eq_some.2 ⟨heq, hlt⟩, rfl⟩, rfl⟩
    · rw [if_neg heq.not_lt, if_neg heq.not_gt]
      exact hcompare

end Runs

/-! ### The verdict -/

section Verdict

variable (sha256 : Evm.Bytes → Evm.U256) (chain : Chain) (faults : ChainFaults) (s : ClientState)

/-- A stored block has the hash of a block with the proposer. -/
def SameHash (stored : StoredBlock) (blk : Contract.Block) (proposer : Address) : Prop :=
  ∃ onChain, pendingBlock stored.layer2BlockNumber blk proposer = .ok onChain ∧
    onChain.hash sha256 = stored.hash sha256

/-- The block that is stored under the number of the last block of the chain, if there is one, is
that block. -/
def LastStoredAgrees : Prop :=
  ∀ (last : OnChainBlock) (number : ℕ) (stored : StoredBlock),
    chain.blocks.getLast? = some last → (number : ℤ) = chain.layer2BlockNumber - 1 →
      s.blocks.getBlockByNumber number = some stored →
        SameHash sha256 stored last.blk last.proposer

/-- **The verdict is right.**  A client is synchronised only if it expects the next block of the chain
and has no other block for the last one; if it has, it is desynchronised. -/
structure VerdictRight : Prop where
  synchronized : ∀ s', (getSynchronisationStatus sha256 chain faults).run s =
    .ok .synchronized s' →
      s.expected = chain.layer2BlockNumber ∧ LastStoredAgrees sha256 chain s
  desynchronized : ¬LastStoredAgrees sha256 chain s →
    (getSynchronisationStatus sha256 chain faults).run s = .ok .desynchronized s

/-- The client is behind the chain, and learns it. -/
def Behind : Prop := faults.layer2BlockNumber = none ∧ s.expected < chain.layer2BlockNumber

/-- The client expects the next block of the chain, but has stored a block under its number already,
and this one is not like the last block of the chain as its transaction has it. -/
structure NextStoredDiffers : Prop where
  reads : faults.layer2BlockNumber = none ∧ faults.storedBlock = none ∧ faults.ReadsBlock
  expected : s.expected = chain.layer2BlockNumber
  differs : ∃ (number : ℕ) (stored : StoredBlock) (last : OnChainBlock) (blk : Contract.Block)
    (onChain : StoredBlock), s.expected = number ∧ number < 2 ^ 64 ∧
      s.blocks.getBlockByNumber number = some stored ∧ chain.blocks.getLast? = some last ∧
      last.transaction.input = .proposeBlock blk ∧
      pendingBlock number blk last.transaction.signer = .ok onChain ∧
      onChain.hash sha256 ≠ stored.hash sha256

end Verdict

section Verdicts

variable {sha256 : Evm.Bytes → Evm.U256} {chain : Chain} {faults : ChainFaults}
  {s s' : ClientState}

theorem readStoredBlock_eq_some {blocks : ProposedBlocks} {number : ℕ} {stored : StoredBlock} :
    readStoredBlock faults blocks number = some stored ↔
      faults.storedBlock = none ∧ blocks.getBlockByNumber number = some stored := by
  rw [readStoredBlock]
  cases faults.storedBlock with
  | none => exact ⟨fun h => ⟨rfl, h⟩, fun h => h.2⟩
  | some e => exact iff_of_false (fun h => by cases h) (fun h => by cases h.1)

/-- A client whose blocks differ is one with a block that the chain doesn't have yet. -/
theorem run_compareBlocks_eq_desynchronized (hfault : faults.layer2BlockNumber = none)
    (heq : s.expected = chain.layer2BlockNumber) :
    (compareBlocks sha256 chain faults chain.layer2BlockNumber).run s = .ok .desynchronized s' ↔
      NextStoredDiffers sha256 chain faults s ∧ s' = s := by
  rw [run_compareBlocks_eq_ok]
  constructor
  · rintro ⟨number, hnumber, hlt, hcompare⟩
    cases hread : readStoredBlock faults s.blocks number with
    | none =>
      rw [hread, compareIfStored, run_pure_eq_ok] at hcompare
      cases hcompare.1
    | some stored =>
      rw [hread, compareIfStored, run_compareStoredBlock_eq_ok] at hcompare
      obtain ⟨rfl, block, pending, hblock, hpending, hphase⟩ := hcompare
      obtain ⟨hreads, last, hlast, hinput, hsigner⟩ := getLayer2BlockByNumber_eq_ok.1 hblock
      obtain ⟨hstorage, hstored⟩ := readStoredBlock_eq_some.1 hread
      rw [chain.getBlock_last] at hlast
      rw [← hsigner] at hpending
      refine ⟨⟨⟨hfault, hstorage, hreads⟩, heq, number, stored, last, block.2, pending, hnumber, hlt,
        hstored, hlast, hinput, hpending, fun hsame => ?_⟩, rfl⟩
      rw [if_neg (not_not.2 hsame)] at hphase
      cases hphase
  · rintro ⟨⟨⟨-, hstorage, hreads⟩, -, number, stored, last, blk, pending, hnumber, hlt, hstored,
      hlast, hinput, hpending, hdiffers⟩, rfl⟩
    refine ⟨number, hnumber, hlt, ?_⟩
    rw [readStoredBlock_eq_some.2 ⟨hstorage, hstored⟩, compareIfStored,
      run_compareStoredBlock_eq_ok]
    rw [← chain.getBlock_last] at hlast
    have hblock : getLayer2BlockByNumber chain faults chain.layer2BlockNumber =
        .ok (last.transaction.signer, blk) :=
      getLayer2BlockByNumber_eq_ok.2 ⟨hreads, last, hlast, hinput, rfl⟩
    exact ⟨rfl, _, pending, hblock, hpending, (if_pos hdiffers).symm⟩

/-- **When a client is desynchronised.** -/
theorem run_getSynchronisationStatus_eq_desynchronized :
    (getSynchronisationStatus sha256 chain faults).run s = .ok .desynchronized s' ↔
      (Behind chain faults s ∨ NextStoredDiffers sha256 chain faults s) ∧ s' = s := by
  rw [run_getSynchronisationStatus_eq_ok]
  constructor
  · rintro ⟨hfault, ⟨hbehind, -, rfl⟩ | ⟨-, ⟨-, -, -, ⟨⟩⟩, -⟩ | ⟨heq, hcompare⟩⟩
    · exact ⟨.inl ⟨hfault, hbehind⟩, rfl⟩
    · obtain ⟨hdiffers, rfl⟩ := (run_compareBlocks_eq_desynchronized hfault heq).1 hcompare
      exact ⟨.inr hdiffers, rfl⟩
  · rintro ⟨⟨hfault, hbehind⟩ | hdiffers, rfl⟩
    · exact ⟨hfault, .inl ⟨hbehind, rfl, rfl⟩⟩
    · have hcompare := (run_compareBlocks_eq_desynchronized hdiffers.reads.1 hdiffers.expected).2
        ⟨hdiffers, rfl⟩
      exact ⟨hdiffers.reads.1, .inr (.inr ⟨hdiffers.expected, hcompare⟩)⟩

theorem expected_of_synchronized
    (h : (getSynchronisationStatus sha256 chain faults).run s = .ok .synchronized s') :
    s.expected = chain.layer2BlockNumber := by
  rcases (run_getSynchronisationStatus_eq_ok.1 h).2 with
    ⟨-, hphase, -⟩ | ⟨-, ⟨ahead, -, -, hphase⟩, -⟩ | ⟨heq, -⟩
  · cases hphase
  · cases hphase
  · exact heq

/-- **The comparison is idle.**  A client that has stored no block from the future is synchronised as
soon as its number is the one of the chain, whatever its blocks are. -/
theorem run_getSynchronisationStatus_of_stored_lt (hfault : faults.layer2BlockNumber = none)
    (heq : s.expected = chain.layer2BlockNumber) (hnonneg : 0 ≤ s.expected)
    (hlt : s.expected < 2 ^ 64)
    (hstored : ∀ block ∈ s.blocks, (block.layer2BlockNumber : ℤ) < s.expected) :
    (getSynchronisationStatus sha256 chain faults).run s = .ok .synchronized s := by
  refine run_getSynchronisationStatus_eq_ok.2 ⟨hfault, .inr (.inr ⟨heq, ?_⟩)⟩
  refine run_compareBlocks_eq_ok.2 ⟨s.expected.toNat, by omega, by omega, ?_⟩
  have hnone : readStoredBlock faults s.blocks s.expected.toNat = none := by
    refine Option.eq_none_iff_forall_ne_some.2 fun stored hread => ?_
    obtain ⟨-, hfind⟩ := readStoredBlock_eq_some.1 hread
    have hnumber := List.find?_some hfind
    have hbelow := hstored stored (List.mem_of_find?_eq_some hfind)
    rw [decide_eq_true_eq] at hnumber
    omega
  rw [hnone]
  rfl

/-- **When the verdict is right.**  The block that is stored for the last one of the chain agrees with
it, or there is another reason to start again. -/
theorem verdictRight_iff :
    VerdictRight sha256 chain faults s ↔
      LastStoredAgrees sha256 chain s ∨ Behind chain faults s ∨
        NextStoredDiffers sha256 chain faults s := by
  constructor
  · intro hright
    by_cases hagrees : LastStoredAgrees sha256 chain s
    · exact .inl hagrees
    · exact .inr (run_getSynchronisationStatus_eq_desynchronized.1
        (hright.desynchronized hagrees)).1
  · rintro (hagrees | hreason)
    · exact ⟨fun s' h => ⟨expected_of_synchronized h, hagrees⟩, fun hnot => absurd hagrees hnot⟩
    · have hrun := run_getSynchronisationStatus_eq_desynchronized.2
        ⟨hreason, (rfl : s = s)⟩
      refine ⟨fun s' h => ?_, fun _ => hrun⟩
      rw [hrun] at h
      cases h

end Verdicts

/-! ### An example -/

/-- The sum of the bytes. -/
def sumBytes (bytes : Evm.Bytes) : Evm.U256 := BitVec.ofNat 256 (bytes.map BitVec.toNat).sum

/-- A block without transactions. -/
def emptyBlock : Contract.Block := ⟨0, 0, 0, [], []⟩

/-- A chain with one block, without transactions, of the proposer 2. -/
def sampleChain : Chain := ⟨0, [⟨emptyBlock, 2, ⟨.proposeBlock emptyBlock, 2⟩⟩]⟩

/-- A client that has stored a block of the proposer 1 instead, and expects the next one. -/
def forkedClient : ClientState := ⟨.empty, .empty, 1, [⟨0, [], 1⟩]⟩

/-- The client is told that it is synchronised. -/
theorem forked_client_synchronized :
    (getSynchronisationStatus sumBytes sampleChain .none).run forkedClient =
        .ok .synchronized forkedClient ∧
      ¬VerdictRight sumBytes sampleChain .none forkedClient := by
  have hrun : (getSynchronisationStatus sumBytes sampleChain .none).run forkedClient =
      .ok .synchronized forkedClient :=
    run_getSynchronisationStatus_of_stored_lt rfl rfl (by decide) (by decide) (by decide)
  refine ⟨hrun, fun hright => ?_⟩
  obtain ⟨onChain, hconverts, hhash⟩ := (hright.synchronized _ hrun).2 _ 0 _ rfl rfl rfl
  obtain ⟨-, rfl⟩ := pendingBlock_eq_ok.1 hconverts
  exact absurd hhash (by decide +kernel)

end Wallet

end Nightfall
