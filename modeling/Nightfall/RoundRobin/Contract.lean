import Nightfall.Contract.State
import Nightfall.Evm.Revert
import Mathlib.Data.List.Defs
import Mathlib.Logic.Function.Basic

/-!
# The RoundRobin contract

`RoundRobin` keeps the proposers in a ring: `proposers` maps an address to its entry, which links to
the next and the previous one, and `current` is a copy of the entry of the current proposer.  A
proposer stakes ether to join, and gets what is left of it back when it leaves.

Each function of the contract is a function of what the call sees (`Context`) and the storage.
-/

namespace Nightfall

namespace RoundRobin

open Evm

open Contract (Address)

/-- A proposer and its links. -/
structure Proposer where
  stake : ℕ
  addr : Address
  url : String
  nextAddr : Address
  previousAddr : Address
  deriving DecidableEq, Repr

/-- An entry that was never written or was deleted. -/
def Proposer.zero : Proposer := ⟨0, 0, "", 0, 0⟩

/-- The configuration of the contract. -/
structure Settings where
  /-- What a proposer stakes to join. -/
  stake : ℕ
  /-- What a proposer loses that proposes no block while it is current. -/
  lazyPenalty : ℕ
  /-- What the current proposer loses that leaves. -/
  exitPenalty : ℕ
  /-- How long a proposer that left has to wait. -/
  cooldownBlocks : ℕ
  /-- How long a proposer is current at least. -/
  rotationBlocks : ℕ
  cooldown_pos : 0 < cooldownBlocks
  exit_le_stake : exitPenalty ≤ stake
  exit_lt_lazy : exitPenalty < lazyPenalty

/-- The configuration that `initialize` sets. -/
def initializeSettings (stake lazyPenalty exitPenalty coolingBlocks rotationBlocks : ℕ) :
    Except Revert Settings :=
  if hcooling : 0 < coolingBlocks then
    if hexit : exitPenalty ≤ stake then
      if hlazy : exitPenalty < lazyPenalty then
        .ok ⟨stake, lazyPenalty, exitPenalty, coolingBlocks, rotationBlocks, hcooling, hexit, hlazy⟩
      else .error (.require "LazyPenalty <= exit penalty")
    else .error (.require "Stake < exit penalty")
  else .error (.require "Cooling blocks must be > 0")

/-- Every configuration is one that `initialize` accepts. -/
theorem initializeSettings_eq_ok (cfg : Settings) :
    initializeSettings cfg.stake cfg.lazyPenalty cfg.exitPenalty cfg.cooldownBlocks
      cfg.rotationBlocks = .ok cfg := by
  rw [initializeSettings, dif_pos cfg.cooldown_pos, dif_pos cfg.exit_le_stake,
    dif_pos cfg.exit_lt_lazy]

/-- `FINALIZATION_BLOCKS`. -/
def finalizationBlocks : ℕ := 64

/-- The storage and the ether of the contract. -/
structure State where
  proposers : Address → Proposer
  pendingWithdraws : Address → ℕ
  proposerUrls : String → Bool
  lastExitBlock : Address → ℕ
  current : Proposer
  startL1Block : ℕ
  startL2Block : ℤ
  proposerCount : ℕ
  escrow : ℕ
  balance : ℕ

/-- What a call sees of its surroundings. -/
structure Context where
  sender : Address
  /-- Nobody calls from the zero address. -/
  sender_ne : sender ≠ 0
  /-- The ether sent with the call. -/
  value : ℕ
  blockNumber : ℕ
  /-- What `nightfall.layer2_block_number()` returns. -/
  layer2BlockNumber : ℤ
  /-- The sender is the owner of the contract. -/
  isOwner : Bool
  /-- `x509Check` holds for the sender. -/
  authorised : Bool
  sanctioned : Bool
  /-- The sender accepts ether. -/
  accepts : Bool

/-- The storage that `initialize` leaves, at an address that may hold ether already. -/
def initialState (balance : ℕ) : State where
  proposers _ := .zero
  pendingWithdraws _ := 0
  proposerUrls _ := false
  lastExitBlock _ := 0
  current := .zero
  startL1Block := 0
  startL2Block := 0
  proposerCount := 0
  escrow := 0
  balance := balance

/-- The entries of the proposers. -/
abbrev Entries := Address → Proposer

/-- Write `next_addr` of an entry. -/
def setNext (m : Entries) (a next : Address) : Entries :=
  Function.update m a { m a with nextAddr := next }

/-- Write `previous_addr` of an entry. -/
def setPrevious (m : Entries) (a previous : Address) : Entries :=
  Function.update m a { m a with previousAddr := previous }

/-- Write `stake` of an entry. -/
def setStake (m : Entries) (a : Address) (stake : ℕ) : Entries :=
  Function.update m a { m a with stake := stake }

section Functions

variable (cfg : Settings) (ctx : Context)

/-- The modifier `onlyOwner`. -/
def onlyOwner : Except Revert Unit := require ctx.isOwner "Certified: caller is not the owner"

/-- The modifier `onlyCertified`. -/
def onlyCertified : Except Revert Unit := do
  require ctx.authorised "Certified: not authorised by X509"
  require (ctx.sanctioned = false) "Certified: address is sanctioned"

/-- `bootstrapDefaultProposer` seeds the ring. -/
def bootstrapDefaultProposer (address : Address) (url : String) (s : State) :
    Except Revert State := do
  onlyOwner ctx
  require (s.proposerCount = 0) "Already bootstrapped"
  require (ctx.value = cfg.stake)
    "You have not paid the correct staking amount during deployment"
  require (s.proposerUrls url = false) "URL already in use"
  let balance ← checkedAdd s.balance ctx.value
  let escrow ← checkedAdd s.escrow cfg.stake
  let current : Proposer := ⟨cfg.stake, address, url, address, address⟩
  return { s with
    current := current
    escrow := escrow
    proposers := Function.update s.proposers address current
    proposerUrls := Function.update s.proposerUrls url true
    proposerCount := 1
    startL1Block := ctx.blockNumber
    startL2Block := ctx.layer2BlockNumber
    balance := balance }

/-- The writes of `add_proposer` to the entries: the sender is put behind the current proposer. -/
def insertBehind (url : String) (s : State) : Entries :=
  let currentAddress := s.current.addr
  let previousAddress := s.current.previousAddr
  let nextAddress := s.current.nextAddr
  let m := Function.update s.proposers ctx.sender
    ⟨cfg.stake, ctx.sender, url, currentAddress, previousAddress⟩
  let m := setPrevious m currentAddress ctx.sender
  let m := setNext m previousAddress ctx.sender
  -- the first proposer that is added is also next
  if nextAddress = currentAddress then setNext m currentAddress ctx.sender else m

/-- `add_proposer`. -/
def addProposer (url : String) (s : State) : Except Revert State := do
  onlyCertified ctx
  require (s.lastExitBlock ctx.sender ≠ 0 →
    s.lastExitBlock ctx.sender + cfg.cooldownBlocks < ctx.blockNumber) "Cooldown period not met"
  require (ctx.value = cfg.stake)
    "You have not paid the correct staking amount during registration"
  require ((s.proposers ctx.sender).addr = 0) "You are already a proposer"
  require (s.proposerUrls url = false) "This proposer URL is already in use"
  let balance ← checkedAdd s.balance ctx.value
  let escrow ← checkedAdd s.escrow cfg.stake
  let proposerCount ← checkedAdd s.proposerCount 1
  return { s with
    escrow := escrow
    proposers := insertBehind cfg ctx url s
    proposerUrls := Function.update s.proposerUrls url true
    current := insertBehind cfg ctx url s s.current.addr
    proposerCount := proposerCount
    balance := balance }

/-- The branch of `_remove_proposer` for the current proposer. -/
def exitCurrent (s : State) : Except Revert State := do
  let address := s.current.addr
  require (1 < s.proposerCount) "Cannot deregister the only active proposer"
  require (cfg.exitPenalty ≤ (s.proposers address).stake) "Insufficient stake for exit"
  let stake ← checkedSub (s.proposers address).stake cfg.exitPenalty
  let escrow ← checkedSub s.escrow cfg.exitPenalty
  let m := setStake s.proposers address stake
  return { s with
    proposers := m
    escrow := escrow
    current := m s.current.nextAddr
    startL1Block := ctx.blockNumber
    startL2Block := ctx.layer2BlockNumber
    lastExitBlock := Function.update s.lastExitBlock address ctx.blockNumber }

/-- What `_remove_proposer` does before it mends the links. -/
def exitIfCurrent (address : Address) (s : State) : Except Revert State :=
  if address = s.current.addr then exitCurrent cfg ctx s else .ok s

/-- The writes of `_remove_proposer` to the links. -/
def bridge (m : Entries) (address : Address) : Entries :=
  let next := (m address).nextAddr
  let previous := (m address).previousAddr
  let m := setPrevious m next (m address).previousAddr
  setNext m previous (m address).nextAddr

/-- The entry is unlinked from the ring. -/
def unlink (address : Address) (s : State) : State :=
  { s with proposers := bridge s.proposers address }

/-- `_remove_proposer` once the entry is unlinked. -/
def release (address : Address) (s : State) : Except Revert State := do
  let this := s.proposers address
  let escrow ← checkedSub s.escrow this.stake
  let pending ← checkedAdd (s.pendingWithdraws address) this.stake
  let proposerCount ← checkedSub s.proposerCount 1
  return { s with
    escrow := escrow
    pendingWithdraws := Function.update s.pendingWithdraws address pending
    proposerUrls := Function.update s.proposerUrls this.url false
    proposers := Function.update s.proposers address .zero
    proposerCount := proposerCount }

/-- A single proposer is linked to itself. -/
def closeRing (s : State) : State :=
  if s.proposerCount = 1 then
    let address := s.current.addr
    let m := setPrevious (setNext s.proposers address address) address address
    { s with proposers := m, current := m address }
  else s

/-- `_remove_proposer`. -/
def removeProposerOf (address : Address) (s : State) : Except Revert State := do
  require ((s.proposers address).addr = address) "Proposer does not exist"
  require (address ≠ 0) "The proposer address cannot be the zero address"
  let s ← exitIfCurrent cfg ctx address s
  let s ← release address (unlink address s)
  return closeRing s

/-- `remove_proposer`. -/
def removeProposer (s : State) : Except Revert State := removeProposerOf cfg ctx ctx.sender s

/-- The entries in the order of the ring. -/
def getProposers (s : State) : Except Revert (List Proposer) :=
  if s.proposerCount = 0 then .error .outOfBounds
  else .ok (List.iterate (fun p => s.proposers p.nextAddr) s.current s.proposerCount)

/-- `can_rotate`: the current proposer has been in place for long enough. -/
def canRotate (s : State) : Prop :=
  s.startL1Block + cfg.rotationBlocks + finalizationBlocks ≤ ctx.blockNumber

instance (s : State) : Decidable (canRotate cfg ctx s) := inferInstanceAs (Decidable (_ ≤ _))

/-- `lazy_penalize_proposer`, and the proposer that it removes. -/
def lazyPenalizeProposer (address : Address) (s : State) :
    Except Revert (State × Option Address) :=
  if (s.proposers address).stake < cfg.lazyPenalty then do
    let s ← removeProposerOf cfg ctx address s
    return (s, some address)
  else do
    let stake ← checkedSub (s.proposers address).stake cfg.lazyPenalty
    require (cfg.lazyPenalty ≤ s.escrow) "escrow underflow"
    let escrow ← checkedSub s.escrow cfg.lazyPenalty
    return ({ s with proposers := setStake s.proposers address stake, escrow := escrow }, none)

/-- The next proposer becomes current. -/
def advance (s : State) : State :=
  { s with
    current := s.proposers s.current.nextAddr
    startL1Block := ctx.blockNumber
    startL2Block := ctx.layer2BlockNumber }

/-- The current proposer is penalized if there was no layer 2 block since it became current. -/
def penalizeIfLazy (s : State) : Except Revert (State × Option Address) :=
  if ctx.layer2BlockNumber = s.startL2Block then lazyPenalizeProposer cfg ctx s.current.addr s
  else .ok (s, none)

/-- `rotate_proposer`, and the proposer that it removes. -/
def rotateProposer (s : State) : Except Revert (State × Option Address) := do
  require (canRotate cfg ctx s) "It is not time to rotate the proposer"
  let (s, removed) ← penalizeIfLazy cfg ctx s
  return (advance ctx s, removed)

/-- `withdraw`. -/
def withdraw (amount : ℕ) (s : State) : Except Revert State := do
  require (amount ≤ s.pendingWithdraws ctx.sender)
    "Amount exceeds balance. You are trying to withdraw more than you have"
  let pending ← checkedSub (s.pendingWithdraws ctx.sender) amount
  if amount ≤ s.balance ∧ ctx.accepts then
    return { s with
      pendingWithdraws := Function.update s.pendingWithdraws ctx.sender pending
      balance := s.balance - amount }
  else throw .callFailed

end Functions

end RoundRobin

end Nightfall
