import Nightfall.Contract.EscrowFunds
import Nightfall.Contract.DescrowFunds
import Nightfall.Semantics.Run

/-!
# Runs of the Nightfall contract

Runs of `escrow_funds`, `propose_block` and `descrow_funds`.  All three hand control to other
contracts, the token contract, the proposer or the recipient of ether, which may call again before
the first call returns, so a configuration carries the stack of the calls that wait.

`exec` executes a call or a return; `Step` says, action by action, what it does (`exec_step`).
-/

namespace Nightfall

namespace Contract

open Evm

/-- What a contract is deployed with: the hash functions, its verifier and its address. -/
structure Deployment where
  hashes : Hashes
  verifier : Verifier
  self : Address

/-- The token id of the fees. -/
def Deployment.feeId (D : Deployment) : U256 :=
  D.hashes.keccak256 (abiEncode [D.self.toWord, 0]) >>> 4

/-- The storage after `initialize`, at an address that may hold ether already. -/
def initialized (D : Deployment) (initialNullifierRoot initialCommitmentRoot
    initialHistoricRootsRoot : U256) (initialLayer2BlockNumber : ℤ) (balance : ℕ) : State where
  feeBinding _ := ⟨0, 0, 0⟩
  withdrawalIncluded _ := 0
  tokenIdMapping := Function.update (fun _ => ⟨0, 0⟩) D.feeId ⟨D.self, 0⟩
  layer2BlockNumber := initialLayer2BlockNumber
  commitmentRoot := initialCommitmentRoot
  nullifierRoot := initialNullifierRoot
  historicRootsRoot := initialHistoricRootsRoot
  feeId := D.feeId
  balance := balance

/-- A call that waits for another contract. -/
inductive Frame
  /-- `escrow_funds`, waiting for the token contract. -/
  | escrowFunds (call : EscrowCall)
  /-- `propose_block`, waiting for the proposer to take the payment. -/
  | proposeBlock
  /-- `descrow_funds`, waiting for the recipient to take the ether. -/
  | etherPaid
  /-- `descrow_funds`, waiting for the contract of the token it read from the mapping. -/
  | descrowFunds (call : DescrowCall) (original : TokenIdValue)

/-- The storage and the calls that wait, the innermost first. -/
structure Config where
  state : State
  frames : List Frame

/-- A call or a return. -/
inductive Command
  | escrowFunds (call : EscrowCall)
  | proposeBlock (ctx : ProposeContext) (blk : Block)
  | descrowFunds (call : DescrowCall)
  /-- The contract that was called last returns; `answer` is what an ERC20 contract returns. -/
  | resume (answer : Bool)

/-- What happens in a step. -/
inductive Action
  /-- `escrow_funds` calls the token contract. -/
  | escrowCalled (call : EscrowCall)
  /-- `escrow_funds` records the deposits with the given keys. -/
  | escrowed (call : EscrowCall) (keys : List U256)
  /-- A block is accepted. -/
  | accepted (blk : Block)
  /-- `propose_block` returns. -/
  | proposed
  /-- `descrow_funds` pays ether. -/
  | etherPaid (call : DescrowCall)
  /-- `descrow_funds` returns from paying ether. -/
  | etherTaken
  /-- `descrow_funds` clears the flag and calls the token contract. -/
  | transferCalled (call : DescrowCall)
  /-- `descrow_funds` returns without a call. -/
  | notTransferable (call : DescrowCall)
  /-- `descrow_funds` returns from the token contract. -/
  | descrowed (call : DescrowCall) (original : TokenIdValue) (answer : Bool)

/-- An action and the storage before and after it. -/
structure Event where
  before : State
  action : Action
  after : State

section System

variable (D : Deployment)

/-- A step to the given storage and calls. -/
def Config.goto (c : Config) (action : Action) (s : State) (frames : List Frame) :
    Event × Config := (⟨c.state, action, s⟩, ⟨s, frames⟩)

/-- Calls and returns that do not revert. -/
def exec (c : Config) : Command → Option (Event × Config)
  | .escrowFunds call => (beginEscrow D.hashes call c.state).map fun s =>
      c.goto (.escrowCalled call) s (.escrowFunds call :: c.frames)
  | .proposeBlock ctx blk => (proposeBlock D.hashes D.verifier ctx c.state blk).map fun s =>
      c.goto (.accepted blk) s (.proposeBlock :: c.frames)
  | .descrowFunds call => (beginDescrow D.hashes D.self call c.state).map fun r =>
      match r.2 with
      | .ether => c.goto (.etherPaid call) r.1 (.etherPaid :: c.frames)
      | .token => c.goto (.transferCalled call) r.1
        (.descrowFunds call (call.original c.state) :: c.frames)
      | .none => c.goto (.notTransferable call) r.1 c.frames
  | .resume answer =>
    match c.frames with
    | [] => none
    | .escrowFunds call :: frames =>
      -- `require` on the answer of an ERC20 contract
      if call.tokenType = .ERC20 ∧ answer = false then none
      else (finishEscrow D.hashes call c.state).map fun r =>
        c.goto (.escrowed call r.2) r.1 frames
    | .proposeBlock :: frames => (finishProposal c.state).map fun s => c.goto .proposed s frames
    | .etherPaid :: frames => some (c.goto .etherTaken c.state frames)
    | .descrowFunds call original :: frames => some (c.goto (.descrowed call original answer)
        (finishDescrow D.hashes call answer c.state) frames)

/-- The contract from its initialization on. -/
def contractSystem : TransitionSystem Config Event :=
  .ofExec (fun c => c.frames = [] ∧ ∃ nullifierRoot commitmentRoot historicRootsRoot number balance,
    c.state = initialized D nullifierRoot commitmentRoot historicRootsRoot number balance) (exec D)

/-- What each action does. -/
inductive Step : Config → Action → Config → Prop
  | escrowCalled {s s' : State} {frames : List Frame} {call : EscrowCall} :
      beginEscrow D.hashes call s = some s' →
      Step ⟨s, frames⟩ (.escrowCalled call) ⟨s', .escrowFunds call :: frames⟩
  | escrowed {s s' : State} {frames : List Frame} {call : EscrowCall} {keys : List U256} :
      finishEscrow D.hashes call s = some (s', keys) →
      Step ⟨s, .escrowFunds call :: frames⟩ (.escrowed call keys) ⟨s', frames⟩
  | accepted {s s' : State} {frames : List Frame} {ctx : ProposeContext} {blk : Block} :
      proposeBlock D.hashes D.verifier ctx s blk = some s' →
      Step ⟨s, frames⟩ (.accepted blk) ⟨s', .proposeBlock :: frames⟩
  | proposed {s s' : State} {frames : List Frame} :
      finishProposal s = some s' → Step ⟨s, .proposeBlock :: frames⟩ .proposed ⟨s', frames⟩
  | etherPaid {s s' : State} {frames : List Frame} {call : DescrowCall} :
      beginDescrow D.hashes D.self call s = some (s', .ether) →
      Step ⟨s, frames⟩ (.etherPaid call) ⟨s', .etherPaid :: frames⟩
  | etherTaken {s : State} {frames : List Frame} :
      Step ⟨s, .etherPaid :: frames⟩ .etherTaken ⟨s, frames⟩
  | transferCalled {s s' : State} {frames : List Frame} {call : DescrowCall} :
      beginDescrow D.hashes D.self call s = some (s', .token) →
      Step ⟨s, frames⟩ (.transferCalled call) ⟨s', .descrowFunds call (call.original s) :: frames⟩
  | notTransferable {s s' : State} {frames : List Frame} {call : DescrowCall} :
      beginDescrow D.hashes D.self call s = some (s', .none) →
      Step ⟨s, frames⟩ (.notTransferable call) ⟨s', frames⟩
  | descrowed {s : State} {frames : List Frame} {call : DescrowCall} {original : TokenIdValue}
      {answer : Bool} :
      Step ⟨s, .descrowFunds call original :: frames⟩ (.descrowed call original answer)
        ⟨finishDescrow D.hashes call answer s, frames⟩

end System

variable {D : Deployment}

/-- Everything that a command can do. -/
theorem exec_step {c c' : Config} {cmd : Command} {e : Event} (h : exec D c cmd = some (e, c')) :
    e.before = c.state ∧ e.after = c'.state ∧ Step D c e.action c' := by
  obtain ⟨s, frames⟩ := c
  cases cmd with
  | escrowFunds call =>
    obtain ⟨s', hcall, heq⟩ := Option.map_eq_some_iff.1 h
    cases heq
    exact ⟨rfl, rfl, .escrowCalled hcall⟩
  | proposeBlock ctx blk =>
    obtain ⟨s', hcall, heq⟩ := Option.map_eq_some_iff.1 h
    cases heq
    exact ⟨rfl, rfl, .accepted hcall⟩
  | descrowFunds call =>
    obtain ⟨⟨s', payment⟩, hcall, heq⟩ := Option.map_eq_some_iff.1 h
    cases payment <;> cases heq
    · exact ⟨rfl, rfl, .etherPaid hcall⟩
    · exact ⟨rfl, rfl, .transferCalled hcall⟩
    · exact ⟨rfl, rfl, .notTransferable hcall⟩
  | resume answer =>
    rcases frames with _ | ⟨call | _ | _ | ⟨call, original⟩, frames⟩
    · cases h
    · simp only [exec] at h
      split_ifs at h
      obtain ⟨⟨s', keys⟩, hcall, heq⟩ := Option.map_eq_some_iff.1 h
      cases heq
      exact ⟨rfl, rfl, .escrowed hcall⟩
    · obtain ⟨s', hcall, heq⟩ := Option.map_eq_some_iff.1 h
      cases heq
      exact ⟨rfl, rfl, .proposed hcall⟩
    · cases h
      exact ⟨rfl, rfl, .etherTaken⟩
    · cases h
      exact ⟨rfl, rfl, .descrowed⟩

end Contract

end Nightfall
