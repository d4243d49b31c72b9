import Nightfall.Contract.State
import Mathlib.Logic.Function.Basic

/-!
# Escrowing funds

`escrow_funds` takes a token into custody and records a deposit, and a second one when ether is
left over for fees.  In between it calls the token contract, which may call back: `beginEscrow`
is what happens before that call and `finishEscrow` what happens after it.  The flags of the
deposit are tested before the call and set after it.
-/

namespace Nightfall

namespace Contract

open Evm

/-- The arguments of `escrow_funds` and what the call sees of its surroundings. -/
structure EscrowCall where
  fee : U256
  ercAddress : Address
  tokenId : U256
  value : U256
  secretHash : U256
  tokenType : TokenType
  /-- The ether sent with the call. -/
  msgValue : U256
  /-- The sender passes `onlyCertified`. -/
  certified : Bool
  /-- What `slotOf` returns, for an ERC3525 token. -/
  slotOf : U256

/-- The words that a deposit commitment is hashed from. -/
def DepositCommitment.words (d : DepositCommitment) : List U256 :=
  [d.nfTokenId, d.nfSlotId, d.value, d.secretHash]

/-- The key of a deposit. -/
def DepositCommitment.key (sha256 : Bytes → U256) (d : DepositCommitment) : U256 :=
  sha256AndShift sha256 (abiEncode d.words)

namespace EscrowCall

variable (hs : Hashes) (call : EscrowCall)

/-- The Nightfall token id. -/
def nfTokenId : U256 :=
  sha256AndShift hs.sha256 (abiEncode [call.ercAddress.toWord, call.tokenId])

/-- The Nightfall slot id. -/
def nfSlotId : U256 :=
  if call.tokenType = .ERC3525 then
    hs.keccak256 (abiEncode [call.ercAddress.toWord, call.slotOf]) >>> 4
  else call.nfTokenId hs

/-- The deposit of the token. -/
def valueCommitment : DepositCommitment :=
  ⟨call.nfTokenId hs, call.nfSlotId hs, call.value, call.secretHash⟩

/-- The key of the deposit of the token. -/
def key : U256 := (call.valueCommitment hs).key hs.sha256

/-- The requirements on the arguments of each kind of token. -/
def WellFormed : Prop :=
  (call.tokenType = .ERC721 → call.value = 0) ∧ (call.tokenType = .ERC20 → call.tokenId = 0)

instance : Decidable call.WellFormed := inferInstanceAs (Decidable (_ ∧ _))

end EscrowCall

/-- `escrow_funds` up to the call of the token contract. -/
def beginEscrow (hs : Hashes) (call : EscrowCall) (s : State) : Option State := do
  guard call.certified
  let s := { s with
    balance := s.balance + call.msgValue.toNat
    tokenIdMapping :=
      Function.update s.tokenIdMapping (call.nfTokenId hs) ⟨call.ercAddress, call.tokenId⟩ }
  guard ((s.feeBinding (call.key hs)).escrowed = 0)
  guard call.WellFormed
  return s

/-- Record a deposit. -/
def recordDeposit (s : State) (key fee : U256) : State :=
  { s with feeBinding := Function.update s.feeBinding key ⟨fee, 1, 0⟩ }

@[simp] theorem recordDeposit_feeBinding (s : State) (key fee k : U256) :
    (recordDeposit s key fee).feeBinding k = if k = key then ⟨fee, 1, 0⟩ else s.feeBinding k :=
  Function.update_apply ..

/-- The deposit of the ether that is left over. -/
def feeCommitment (s : State) (call : EscrowCall) (doubleFee : U256) : DepositCommitment :=
  ⟨s.feeId, s.feeId, call.msgValue - doubleFee, call.secretHash⟩

/-- `escrow_funds` after a successful call of the token contract: the state and the keys of the
deposits it recorded. -/
def finishEscrow (hs : Hashes) (call : EscrowCall) (s : State) : Option (State × List U256) := do
  let s := recordDeposit s (call.key hs) call.fee
  let doubleFee ← checkedMul 2 call.fee
  if doubleFee < call.msgValue then
    let depositFeeKey := (feeCommitment s call doubleFee).key hs.sha256
    guard ((s.feeBinding depositFeeKey).escrowed = 0)
    return (recordDeposit s depositFeeKey call.fee, [call.key hs, depositFeeKey])
  else return (s, [call.key hs])

/-! ### What a call changes -/

section

variable {hs : Hashes} {s s' : State} {call : EscrowCall}

/-- Before the call of the token contract only the balance and the mapping change. -/
theorem beginEscrow_eq (h : beginEscrow hs call s = some s') :
    s' = { s with
      balance := s.balance + call.msgValue.toNat
      tokenIdMapping :=
        Function.update s.tokenIdMapping (call.nfTokenId hs) ⟨call.ercAddress, call.tokenId⟩ } := by
  simp only [beginEscrow, Option.bind_eq_bind, Option.bind_eq_some_iff, Option.pure_def,
    Option.some.injEq] at h
  obtain ⟨_, -, _, -, _, -, rfl⟩ := h
  rfl

/-- After it only deposits change. -/
theorem finishEscrow_eq {keys : List U256} (h : finishEscrow hs call s = some (s', keys)) :
    s' = { s with feeBinding := s'.feeBinding } := by
  simp only [finishEscrow, Option.bind_eq_bind, Option.bind_eq_some_iff] at h
  obtain ⟨doubleFee, -, h⟩ := h
  split_ifs at h
  · simp only [Option.bind_eq_some_iff, Option.pure_def, Option.some.injEq, Prod.mk.injEq] at h
    obtain ⟨_, -, rfl, -⟩ := h
    rfl
  · cases h
    rfl

theorem beginEscrow_feeBinding (h : beginEscrow hs call s = some s') :
    s'.feeBinding = s.feeBinding := by rw [beginEscrow_eq h]

theorem beginEscrow_withdrawalIncluded (h : beginEscrow hs call s = some s') :
    s'.withdrawalIncluded = s.withdrawalIncluded := by rw [beginEscrow_eq h]

theorem beginEscrow_balance (h : beginEscrow hs call s = some s') :
    s'.balance = s.balance + call.msgValue.toNat := by rw [beginEscrow_eq h]

theorem finishEscrow_withdrawalIncluded {keys : List U256}
    (h : finishEscrow hs call s = some (s', keys)) :
    s'.withdrawalIncluded = s.withdrawalIncluded := by rw [finishEscrow_eq h]

theorem finishEscrow_balance {keys : List U256} (h : finishEscrow hs call s = some (s', keys)) :
    s'.balance = s.balance := by rw [finishEscrow_eq h]

end

end Contract

end Nightfall
