import Nightfall.Contract.ProposeBlock

/-!
# Paying withdraws

`descrow_funds` pays a withdraw that a block recorded.  The caller says of which kind the token is,
and the contract calls the function of that kind; `beginDescrow` is what happens before the call
and `finishDescrow` what happens after it.  A token id without a token contract is paid in ether.
-/

namespace Nightfall

namespace Contract

open Evm

/-- The arguments of `descrow_funds` and what the call sees of its surroundings. -/
structure DescrowCall where
  data : WithdrawData
  tokenType : TokenType
  /-- The ether sent with the call. -/
  msgValue : U256
  /-- The sender passes `onlyCertified`. -/
  certified : Bool
  /-- The recipient accepts ether. -/
  accepts : Bool

/-- What `descrow_funds` does once the flag is tested. -/
inductive Payment
  /-- It sends ether to the recipient. -/
  | ether
  /-- It calls the token contract. -/
  | token
  /-- It has no branch for the kind of token. -/
  | none
  deriving DecidableEq, Repr

/-- Set the flag of a withdraw. -/
def setIncluded (s : State) (key : U256) (flag : BitVec 8) : State :=
  { s with withdrawalIncluded := Function.update s.withdrawalIncluded key flag }

/-- The key of the withdraw. -/
def DescrowCall.key (hs : Hashes) (call : DescrowCall) : U256 :=
  withdrawKey hs.keccak256 call.data

/-- The token behind the token id of the withdraw. -/
def DescrowCall.original (call : DescrowCall) (s : State) : TokenIdValue :=
  s.tokenIdMapping call.data.nfTokenId

/-- Ether arrives with a call. -/
def receiveEther (s : State) (value : U256) : State := { s with balance := s.balance + value.toNat }

/-- Send ether; none where the recipient does not accept it or the balance is too small. -/
def sendEther (s : State) (value : U256) (accepts : Bool) : Option State :=
  if value.toNat ≤ s.balance ∧ accepts then some { s with balance := s.balance - value.toNat }
  else none

/-- The branches of `descrow_funds` for the kinds of tokens.  The contract at `self` has none of
the functions of a token contract. -/
def beginTransfer (hs : Hashes) (self : Address) (call : DescrowCall) (s : State) :
    Option (State × Payment) :=
  match call.tokenType with
  | .ERC1155 =>
    if (call.original s).ercAddress ≠ self then some (s, .token) else none
  | .ERC721 =>
    if call.data.value = 0 ∧ (call.original s).ercAddress ≠ self then some (s, .token) else none
  | .ERC20 =>
    if (call.original s).tokenId = 0 ∧ (call.original s).ercAddress ≠ self then some (s, .token)
    else none
  | .ERC3525 =>
    -- no branch: `success` stays false and the flag is set again
    some (setIncluded s (call.key hs) 1, .none)

/-- `descrow_funds` up to the call of the recipient or the token contract. -/
def beginDescrow (hs : Hashes) (self : Address) (call : DescrowCall) (s : State) :
    Option (State × Payment) :=
  if call.certified ∧ s.withdrawalIncluded (call.key hs) = 1 then
    if (call.original s).ercAddress = 0 then
      -- returns without touching the flag
      (sendEther (receiveEther s call.msgValue) call.data.value call.accepts).map (·, .ether)
    else beginTransfer hs self call (setIncluded (receiveEther s call.msgValue) (call.key hs) 0)
  else none

/-- The transfer succeeded, where `answer` is what an ERC20 contract returns. -/
def DescrowCall.success (call : DescrowCall) (answer : Bool) : Bool :=
  match call.tokenType with
  | .ERC20 => answer
  | .ERC1155 | .ERC721 => true
  | .ERC3525 => false

/-- `descrow_funds` after the token contract returns. -/
def finishDescrow (hs : Hashes) (call : DescrowCall) (answer : Bool) (s : State) : State :=
  if call.success answer then s else setIncluded s (call.key hs) 1

/-! ### What a call changes -/

section

variable {hs : Hashes} {self : Address} {call : DescrowCall} {s s' : State}

@[simp] theorem setIncluded_withdrawalIncluded (key k : U256) (flag : BitVec 8) :
    (setIncluded s key flag).withdrawalIncluded k =
      if k = key then flag else s.withdrawalIncluded k :=
  Function.update_apply ..

@[simp] theorem original_setIncluded (key : U256) (flag : BitVec 8) :
    call.original (setIncluded s key flag) = call.original s := rfl

@[simp] theorem original_receiveEther (value : U256) :
    call.original (receiveEther s value) = call.original s := rfl

theorem sendEther_spec {value : U256} {accepts : Bool} (h : sendEther s value accepts = some s') :
    s'.balance + value.toNat = s.balance ∧ s' = { s with balance := s'.balance } := by
  unfold sendEther at h
  split_ifs at h with hvalue
  cases h
  exact ⟨Nat.sub_add_cancel hvalue.1, rfl⟩

theorem beginTransfer_spec {payment : Payment}
    (h : beginTransfer hs self call s = some (s', payment)) :
    (payment = .none ∧ call.tokenType = .ERC3525 ∧ s' = setIncluded s (call.key hs) 1) ∨
      (payment = .token ∧ call.tokenType ≠ .ERC3525 ∧ s' = s) := by
  unfold beginTransfer at h
  split at h
  case h_4 htype =>
    cases h
    exact .inl ⟨rfl, htype, rfl⟩
  all_goals
    rename_i htype
    split_ifs at h
    cases h
    exact .inr ⟨rfl, by rw [htype]; decide, rfl⟩

/-- Nothing changes but the balance and, where a token contract is called, the flag. -/
theorem beginDescrow_cases {payment : Payment}
    (h : beginDescrow hs self call s = some (s', payment)) :
    s.withdrawalIncluded (call.key hs) = 1 ∧
      ((payment = .ether ∧ (call.original s).ercAddress = 0 ∧
          s'.balance + call.data.value.toNat = s.balance + call.msgValue.toNat ∧
          s' = { s with balance := s'.balance }) ∨
        (payment = .none ∧ (call.original s).ercAddress ≠ 0 ∧ call.tokenType = .ERC3525 ∧
          s' = receiveEther s call.msgValue) ∨
        (payment = .token ∧ (call.original s).ercAddress ≠ 0 ∧ call.tokenType ≠ .ERC3525 ∧
          s' = setIncluded (receiveEther s call.msgValue) (call.key hs) 0)) := by
  unfold beginDescrow at h
  split_ifs at h with hincluded herc
  · obtain ⟨s₁, hsend, heq⟩ := Option.map_eq_some_iff.1 h
    cases heq
    obtain ⟨hbalance, hs₁⟩ := sendEther_spec hsend
    exact ⟨hincluded.2, .inl ⟨rfl, herc, hbalance, hs₁⟩⟩
  · refine ⟨hincluded.2, .inr ?_⟩
    obtain ⟨rfl, htype, rfl⟩ | ⟨rfl, htype, rfl⟩ := beginTransfer_spec h
    · refine .inl ⟨rfl, herc, htype, ?_⟩
      -- the flag is cleared and set again
      have hflag : Function.update (Function.update s.withdrawalIncluded (call.key hs) 0)
          (call.key hs) 1 = s.withdrawalIncluded := by
        rw [Function.update_idem, Function.update_eq_self_iff]
        exact hincluded.2.symm
      simp only [setIncluded, receiveEther, hflag]
    · exact .inr ⟨rfl, herc, htype, rfl⟩

theorem finishDescrow_feeBinding {answer : Bool} :
    (finishDescrow hs call answer s).feeBinding = s.feeBinding := by
  unfold finishDescrow
  split_ifs <;> rfl

theorem beginDescrow_feeBinding {payment : Payment}
    (h : beginDescrow hs self call s = some (s', payment)) : s'.feeBinding = s.feeBinding := by
  obtain ⟨-, ⟨-, -, -, hs'⟩ | ⟨-, -, -, hs'⟩ | ⟨-, -, -, hs'⟩⟩ := beginDescrow_cases h <;> rw [hs']
  all_goals rfl

theorem finishDescrow_balance {answer : Bool} :
    (finishDescrow hs call answer s).balance = s.balance := by
  unfold finishDescrow
  split_ifs <;> rfl

theorem beginDescrow_balance {payment : Payment}
    (h : beginDescrow hs self call s = some (s', payment)) :
    s'.balance + (if payment = .ether then call.data.value.toNat else 0) =
      s.balance + call.msgValue.toNat := by
  obtain ⟨-, ⟨rfl, -, hbalance, -⟩ | ⟨rfl, -, -, rfl⟩ | ⟨rfl, -, -, rfl⟩⟩ := beginDescrow_cases h
  · simpa using hbalance
  all_goals rfl

end

end Contract

end Nightfall
