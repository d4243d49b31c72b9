import Nightfall.Contract.Deposits
import Nightfall.Evm.Total

/-!
# Solvency in ether

What the contract owes in ether are the fees of the deposits that no block has redeemed, which the
proposer of that block gets, and the deposits of ether, out of which the fees and the withdraws of
layer 2 are paid.

`escrow_funds` records a fee that it does not compare with the ether it was sent, so a deposit may
owe more than it brings.  What layer 2 spends is for the circuits to bound: `propose_block` pays the
sum of fees that a verified proof names.  `solvent_of_covered` is the result for runs in which every
call of `escrow_funds` brings its fee and layer 2 spends no ether that it doesn't have.
-/

namespace Nightfall

namespace Contract

open Evm

/-- The fee that is owed to the proposer who redeems the deposit. -/
def DepositFeeState.due (d : DepositFeeState) : ℕ :=
  if d.escrowed = 1 ∧ d.redeemed = 0 then d.fee.toNat else 0

/-- The fees of all deposits that are escrowed and not redeemed. -/
noncomputable def feesDue (s : State) : ℕ := total fun k => (s.feeBinding k).due

/-- The value of the deposit that `escrow_funds` makes of the ether left over. -/
def EscrowCall.depositFee (call : EscrowCall) : ℕ := call.msgValue.toNat - 2 * call.fee.toNat

/-- The fees of the transfers and withdraws of a block. -/
def Block.feeSum (blk : Block) : ℕ := (fromBytesBE (blk.rollupProof.take 32)).toNat

/-- The ether deposit that an action records. -/
def Action.etherIn : Action → ℕ
  | .escrowed call _ => call.depositFee
  | _ => 0

/-- The ether that an action pays for layer 2: fees and withdraws. -/
def Action.etherOut : Action → ℕ
  | .accepted blk => blk.feeSum
  | .etherPaid call => call.data.value.toNat
  | _ => 0

/-- What is left of the ether deposits of a run, the latest event first. -/
def outstanding : List Event → ℕ
  | [] => 0
  | e :: trace => outstanding trace + e.action.etherIn - e.action.etherOut

/-- The fees recorded for words. -/
def feesOf (s : State) (ws : List U256) : ℕ := (ws.map fun k => (s.feeBinding k).fee.toNat).sum

/-- The balance covers the fees due and what is left of the ether deposits. -/
structure Solvent (trace : List Event) (s : State) : Prop where
  covers : feesDue s + outstanding trace ≤ s.balance
  /-- Whatever deposits a block redeems, their fees can be paid, and with them whatever is left of
  the ether deposits. -/
  payable : ∀ ws : List U256, ws.Nodup →
    (∀ k ∈ ws, (s.feeBinding k).escrowed = 1 ∧ (s.feeBinding k).redeemed = 0) →
    feesOf s ws + outstanding trace ≤ s.balance

/-- A call of `escrow_funds` brings the fee it names. -/
def Event.Paid (e : Event) : Prop :=
  match e.action with
  | .escrowed call _ => call.fee.toNat ≤ call.msgValue.toNat
  | _ => True

/-- Every call of `escrow_funds` brings its fee, and no payment for layer 2 exceeds what is left of
the ether deposits before it. -/
def Covered : List Event → Prop
  | [] => True
  | e :: trace => e.Paid ∧ e.action.etherOut ≤ outstanding trace ∧ Covered trace

/-! ### Fees of a block -/

section Block

variable {D : Deployment} {hs : Hashes} {s s' : State}

theorem checkedAdd_toNat {a b c : U256} (h : checkedAdd a b = some c) :
    c.toNat = a.toNat + b.toNat := by
  unfold checkedAdd at h
  split_ifs at h with hlt
  cases h
  rw [BitVec.toNat_add, Nat.mod_eq_of_lt hlt]

theorem Redeems.fee_eq {ws : List U256} (h : Redeems ws s s') (k : U256) :
    (s'.feeBinding k).fee = (s.feeBinding k).fee := by
  rw [h.feeBinding_eq]
  split_ifs <;> rfl

/-- The loop adds the fees of the words it redeems to the total and keeps the balance. -/
structure Charges (ws : List U256) (st st' : State × U256) : Prop where
  total_eq : st'.2.toNat = st.2.toNat + feesOf st.1 ws
  balance_eq : st'.1.balance = st.1.balance

theorem Charges.nil {st st' : State × U256} (htotal : st'.2 = st.2)
    (hbalance : st'.1.balance = st.1.balance) : Charges [] st st' :=
  ⟨by rw [htotal]; rfl, hbalance⟩

theorem Charges.append {ws ws' : List U256} {st st' st'' : State × U256}
    (h : Charges ws st st') (hred : Redeems ws st.1 st'.1) (h' : Charges ws' st' st'') :
    Charges (ws ++ ws') st st'' := by
  refine ⟨?_, h'.balance_eq.trans h.balance_eq⟩
  have hfees : feesOf st'.1 ws' = feesOf st.1 ws' := by
    unfold feesOf
    simp only [hred.fee_eq]
  rw [h'.total_eq, h.total_eq, hfees, Nat.add_assoc]
  simp only [feesOf, List.map_append, List.sum_append]

theorem redeemWord_charges {st st' : State × U256} {w : U256} (h : redeemWord st w = some st') :
    Charges ([w].filter (· ≠ 0)) st st' := by
  rcases redeemWord_cases h with ⟨hw, rfl⟩ | ⟨hw, -, -, total, htotal, rfl⟩
  · simpa [hw] using Charges.nil rfl rfl
  · rw [List.filter_cons_of_pos (by simpa using hw), List.filter_nil]
    exact ⟨by simpa [feesOf] using checkedAdd_toNat htotal, rfl⟩

theorem processTransactions_charges {txs : List OnChainTransaction} {st st' : State × U256}
    (h : txs.foldlM (processTransaction hs) st = some st') :
    Charges (processedWords txs) st st' := by
  -- the fees are those before the block, as redeeming a word keeps its fee
  refine (@processTransactions_rule hs st st'
    (fun ws st st' => Redeems ws st.1 st'.1 ∧ Charges ws st st') (fun _ => ⟨.nil rfl, .nil rfl rfl⟩)
    (fun h h' => ⟨h.1.append h'.1, h.2.append h.1 h'.2⟩)
    (fun _ _ _ h => ⟨redeemWord_redeems h, redeemWord_charges h⟩) txs (fun _ _ _ h => ?_) h).2
  obtain ⟨-, rfl⟩ := includeWithdraw_eq_some h
  exact ⟨.nil rfl, .nil rfl rfl⟩

theorem verifyRollupProof_feeSum {verifier : Verifier} {blk : Block} {hash feeSum : U256}
    {verified : Bool} (h : verifyRollupProof hs verifier s blk hash = some (verified, feeSum)) :
    feeSum.toNat = blk.feeSum := by
  simp only [verifyRollupProof, slice, Option.bind_eq_bind, Option.bind_eq_some_iff,
    Option.pure_def, Option.some.injEq, Prod.mk.injEq] at h
  obtain ⟨bs, hbs, -, -, -, -, -, -, -, -, -, rfl⟩ := h
  split_ifs at hbs
  cases hbs
  rfl

/-- The proposer is paid the fees of the transactions and of the deposits. -/
theorem proposeBlock_balance {verifier : Verifier} {ctx : ProposeContext} {blk : Block}
    (h : proposeBlock hs verifier ctx s blk = some s') :
    s'.balance + blk.feeSum + feesOf s (processedWords blk.transactions) = s.balance := by
  simp only [proposeBlock, Option.bind_eq_bind, Option.bind_eq_some_iff, Option.pure_def,
    Option.some.injEq, Option.guard_eq_some'] at h
  obtain ⟨-, -, hash, -, ⟨verified, feeSum⟩, hverify, -, -, ⟨s₁, totalFee⟩, hrun, -, hpay, rfl⟩ := h
  have hcharges := processTransactions_charges hrun
  have hfeeSum := verifyRollupProof_feeSum hverify
  have htotal := hcharges.total_eq
  have hbalance := hcharges.balance_eq
  simp only at htotal hbalance hpay ⊢
  omega

/-- The deposits that a block redeems are no longer due. -/
theorem Redeems.feesDue_eq {ws : List U256} (h : Redeems ws s s') :
    feesDue s = feesDue s' + feesOf s ws := by
  rw [feesDue, feesDue, feesOf, ← total_mem h.nodup, ← total_add]
  congr 1
  funext k
  rw [h.feeBinding_eq]
  split_ifs with hk
  · have hdue : (s.feeBinding k).escrowed = 1 ∧ (s.feeBinding k).redeemed = 0 :=
      ⟨h.escrowed k hk, h.fresh k hk⟩
    simp [DepositFeeState.due, hdue]
  · simp

/-- Words that a block can redeem are due. -/
theorem feesOf_le_feesDue {ws : List U256} (hnodup : ws.Nodup)
    (hws : ∀ k ∈ ws, (s.feeBinding k).escrowed = 1 ∧ (s.feeBinding k).redeemed = 0) :
    feesOf s ws ≤ feesDue s := by
  rw [feesOf, ← total_mem hnodup]
  refine total_mono fun k => ?_
  split_ifs with hk
  · rw [DepositFeeState.due, if_pos (hws k hk)]
  · exact Nat.zero_le _

end Block

/-! ### Steps -/

section Steps

variable {D : Deployment} {hs : Hashes} {s s' : State}

theorem feesDue_congr (h : s'.feeBinding = s.feeBinding) : feesDue s' = feesDue s := by
  rw [feesDue, h, feesDue]

theorem recordDeposit_feesDue (s : State) (key fee : U256) :
    feesDue (recordDeposit s key fee) ≤ feesDue s + fee.toNat := by
  have hupdate := total_update (f := fun k => (s.feeBinding k).due) key fee.toNat
  have heq : (fun k => ((recordDeposit s key fee).feeBinding k).due) =
      Function.update (fun k => (s.feeBinding k).due) key fee.toNat := by
    funext k
    rw [recordDeposit_feeBinding, Function.update_apply]
    split_ifs <;> simp [DepositFeeState.due]
  rw [feesDue, feesDue, heq]
  omega

/-- What `escrow_funds` records does not exceed what it was sent, if that covers the fee. -/
theorem finishEscrow_feesDue {call : EscrowCall} {keys : List U256}
    (hpaid : call.fee.toNat ≤ call.msgValue.toNat)
    (h : finishEscrow hs call s = some (s', keys)) :
    feesDue s' + call.depositFee ≤ feesDue s + call.msgValue.toNat := by
  have hrecord := recordDeposit_feesDue s (call.key hs) call.fee
  simp only [finishEscrow, Option.bind_eq_bind, Option.bind_eq_some_iff] at h
  obtain ⟨doubleFee, hdouble, h⟩ := h
  have hmul : doubleFee.toNat = 2 * call.fee.toNat := checkedMul_toNat hdouble
  split_ifs at h with hsurplus
  · simp only [Option.bind_eq_some_iff, Option.pure_def, Option.some.injEq, Prod.mk.injEq] at h
    obtain ⟨_, -, rfl, -⟩ := h
    have hrecord' := recordDeposit_feesDue (recordDeposit s (call.key hs) call.fee)
      ((feeCommitment (recordDeposit s (call.key hs) call.fee) call doubleFee).key hs.sha256)
      call.fee
    have hlt : doubleFee.toNat < call.msgValue.toNat := BitVec.lt_def.1 hsurplus
    unfold EscrowCall.depositFee
    omega
  · cases h
    have hle : call.msgValue.toNat ≤ doubleFee.toNat := not_lt.1 fun hlt =>
      hsurplus (BitVec.lt_def.2 hlt)
    unfold EscrowCall.depositFee
    omega

/-- The ether that came with calls of `escrow_funds` that wait for the token contract. -/
def pendingEther (frames : List Frame) : ℕ :=
  (frames.map fun | .escrowFunds call => call.msgValue.toNat | _ => 0).sum

/-- In a step in which the fee is paid the balance gains at least what the contract owes more. -/
theorem Step.accounts {c c' : Config} {a : Action} (hst : Step D c a c')
    (hpaid : (Event.mk c.state a c'.state).Paid) :
    feesDue c'.state + a.etherIn + pendingEther c'.frames + c.state.balance ≤
      feesDue c.state + pendingEther c.frames + c'.state.balance + a.etherOut := by
  cases hst with
  | escrowCalled hcall =>
    have hdue := feesDue_congr (beginEscrow_feeBinding hcall)
    have hbalance := beginEscrow_balance hcall
    simp only [Action.etherIn, Action.etherOut, pendingEther, List.map_cons, List.sum_cons]
    omega
  | escrowed hcall =>
    have hdue := finishEscrow_feesDue hpaid hcall
    have hbalance := finishEscrow_balance hcall
    simp only [Action.etherIn, Action.etherOut, pendingEther, List.map_cons, List.sum_cons]
    omega
  | accepted hcall =>
    have hdue := (proposeBlock_redeems hcall).feesDue_eq
    have hbalance := proposeBlock_balance hcall
    simp only [Action.etherIn, Action.etherOut, pendingEther, List.map_cons, List.sum_cons]
    omega
  | proposed hcall =>
    have hdue := feesDue_congr (finishProposal_feeBinding hcall)
    have hbalance := finishProposal_balance hcall
    simp only [Action.etherIn, Action.etherOut, pendingEther, List.map_cons, List.sum_cons]
    omega
  | etherTaken =>
    simp only [Action.etherIn, Action.etherOut, pendingEther, List.map_cons, List.sum_cons]
    omega
  | descrowed =>
    rw [feesDue_congr finishDescrow_feeBinding, finishDescrow_balance]
    simp only [Action.etherIn, Action.etherOut, pendingEther, List.map_cons, List.sum_cons]
    omega
  | etherPaid hcall =>
    have hdue := feesDue_congr (beginDescrow_feeBinding hcall)
    have hbalance := beginDescrow_balance hcall
    simp only [Action.etherIn, Action.etherOut, pendingEther, List.map_cons, List.sum_cons]
    simp only [if_true] at hbalance
    omega
  | transferCalled hcall =>
    have hdue := feesDue_congr (beginDescrow_feeBinding hcall)
    have hbalance := beginDescrow_balance hcall
    simp only [Action.etherIn, Action.etherOut, pendingEther, List.map_cons, List.sum_cons]
    simp only [reduceCtorEq, if_false] at hbalance
    omega
  | notTransferable hcall =>
    have hdue := feesDue_congr (beginDescrow_feeBinding hcall)
    have hbalance := beginDescrow_balance hcall
    simp only [Action.etherIn, Action.etherOut]
    simp only [reduceCtorEq, if_false] at hbalance
    omega

/-- **A contract that is sent the fees it records stays solvent**, as long as layer 2 spends no ether
that it doesn't have. -/
theorem solvent_of_covered {trace : List Event} {c : Config} (h : (contractSystem D).Run trace c)
    (hcovered : Covered trace) : Solvent trace c.state := by
  have hinv := h.invariant (P := fun _ => True) (I := fun trace c => Covered trace →
    feesDue c.state + outstanding trace + pendingEther c.frames ≤ c.state.balance)
    (fun _ _ => trivial) ?_ ?_ hcovered
  · refine ⟨by omega, fun ws hnodup hws => ?_⟩
    have hle := feesOf_le_feesDue hnodup hws
    omega
  · rintro c ⟨hframes, _, _, _, _, _, hstate⟩ -
    rw [hstate, hframes]
    simp [feesDue, initialized, DepositFeeState.due, outstanding, pendingEther]
  · rintro trace c ⟨before, action, after⟩ c' - hI ⟨_, hexec⟩ ⟨hpaid, hout, hcovered⟩
    obtain ⟨rfl, rfl, hst⟩ := exec_step hexec
    have haccounts := hst.accounts hpaid
    have hbefore := hI hcovered
    simp only [outstanding] at hout haccounts ⊢
    omega

end Steps

/-- A call that escrows a deposit with fee 1 and brings `msgValue`. -/
def feeCall (msgValue : U256) : EscrowCall := { sampleCall with fee := 1, msgValue := msgValue }

/-- The calls of a deposit with fee 1 that leaves 3 for fees, and of a block that redeems both
deposits and takes 2 as the fees of its transfers. -/
def feeCommands : List Command :=
  [.escrowFunds (feeCall 5), .resume true,
    .proposeBlock sampleContext { depositBlock ![20, 26, 0, 0] with
      rollupProof := List.replicate 31 0 ++ 2 :: List.replicate 256 0 }, .resume true]

theorem feeCommands_isSome : (sampleRun feeCommands).isSome := by decide +kernel

instance : DecidablePred Event.Paid := fun e =>
  match e with
  | ⟨_, .escrowed _ _, _⟩ => inferInstanceAs (Decidable (_ ≤ _))
  | ⟨_, .escrowCalled _, _⟩ | ⟨_, .accepted _, _⟩ | ⟨_, .proposed, _⟩ | ⟨_, .etherPaid _, _⟩
  | ⟨_, .etherTaken, _⟩ | ⟨_, .transferCalled _, _⟩ | ⟨_, .notTransferable _, _⟩
  | ⟨_, .descrowed _ _ _, _⟩ => isTrue trivial

instance decidableCovered : DecidablePred Covered
  | [] => isTrue trivial
  | e :: trace =>
    have := decidableCovered trace
    inferInstanceAs (Decidable (e.Paid ∧ e.action.etherOut ≤ outstanding trace ∧ Covered trace))

theorem solvent_of_covered_sample :
    outstanding ((sampleRun feeCommands).get feeCommands_isSome).1 = 1 ∧
      Solvent ((sampleRun feeCommands).get feeCommands_isSome).1
        ((sampleRun feeCommands).get feeCommands_isSome).2.state :=
  ⟨by decide +kernel, solvent_of_covered (run_sampleRun feeCommands_isSome) (by decide +kernel)⟩

/-- The calls of a deposit with fee 1 that brings no ether. -/
def unpaidCommands : List Command := [.escrowFunds (feeCall 0), .resume true]

theorem unpaidCommands_isSome : (sampleRun unpaidCommands).isSome := by decide +kernel

/-- A deposit with fee 1 is accepted without any ether, and the block that redeems it cannot be
paid. -/
theorem unpaid_fee : ∃ (D : Deployment) (trace : List Event) (c : Config),
    (contractSystem D).Run trace c ∧ ¬feesDue c.state + outstanding trace ≤ c.state.balance ∧
    proposeBlock D.hashes D.verifier sampleContext c.state (depositBlock ![20, 0, 0, 0]) = none := by
  refine ⟨_, _, _, run_sampleRun unpaidCommands_isSome, fun hle => ?_, ?_⟩
  · have hdue := le_total (f := fun k =>
      (((sampleRun unpaidCommands).get unpaidCommands_isSome).2.state.feeBinding k).due) 20
    have hone : (((sampleRun unpaidCommands).get unpaidCommands_isSome).2.state.feeBinding 20).due =
      1 := by decide +kernel
    have hzero : ((sampleRun unpaidCommands).get unpaidCommands_isSome).2.state.balance = 0 := by
      decide +kernel
    unfold feesDue at hle
    omega
  · exact Option.isNone_iff_eq_none.1 (by decide +kernel)

end Contract

end Nightfall
