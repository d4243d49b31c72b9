import Nightfall.Contract.Withdrawals

/-!
# Deposits that can be withdrawn

`escrow_funds` takes four kinds of tokens and ether, and credits a value for each; `descrow_funds`
pays three kinds of tokens, and ether for a token id that is not mapped.  The token id of the fees
is mapped to the contract itself, so the ether that it stands for cannot be paid, and there is no
branch for ERC3525 tokens; the branch for ERC721 tokens moves them whole.  What is credited is the
value that the caller names, whatever the call of the token contract brings.
`notLocked_iff` says which deposits can be withdrawn.
-/

namespace Nightfall

namespace Contract

open Evm

/-- What a deposit holds. -/
inductive Asset
  /-- A token of the given kind. -/
  | token (kind : TokenType) (original : TokenIdValue)
  | ether
  deriving DecidableEq, Repr

/-- A deposit of `escrow_funds`: the asset, how much of it the contract received, and what is
recorded. -/
structure Credit where
  asset : Asset
  received : U256
  commitment : DepositCommitment
  deriving DecidableEq, Repr

/-- The deposits of a call, and what it received for them. -/
def EscrowCall.credits (hs : Hashes) (T : Tokens) (call : EscrowCall) (s : State) : List Credit :=
  ⟨.token call.tokenType call.token, T.received call, call.valueCommitment hs⟩ ::
    if 2 * call.fee < call.msgValue then
      [⟨.ether, call.msgValue - 2 * call.fee, feeCommitment s call (2 * call.fee)⟩]
    else []

/-- The deposits that an event records, and what the contract received for them. -/
def Event.credits (hs : Hashes) (T : Tokens) (e : Event) : List Credit :=
  match e.action with
  | .escrowed call _ => call.credits hs T e.before
  | _ => []

/-- The deposits of a run. -/
def creditsOf (hs : Hashes) (T : Tokens) (trace : List Event) : List Credit :=
  trace.flatMap (Event.credits hs T)

/-- The asset is ether or a token of another contract: neither the zero address, which has no code,
nor the contract itself has the functions that `escrow_funds` calls. -/
def Asset.External (D : Deployment) : Asset → Prop
  | .token _ original => original.ercAddress ≠ 0 ∧ original.ercAddress ≠ D.self
  | .ether => True

/-- Some call of `descrow_funds` pays the value of the withdraw in the asset to the recipient, if
the token contract answers with success. -/
def Payable (D : Deployment) (T : Tokens) (s : State) (d : WithdrawData) : Asset → Prop
  | .token _ original => ∃ call : DescrowCall, call.data = d ∧
      (∃ s', beginDescrow D.hashes D.self call s = some (s', .token)) ∧
      T.transfer call (call.original s) true = some ⟨original, d.recipientAddress, d.value⟩
  | .ether => ∃ call : DescrowCall, call.data = d ∧
      ∃ s' : State, beginDescrow D.hashes D.self call s = some (s', .ether)

/-- A deposit is credited what was received, and a withdraw of it can be paid. -/
structure NotLocked (D : Deployment) (T : Tokens) (s : State) (credit : Credit) (d : WithdrawData) :
    Prop where
  payable : Payable D T s d credit.asset
  value_eq : credit.commitment.value = credit.received

/-- The withdraw of a token is one that `descrow_funds` pays, by the function of the kind of its
contract or, for an ERC3525 token without a value, by that of an ERC721 token. -/
def Tokens.HasBranch (T : Tokens) (original : TokenIdValue) (d : WithdrawData) : Prop :=
  match T.standard original.ercAddress with
  | .ERC20 => original.tokenId = 0 ∧ T.arrives original d.value = d.value
  | .ERC1155 => T.arrives original d.value = d.value
  | .ERC721 => d.value = 0
  | .ERC3525 => d.value = 0 ∧ T.held original = 0

/-- The function that `escrow_funds` calls for a token of `kind` brings the value that is named. -/
def Tokens.BringsValue (T : Tokens) (kind : TokenType) (original : TokenIdValue) (value : U256) :
    Prop :=
  ((T.standard original.ercAddress).brings kind (T.arrives original value)
    (T.deposited original)).getD 0 = value

/-- The deposits that aren't locked. -/
def Credit.Withdrawable (T : Tokens) (d : WithdrawData) (credit : Credit) : Prop :=
  match credit.asset with
  | .token kind original =>
    T.HasBranch original d ∧ T.BringsValue kind original credit.commitment.value
  | .ether => False

/-! ### One payout -/

section Payout

variable {D : Deployment} {T : Tokens} {s : State} {d : WithdrawData}

theorem not_payable_ether (h : (s.tokenIdMapping d.nfTokenId).ercAddress ≠ 0) :
    ¬Payable D T s d .ether := by
  rintro ⟨call, rfl, s', hcall⟩
  obtain ⟨-, ⟨-, herc, -⟩ | ⟨hnone, -⟩ | ⟨hnone, -⟩⟩ := beginDescrow_cases hcall
  · exact h herc
  all_goals cases hnone

/-- What `descrow_funds` requires of a withdraw of each kind of token. -/
def TokenType.Accepts (tokenType : TokenType) (d : WithdrawData) (original : TokenIdValue) : Prop :=
  (tokenType = .ERC721 → d.value = 0) ∧ (tokenType = .ERC20 → original.tokenId = 0) ∧
    tokenType ≠ .ERC3525

/-- The token contract is called only if a branch for the kind of token is taken. -/
theorem beginDescrow_token_iff {call : DescrowCall}
    (hzero : (call.original s).ercAddress ≠ 0) (hself : (call.original s).ercAddress ≠ D.self) :
    (∃ s', beginDescrow D.hashes D.self call s = some (s', .token)) ↔
      (call.certified ∧ s.withdrawalIncluded (call.key D.hashes) = 1) ∧
        call.tokenType.Accepts call.data (call.original s) := by
  unfold beginDescrow
  by_cases hincluded : call.certified ∧ s.withdrawalIncluded (call.key D.hashes) = 1
  · rw [if_pos hincluded, if_neg hzero]
    unfold beginTransfer
    cases call.tokenType <;> simp [hself, hincluded, TokenType.Accepts]
  · rw [if_neg hincluded]
    exact iff_of_false (fun ⟨_, hnone⟩ => nomatch hnone) fun h => hincluded h.1

/-- A transfer moves the value of the withdraw if the function that is called does. -/
theorem transfer_eq_some_iff (hT : T.Conform) {call : DescrowCall} {original : TokenIdValue} :
    T.transfer call original true =
        some ⟨original, call.data.recipientAddress, call.data.value⟩ ↔
      call.tokenType ≠ .ERC3525 ∧
        (T.standard original.ercAddress).brings call.tokenType (T.arrives original call.data.value)
          (T.held original) = some call.data.value := by
  have hsuccess : call.success true = true ↔ call.tokenType ≠ .ERC3525 := by
    unfold DescrowCall.success
    cases call.tokenType <;> simp
  rw [hT.transfer_eq, Option.ite_none_right_eq_some, hsuccess, Option.map_eq_some_iff]
  refine and_congr_right fun _ => ⟨?_, fun h => ⟨_, h, rfl⟩⟩
  rintro ⟨value, hvalue, heq⟩
  exact hvalue.trans (congrArg some (Transfer.mk.inj heq).2.2)

/-- Some function that `descrow_funds` calls moves the value. -/
theorem hasBranch_iff (hT : T.Conform) {original : TokenIdValue} :
    T.HasBranch original d ↔ ∃ kind : TokenType, kind.Accepts d original ∧
      (T.standard original.ercAddress).brings kind (T.arrives original d.value)
        (T.held original) = some d.value := by
  unfold Tokens.HasBranch
  cases T.standard original.ercAddress with
  | ERC20 =>
    constructor
    · rintro ⟨htokenId, hvalue⟩
      exact ⟨.ERC20, ⟨nofun, fun _ => htokenId, nofun⟩, congrArg some hvalue⟩
    · rintro ⟨kind, haccepts, hbrings⟩
      cases kind with
      | ERC20 => exact ⟨haccepts.2.1 rfl, Option.some.inj hbrings⟩
      | ERC1155 | ERC721 | ERC3525 => cases hbrings
  | ERC1155 =>
    constructor
    · intro hvalue
      exact ⟨.ERC1155, ⟨nofun, nofun, nofun⟩, congrArg some hvalue⟩
    · rintro ⟨kind, -, hbrings⟩
      cases kind with
      | ERC1155 => exact Option.some.inj hbrings
      | ERC20 | ERC721 | ERC3525 => cases hbrings
  | ERC721 =>
    constructor
    · intro hvalue
      refine ⟨.ERC721, ⟨fun _ => hvalue, nofun, nofun⟩, ?_⟩
      rw [hvalue, hT.arrives_zero]
      rfl
    · rintro ⟨kind, haccepts, hbrings⟩
      cases kind with
      | ERC721 => exact haccepts.1 rfl
      | ERC20 | ERC1155 | ERC3525 => cases hbrings
  | ERC3525 =>
    constructor
    · rintro ⟨hvalue, hheld⟩
      refine ⟨.ERC721, ⟨fun _ => hvalue, nofun, nofun⟩, ?_⟩
      rw [hvalue, hheld]
      rfl
    · rintro ⟨kind, haccepts, hbrings⟩
      cases kind with
      | ERC721 =>
        have hvalue := haccepts.1 rfl
        exact ⟨hvalue, (Option.some.inj hbrings).trans hvalue⟩
      | ERC3525 => exact absurd rfl haccepts.2.2
      | ERC20 | ERC1155 => cases hbrings

/-- A withdraw of a token can be paid if one of the functions moves it. -/
theorem payable_token_iff (hT : T.Conform) {kind : TokenType} {original : TokenIdValue}
    (hmap : s.tokenIdMapping d.nfTokenId = original) (hzero : original.ercAddress ≠ 0)
    (hself : original.ercAddress ≠ D.self)
    (hincluded : s.withdrawalIncluded (withdrawKey D.hashes.keccak256 d) = 1) :
    Payable D T s d (.token kind original) ↔ T.HasBranch original d := by
  have hbegin : ∀ call : DescrowCall, call.data = d →
      ((∃ s', beginDescrow D.hashes D.self call s = some (s', .token)) ↔
        (call.certified ∧ s.withdrawalIncluded (call.key D.hashes) = 1) ∧
          call.tokenType.Accepts d original) := by
    rintro call rfl
    rw [beginDescrow_token_iff (by rwa [DescrowCall.original, hmap])
      (by rwa [DescrowCall.original, hmap]), DescrowCall.original, hmap]
  rw [hasBranch_iff hT]
  constructor
  · rintro ⟨call, rfl, hcall, hmoved⟩
    rw [DescrowCall.original, hmap] at hmoved
    exact ⟨call.tokenType, ((hbegin call rfl).1 hcall).2, ((transfer_eq_some_iff hT).1 hmoved).2⟩
  · rintro ⟨tokenType, haccepts, hbrings⟩
    refine ⟨⟨d, tokenType, 0, true, true⟩, rfl,
      (hbegin _ rfl).2 ⟨⟨rfl, hincluded⟩, haccepts⟩, ?_⟩
    rw [DescrowCall.original, hmap]
    exact (transfer_eq_some_iff hT).2 ⟨haccepts.2.2, hbrings⟩

end Payout

/-! ### The mapping of token ids -/

section Mapping

variable {hs : Hashes} {s s' : State}

/-- The mapping of token ids and the token id of the fees stay. -/
def KeepsIds (s s' : State) : Prop :=
  s'.tokenIdMapping = s.tokenIdMapping ∧ s'.feeId = s.feeId

theorem KeepsIds.trans {s'' : State} (h : KeepsIds s s') (h' : KeepsIds s' s'') :
    KeepsIds s s'' := ⟨h'.1.trans h.1, h'.2.trans h.2⟩

theorem processTransactions_keepsIds {txs : List OnChainTransaction} {st st' : State × U256}
    (h : txs.foldlM (processTransaction hs) st = some st') : KeepsIds st.1 st'.1 := by
  refine @processTransactions_rule hs st st' (fun _ st st' => KeepsIds st.1 st'.1)
    (fun _ => ⟨rfl, rfl⟩) .trans (fun _ _ _ h => ?_) txs (fun _ _ _ h => ?_) h
  · rcases redeemWord_cases h with ⟨-, rfl⟩ | ⟨-, -, -, total, -, rfl⟩
    · exact ⟨rfl, rfl⟩
    · exact ⟨rfl, rfl⟩
  · obtain ⟨-, rfl⟩ := includeWithdraw_eq_some h
    exact ⟨rfl, rfl⟩

theorem proposeBlock_keepsIds {verifier : Verifier} {ctx : ProposeContext} {blk : Block}
    (h : proposeBlock hs verifier ctx s blk = some s') : KeepsIds s s' := by
  simp only [proposeBlock, Option.bind_eq_bind, Option.bind_eq_some_iff, Option.pure_def,
    Option.some.injEq] at h
  obtain ⟨-, -, hash, -, ⟨verified, feeSum⟩, -, -, -, ⟨s₁, totalFee⟩, hrun, -, -, rfl⟩ := h
  exact processTransactions_keepsIds hrun

theorem finishDescrow_keepsIds {call : DescrowCall} {answer : Bool} :
    KeepsIds s (finishDescrow hs call answer s) := by
  unfold finishDescrow
  split_ifs <;> exact ⟨rfl, rfl⟩

theorem beginDescrow_keepsIds {self : Address} {call : DescrowCall} {payment : Payment}
    (h : beginDescrow hs self call s = some (s', payment)) : KeepsIds s s' := by
  obtain ⟨-, ⟨-, -, -, hs'⟩ | ⟨-, -, -, hs'⟩ | ⟨-, -, -, hs'⟩⟩ := beginDescrow_cases h <;> rw [hs']
  all_goals exact ⟨rfl, rfl⟩

end Mapping

/-! ### Runs -/

section Runs

variable {D : Deployment} {T : Tokens}

/-- The calls of `escrow_funds` in a run. -/
def escrowCalls (trace : List Event) : List EscrowCall :=
  trace.filterMap fun e => match e.action with
    | .escrowCalled call => some call
    | _ => none

/-- No two tokens of a run have the same token id, and none has that of the fees. -/
structure DistinctIds (D : Deployment) (trace : List Event) : Prop where
  token_eq : ∀ call ∈ escrowCalls trace, ∀ call' ∈ escrowCalls trace,
    call.nfTokenId D.hashes = call'.nfTokenId D.hashes → call.token = call'.token
  ne_feeId : ∀ call ∈ escrowCalls trace, call.nfTokenId D.hashes ≠ D.feeId

/-- What the mapping of token ids knows of a run. -/
structure MapsTokens (D : Deployment) (trace : List Event) (c : Config) : Prop where
  feeId_eq : c.state.feeId = D.feeId
  fee : c.state.tokenIdMapping D.feeId = ⟨D.self, 0⟩
  calls : ∀ call ∈ escrowCalls trace,
    c.state.tokenIdMapping (call.nfTokenId D.hashes) = call.token
  frames : ∀ call, .escrowFunds call ∈ c.frames → call ∈ escrowCalls trace
  events : ∀ e ∈ trace, ∀ call keys, e.action = .escrowed call keys →
    e.before.feeId = D.feeId ∧ call ∈ escrowCalls trace

theorem DistinctIds.tail {trace : List Event} {e : Event} (h : DistinctIds D (e :: trace)) :
    DistinctIds D trace := by
  have hsub : ∀ call ∈ escrowCalls trace, call ∈ escrowCalls (e :: trace) := fun call hcall =>
    ((List.sublist_cons_self e trace).filterMap _).subset hcall
  exact ⟨fun call hcall call' hcall' => h.token_eq call (hsub call hcall) call' (hsub call' hcall'),
    fun call hcall => h.ne_feeId call (hsub call hcall)⟩

/-- A step that calls no token contract for a deposit. -/
theorem MapsTokens.keep {trace : List Event} {c c' : Config} {e : Event}
    (h : MapsTokens D trace c) (hids : KeepsIds c.state c'.state)
    (hcalls : escrowCalls (e :: trace) = escrowCalls trace)
    (hframes : ∀ call, .escrowFunds call ∈ c'.frames → .escrowFunds call ∈ c.frames)
    (hevent : ∀ call keys, e.action = .escrowed call keys →
      e.before.feeId = D.feeId ∧ call ∈ escrowCalls trace) : MapsTokens D (e :: trace) c' := by
  refine ⟨hids.2.trans h.feeId_eq, by rw [hids.1]; exact h.fee, ?_, ?_, ?_⟩
  · rw [hcalls, hids.1]
    exact h.calls
  · rw [hcalls]
    exact fun call hcall => h.frames call (hframes call hcall)
  · rw [hcalls]
    exact List.forall_mem_cons.2 ⟨hevent, h.events⟩

/-- Steps keep the mapping of token ids right. -/
theorem Step.mapsTokens {trace : List Event} {c c' : Config} {a : Action}
    (hdistinct : DistinctIds D (⟨c.state, a, c'.state⟩ :: trace)) (h : MapsTokens D trace c)
    (hst : Step D c a c') : MapsTokens D (⟨c.state, a, c'.state⟩ :: trace) c' := by
  cases hst with
  | @escrowCalled s s' frames call hcall =>
    have hfeeId : s'.feeId = s.feeId := by rw [beginEscrow_eq hcall]
    have hmap : s'.tokenIdMapping =
        Function.update s.tokenIdMapping (call.nfTokenId D.hashes) call.token := by
      rw [beginEscrow_eq hcall, EscrowCall.token]
    have hcalls : ∀ call', call' ∈ escrowCalls trace → call' ∈ call :: escrowCalls trace :=
      fun _ => List.mem_cons_of_mem _
    refine ⟨hfeeId.trans h.feeId_eq, ?_, fun call' hcall' => ?_, ?_, ?_⟩ <;> dsimp only
    · rw [hmap, Function.update_of_ne (hdistinct.ne_feeId call (List.mem_cons_self ..)).symm]
      exact h.fee
    · rcases List.mem_cons.1 hcall' with rfl | hpast
      · rw [hmap, Function.update_self]
      · rw [hmap]
        by_cases hid : call'.nfTokenId D.hashes = call.nfTokenId D.hashes
        · -- the same token again
          rw [hid, Function.update_self]
          exact (hdistinct.token_eq call' hcall' call (List.mem_cons_self ..) hid).symm
        · rw [Function.update_of_ne hid]
          exact h.calls call' hpast
    · intro call' hframe
      rcases List.mem_cons.1 hframe with heq | hframe
      · cases heq
        exact List.mem_cons_self ..
      · exact hcalls call' (h.frames call' hframe)
    · refine List.forall_mem_cons.2 ⟨nofun, fun e he call' keys heq => ?_⟩
      obtain ⟨hfeeId, hmem⟩ := h.events e he call' keys heq
      exact ⟨hfeeId, hcalls call' hmem⟩
  | @escrowed s s' frames call keys hcall =>
    refine h.keep (by rw [finishEscrow_eq hcall]; exact ⟨rfl, rfl⟩) rfl
      (fun _ => List.mem_cons_of_mem _) ?_
    rintro call' keys' heq
    cases heq
    exact ⟨h.feeId_eq, h.frames call (List.mem_cons_self ..)⟩
  | accepted hcall =>
    exact h.keep (proposeBlock_keepsIds hcall) rfl (by simp) nofun
  | proposed hcall =>
    exact h.keep (by rw [finishProposal_eq hcall]; exact ⟨rfl, rfl⟩) rfl (by simp) nofun
  | etherTaken => exact h.keep ⟨rfl, rfl⟩ rfl (by simp) nofun
  | descrowed => exact h.keep finishDescrow_keepsIds rfl (by simp) nofun
  | etherPaid hcall | transferCalled hcall | notTransferable hcall =>
    exact h.keep (beginDescrow_keepsIds hcall) rfl (by simp) nofun

theorem mapsTokens {trace : List Event} {c : Config} (h : (contractSystem D).Run trace c)
    (hdistinct : DistinctIds D trace) : MapsTokens D trace c := by
  refine h.invariant (P := fun _ => True)
    (I := fun trace c => DistinctIds D trace → MapsTokens D trace c) (fun _ _ => trivial) ?_ ?_
    hdistinct
  · rintro c ⟨hframes, _, _, _, _, _, hstate⟩ -
    refine ⟨?_, ?_, List.forall_mem_nil _, ?_, List.forall_mem_nil _⟩
    · rw [hstate, initialized]
    · simp [hstate, initialized]
    · rw [hframes]
      exact fun _ hmem => absurd hmem List.not_mem_nil
  · rintro trace c ⟨before, action, after⟩ c' - hI ⟨_, hexec⟩ hdistinct
    obtain ⟨rfl, rfl, hst⟩ := exec_step hexec
    exact hst.mapsTokens hdistinct (hI hdistinct.tail)

/-- **The deposits that can be withdrawn.** -/
theorem notLocked_iff (hT : T.Conform) {trace : List Event} {c : Config}
    (h : (contractSystem D).Run trace c) (hdistinct : DistinctIds D trace) (hself : D.self ≠ 0)
    {credit : Credit} (hcredit : credit ∈ creditsOf D.hashes T trace)
    (hexternal : credit.asset.External D) {d : WithdrawData}
    (hid : d.nfTokenId = credit.commitment.nfTokenId)
    (hincluded : c.state.withdrawalIncluded (withdrawKey D.hashes.keccak256 d) = 1) :
    NotLocked D T c.state credit d ↔ credit.Withdrawable T d := by
  have hmaps := mapsTokens h hdistinct
  obtain ⟨⟨before, action, after⟩, he, hcredit⟩ := List.mem_flatMap.1 hcredit
  cases action with
  | escrowed call keys =>
    obtain ⟨hfeeId, hmem⟩ := hmaps.events _ he call keys rfl
    have hmap := hmaps.calls call hmem
    rcases List.mem_cons.1 hcredit with rfl | hether
    · -- the token
      have hpayable : Payable D T c.state d (.token call.tokenType call.token) ↔
          T.HasBranch call.token d :=
        payable_token_iff hT ((congrArg _ hid).trans hmap) hexternal.1 hexternal.2 hincluded
      have hvalue : call.value = T.received call ↔
          T.BringsValue call.tokenType call.token call.value := by
        rw [hT.received_eq, eq_comm]
        rfl
      exact ⟨fun hlocked => ⟨hpayable.1 hlocked.payable, hvalue.1 hlocked.value_eq⟩,
        fun hbranch => ⟨hpayable.2 hbranch.1, hvalue.2 hbranch.2⟩⟩
    · -- the ether, whose token id is mapped to the contract itself
      split_ifs at hether
      case neg => exact absurd hether List.not_mem_nil
      rw [List.mem_singleton] at hether
      subst hether
      refine iff_of_false (fun hlocked => ?_) id
      refine not_payable_ether ?_ hlocked.payable
      rw [hid, feeCommitment, hfeeId, hmaps.fee]
      exact hself
  | _ => cases hcredit

end Runs

/-! ### Runs on concrete deposits -/

/-- The calls of a deposit and of a block that withdraws 3 of a token. -/
def lockCommands (call : EscrowCall) (nfTokenId : U256) : List Command :=
  [.escrowFunds call, .resume true, .proposeBlock sampleContext (withdrawBlock nfTokenId),
    .resume true]

theorem lockCommands_isSome : (sampleRun (lockCommands sampleCall 5)).isSome := by decide +kernel

theorem notLocked_iff_sample :
    NotLocked sampleDeployment (sampleTokens .ERC20 0)
      ((sampleRun (lockCommands sampleCall 5)).get lockCommands_isSome).2.state
      ⟨.token .ERC20 ⟨5, 0⟩, 3, sampleDeposit⟩ (withdrawCall 5 .ERC20).data :=
  (notLocked_iff (conform_sampleTokens .ERC20 0) (run_sampleRun lockCommands_isSome)
    ⟨by decide +kernel, by decide +kernel⟩ (by decide) (by decide +kernel)
    (by exact ⟨by decide, by decide⟩) rfl (by decide +kernel)).2 ⟨⟨rfl, rfl⟩, rfl⟩

/-- The deposit of an ERC3525 token that holds 3. -/
def erc3525Call : EscrowCall := { sampleCall with tokenType := .ERC3525 }

theorem erc3525_isSome : (sampleRun (lockCommands erc3525Call 5)).isSome := by decide +kernel

/-- A deposit that leaves ether of 3. -/
def surplusCall : EscrowCall := { sampleCall with msgValue := 3 }

theorem surplus_isSome : (sampleRun (lockCommands surplusCall 8)).isSome := by decide +kernel

/-- A withdraw of a whole ERC3525 token is never paid, and neither is one of the ether that a
deposit left. -/
theorem locked_forever :
    (∃ (D : Deployment) (T : Tokens) (trace : List Event) (c : Config) (credit : Credit)
      (d : WithdrawData) (original : TokenIdValue), T.Conform ∧ (contractSystem D).Run trace c ∧
      credit ∈ creditsOf D.hashes T trace ∧ credit.asset = .token .ERC3525 original ∧
      T.standard original.ercAddress = .ERC3525 ∧
      d.nfTokenId = credit.commitment.nfTokenId ∧ d.value = credit.commitment.value ∧
      T.held original = credit.received ∧
      c.state.withdrawalIncluded (withdrawKey D.hashes.keccak256 d) = 1 ∧
      ¬NotLocked D T c.state credit d) ∧
    ∃ (D : Deployment) (T : Tokens) (trace : List Event) (c : Config) (credit : Credit)
      (d : WithdrawData), T.Conform ∧ (contractSystem D).Run trace c ∧
      credit ∈ creditsOf D.hashes T trace ∧ credit.asset = .ether ∧
      d.nfTokenId = credit.commitment.nfTokenId ∧ d.value = credit.commitment.value ∧
      c.state.withdrawalIncluded (withdrawKey D.hashes.keccak256 d) = 1 ∧
      ¬NotLocked D T c.state credit d := by
  constructor
  · refine ⟨_, sampleTokens .ERC3525 3, _, _, ⟨.token .ERC3525 ⟨5, 0⟩, 3, ⟨5, 5, 3, 7⟩⟩,
      (withdrawCall 5 .ERC3525).data, ⟨5, 0⟩, conform_sampleTokens _ _,
      run_sampleRun erc3525_isSome, by decide +kernel, rfl, rfl, rfl, rfl, rfl, by decide +kernel,
      fun hlocked => ?_⟩
    have hbranch : (withdrawCall 5 .ERC3525).data.value = 0 ∧ _ :=
      (payable_token_iff (conform_sampleTokens .ERC3525 3) (by decide +kernel) (by decide)
        (by decide) (by decide +kernel)).1 hlocked.payable
    exact absurd hbranch.1 (by decide)
  · exact ⟨_, sampleTokens .ERC20 0, _, _, ⟨.ether, 3, ⟨8, 8, 3, 7⟩⟩, (withdrawCall 8 .ERC20).data,
      conform_sampleTokens _ _, run_sampleRun surplus_isSome, by decide +kernel, rfl, rfl, rfl,
      by decide +kernel, fun hlocked => not_payable_ether (by decide +kernel) hlocked.payable⟩

end Contract

end Nightfall
