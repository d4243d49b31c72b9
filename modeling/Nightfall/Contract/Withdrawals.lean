import Nightfall.Contract.Deposits

/-!
# Payouts of withdraws

A block that records a withdraw sets its flag, and `descrow_funds` clears it before it calls the
token contract.  Two kinds of steps break the accounting of payouts: a withdraw of a token id that
is not mapped is paid in ether and its flag stays set; and the caller of `descrow_funds` chooses
which transfer function is called, so the flag can be cleared by a call of a function that the
token contract does not have but takes without an error.  `Event.Matched` excludes both, and
`paysOnce_of_matched` is the result for runs of such steps.
-/

namespace Nightfall

namespace Contract

open Evm

/-- The keys of the withdraws of a block. -/
def includedKeys (hs : Hashes) (txs : List OnChainTransaction) : List U256 :=
  txs.flatMap fun txn =>
    if txn.nullifiers 0 ≠ 0 ∧ txn.commitments 0 = 0 then
      [withdrawKey hs.keccak256 txn.withdrawData]
    else []

/-- The withdraws that an action records. -/
def Action.included (hs : Hashes) : Action → List U256
  | .accepted blk => includedKeys hs blk.transactions
  | _ => []

/-- The withdraws that an action pays. -/
def Action.paid (hs : Hashes) : Action → List U256
  | .etherPaid call => [call.key hs]
  | .descrowed call _ answer => if call.success answer then [call.key hs] else []
  | _ => []

/-- How often blocks set the flag of a withdraw. -/
def inclusions (hs : Hashes) (trace : List Event) (key : U256) : ℕ :=
  (trace.flatMap fun e => e.action.included hs).count key

/-- How often a withdraw was paid. -/
def payouts (hs : Hashes) (trace : List Event) (key : U256) : ℕ :=
  (trace.flatMap fun e => e.action.paid hs).count key

/-- An asset that went to a recipient. -/
structure Transfer where
  asset : TokenIdValue
  recipient : Address
  value : U256
  deriving DecidableEq, Repr

/-- The token of a deposit. -/
def EscrowCall.token (call : EscrowCall) : TokenIdValue := ⟨call.ercAddress, call.tokenId⟩

/-- What the transfer function of `kind` moves of a token of the kind `standard`: what arrives of the
amount, or an ERC3525 token with what it holds, also by the function that it has in common with
ERC721.  A contract that lacks the function moves nothing, but its fallback may take the call. -/
def TokenType.brings (standard kind : TokenType) (arrives held : U256) : Option U256 :=
  if standard = .ERC3525 then if kind = .ERC3525 ∨ kind = .ERC721 then some held else none
  else if kind = standard then some arrives else none

/-- The contracts of the tokens. -/
structure Tokens where
  /-- The kind of token that a contract implements. -/
  standard : Address → TokenType
  /-- What arrives of an amount of a token that is sent. -/
  arrives : TokenIdValue → U256 → U256
  /-- What an ERC3525 token holds when it is deposited. -/
  deposited : TokenIdValue → U256
  /-- What it holds when it is withdrawn. -/
  held : TokenIdValue → U256
  /-- What the contract gets when `escrow_funds` calls the contract of the token. -/
  received : EscrowCall → U256
  /-- What is moved when `descrow_funds` calls the contract of the token, which answers. -/
  transfer : DescrowCall → TokenIdValue → Bool → Option Transfer

/-- The contracts do what their standards say. -/
structure Tokens.Conform (T : Tokens) : Prop where
  /-- Of nothing nothing arrives. -/
  arrives_zero : ∀ original, T.arrives original 0 = 0
  received_eq : ∀ call, T.received call = ((T.standard call.ercAddress).brings call.tokenType
    (T.arrives call.token call.value) (T.deposited call.token)).getD 0
  /-- A transfer that isn't a success moves nothing. -/
  transfer_eq : ∀ call original answer, T.transfer call original answer =
    if call.success answer then
      ((T.standard original.ercAddress).brings call.tokenType (T.arrives original call.data.value)
        (T.held original)).map fun value => ⟨original, call.data.recipientAddress, value⟩
    else none

/-- Contracts of the given kinds. -/
def Tokens.ofStandard (standard : Address → TokenType) (arrives : TokenIdValue → U256 → U256)
    (deposited held : TokenIdValue → U256) : Tokens where
  standard := standard
  arrives := arrives
  deposited := deposited
  held := held
  received call := ((standard call.ercAddress).brings call.tokenType
    (arrives call.token call.value) (deposited call.token)).getD 0
  transfer call original answer :=
    if call.success answer then
      ((standard original.ercAddress).brings call.tokenType (arrives original call.data.value)
        (held original)).map fun value => ⟨original, call.data.recipientAddress, value⟩
    else none

theorem Tokens.conform_ofStandard {standard : Address → TokenType}
    {arrives : TokenIdValue → U256 → U256} (h : ∀ original, arrives original 0 = 0)
    (deposited held : TokenIdValue → U256) :
    (ofStandard standard arrives deposited held).Conform :=
  ⟨h, fun _ => rfl, fun _ _ _ => rfl⟩

/-- A call of `descrow_funds` transfers the value of the withdraw to its recipient and clears the
flag, or it transfers nothing and the flag is set. -/
def Event.Settles (hs : Hashes) (T : Tokens) (e : Event) : Prop :=
  match e.action with
  | .etherPaid call => e.after.withdrawalIncluded (call.key hs) = 0
  | .transferCalled call => e.after.withdrawalIncluded (call.key hs) = 0
  | .notTransferable call => e.after.withdrawalIncluded (call.key hs) = 1
  | .descrowed call original answer =>
    -- the flag was cleared before the call
    (T.transfer call original answer =
        some ⟨original, call.data.recipientAddress, call.data.value⟩ ∧
      e.after.withdrawalIncluded (call.key hs) = e.before.withdrawalIncluded (call.key hs)) ∨
    (T.transfer call original answer = none ∧
      e.after.withdrawalIncluded (call.key hs) = 1)
  | _ => True

instance {hs : Hashes} {T : Tokens} : DecidablePred (Event.Settles hs T) := fun e =>
  match e with
  | ⟨_, .etherPaid _, _⟩ | ⟨_, .transferCalled _, _⟩ | ⟨_, .notTransferable _, _⟩ =>
    inferInstanceAs (Decidable (_ = _))
  | ⟨_, .descrowed _ _ _, _⟩ => inferInstanceAs (Decidable (_ ∧ _ ∨ _ ∧ _))
  | ⟨_, .escrowCalled _, _⟩ | ⟨_, .escrowed _ _, _⟩ | ⟨_, .accepted _, _⟩ | ⟨_, .proposed, _⟩
  | ⟨_, .etherTaken, _⟩ => isTrue trivial

/-- Withdraws are paid once. -/
structure PaysOnce (hs : Hashes) (T : Tokens) (trace : List Event) (s : State) : Prop where
  /-- What is paid, and what can be paid, was recorded by blocks. -/
  payouts_le : ∀ key, payouts hs trace key + (s.withdrawalIncluded key).toNat ≤
    inclusions hs trace key
  settles : ∀ e ∈ trace, e.Settles hs T

/-- The token id of the withdraw is mapped, and the token contract answers a call only of a
function that it has. -/
def Event.Matched (standard : Address → TokenType) (e : Event) : Prop :=
  match e.action with
  | .etherPaid call => (call.original e.before).ercAddress ≠ 0
  | .descrowed call original answer =>
    call.success answer → call.tokenType = standard original.ercAddress
  | _ => True

instance {standard : Address → TokenType} : DecidablePred (Event.Matched standard) := fun e =>
  match e with
  | ⟨_, .etherPaid _, _⟩ => inferInstanceAs (Decidable (_ ≠ _))
  | ⟨_, .descrowed _ _ _, _⟩ => inferInstanceAs (Decidable (_ → _))
  | ⟨_, .escrowCalled _, _⟩ | ⟨_, .escrowed _ _, _⟩ | ⟨_, .accepted _, _⟩ | ⟨_, .proposed, _⟩
  | ⟨_, .etherTaken, _⟩ | ⟨_, .transferCalled _, _⟩ | ⟨_, .notTransferable _, _⟩ => isTrue trivial

/-! ### Flags of withdraws -/

section Flags

variable {D : Deployment} {hs : Hashes} {s s' s'' : State}

/-- The flags of the keys `ks` are set, each once. -/
def Marks (ks : List U256) (s s' : State) : Prop :=
  ∀ key, (s'.withdrawalIncluded key).toNat = (s.withdrawalIncluded key).toNat + ks.count key

theorem Marks.nil (h : s'.withdrawalIncluded = s.withdrawalIncluded) : Marks [] s s' :=
  fun key => by rw [h, List.count_nil, Nat.add_zero]

theorem Marks.append {ks ks' : List U256} (h : Marks ks s s') (h' : Marks ks' s' s'') :
    Marks (ks ++ ks') s s'' := fun key => by
  rw [h' key, h key, List.count_append, Nat.add_assoc]

theorem redeemWords_withdrawalIncluded {ws : List U256} {st st' : State × U256}
    (h : ws.foldlM redeemWord st = some st') :
    st'.1.withdrawalIncluded = st.1.withdrawalIncluded := by
  refine @redeemWords_rule st st'
    (fun _ st st' => st'.1.withdrawalIncluded = st.1.withdrawalIncluded) (fun _ => rfl)
    (fun h h' => h'.trans h) (fun _ _ _ h => ?_) ws h
  rcases redeemWord_cases h with ⟨-, rfl⟩ | ⟨-, -, -, total, -, rfl⟩
  · rfl
  · rfl

theorem includeWithdraw_marks {txn : OnChainTransaction}
    (h : includeWithdraw hs s txn = some s') :
    Marks [withdrawKey hs.keccak256 txn.withdrawData] s s' := by
  intro key
  obtain ⟨hfresh, rfl⟩ := includeWithdraw_eq_some h
  simp only [Function.update_apply, List.count_singleton, beq_iff_eq]
  by_cases hkey : key = withdrawKey hs.keccak256 txn.withdrawData
  · subst hkey
    simp [hfresh]
  · simp [hkey, Ne.symm hkey]

theorem processTransactions_marks {txs : List OnChainTransaction} {st st' : State × U256}
    (h : txs.foldlM (processTransaction hs) st = some st') :
    Marks (includedKeys hs txs) st.1 st'.1 := by
  refine @foldlM_flatMap _ _ _ _ _ (fun ks st st' => Marks ks st.1 st'.1) (fun _ => .nil rfl) .append
    (fun st txn st' hstep => ?_) txs st st' h
  rcases processTransaction_cases hstep with ⟨hnull, -, rfl⟩ | ⟨hnull, -, hwords⟩ |
    ⟨hnull, hcomm, s, hs', rfl⟩ | ⟨-, hcomm, rfl⟩
  · rw [if_neg fun hand => hand.1 hnull]
    exact .nil rfl
  · rw [if_neg fun hand => hand.1 hnull]
    exact .nil (redeemWords_withdrawalIncluded hwords)
  · rw [if_pos ⟨hnull, hcomm⟩]
    exact includeWithdraw_marks hs'
  · rw [if_neg fun hand => hcomm hand.2]
    exact .nil rfl

theorem proposeBlock_marks {verifier : Verifier} {ctx : ProposeContext} {blk : Block}
    (h : proposeBlock hs verifier ctx s blk = some s') :
    Marks (includedKeys hs blk.transactions) s s' := by
  simp only [proposeBlock, Option.bind_eq_bind, Option.bind_eq_some_iff, Option.pure_def,
    Option.some.injEq] at h
  obtain ⟨-, -, hash, -, ⟨verified, feeSum⟩, -, -, -, ⟨s₁, totalFee⟩, hrun, -, -, rfl⟩ := h
  exact processTransactions_marks hrun

end Flags

/-! ### Steps -/

section Steps

variable {D : Deployment} {standard : Address → TokenType} {T : Tokens} {s s' : State}

/-- The withdraws whose transfer the token contract has not answered yet. -/
def pendingTransfers (hs : Hashes) (frames : List Frame) : List U256 :=
  frames.flatMap fun | .descrowFunds call _ => [call.key hs] | _ => []

/-- In a matched step the payouts of a withdraw are covered by its flag, by the transfers that
wait, and by what a block records. -/
theorem Step.settles {c c' : Config} {a : Action} (hst : Step D c a c')
    (hmatched : (Event.mk c.state a c'.state).Matched standard) (key : U256) :
    (a.paid D.hashes).count key + (c'.state.withdrawalIncluded key).toNat +
        (pendingTransfers D.hashes c'.frames).count key ≤
      (a.included D.hashes).count key + (c.state.withdrawalIncluded key).toNat +
        (pendingTransfers D.hashes c.frames).count key := by
  cases hst with
  | escrowCalled hcall => rw [beginEscrow_withdrawalIncluded hcall]; rfl
  | escrowed hcall => rw [finishEscrow_withdrawalIncluded hcall]; rfl
  | accepted hcall =>
    have hmarks := proposeBlock_marks hcall key
    simp only [Action.paid, Action.included, pendingTransfers, List.flatMap_cons, List.nil_append,
      List.count_nil]
    omega
  | proposed hcall => rw [finishProposal_withdrawalIncluded hcall]; rfl
  | etherTaken => rfl
  | @descrowed s frames call original answer =>
    simp only [Action.paid, Action.included, pendingTransfers, List.flatMap_cons, List.count_nil,
      List.count_append, finishDescrow]
    by_cases hsuccess : call.success answer
    · -- the transfer becomes a payout
      rw [if_pos hsuccess, if_pos hsuccess]
      omega
    · -- the transfer becomes a flag again
      rw [if_neg hsuccess, if_neg hsuccess, setIncluded_withdrawalIncluded]
      by_cases hkey : key = call.key D.hashes
      · subst hkey
        simp
      · rw [if_neg hkey, List.count_nil]
        omega
  | etherPaid hcall =>
    obtain ⟨-, ⟨-, herc, -⟩ | ⟨hnone, -⟩ | ⟨hnone, -⟩⟩ := beginDescrow_cases hcall
    · exact absurd herc hmatched
    all_goals cases hnone
  | @transferCalled s s' frames call hcall =>
    obtain ⟨hflag, ⟨hnone, -⟩ | ⟨hnone, -⟩ | ⟨-, -, -, hs'⟩⟩ := beginDescrow_cases hcall
    · cases hnone
    · cases hnone
    · -- the flag becomes a transfer that waits
      rw [hs']
      simp only [Action.paid, Action.included, pendingTransfers, List.flatMap_cons, List.count_nil,
        List.count_append, List.count_singleton, setIncluded_withdrawalIncluded, beq_iff_eq]
      by_cases hkey : key = call.key D.hashes
      · subst hkey
        simp [hflag]
      · simp [hkey, Ne.symm hkey, receiveEther]
  | notTransferable hcall =>
    obtain ⟨-, ⟨hnone, -⟩ | ⟨-, -, -, hs'⟩ | ⟨hnone, -⟩⟩ := beginDescrow_cases hcall
    · cases hnone
    · rw [hs']
      rfl
    · cases hnone

theorem setIncluded_self (s : State) (key : U256) (flag : BitVec 8) :
    (setIncluded s key flag).withdrawalIncluded key = flag := by
  rw [setIncluded_withdrawalIncluded, if_pos rfl]

theorem success_ne_erc3525 {call : DescrowCall} {answer : Bool} (h : call.success answer) :
    call.tokenType ≠ .ERC3525 := by
  intro htype
  rw [DescrowCall.success, htype] at h
  cases h

/-- A matched step settles its withdraw. -/
theorem Step.settles_event (hT : T.Conform)
    (hexact : ∀ original value, T.arrives original value = value) {c c' : Config} {a : Action}
    (hst : Step D c a c') (hmatched : (Event.mk c.state a c'.state).Matched T.standard) :
    (Event.mk c.state a c'.state).Settles D.hashes T := by
  cases hst with
  | escrowCalled | escrowed | accepted | proposed | etherTaken => trivial
  | @descrowed s frames call original answer =>
    unfold Event.Settles
    by_cases hsuccess : call.success answer
    · left
      constructor
      · have hkind : call.tokenType = T.standard original.ercAddress := hmatched hsuccess
        rw [hT.transfer_eq, if_pos hsuccess, ← hkind, TokenType.brings,
          if_neg (success_ne_erc3525 hsuccess), if_pos rfl, hexact]
        rfl
      · simp only [finishDescrow, if_pos hsuccess]
    · right
      constructor
      · rw [hT.transfer_eq, if_neg hsuccess]
      · simp only [finishDescrow, if_neg hsuccess]
        exact setIncluded_self ..
  | etherPaid hcall =>
    obtain ⟨-, ⟨-, herc, -⟩ | ⟨hnone, -⟩ | ⟨hnone, -⟩⟩ := beginDescrow_cases hcall
    · exact absurd herc hmatched
    all_goals cases hnone
  | transferCalled hcall =>
    obtain ⟨-, ⟨hnone, -⟩ | ⟨hnone, -⟩ | ⟨-, -, -, hs'⟩⟩ := beginDescrow_cases hcall
    · cases hnone
    · cases hnone
    · rw [hs']
      exact setIncluded_self ..
  | notTransferable hcall =>
    obtain ⟨hflag, ⟨hnone, -⟩ | ⟨-, -, -, hs'⟩ | ⟨hnone, -⟩⟩ := beginDescrow_cases hcall
    · cases hnone
    · rw [hs']
      exact hflag
    · cases hnone

/-- **In a run of matched steps withdraws are paid once**, if amounts of tokens arrive as they are
sent. -/
theorem paysOnce_of_matched (hT : T.Conform)
    (hexact : ∀ original value, T.arrives original value = value) {trace : List Event} {c : Config}
    (h : (contractSystem D).Run trace c) (hmatched : ∀ e ∈ trace, e.Matched T.standard) :
    PaysOnce D.hashes T trace c.state := by
  have hinv := h.invariant (I := fun trace c => (∀ key, payouts D.hashes trace key +
    (c.state.withdrawalIncluded key).toNat + (pendingTransfers D.hashes c.frames).count key ≤
    inclusions D.hashes trace key) ∧ ∀ e ∈ trace, e.Settles D.hashes T) hmatched ?_ ?_
  · exact ⟨fun key => le_of_add_le_left (hinv.1 key), hinv.2⟩
  · rintro c ⟨hframes, _, _, _, _, _, hstate⟩
    refine ⟨fun key => ?_, List.forall_mem_nil _⟩
    rw [hstate, hframes]
    simp [initialized, payouts, pendingTransfers]
  · rintro trace c ⟨before, action, after⟩ c' hP ⟨hle, hsettles⟩ ⟨_, hexec⟩
    obtain ⟨rfl, rfl, hst⟩ := exec_step hexec
    refine ⟨fun key => ?_, List.forall_mem_cons.2 ⟨hst.settles_event hT hexact hP, hsettles⟩⟩
    have hstep := hst.settles hP key
    have hpast := hle key
    simp only [payouts, inclusions, List.flatMap_cons, List.count_append] at hstep hpast ⊢
    omega

end Steps

/-! ### Runs on concrete withdraws -/

/-- Tokens of one kind, whose amounts arrive as they are sent. -/
def sampleTokens (kind : TokenType) (held : U256) : Tokens :=
  .ofStandard (fun _ => kind) (fun _ value => value) (fun _ => held) fun _ => held

theorem conform_sampleTokens (kind : TokenType) (held : U256) : (sampleTokens kind held).Conform :=
  Tokens.conform_ofStandard (fun _ => rfl) _ _

/-- A block of 63 padding transactions and a withdraw of 3 of a token to the address 6. -/
def withdrawBlock (nfTokenId : U256) : Block where
  commitmentsRoot := 0
  nullifierRoot := 0
  commitmentsRootRoot := 0
  transactions := exchanged 64 emptyTransaction (withdrawTransaction nfTokenId 6 3)
  rollupProof := List.replicate 288 0

/-- The call that pays the withdraw, by the function of the given kind of token. -/
def withdrawCall (nfTokenId : U256) (tokenType : TokenType) : DescrowCall where
  data := ⟨nfTokenId, 6, 3, 1⟩
  tokenType := tokenType
  msgValue := 0
  certified := true
  accepts := true

/-- The calls of a deposit, a withdraw of it and a payout. -/
def withdrawCommands (tokenType : TokenType) : List Command :=
  [.escrowFunds sampleCall, .resume true, .proposeBlock sampleContext (withdrawBlock 5),
    .resume true, .descrowFunds (withdrawCall 5 tokenType), .resume true]

theorem erc20_isSome : (sampleRun (withdrawCommands .ERC20)).isSome := by decide +kernel

theorem paysOnce_of_matched_sample :
    payouts sampleDeployment.hashes ((sampleRun (withdrawCommands .ERC20)).get erc20_isSome).1
        ((withdrawCall 5 .ERC20).key sampleDeployment.hashes) = 1 ∧
      PaysOnce sampleDeployment.hashes (sampleTokens .ERC20 0)
        ((sampleRun (withdrawCommands .ERC20)).get erc20_isSome).1
        ((sampleRun (withdrawCommands .ERC20)).get erc20_isSome).2.state :=
  ⟨by decide +kernel, paysOnce_of_matched (conform_sampleTokens .ERC20 0) (fun _ _ => rfl)
    (run_sampleRun erc20_isSome) (by decide +kernel)⟩

/-- The calls of a deposit that leaves ether in the contract, a withdraw of a token id that is not
mapped and two payouts. -/
def etherCommands : List Command :=
  [.escrowFunds { sampleCall with fee := 5, msgValue := 10 }, .resume true,
    .proposeBlock sampleContext (withdrawBlock 9), .resume true,
    .descrowFunds (withdrawCall 9 .ERC20), .resume true,
    .descrowFunds (withdrawCall 9 .ERC20), .resume true]

theorem etherCommands_isSome : (sampleRun etherCommands).isSome := by decide +kernel

theorem erc1155_isSome : (sampleRun (withdrawCommands .ERC1155)).isSome := by decide +kernel

/-- A withdraw of a token id that is not mapped is paid twice; a withdraw of an ERC20 token is
dropped by a call of the ERC1155 function, if the token contract takes it without an error. -/
theorem paid_twice_or_never :
    (∃ (D : Deployment) (trace : List Event) (c : Config) (key : U256),
      (contractSystem D).Run trace c ∧ inclusions D.hashes trace key = 1 ∧
      payouts D.hashes trace key = 2) ∧
    ∃ (D : Deployment) (trace : List Event) (c : Config), (contractSystem D).Run trace c ∧
      ¬∀ e ∈ trace, e.Settles D.hashes (sampleTokens .ERC20 0) :=
  ⟨⟨_, _, _, (withdrawCall 9 .ERC20).key sampleDeployment.hashes,
      run_sampleRun etherCommands_isSome, by decide +kernel, by decide +kernel⟩,
    ⟨_, _, _, run_sampleRun erc1155_isSome, by decide +kernel⟩⟩

end Contract

end Nightfall
