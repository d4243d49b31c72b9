import Nightfall.Contract.ProposeBlock
import Nightfall.Wallet.Provable

/-!
# What the contract takes a transaction for

A transaction doesn't say what it is.  The contract infers it from a nullifier and a commitment
(`Kind`), the circuit from the address, and the client leaves the address zero in a transfer.  A
request that completes is taken for what it asks for, unless it withdraws to the address zero
(`understood_iff`).
-/

namespace Nightfall

namespace Contract

/-- What a transaction is taken for. -/
inductive Kind
  | deposit
  | withdraw
  | transfer
  deriving DecidableEq, Repr

/-- The branch of `propose_block` for a transaction. -/
def OnChainTransaction.kind (txn : OnChainTransaction) : Kind :=
  if txn.nullifiers 0 = 0 then .deposit
  else if txn.commitments 0 = 0 then .withdraw
  else .transfer

section Kinds

variable {hs : Hashes} {st st' : State × Evm.U256} {txn : OnChainTransaction}

theorem processTransaction_of_withdraw (h : txn.kind = .withdraw) :
    processTransaction hs st txn = (includeWithdraw hs st.1 txn).map fun s => (s, st.2) := by
  rw [OnChainTransaction.kind] at h
  rw [processTransaction]
  split_ifs at h ⊢ with hnullifier hcommitment
  rfl

theorem withdrawalIncluded_of_withdraw (h : txn.kind = .withdraw)
    (hrun : processTransaction hs st txn = some st') :
    st'.1.withdrawalIncluded (withdrawKey hs.keccak256 txn.withdrawData) = 1 := by
  rw [processTransaction_of_withdraw h, includeWithdraw] at hrun
  split_ifs at hrun with hfresh
  · cases hrun
    exact Function.update_self _ _ _
  · cases hrun

end Kinds

end Contract

namespace Wallet

open Node Stateful
open Evm (bind_eq_ok)

/-! ### What is asked for -/

/-- `prove` builds the circuit and checks that its values satisfy it; it returns the public inputs of
the circuit. -/
def ProvesCircuit {P : Type} (cfg : ClientConfig) (env : RequestEnv P) : Prop :=
  ∀ privateInputs publicInputs proof completed,
    env.prove privateInputs publicInputs = some (proof, completed) →
      ∃ result circuit, (Client.assessOperationIntegrity cfg.toPrimitives publicInputs
          privateInputs).run (.newUltraPlonk Fr254) = .ok (result, circuit) ∧
        circuit.Satisfies circuit.value ∧ completed = result.1

/-- The withdraw that is asked for. -/
def SpendRequest.withdrawData (r : SpendRequest) (salt : Fr254) : Contract.WithdrawData where
  nfTokenId := uint256 r.nfTokenId
  recipientAddress := BitVec.ofNat 160 r.recipientAddress.val
  value := uint256 r.value
  withdrawFundSalt := uint256 salt

/-- The contract takes the transaction for the withdraw that is asked for, and it can be claimed once
it is processed. -/
structure Withdraws (r : SpendRequest) (salt : Fr254) (txn : Contract.OnChainTransaction) : Prop where
  kind : txn.kind = .withdraw
  data : txn.withdrawData = r.withdrawData salt
  /-- The address is that of the request. -/
  address_lt : r.recipientAddress.val < 2 ^ 160
  claimable : ∀ hs st st', Contract.processTransaction hs st txn = some st' →
    st'.1.withdrawalIncluded (Contract.withdrawKey hs.keccak256 (r.withdrawData salt)) = 1

/-- If the request completes, the contract takes its transaction for what it asks for. -/
def Understood {P : Type} (cfg : ClientConfig) (env : RequestEnv P) (s : ClientState) :
    Request → Prop
  | .transfer request => ∀ submitted s', (handleTransfer cfg env request).run s = .ok submitted s' →
      ∃ txn, submitted.transaction.toOnChain.toContract = .ok txn ∧ txn.kind = .transfer
  | .withdraw request => ∀ handled s' r, (handleWithdraw cfg env request).run s = .ok handled s' →
      requested cfg env (.withdraw request) s = some r →
        ∃ txn, handled.1.transaction.toOnChain.toContract = .ok txn ∧ Withdraws r handled.2 txn

/-- A withdraw is to an address other than zero. -/
def Request.HasAddress : Request → Prop
  | .transfer _ => True
  | .withdraw request => request.recipientAddress ≠ .ok 0

/-! ### A completed request -/

section Completed

variable {P : Type} {cfg : ClientConfig} {env : RequestEnv P} {s s' t : ClientState}
  {r : SpendRequest} {spend new : Fin 4 → Preimage} {submitted : Submitted P} {request : Request}
  {transaction : ClientTransaction P}

theorem exists_clientOperation (h : (handleRequest cfg env request).run s = .ok submitted s') :
    ∃ r t, requested cfg env request s = some r ∧
      spendCommitments cfg s.commitments r = some submitted.spendCommitments ∧
      clientOperation cfg env t submitted.spendCommitments
          (newCommitments cfg env r submitted.spendCommitments) r.ephemeralPrivateKey
          r.recipientAddress = .ok submitted.transaction := by
  rw [handleRequest_eq] at h
  obtain ⟨r, s₁, hconvert, hspend⟩ := run_bind_eq_ok.1 h
  obtain rfl : s₁ = s := (preserves_convert request).keeps _ _ _ hconvert
  have hr : requested cfg env request s₁ = some r := by
    rw [requested, hconvert]
  obtain ⟨spend, s₂, hselect, hoperation⟩ := run_bind_eq_ok.1 hspend
  have hsome : spendCommitments cfg s₁.commitments r = some spend := by
    cases hspend : spendCommitments cfg s₁.commitments r with
    | none =>
      obtain ⟨f, hrun⟩ := run_selectSpendCommitments_of_none hspend
      rw [hrun] at hselect
      cases hselect
    | some selected =>
      rw [run_selectSpendCommitments_of_some hspend] at hselect
      cases hselect
      rfl
  obtain ⟨transaction, s₃, hmade, hdone⟩ := run_bind_eq_ok.1 hoperation
  cases hdone
  obtain ⟨_, s₄, -, hmade⟩ := run_bind_eq_ok.1 hmade
  obtain ⟨t, s₅, hget, hmade⟩ := run_bind_eq_ok.1 hmade
  obtain ⟨_, s₆, hclient, hmade⟩ := run_bind_eq_ok.1 hmade
  obtain ⟨_, s₇, -, hmade⟩ := run_bind_eq_ok.1 hmade
  cases hmade
  exact ⟨r, t, hr, hsome, (run_okOrElse_eq_ok.1 hclient).1⟩

theorem clientOperation_eq_ok {ephemeralKey : Client.BJJScalar} {withdrawAddress : Fr254}
    (h : clientOperation cfg env t spend new ephemeralKey withdrawAddress = .ok transaction) :
    ∃ proofs proof completed, (∀ i, spendProof cfg env t (spend i) = .ok (proofs i)) ∧
      env.prove (operationPrivateInputs cfg spend new ephemeralKey withdrawAddress proofs)
        (operationPublicInputs new proofs) = some (proof, completed) ∧
      transactionOf (some (proof, completed)) = .ok transaction := by
  rw [clientOperation] at h
  split_ifs at h with hbalance
  · simp only [bind_eq_ok] at h
    obtain ⟨proof₀, hproof₀, proof₁, hproof₁, proof₂, hproof₂, proof₃, hproof₃, h⟩ := h
    cases hprove : env.prove (operationPrivateInputs cfg spend new ephemeralKey withdrawAddress
        ![proof₀, proof₁, proof₂, proof₃])
        (operationPublicInputs new ![proof₀, proof₁, proof₂, proof₃]) with
    | none =>
      rw [hprove] at h
      cases h
    | some proved =>
      rw [hprove] at h
      refine ⟨_, proved.1, proved.2, fun i => ?_, hprove, h⟩
      fin_cases i
      · exact hproof₀
      · exact hproof₁
      · exact hproof₂
      · exact hproof₃

end Completed

/-! ### What becomes of it -/

section Taken

variable {P : Type} {cfg : ClientConfig} {env : RequestEnv P} {s s' t : ClientState}
  {r : SpendRequest} {spend : Fin 4 → Preimage} {submitted : Submitted P} {request : Request}
  {transaction : ClientTransaction P}

theorem uint256_eq_zero_iff {a : Fr254} : uint256 a = 0 ↔ a = 0 := by
  constructor
  · intro h
    rw [← element_uint256 a, h]
    rfl
  · rintro rfl
    refine BitVec.eq_of_toNat_eq ?_
    rw [toNat_uint256, ZMod.val_zero]
    rfl

theorem foldPath_ne_zero {h : Fr254 → Fr254 → Fr254} (hne : ∀ x y, h x y ≠ 0)
    {path : List (Merkle.PathElement Fr254)} {x : Fr254} (hx : x ≠ 0) :
    Merkle.foldPath h path x ≠ 0 := by
  induction path generalizing x with
  | nil => exact hx
  | cons e path ih => exact ih (hne _ _)

theorem exists_toContract {otx : OnChainTransaction} (h : otx.publicData.HasFlag) :
    ∃ txn, otx.toContract = .ok txn ∧ (txn.nullifiers 0 = 0 ↔ otx.nullifiers 0 = 0) ∧
      (txn.commitments 0 = 0 ↔ otx.commitments 0 = 0) ∧
      txn.withdrawData = ⟨uint256 (otx.publicData.cipherText 0),
        (uint256 (otx.publicData.cipherText 1)).truncate 160,
        uint256 (otx.publicData.cipherText 2), uint256 (otx.nullifiers 0)⟩ := by
  refine ⟨⟨uint256 otx.fee, fun i => uint256 (otx.commitments i),
    fun i => uint256 (otx.nullifiers i), ![uint256 (otx.publicData.cipherText 0),
      uint256 (otx.publicData.cipherText 1), uint256 (otx.publicData.cipherText 2),
      BitVec.ofNat 256 otx.publicData.packed]⟩, ?_, uint256_eq_zero_iff, uint256_eq_zero_iff, rfl⟩
  rw [OnChainTransaction.toContract, CompressedSecrets.toWords_eq h]
  rfl

/-! ### The public inputs of an operation -/

section PublicInputs

variable {Pr : Client.Primitives} {o : Client.Operation}
  {completed : Client.PublicInputs Fr254}

theorem eq_of_ofFn_eq {x : Fin 5 → Fr254} {a b c d e : Fr254}
    (h : List.ofFn x = [a, b, c, d, e]) : x = ![a, b, c, d, e] := by
  refine List.ofFn_injective (h.trans ?_)
  rfl

theorem hasFlag_of_completes (h : o.Completes Pr completed) :
    (CompressedSecrets.mk completed.compressedSecrets).HasFlag := by
  have hbit : ∀ b, (Plonk.ofBool b : Fr254) = 0 ∨ (Plonk.ofBool b : Fr254) = 1 := by
    intro b
    cases b with
    | false => exact .inl rfl
    | true => exact .inr rfl
  obtain ⟨k, hdata⟩ := h.publicData
  rw [Client.Operation.publicData] at hdata
  split_ifs at hdata with haddress
  · have hsecrets := eq_of_ofFn_eq hdata
    rw [CompressedSecrets.HasFlag, hsecrets]
    exact hbit _
  · have hsecrets := eq_of_ofFn_eq hdata
    rw [CompressedSecrets.HasFlag, hsecrets]
    exact .inl rfl

/-- The first commitment is missing in a withdraw only. -/
theorem commitment_eq_zero_iff (h : o.Completes Pr completed) (hposeidon : ∀ l, Pr.poseidon l ≠ 0) :
    completed.commitments 0 = 0 ↔ o.privateInputs.withdrawAddress ≠ 0 := by
  rw [h.commitments, Client.Operation.commitments, if_pos rfl]
  split_ifs with haddress
  · exact iff_of_false (hposeidon _) (not_not.2 haddress)
  · exact iff_of_true rfl haddress

theorem compressedSecrets_of_withdraw (h : o.Completes Pr completed)
    (haddress : o.privateInputs.withdrawAddress ≠ 0) :
    completed.compressedSecrets = ![o.privateInputs.nfTokenId, o.privateInputs.withdrawAddress,
      o.privateInputs.value, 0, 0] := by
  obtain ⟨k, hdata⟩ := h.publicData
  rw [Client.Operation.publicData, if_neg haddress] at hdata
  exact eq_of_ofFn_eq hdata

end PublicInputs

/-- The first commitment that is spent isn't a default one: its proof leads to a root. -/
theorem token_ne_zero {proofs : Fin 4 → Plonk.MembershipProof Fr254 (Merkle.PathElement Fr254) × Fr254}
    (hposeidon : ∀ l, cfg.poseidon l ≠ 0)
    (hproof : spendProof cfg env t (spend 0) = .ok (proofs 0))
    (hintegrity : (suggestedOperation cfg env r spend proofs).Integrity cfg.toPrimitives) :
    (spend 0).nfTokenId ≠ 0 := by
  intro hzero
  rw [spendProof, if_pos hzero] at hproof
  have hroot : (suggestedOperation cfg env r spend proofs).roots 0 = 0 :=
    (congrArg Prod.snd (Except.ok.inj hproof)).symm
  refine foldPath_ne_zero (fun x y => hposeidon _) ?_ (hintegrity.opens.opens_first.root_eq.trans hroot)
  exact hposeidon _

theorem token_of_spendCommitments {c : Commitments} (h : spendCommitments cfg c r = some spend)
    (hne : (spend 0).nfTokenId ≠ 0) : (spend 0).nfTokenId = r.nfTokenId := by
  obtain ⟨value, fee, hvalue, -, rfl⟩ := spendCommitments_eq_some h
  rcases usableCommitments_mem hvalue 0 with hdefault | ⟨e, he, hentry⟩
  · refine absurd ?_ hne
    exact congrArg Preimage.nfTokenId hdefault
  · have hfirst : (value 0).nfTokenId = r.nfTokenId := by
      rw [← hentry]
      exact (mem_availableEntries.1 he).2.1
    exact hfirst

/-- What the contract takes the transaction of a completed request for. -/
structure TakenFor (cfg : ClientConfig) (r : SpendRequest) (submitted : Submitted P)
    (txn : Contract.OnChainTransaction) : Prop where
  toContract : submitted.transaction.toOnChain.toContract = .ok txn
  kind : txn.kind = if r.recipientAddress = 0 then .transfer else .withdraw
  address_lt : r.recipientAddress.val < 2 ^ 160
  data : r.recipientAddress ≠ 0 → txn.withdrawData = r.withdrawData
    (cfg.poseidon [cfg.nullifierKey, (submitted.spendCommitments 0).hash cfg.poseidon])

/-- **What a transaction is taken for** depends on the address only. -/
theorem exists_takenFor (hprove : ProvesCircuit cfg env) (hposeidon : ∀ l, cfg.poseidon l ≠ 0)
    (h : (handleRequest cfg env request).run s = .ok submitted s') :
    ∃ r, requested cfg env request s = some r ∧ ∃ txn, TakenFor cfg r submitted txn := by
  obtain ⟨r, t, hr, hspend, hoperation⟩ := exists_clientOperation h
  obtain ⟨proofs, proof, completed, hproofs, hproved, hmade⟩ := clientOperation_eq_ok hoperation
  obtain ⟨result, circuit, hrun, hsat, rfl⟩ := hprove _ _ _ _ hproved
  obtain ⟨hintegrity, hcompletes, -⟩ := Client.completed hrun hsat
  have htoken := token_of_spendCommitments hspend (token_ne_zero hposeidon (hproofs 0) hintegrity)
  have htransaction : submitted.transaction = ⟨result.1.fee, result.1.roots, result.1.commitments,
      result.1.nullifiers, ⟨result.1.compressedSecrets⟩, proof⟩ := (Except.ok.inj hmade).symm
  have hnullifier : result.1.nullifiers 0 =
      cfg.poseidon [cfg.nullifierKey, (submitted.spendCommitments 0).hash cfg.poseidon] :=
    congrFun hcompletes.nullifiers 0
  have hcommitment : result.1.commitments 0 = 0 ↔ r.recipientAddress ≠ 0 :=
    commitment_eq_zero_iff hcompletes hposeidon
  obtain ⟨txn, hto, htxnNullifier, htxnCommitment, htxnData⟩ :=
    @exists_toContract submitted.transaction.toOnChain (by
      rw [htransaction]
      exact hasFlag_of_completes hcompletes)
  rw [htransaction] at htxnNullifier htxnCommitment htxnData
  have hdeposit : txn.nullifiers 0 ≠ 0 := by
    refine fun hzero => hposeidon _ (hnullifier.symm.trans (htxnNullifier.1 hzero))
  have hwithdraw : txn.commitments 0 = 0 ↔ r.recipientAddress ≠ 0 := htxnCommitment.trans hcommitment
  refine ⟨r, hr, txn, hto, ?_, hintegrity.withdrawAddress_lt, fun hne => ?_⟩
  · rw [Contract.OnChainTransaction.kind, if_neg hdeposit]
    by_cases haddress : r.recipientAddress = 0
    · rw [if_neg fun hzero => hwithdraw.1 hzero haddress, if_pos haddress]
    · rw [if_pos (hwithdraw.2 haddress), if_neg haddress]
  · have hsecrets : result.1.compressedSecrets =
        ![(submitted.spendCommitments 0).nfTokenId, r.recipientAddress, r.value, 0, 0] :=
      compressedSecrets_of_withdraw hcompletes hne
    have haddress : (uint256 r.recipientAddress).truncate 160 =
        BitVec.ofNat 160 r.recipientAddress.val := by
      refine BitVec.eq_of_toNat_eq ?_
      rw [BitVec.truncate_eq_setWidth, BitVec.toNat_setWidth, toNat_uint256, BitVec.toNat_ofNat]
    rw [htxnData, SpendRequest.withdrawData, ← haddress, ← htoken, ← hnullifier]
    simp only [ClientTransaction.toOnChain, hsecrets]
    rfl

end Taken

/-! ### What was asked for -/

section Asked

variable {P : Type} {cfg : ClientConfig} {env : RequestEnv P} {s s' : ClientState} {r : SpendRequest}
  {submitted : Submitted P} {request : Request}

theorem run_handleWithdraw {withdraw : WithdrawRequest} {handled : Submitted P × Fr254}
    (h : (handleWithdraw cfg env withdraw).run s = .ok handled s') :
    (handleRequest cfg env (.withdraw withdraw)).run s = .ok handled.1 s' ∧
      handled.2 = cfg.poseidon
        [cfg.nullifierKey, (handled.1.spendCommitments 0).hash cfg.poseidon] := by
  refine ⟨run_bind_eq_ok.2 ⟨handled, s', h, rfl⟩, ?_⟩
  obtain ⟨_, _, -, h⟩ := run_bind_eq_ok.1 h
  obtain ⟨_, _, -, h⟩ := run_bind_eq_ok.1 h
  cases h
  rfl

/-- A transfer is taken for one. -/
theorem understood_transfer (hprove : ProvesCircuit cfg env) (hposeidon : ∀ l, cfg.poseidon l ≠ 0)
    (transfer : TransferRequest) : Understood cfg env s (.transfer transfer) := by
  intro submitted s' h
  have hrun : (handleRequest cfg env (.transfer transfer)).run s = .ok submitted s' := h
  obtain ⟨r, hr, txn, htaken⟩ := exists_takenFor hprove hposeidon hrun
  exact ⟨txn, htaken.toContract, htaken.kind.trans (if_pos (requested_transfer hr).1)⟩

/-- A withdraw is taken for one if it is to an address. -/
theorem withdraws_of_address (hprove : ProvesCircuit cfg env)
    (hposeidon : ∀ l, cfg.poseidon l ≠ 0) {withdraw : WithdrawRequest}
    {handled : Submitted P × Fr254} (h : (handleWithdraw cfg env withdraw).run s = .ok handled s')
    (hr : requested cfg env (.withdraw withdraw) s = some r) (hne : r.recipientAddress ≠ 0) :
    ∃ txn, handled.1.transaction.toOnChain.toContract = .ok txn ∧ Withdraws r handled.2 txn := by
  obtain ⟨hrun, hsalt⟩ := run_handleWithdraw h
  obtain ⟨r', hr', txn, htaken⟩ := exists_takenFor hprove hposeidon hrun
  obtain rfl : r = r' := Option.some.inj (hr.symm.trans hr')
  have hkind : txn.kind = .withdraw := htaken.kind.trans (if_neg hne)
  have hdata : txn.withdrawData = r.withdrawData handled.2 := by
    rw [htaken.data hne, hsalt]
  refine ⟨txn, htaken.toContract, hkind, hdata, htaken.address_lt, fun hs st st' hprocess => ?_⟩
  rw [← hdata]
  exact Contract.withdrawalIncluded_of_withdraw hkind hprocess

/-- A withdraw to the address zero is taken for a transfer. -/
theorem not_understood_of_zero (hprove : ProvesCircuit cfg env)
    (hposeidon : ∀ l, cfg.poseidon l ≠ 0) {withdraw : WithdrawRequest}
    (h : (handleRequest cfg env (.withdraw withdraw)).run s = .ok submitted s')
    (hzero : withdraw.recipientAddress = .ok 0) : ¬ Understood cfg env s (.withdraw withdraw) := by
  intro hunderstood
  obtain ⟨r, hr, txn, htaken⟩ := exists_takenFor hprove hposeidon h
  obtain ⟨handled, s₁, hhandled, hdone⟩ := run_bind_eq_ok.1 h
  cases hdone
  obtain ⟨txn', hto, hwithdraws⟩ := hunderstood handled s' r hhandled hr
  obtain rfl : txn = txn' := Except.ok.inj (htaken.toContract.symm.trans hto)
  have haddress : r.recipientAddress = 0 :=
    Except.ok.inj ((requested_withdraw hr).symm.trans hzero)
  have hkind := hwithdraws.kind
  rw [htaken.kind, if_pos haddress] at hkind
  cases hkind

/-- **When a request is understood.**  Of the requests that complete, only a withdraw to the address
zero isn't taken for what it asks for. -/
theorem understood_iff (hprove : ProvesCircuit cfg env) (hposeidon : ∀ l, cfg.poseidon l ≠ 0)
    (h : (handleRequest cfg env request).run s = .ok submitted s') :
    Understood cfg env s request ↔ request.HasAddress := by
  cases request with
  | transfer transfer => exact iff_of_true (understood_transfer hprove hposeidon transfer) trivial
  | withdraw withdraw =>
    constructor
    · intro hunderstood hzero
      exact not_understood_of_zero hprove hposeidon h hzero hunderstood
    · intro hne handled s₁ r hrun hr
      refine withdraws_of_address hprove hposeidon hrun hr fun hzero => hne ?_
      rw [requested_withdraw hr, hzero]

end Asked

/-! ### A sample -/

open Classical in
/-- A prover that checks the circuit, as `prove` does. -/
noncomputable def checkedProve (Pr : Client.Primitives) (privateInputs : Client.PrivateInputs)
    (publicInputs : Client.PublicInputs Fr254) : Option (Unit × Client.PublicInputs Fr254) :=
  match (Client.assessOperationIntegrity Pr publicInputs privateInputs).run
    (.newUltraPlonk Fr254) with
  | .error _ => none
  | .ok built => if built.2.Satisfies built.2.value then some ((), built.1.1) else none

/-- The surroundings of requests that are proved. -/
noncomputable def checkedEnv : RequestEnv Unit :=
  { provableEnv with prove := checkedProve sampleConfig.toPrimitives }

theorem checkedEnv_proves : ProvesCircuit sampleConfig checkedEnv := by
  intro privateInputs publicInputs proof completed h
  change checkedProve sampleConfig.toPrimitives privateInputs publicInputs = _ at h
  rw [checkedProve] at h
  split at h
  · cases h
  · next built hrun =>
    split_ifs at h with hsat
    cases h
    exact ⟨built.1, built.2, hrun, hsat, rfl⟩

theorem exists_checkedProve {Pr : Client.Primitives} {privateInputs : Client.PrivateInputs}
    {publicInputs : Client.PublicInputs Fr254}
    (h : (Client.suggested Pr publicInputs privateInputs).Integrity Pr) :
    ∃ completed, checkedProve Pr privateInputs publicInputs = some ((), completed) := by
  obtain ⟨result, circuit, hrun, hsat⟩ := Client.exists_completed h
  refine ⟨result.1, ?_⟩
  simp only [checkedProve, hrun, hsat, if_true]

/-- A withdraw of 3 to an address. -/
def sampleWithdraw (address : Fr254) : WithdrawRequest :=
  ⟨.ok (11 : ℕ), .ok (3 : ℕ), .ok 0, .ok address⟩

/-- What it asks for. -/
def withdrawSpend (address : Fr254) : SpendRequest :=
  ⟨(11 : ℕ), (3 : ℕ), 0, sampleConfig.contractNfAddress, .transfer (23 : ℕ), 0, address⟩

/-- What it spends. -/
def withdrawn : Fin 4 → Preimage := ![samplePreimage, .default, .default, .default]

/-- The membership proofs of what it spends. -/
def provableProofs (i : Fin 4) : Plonk.MembershipProof Fr254 (Merkle.PathElement Fr254) × Fr254 :=
  match spendProof sampleConfig provableEnv provableClient (withdrawn i) with
  | .ok proof => proof
  | .error _ => (provableEnv.defaultProof, 0)

theorem sampleWithdraw_completes {address : Fr254}
    (h : (suggestedOperation sampleConfig checkedEnv (withdrawSpend address) withdrawn
      provableProofs).Integrity sampleConfig.toPrimitives) :
    ∃ submitted s', (handleRequest sampleConfig checkedEnv
      (.withdraw (sampleWithdraw address))).run provableClient = .ok submitted s' := by
  obtain ⟨completed, hproved⟩ := exists_checkedProve h
  have hr : requested sampleConfig checkedEnv (.withdraw (sampleWithdraw address)) provableClient =
      some (withdrawSpend address) := rfl
  have hselected : spendCommitments sampleConfig provableClient.commitments (withdrawSpend 0) =
      some withdrawn := by decide +kernel
  -- what is selected does not depend on the address
  have hsame : ∀ db, spendCommitments sampleConfig db (withdrawSpend address) =
      spendCommitments sampleConfig db (withdrawSpend 0) := fun _ => rfl
  have hspend := (hsame _).trans hselected
  have hreserved : ∀ db, reservedKeys sampleConfig db (withdrawSpend address) =
      reservedKeys sampleConfig db (withdrawSpend 0) := fun _ => rfl
  have hnew : ((changeEntries sampleConfig (newCommitments sampleConfig provableEnv
      (withdrawSpend 0) withdrawn)).map CommitmentEntry.key).Nodup ∧
      ∀ e ∈ changeEntries sampleConfig (newCommitments sampleConfig provableEnv (withdrawSpend 0)
        withdrawn), e.key ∉ (provableClient.marked (reservedKeys sampleConfig
          provableClient.commitments (withdrawSpend 0))).commitments.keys := by
    decide +kernel
  have hproofs : ∀ i, spendProof sampleConfig checkedEnv
      (provableClient.afterSpend sampleConfig provableEnv (withdrawSpend 0) withdrawn)
        (withdrawn i) = .ok (provableProofs i) := by
    decide +kernel
  have hbalance := @newCommitments_balance Unit sampleConfig checkedEnv (withdrawSpend address)
    withdrawn
  have hoperation := @clientOperation_eq Unit sampleConfig checkedEnv _ _ _ _
    (withdrawSpend address).ephemeralPrivateKey (withdrawSpend address).recipientAddress hbalance.1
    hbalance.2 hproofs
  have hchecked : checkedEnv.prove = checkedProve sampleConfig.toPrimitives := rfl
  rw [hchecked, hproved] at hoperation
  have hsubmits : Submits sampleConfig checkedEnv (provableClient.marked
      (reservedKeys sampleConfig provableClient.commitments (withdrawSpend address)))
      (withdrawSpend address) withdrawn := by
    rw [hreserved]
    exact ⟨hnew, _, hoperation, rfl⟩
  obtain ⟨transaction, hrun⟩ := run_handleRequest_of_submits hr hspend hsubmits
  exact ⟨_, _, hrun⟩

theorem understood_iff_sample : ∃ submitted s', (handleRequest sampleConfig checkedEnv
    (.withdraw (sampleWithdraw (5 : ℕ)))).run provableClient = .ok submitted s' ∧
      (Understood sampleConfig checkedEnv provableClient (.withdraw (sampleWithdraw (5 : ℕ))) ↔
        Request.HasAddress (.withdraw (sampleWithdraw (5 : ℕ)))) := by
  have hintegrity : (suggestedOperation sampleConfig checkedEnv (withdrawSpend (5 : ℕ))
      withdrawn provableProofs).Integrity sampleConfig.toPrimitives := by decide +kernel
  obtain ⟨submitted, s', h⟩ := sampleWithdraw_completes hintegrity
  exact ⟨submitted, s', h,
    understood_iff checkedEnv_proves Client.samplePrimitives_ne_zero h⟩

/-- A withdraw to the address zero completes, and isn't taken for one. -/
theorem withdraw_to_zero : ∃ submitted s', (handleRequest sampleConfig checkedEnv
    (.withdraw (sampleWithdraw 0))).run provableClient = .ok submitted s' ∧
      ¬ Understood sampleConfig checkedEnv provableClient (.withdraw (sampleWithdraw 0)) := by
  have hintegrity : (suggestedOperation sampleConfig checkedEnv (withdrawSpend 0) withdrawn
      provableProofs).Integrity sampleConfig.toPrimitives := by decide +kernel
  obtain ⟨submitted, s', h⟩ := sampleWithdraw_completes hintegrity
  exact ⟨submitted, s', h,
    not_understood_of_zero checkedEnv_proves Client.samplePrimitives_ne_zero h rfl⟩

end Wallet

end Nightfall
