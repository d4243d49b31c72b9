import Nightfall.Node.Selection

/-!
# The events of deposits

For the event of a deposit the proposer stores what the arguments of `escrow_funds` say, or nothing
(`stateAfter_depositEscrowed`).  It looks for the deposit among the client transactions, where there
are no deposits, so an event that arrives again stores its deposit again.

If every event arrives while there is no copy of its deposit, neither in the mempool nor in a block of
the proposer, there is never more than one copy of a deposit (`deposits_applied_once`).
-/

namespace Nightfall

namespace Node

open Evm Trees Stateful
open Contract (Address)

section Deposits

variable {P : Type} (cfg : ProposerConfig P)

/-- The deposit that an event and the calldata of its transaction stand for. -/
def escrowedDeposit (input : Calldata) (nfSlotId value : U256) : Option DepositDatawithFee :=
  match input with
  | .escrowFunds fee ercAddress tokenId secretHash => do
    let fee ← tryFrom fee
    let secretHash ← tryFrom secretHash
    let nfSlotId ← tryFrom nfSlotId
    let value ← tryFrom value
    some ⟨fee,
      if nfSlotId = cfg.feeTokenId then ⟨cfg.feeTokenId, cfg.feeTokenId, value, secretHash⟩
      else ⟨toNfTokenIdFromSolidity cfg.sha256 ercAddress tokenId, nfSlotId, value, secretHash⟩⟩
  | _ => none

/-- The deposit of an event, if the transaction of the event is found. -/
def Lookup.deposit (nfSlotId value : U256) : Lookup → Option DepositDatawithFee
  | .failed _ => none
  | .notFound => none
  | .found tx => escrowedDeposit cfg tx.input nfSlotId value

/-- The state with a deposit more, if no client transaction has its hash. -/
def ProposerState.storingDeposit (s : ProposerState P) (deposit : DepositDatawithFee) :
    ProposerState P :=
  if ∃ v ∈ s.transactions.clientTransactions, some v.hash = cfg.depositHash deposit then s
  else { s with transactions := s.transactions.setMempoolDeposits [deposit] }

variable {cfg}

theorem stateAfter_processDepositTransaction (deposit : DepositDatawithFee) (s : ProposerState P) :
    stateAfter (processDepositTransaction cfg deposit) s = s.storingDeposit cfg deposit := by
  rw [ProposerState.storingDeposit, stateAfter, processDepositTransaction, EStateM.run_bind,
    EStateM.run_get]
  by_cases hfound : ∃ v ∈ s.transactions.clientTransactions, some v.hash = cfg.depositHash deposit
  · simp only [hfound, if_true]
    rfl
  · simp only [hfound, if_false]
    rfl

theorem stateAfter_mapErr {ε σ α : Type} (e : ε) (x : NodeM ε σ α) (s : σ) :
    stateAfter (mapErr e x) s = stateAfter x s := by
  rw [stateAfter, stateAfter, EStateM.run, mapErr]
  cases x.run s with
  | ok a s' => rfl
  | error f s' =>
    cases f with
    | err e => rfl
    | panic m => rfl

/-- **What the event of a deposit changes**: the deposit is stored once more, or nothing changes. -/
theorem stateAfter_depositEscrowed (env : ProposerEnv) (nfSlotId value : U256)
    (s : ProposerState P) :
    stateAfter (proposerHandleEvent cfg env (.depositEscrowed nfSlotId value)) s =
      (env.transaction.deposit cfg nfSlotId value).elim s (s.storingDeposit cfg) := by
  rw [proposerHandleEvent, stateAfter_mapErr, processDepositEscrowedEvent]
  cases env.transaction with
  | failed message => rfl
  | notFound => rfl
  | found tx =>
    rw [getTransaction, pure_bind, Lookup.deposit]
    cases tx.input with
    | undecodable message => rfl
    | proposeBlock blk => rfl
    | other => rfl
    | escrowFunds fee ercAddress tokenId secretHash =>
      rw [escrowedDeposit]
      dsimp only
      cases tryFrom fee with
      | none => rfl
      | some fee =>
      cases tryFrom secretHash with
      | none => rfl
      | some secretHash =>
      cases tryFrom nfSlotId with
      | none => rfl
      | some nfSlotId =>
      cases tryFrom value with
      | none => rfl
      | some value => exact stateAfter_processDepositTransaction _ s

end Deposits

variable {P : Type}

/-! ### Runs -/

/-- What the contract emits for a deposit, and the transaction that made it. -/
structure EscrowEvent where
  nfSlotId : U256
  value : U256
  tx : Transaction

/-- The deposit of an event. -/
def EscrowEvent.deposit (cfg : ProposerConfig P) (e : EscrowEvent) : Option DepositDatawithFee :=
  escrowedDeposit cfg e.tx.input e.nfSlotId e.value

/-- The contract and a proposer. -/
structure DepositHistory (P : Type) where
  proposer : ProposerState P
  /-- The deposits that the contract escrowed. -/
  escrowed : List EscrowEvent
  /-- The deposits in the blocks of the proposer. -/
  included : List DepositDatawithFee

/-- What happens to the contract and to a proposer. -/
inductive DepositAction (P : Type)
  /-- The contract escrows a deposit. -/
  | escrow (e : EscrowEvent)
  /-- The event of a deposit arrives, maybe again. -/
  | deliver (env : ProposerEnv) (e : EscrowEvent)
  /-- A client submits a transaction. -/
  | submit (inserted : Bool) (tx : ClientTransaction P)
  /-- A block is prepared, and produced or not. -/
  | prepare (produced : Bool)
  /-- Blocks are processed, stored or deleted. -/
  | blocks (commitments nullifiers historicRoots : TreeDb Fr254) (stored : ProposedBlocks)
  /-- The listener restarts with new trees. -/
  | restart (commitments nullifiers historicRoots : TreeDb Fr254)

section Runs

variable {ε : Type} (engine : ProvingEngine P ε) (cfg : ProposerConfig P)

/-- What is left after an action. -/
def DepositAction.next (h : DepositHistory P) : DepositAction P → DepositHistory P
  | escrow e => { h with escrowed := h.escrowed ++ [e] }
  | deliver env e =>
    { h with
      proposer := stateAfter
        (proposerHandleEvent cfg env (.depositEscrowed e.nfSlotId e.value)) h.proposer }
  | submit inserted tx =>
    { h with
      proposer := stateAfter (processNightfallClientTransaction engine cfg inserted tx) h.proposer }
  | prepare produced =>
    { h with
      proposer := stateAfter (prepareBlockData cfg) h.proposer
      included := h.included ++ if produced then preparedDeposits cfg h.proposer else [] }
  | blocks commitments nullifiers historicRoots stored =>
    { h with
      proposer :=
        { h.proposer with
          commitments := commitments, nullifiers := nullifiers, historicRoots := historicRoots
          blocks := stored } }
  | restart commitments nullifiers historicRoots =>
    { h with
      proposer :=
        { h.proposer with
          commitments := commitments, nullifiers := nullifiers, historicRoots := historicRoots
          transactions := .empty } }

/-- Only events of the contract arrive, and for them the client finds their transactions. -/
def DepositAction.Possible (h : DepositHistory P) : DepositAction P → Prop
  | deliver env e => e ∈ h.escrowed ∧ ∀ tx, env.transaction = .found tx → tx = e.tx
  | _ => True

/-- An event arrives only while there is no copy of its deposit in the mempool or in a block of the
proposer. -/
def DepositAction.Careful (h : DepositHistory P) : DepositAction P → Prop
  | deliver _ e => ∀ d, e.deposit cfg = some d →
      d ∉ h.proposer.transactions.deposits ∧ d ∉ h.included
  | _ => True

/-- A run from an empty mempool, all of whose actions are possible and satisfy `C`. -/
inductive DepositRun (C : DepositHistory P → DepositAction P → Prop) : DepositHistory P → Prop
  | start {s : ProposerState P} : s.transactions = .empty → DepositRun C ⟨s, [], []⟩
  | step {h : DepositHistory P} (a : DepositAction P) :
      DepositRun C h → a.Possible h → C h a → DepositRun C (a.next engine cfg h)

/-- The copies of deposits. -/
def DepositHistory.copies (h : DepositHistory P) : List DepositDatawithFee :=
  h.proposer.transactions.deposits ++ h.included

/-- No deposit has more copies than were escrowed. -/
def DepositHistory.AppliedOnce (h : DepositHistory P) : Prop :=
  ∀ d, h.proposer.transactions.deposits.count d + h.included.count d ≤
    (h.escrowed.filterMap (EscrowEvent.deposit cfg)).count d

/-- There is at most one copy of a deposit, and only of what was escrowed. -/
structure DepositHistory.SingleCopies (h : DepositHistory P) : Prop where
  nodup : h.copies.Nodup
  escrowed : ∀ d ∈ h.copies, d ∈ h.escrowed.filterMap (EscrowEvent.deposit cfg)

end Runs

section Once

variable {ε : Type} {engine : ProvingEngine P ε} {cfg : ProposerConfig P} {h h' : DepositHistory P}

/-- Fewer copies. -/
theorem DepositHistory.SingleCopies.of_subperm (hsingle : h.SingleCopies cfg)
    (hsub : h'.copies.Subperm h.copies) (hescrowed : h.escrowed ⊆ h'.escrowed) :
    h'.SingleCopies cfg where
  nodup := by
    rw [List.nodup_iff_count_le_one]
    intro d
    exact (hsub.count_le d).trans (List.nodup_iff_count_le_one.1 hsingle.nodup d)
  escrowed d hd := by
    obtain ⟨e, he, hdeposit⟩ := List.mem_filterMap.1 (hsingle.escrowed d (hsub.subset hd))
    exact List.mem_filterMap.2 ⟨e, hescrowed he, hdeposit⟩

theorem DepositHistory.SingleCopies.appliedOnce (hsingle : h.SingleCopies cfg) :
    h.AppliedOnce cfg := by
  intro d
  rw [← List.count_append]
  by_cases hd : d ∈ h.copies
  · have hone : h.copies.count d ≤ 1 := List.nodup_iff_count_le_one.1 hsingle.nodup d
    exact hone.trans (List.count_pos_iff.2 (hsingle.escrowed d hd))
  · have hzero : h.copies.count d = 0 := List.count_eq_zero.2 hd
    exact hzero.le.trans (Nat.zero_le _)

/-- A preparation leaves or chooses what was there. -/
theorem deposits_stateAfter_prepare (cfg : ProposerConfig P) (s : ProposerState P) :
    (preparedDeposits cfg s ++ (stateAfter (prepareBlockData cfg) s).transactions.deposits).Subperm
      s.transactions.deposits := by
  rw [preparedDeposits, stateAfter]
  by_cases hsize : AllowedBlockSize cfg.blockSize
  · by_cases hnothing : NothingPending cfg s
    · rw [run_prepareBlockData_of_nothing hsize hnothing]
      exact List.filter_sublist.subperm
    · rw [run_prepareBlockData_of_pending hsize hnothing]
      dsimp only
      rw [deposits_preparedDb]
      have hsub := append_filter_subperm deposits_perm fun d =>
        @not_kept_of_mem_chosen P cfg s d
      rw [List.append_assoc] at hsub
      exact (List.sublist_append_right _ _).subperm.trans hsub
  · rw [run_prepareBlockData_of_not_allowed hsize]
    exact List.Subperm.refl _

theorem DepositHistory.SingleCopies.next_deliver (hsingle : h.SingleCopies cfg) {env : ProposerEnv}
    {e : EscrowEvent} (hpossible : (DepositAction.deliver env e).Possible h)
    (hcareful : (DepositAction.deliver env e).Careful cfg h) :
    ((DepositAction.deliver env e).next engine cfg h).SingleCopies cfg := by
  rw [DepositAction.next, stateAfter_depositEscrowed]
  cases hdeposit : env.transaction.deposit cfg e.nfSlotId e.value with
  | none => exact hsingle
  | some d =>
    have he : e.deposit cfg = some d := by
      cases htx : env.transaction with
      | failed message => rw [htx] at hdeposit; cases hdeposit
      | notFound => rw [htx] at hdeposit; cases hdeposit
      | found tx =>
        rw [htx] at hdeposit
        obtain rfl := hpossible.2 tx htx
        exact hdeposit
    obtain ⟨hmempool, hincluded⟩ := hcareful d he
    rw [Option.elim_some, ProposerState.storingDeposit]
    split_ifs
    · exact hsingle
    · have hcopies : ((h.proposer.transactions.deposits ++ [d]) ++ h.included).Perm
          (d :: h.copies) := by
        rw [List.append_assoc]
        exact List.perm_middle
      constructor
      · refine hcopies.nodup_iff.2 (List.nodup_cons.2 ⟨?_, hsingle.nodup⟩)
        exact fun hmem => (List.mem_append.1 hmem).elim hmempool hincluded
      · intro d' hd'
        rcases List.mem_cons.1 (hcopies.mem_iff.1 hd') with rfl | hold
        · exact List.mem_filterMap.2 ⟨e, hpossible.1, he⟩
        · exact hsingle.escrowed d' hold

theorem deposits_stateAfter_submit (inserted : Bool) (tx : ClientTransaction P)
    (s : ProposerState P) :
    (stateAfter (processNightfallClientTransaction engine cfg inserted tx) s).transactions.deposits =
      s.transactions.deposits := by
  rcases run_cases (processNightfallClientTransaction engine cfg inserted tx) s with
    ⟨_, s', hrun⟩ | ⟨f, s', hrun⟩
  · obtain ⟨-, -, hash, -, rfl⟩ := run_admission_eq_ok.1 hrun
    rw [stateAfter_of_ok hrun]
    rfl
  · rw [stateAfter_of_error hrun, (run_admission_eq_error hrun).1]

theorem DepositHistory.SingleCopies.next_prepare (hsingle : h.SingleCopies cfg) (produced : Bool) :
    ((DepositAction.prepare produced).next engine cfg h).SingleCopies cfg := by
  refine hsingle.of_subperm ?_ (List.Subset.refl _)
  have hprepare := deposits_stateAfter_prepare cfg h.proposer
  change (((stateAfter (prepareBlockData cfg) h.proposer).transactions.deposits) ++
    (h.included ++ if produced then preparedDeposits cfg h.proposer else [])).Subperm
      (h.proposer.transactions.deposits ++ h.included)
  cases produced with
  | false =>
    rw [if_neg Bool.false_ne_true, List.append_nil, List.subperm_append_right]
    exact (List.sublist_append_right _ _).subperm.trans hprepare
  | true =>
    rw [if_pos rfl, List.perm_append_comm.subperm_right, List.append_assoc,
      List.perm_append_comm.subperm_left, List.subperm_append_left]
    exact hprepare

theorem DepositHistory.SingleCopies.next (hsingle : h.SingleCopies cfg) {a : DepositAction P}
    (hpossible : a.Possible h) (hcareful : a.Careful cfg h) :
    (a.next engine cfg h).SingleCopies cfg := by
  cases a with
  | escrow e => exact hsingle.of_subperm (List.Subperm.refl _) (List.subset_append_left _ _)
  | deliver env e => exact hsingle.next_deliver hpossible hcareful
  | submit inserted tx =>
    refine hsingle.of_subperm ?_ (List.Subset.refl _)
    rw [copies, DepositAction.next, deposits_stateAfter_submit]
    exact List.Subperm.refl _
  | prepare produced => exact hsingle.next_prepare produced
  | blocks _ _ _ _ => exact hsingle.of_subperm (List.Subperm.refl _) (List.Subset.refl _)
  | restart _ _ _ =>
    exact hsingle.of_subperm (List.sublist_append_right _ _).subperm (List.Subset.refl _)

theorem DepositRun.singleCopies (hrun : DepositRun engine cfg (DepositAction.Careful cfg) h) :
    h.SingleCopies cfg := by
  induction hrun with
  | start hempty =>
    constructor
    · rw [DepositHistory.copies, hempty]
      exact List.nodup_nil
    · intro d hd
      rw [DepositHistory.copies, hempty] at hd
      cases hd
  | step a _ hpossible hcareful ih => exact ih.next hpossible hcareful

/-- **A deposit is applied once**, if every event of a deposit arrived while there was no copy of the
deposit: no deposit has more copies, in the mempool and in blocks, than were escrowed, and no deposit
is twice in the blocks. -/
theorem deposits_applied_once (hrun : DepositRun engine cfg (DepositAction.Careful cfg) h) :
    h.AppliedOnce cfg ∧ h.included.Nodup :=
  ⟨hrun.singleCopies.appliedOnce, hrun.singleCopies.nodup.of_append_right⟩

end Once

/-! ### A deposit whose event arrives twice -/

/-- A deposit of the fee token. -/
def sampleEscrow : EscrowEvent := ⟨4, 10, ⟨.escrowFunds 1 1 0 8, 1⟩⟩

/-- The deposit of the event. -/
def sampleEscrowed : DepositDatawithFee := ⟨(1 : ℕ), (4 : ℕ), (4 : ℕ), (10 : ℕ), (8 : ℕ)⟩

/-- The transaction of the event is found. -/
def sampleEscrowEnv : ProposerEnv :=
  ⟨.found sampleEscrow.tx, .found sampleEscrow.tx, some 0, fun _ => none⟩

/-- The event arrives at a proposer that has some deposits already. -/
def sampleDelivered (deposits included : List DepositDatawithFee) :
    DepositHistory (PlonkProof ℕ) :=
  ⟨{ sampleProposer with transactions := ⟨[], deposits⟩ }, [sampleEscrow], included⟩

theorem sampleEscrow_deposit : sampleEscrow.deposit sampleConfig = some sampleEscrowed := by
  decide +kernel

theorem next_deliver_sampleDelivered (deposits included : List DepositDatawithFee) :
    (DepositAction.deliver sampleEscrowEnv sampleEscrow).next samplePlonk.engine sampleConfig
      (sampleDelivered deposits included) =
      sampleDelivered (deposits ++ [sampleEscrowed]) included := by
  have hdeposit : sampleEscrowEnv.transaction.deposit sampleConfig sampleEscrow.nfSlotId
      sampleEscrow.value = some sampleEscrowed := sampleEscrow_deposit
  rw [DepositAction.next, stateAfter_depositEscrowed, hdeposit, Option.elim_some,
    ProposerState.storingDeposit, if_neg]
  · rfl
  · rintro ⟨v, hv, -⟩
    cases hv

theorem next_prepare_sampleDelivered :
    (DepositAction.prepare true).next samplePlonk.engine sampleConfig
      (sampleDelivered [sampleEscrowed] []) = sampleDelivered [] [sampleEscrowed] := by
  have hpending : ¬ NothingPending sampleConfig (sampleDelivered [sampleEscrowed] []).proposer := by
    rintro ⟨hnone, -⟩
    cases hnone
  have hrun := run_prepareBlockData_of_pending (.inl rfl) hpending
  have hdb : preparedDb sampleConfig (sampleDelivered [sampleEscrowed] []).proposer = ⟨[], []⟩ := by
    decide +kernel
  have hchosen : (chosenGroups sampleConfig (sampleDelivered [sampleEscrowed] []).proposer).flatten =
      [sampleEscrowed] := by decide +kernel
  rw [DepositAction.next, stateAfter_of_ok hrun, preparedDeposits, hrun, hdb]
  dsimp only
  rw [hchosen]
  rfl

theorem sampleDelivered_possible (deposits included : List DepositDatawithFee) :
    (DepositAction.deliver sampleEscrowEnv sampleEscrow).Possible
      (sampleDelivered deposits included) := by
  refine ⟨List.mem_singleton_self _, ?_⟩
  rintro tx ⟨⟩
  rfl

/-- After the first event the deposit is there, after the second one it is there twice. -/
theorem not_appliedOnce :
    ∃ h, DepositRun samplePlonk.engine sampleConfig (fun _ _ => True) h ∧
      ¬ h.AppliedOnce sampleConfig := by
  refine ⟨sampleDelivered [sampleEscrowed, sampleEscrowed] [], ?_, ?_⟩
  · have hstart : DepositRun samplePlonk.engine sampleConfig (fun _ _ => True)
        (sampleDelivered [] []) := .step (.escrow sampleEscrow) (.start rfl) trivial trivial
    have hfirst := hstart.step _ (sampleDelivered_possible [] []) trivial
    rw [next_deliver_sampleDelivered] at hfirst
    have hsecond := hfirst.step _ (sampleDelivered_possible [sampleEscrowed] []) trivial
    rw [next_deliver_sampleDelivered] at hsecond
    exact hsecond
  · intro honce
    have hcount := honce sampleEscrowed
    have hone : ((sampleDelivered [sampleEscrowed, sampleEscrowed] []).escrowed.filterMap
        (EscrowEvent.deposit sampleConfig)).count sampleEscrowed = 1 := by decide +kernel
    rw [hone] at hcount
    exact absurd hcount (by decide +kernel)

/-- The event arrives once, and the deposit is in one block. -/
theorem deposits_applied_once_sample :
    ∃ h : DepositHistory (PlonkProof ℕ), h.included = [sampleEscrowed] ∧
      h.AppliedOnce sampleConfig ∧ h.included.Nodup := by
  have hstart : DepositRun samplePlonk.engine sampleConfig (DepositAction.Careful sampleConfig)
      (sampleDelivered [] []) := .step (.escrow sampleEscrow) (.start rfl) trivial trivial
  have hdelivered := hstart.step _ (sampleDelivered_possible [] []) fun d _ =>
    ⟨List.not_mem_nil, List.not_mem_nil⟩
  rw [next_deliver_sampleDelivered] at hdelivered
  have hprepared := hdelivered.step (.prepare true) trivial trivial
  rw [List.nil_append, next_prepare_sampleDelivered] at hprepared
  exact ⟨_, rfl, deposits_applied_once hprepared⟩

end Node

end Nightfall
