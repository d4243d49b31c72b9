import Nightfall.Node.Selection
import Nightfall.Trees.NewLeaves

/-!
# Conflicts between the transactions of a block

Two client transactions conflict if they have a nullifier in common.  The admission looks for the
nullifiers of a transaction in the tree only, and the selection doesn't look for them at all, so two
transactions with the same nullifier can be chosen for one block.

If no transaction is submitted while another one with the same nullifier is pending, and no nullifier
of a pending transaction gets into the tree otherwise, the transactions that are chosen never conflict
(`selected_never_conflict`).
-/

namespace Nightfall

namespace Node

open Evm Trees Stateful

/-! ### Runs of the mempool -/

/-- What happens to the mempool and to what is looked up for it. -/
inductive MempoolAction (P : Type)
  /-- A client submits a transaction. -/
  | submit (inserted : Bool) (tx : ClientTransaction P)
  /-- A deposit arrives. -/
  | deposit (d : DepositDatawithFee)
  /-- A block is prepared. -/
  | prepare
  /-- Blocks are assembled, processed, stored or deleted. -/
  | blocks (commitments nullifiers historicRoots : TreeDb Fr254) (stored : ProposedBlocks)
  /-- The listener restarts with new trees. -/
  | restart (commitments nullifiers historicRoots : TreeDb Fr254)

section Runs

variable {P ε : Type} (engine : ProvingEngine P ε) (cfg : ProposerConfig P)

/-- The state after an action. -/
def MempoolAction.next (s : ProposerState P) : MempoolAction P → ProposerState P
  | submit inserted tx => stateAfter (processNightfallClientTransaction engine cfg inserted tx) s
  | deposit d => { s with transactions := s.transactions.setMempoolDeposits [d] }
  | prepare => stateAfter (prepareBlockData cfg) s
  | blocks commitments nullifiers historicRoots stored =>
    { s with
      commitments := commitments, nullifiers := nullifiers, historicRoots := historicRoots
      blocks := stored }
  | restart commitments nullifiers historicRoots =>
    { s with
      commitments := commitments, nullifiers := nullifiers, historicRoots := historicRoots
      transactions := .empty }

/-- A run from an empty mempool, all of whose actions satisfy `C`. -/
inductive MempoolRun (C : ProposerState P → MempoolAction P → Prop) : ProposerState P → Prop
  | start {s : ProposerState P} : s.transactions = .empty → MempoolRun C s
  | step {s : ProposerState P} (a : MempoolAction P) :
      MempoolRun C s → C s a → MempoolRun C (a.next engine cfg s)

end Runs

/-! ### Conflicts -/

section Conflicts

variable {P ε : Type} {engine : ProvingEngine P ε} {cfg : ProposerConfig P} {s s' : ProposerState P}

/-- The nullifiers that are not zero. -/
def ClientTransaction.nonzeroNullifiers (tx : ClientTransaction P) : List Fr254 :=
  (List.ofFn tx.nullifiers).filter (· ≠ 0)

/-- The nullifiers of transactions that are not zero. -/
def nonzeroNullifiers (txs : List (ClientTransactionWithMetaData P)) : List Fr254 :=
  txs.flatMap fun tx => tx.clientTransaction.nonzeroNullifiers

/-- The transactions can be in one block: they nullify different commitments, none of which is
nullified already, and the insertion of their nullifiers, among zeros, doesn't fail with
`LeafExists`. -/
structure NoConflict (cfg : ProposerConfig P) (s : ProposerState P)
    (txs : List (ClientTransactionWithMetaData P)) : Prop where
  nodup : (nonzeroNullifiers txs).Nodup
  new : ∀ v ∈ nonzeroNullifiers txs, v ∉ Leaves.values s.nullifiers.indexedLeaves
  insertion : ∀ l : List Fr254, l.filter (· ≠ 0) = nonzeroNullifiers txs → ∀ db,
    (batchInsertNullifiersWithCircuitInfo cfg.treeHash cfg.leafHash l).run s.nullifiers ≠
      .error (.err .leafExists) db

/-- No pending transaction gets a conflict by the action. -/
def MempoolAction.Careful (s : ProposerState P) : MempoolAction P → Prop
  | submit _ tx => tx.nonzeroNullifiers.Nodup ∧
      ∀ v ∈ tx.nonzeroNullifiers, v ∉ nonzeroNullifiers (pendingTransactions s)
  | blocks _ nullifiers _ stored => ∀ tx ∈ pendingTransactions { s with blocks := stored },
      tx ∈ pendingTransactions s ∧
        ∀ v ∈ tx.clientTransaction.nonzeroNullifiers, v ∉ Leaves.values nullifiers.indexedLeaves
  | deposit _ => True
  | prepare => True
  | restart _ _ _ => True

/-- The transactions that are not in a stored block nullify different commitments, none of which is
nullified already. -/
structure PendingNew (s : ProposerState P) : Prop where
  nodup : (nonzeroNullifiers (pendingTransactions s)).Nodup
  new : ∀ v ∈ nonzeroNullifiers (pendingTransactions s),
    v ∉ Leaves.values s.nullifiers.indexedLeaves

theorem nonzeroNullifiers_sublist {txs txs' : List (ClientTransactionWithMetaData P)}
    (h : txs'.Sublist txs) : (nonzeroNullifiers txs').Sublist (nonzeroNullifiers txs) :=
  h.flatMap _

/-- Fewer pending transactions. -/
theorem PendingNew.of_sublist (h : PendingNew s)
    (hsub : (pendingTransactions s').Sublist (pendingTransactions s))
    (hnullifiers : s'.nullifiers = s.nullifiers) : PendingNew s' where
  nodup := h.nodup.sublist (nonzeroNullifiers_sublist hsub)
  new v hv := by
    rw [hnullifiers]
    exact h.new v ((nonzeroNullifiers_sublist hsub).subset hv)

theorem PendingNew.of_empty (h : s.transactions = .empty) : PendingNew s := by
  have hnone : pendingTransactions s = [] := by
    rw [pendingTransactions, TransactionsDb.mempool, h]
    rfl
  constructor
  · rw [hnone]
    exact List.nodup_nil
  · rw [hnone]
    exact fun v hv => absurd hv List.not_mem_nil

theorem PendingNew.stateAfter_submit (h : PendingNew s) {inserted : Bool} {tx : ClientTransaction P}
    (hcareful : (MempoolAction.submit inserted tx).Careful s) :
    PendingNew (stateAfter (processNightfallClientTransaction engine cfg inserted tx) s) := by
  rw [stateAfter]
  rcases run_cases (processNightfallClientTransaction engine cfg inserted tx) s with
    ⟨_, s', hrun⟩ | ⟨e, s', hrun⟩
  · rw [hrun]
    obtain ⟨-, -, hash, hpasses, rfl⟩ := run_admission_eq_ok.1 hrun
    have hmempool : (s.storing tx hash).transactions.mempool =
        s.transactions.mempool ++ [tx.admitted hash] := List.filter_append ..
    have hpending : pendingTransactions (s.storing tx hash) = pendingTransactions s ++
        [tx.admitted hash].filter
          (ClientTransactionWithMetaData.isPending (commitmentsOnchain s.blocks)) := by
      rw [pendingTransactions, hmempool, List.filter_append]
      rfl
    have hsub : (nonzeroNullifiers (pendingTransactions (s.storing tx hash))).Sublist
        (nonzeroNullifiers (pendingTransactions s) ++ tx.nonzeroNullifiers) := by
      rw [hpending, nonzeroNullifiers, List.flatMap_append]
      refine List.Sublist.append_left ?_ _
      have hone := nonzeroNullifiers_sublist (List.filter_sublist (l := [tx.admitted hash])
        (p := ClientTransactionWithMetaData.isPending (commitmentsOnchain s.blocks)))
      rwa [nonzeroNullifiers, nonzeroNullifiers, List.flatMap_singleton] at hone
    constructor
    · refine List.Nodup.sublist hsub (List.nodup_append'.2 ⟨h.nodup, hcareful.1, ?_⟩)
      exact fun v hv hv' => hcareful.2 v hv' hv
    · intro v hv
      rcases List.mem_append.1 (hsub.subset hv) with hold | hnew
      · exact h.new v hold
      · obtain ⟨hmem, hne⟩ := List.mem_filter.1 hnew
        obtain ⟨i, rfl⟩ := List.mem_ofFn.1 hmem
        intro hvalues
        obtain ⟨record, hrecord, hvalue⟩ := List.mem_map.1 hvalues
        exact (hpasses.nullifiers i (of_decide_eq_true hne)).ne record hrecord hvalue
  · rw [hrun]
    obtain ⟨rfl, -⟩ := run_admission_eq_error hrun
    exact h

theorem pendingTransactions_sublist {db : TransactionsDb P} {q : ClientTransactionWithMetaData P → Bool}
    (hdb : db.mempool = s.transactions.mempool.filter q) :
    (pendingTransactions { s with transactions := db }).Sublist (pendingTransactions s) := by
  rw [pendingTransactions, hdb]
  exact List.filter_sublist.filter _

theorem mempool_cleanedDb : (cleanedDb cfg s).mempool = s.transactions.mempool.filter fun v =>
    v.hash ∉ (staleTransactions s).map ClientTransactionWithMetaData.hash := by
  rw [cleanedDb, mempool_setInMempool, mempool_removeMempoolDeposits]

theorem PendingNew.stateAfter_prepare (h : PendingNew s) :
    PendingNew (stateAfter (prepareBlockData cfg) s) := by
  rw [stateAfter]
  by_cases hsize : AllowedBlockSize cfg.blockSize
  · by_cases hnothing : NothingPending cfg s
    · rw [run_prepareBlockData_of_nothing hsize hnothing]
      exact h.of_sublist (pendingTransactions_sublist mempool_cleanedDb) rfl
    · rw [run_prepareBlockData_of_pending hsize hnothing]
      exact h.of_sublist (pendingTransactions_sublist mempool_preparedDb) rfl
  · rw [run_prepareBlockData_of_not_allowed hsize]
    exact h

theorem PendingNew.next_blocks (h : PendingNew s)
    {commitments nullifiers historicRoots : TreeDb Fr254} {stored : ProposedBlocks}
    (hcareful : (MempoolAction.blocks commitments nullifiers historicRoots stored).Careful s) :
    PendingNew ((MempoolAction.blocks commitments nullifiers historicRoots stored).next engine cfg
      s) := by
  have hsub : (pendingTransactions { s with blocks := stored }).Sublist (pendingTransactions s) := by
    have hfilter : pendingTransactions { s with blocks := stored } =
        (pendingTransactions s).filter
          (ClientTransactionWithMetaData.isPending (commitmentsOnchain stored)) := by
      rw [pendingTransactions, pendingTransactions, List.filter_filter]
      refine List.filter_congr fun tx hmem => ?_
      cases hpending : tx.isPending (commitmentsOnchain stored) with
      | false => rfl
      | true =>
        have hbefore := (hcareful tx (List.mem_filter.2 ⟨hmem, hpending⟩)).1
        rw [(List.mem_filter.1 hbefore).2]
        rfl
    rw [hfilter]
    exact List.filter_sublist
  constructor
  · exact h.nodup.sublist (nonzeroNullifiers_sublist hsub)
  · intro v hv
    obtain ⟨tx, htx, hnullifier⟩ := List.mem_flatMap.1 hv
    exact (hcareful tx htx).2 v hnullifier

theorem PendingNew.next (h : PendingNew s) {a : MempoolAction P} (hcareful : a.Careful s) :
    PendingNew (a.next engine cfg s) := by
  cases a with
  | submit inserted tx => exact h.stateAfter_submit hcareful
  | deposit d => exact h.of_sublist (List.Sublist.refl _) rfl
  | prepare => exact h.stateAfter_prepare
  | blocks _ _ _ _ => exact h.next_blocks hcareful
  | restart _ _ _ => exact .of_empty rfl

theorem MempoolRun.pendingNew (h : MempoolRun engine cfg MempoolAction.Careful s) :
    PendingNew s := by
  induction h with
  | start hempty => exact .of_empty hempty
  | step a _ hcareful ih => exact ih.next hcareful

theorem PendingNew.noConflict (cfg : ProposerConfig P) (h : PendingNew s) :
    NoConflict cfg s (chosenTransactions cfg s) := by
  have hperm : (nonzeroNullifiers (pendingTransactions s)).Perm
      (nonzeroNullifiers (chosenTransactions cfg s ++ leftTransactions cfg s)) :=
    (pendingTransactions_perm cfg s).flatMap_right _
  rw [nonzeroNullifiers, nonzeroNullifiers, List.flatMap_append] at hperm
  have hnodup : (nonzeroNullifiers (chosenTransactions cfg s)).Nodup :=
    (hperm.nodup_iff.1 h.nodup).of_append_left
  have hnew : ∀ v ∈ nonzeroNullifiers (chosenTransactions cfg s),
      v ∉ Leaves.values s.nullifiers.indexedLeaves :=
    fun v hv => h.new v (hperm.mem_iff.2 (List.mem_append_left _ hv))
  refine ⟨hnodup, hnew, ?_⟩
  intro l hl db
  refine batchInsertNullifiers_ne_leafExists cfg.treeHash cfg.leafHash ⟨?_, ?_⟩
  · rwa [hl]
  · intro v hv hne
    refine hnew v ?_
    rw [← hl]
    exact List.mem_filter.2 ⟨hv, decide_eq_true hne⟩

/-- **The transactions of a block don't conflict**, if in the run before no transaction was submitted
with a nullifier of a pending one, and no nullifier of a transaction that stayed pending got into the
tree. -/
theorem selected_never_conflict {used : List (List DepositDatawithFee)}
    {txs : List (ClientTransactionWithMetaData P)}
    (hrun : MempoolRun engine cfg MempoolAction.Careful s)
    (hprepare : (prepareBlockData cfg).run s = .ok (used, txs) s') : NoConflict cfg s' txs := by
  obtain ⟨-, -, rfl, rfl⟩ := run_prepareBlockData_eq_ok.1 hprepare
  obtain ⟨hnodup, hnew, hinsertion⟩ := hrun.pendingNew.noConflict cfg
  exact ⟨hnodup, hnew, hinsertion⟩

theorem MempoolAction.next_submit {tx : ClientTransaction P} {hash : Bytes} {b : Bool}
    (hverify : engine.verify tx.proof tx.publicInputs = .ok b) (h : PassesChecks cfg s tx hash) :
    (submit true tx).next engine cfg s = s.storing tx hash := by
  have hrun : (processNightfallClientTransaction engine cfg true tx).run s =
      .ok () (s.storing tx hash) := run_admission_eq_ok.2 ⟨⟨b, hverify⟩, rfl, hash, h, rfl⟩
  rw [next, stateAfter, hrun]

end Conflicts

/-! ### Two transactions with one nullifier -/

/-- A transaction with a right proof, that creates the commitment `c`. -/
def sampleTransfer (c : ℕ) : ClientTransaction (PlonkProof ℕ) :=
  { sampleTransaction with commitments := ![c, 0, 0, 0], proof := ⟨1, (15 + c : ℕ)⟩ }

theorem sampleTransfer_verifies :
    samplePlonk.engine.verify (sampleTransfer 6).proof (sampleTransfer 6).publicInputs = .ok true ∧
      samplePlonk.engine.verify (sampleTransfer 7).proof (sampleTransfer 7).publicInputs =
        .ok true := by
  have hsix : samplePlonk.inputHash (sampleTransfer 6).publicInputs.toList =
      (sampleTransfer 6).proof.piHash := by decide +kernel
  have hseven : samplePlonk.inputHash (sampleTransfer 7).publicInputs.toList =
      (sampleTransfer 7).proof.piHash := by decide +kernel
  simp only [PlonkVerifier.engine, hsix, hseven, ne_eq, not_true_eq_false, if_false]
  exact ⟨rfl, rfl⟩

theorem sampleTransfer_nullifiers (c : ℕ) (i : Fin 4) (hne : (sampleTransfer c).nullifiers i ≠ 0) :
    ProvesAbsent sampleConfig.leafHash sampleProposer.nullifiers ((sampleTransfer c).nullifiers i) :=
  sampleTransaction_passesChecks.nullifiers i hne

theorem sampleTransfer_passesChecks :
    PassesChecks sampleConfig sampleProposer (sampleTransfer 6) [21] ∧
      PassesChecks sampleConfig (sampleProposer.storing (sampleTransfer 6) [21])
        (sampleTransfer 7) [22] := by
  refine ⟨⟨?_, rfl, ?_, sampleTransfer_nullifiers 6, ?_⟩,
    ⟨?_, ?_, ?_, sampleTransfer_nullifiers 7, ?_⟩⟩
  all_goals decide +kernel

/-- Both transactions are admitted, and both are chosen for one block. -/
theorem selected_conflict :
    ∃ s used txs s',
      MempoolRun samplePlonk.engine sampleConfig (fun _ _ => True) s ∧
        (prepareBlockData sampleConfig).run s = .ok (used, txs) s' ∧
        ¬ NoConflict sampleConfig s' txs := by
  obtain ⟨hsix, hseven⟩ := sampleTransfer_passesChecks
  have hrun : MempoolRun samplePlonk.engine sampleConfig (fun _ _ => True)
      ((sampleProposer.storing (sampleTransfer 6) [21]).storing (sampleTransfer 7) [22]) := by
    rw [← MempoolAction.next_submit sampleTransfer_verifies.2 hseven,
      ← MempoolAction.next_submit sampleTransfer_verifies.1 hsix]
    exact .step _ (.step _ (.start rfl) trivial) trivial
  have hpending : ¬ NothingPending sampleConfig
      ((sampleProposer.storing (sampleTransfer 6) [21]).storing (sampleTransfer 7) [22]) := by
    rintro ⟨-, hnone⟩
    cases hnone
  refine ⟨_, _, _, _, hrun, run_prepareBlockData_of_pending (.inl rfl) hpending, ?_⟩
  intro hconflict
  have hfalse : ¬ (nonzeroNullifiers (chosenTransactions sampleConfig
      ((sampleProposer.storing (sampleTransfer 6) [21]).storing (sampleTransfer 7) [22]))).Nodup := by
    decide +kernel
  exact hfalse hconflict.nodup

/-- One of them is chosen without a conflict. -/
theorem selected_never_conflict_sample :
    ∃ used txs s',
      (prepareBlockData sampleConfig).run (sampleProposer.storing (sampleTransfer 6) [21]) =
        .ok (used, txs) s' ∧ txs ≠ [] ∧ NoConflict sampleConfig s' txs := by
  obtain ⟨hsix, -⟩ := sampleTransfer_passesChecks
  have hrun : MempoolRun samplePlonk.engine sampleConfig MempoolAction.Careful
      (sampleProposer.storing (sampleTransfer 6) [21]) := by
    rw [← MempoolAction.next_submit sampleTransfer_verifies.1 hsix]
    refine .step _ (.start rfl) ⟨?_, fun v _ => List.not_mem_nil⟩
    decide +kernel
  have hpending : ¬ NothingPending sampleConfig
      (sampleProposer.storing (sampleTransfer 6) [21]) := by
    rintro ⟨-, hnone⟩
    cases hnone
  have hprepare := run_prepareBlockData_of_pending (.inl rfl) hpending
  refine ⟨_, _, _, hprepare, ?_, selected_never_conflict hrun hprepare⟩
  decide +kernel

end Node

end Nightfall
