import Nightfall.Node.Proposer
import Nightfall.Trees.LinkedLeaves

/-!
# The admission of client transactions

A client hands its transaction to the proposer, which verifies the proof, looks for the transaction in
the mempool, checks that the roots are historic roots and the nullifiers are new, and stores the
transaction.  Zero nullifiers stand for nothing, so neither they nor their roots are checked, but the
first nullifier must not be zero.

The verification returns an error, or whether the proof is right.  `processNightfallClientTransaction`
refuses a transaction for the error alone: `admitsOnlyValid_iff`.
-/

namespace Nightfall

namespace Node

open Evm Trees Stateful

/-! ### Verification -/

/-- `ProvingEngine`: the verification of proofs of type `P`, with errors of type `ε`. -/
structure ProvingEngine (P ε : Type) where
  verify : P → Client.PublicInputs Fr254 → Except ε Bool

/-- The errors of the verification. -/
inductive PlonkError
  | publicInputsDoNotMatch
  /-- The proof is not one that can be verified. -/
  | invalidProof
  deriving DecidableEq, Repr

/-- A proof of the clients, and the hash of its public inputs. -/
structure PlonkProof (Q : Type) where
  proof : Q
  piHash : Fr254
  deriving DecidableEq, Repr

/-- What `verify` uses of the proof system. -/
structure PlonkVerifier (Q : Type) where
  /-- The hash of the public inputs. -/
  inputHash : List Fr254 → Fr254
  /-- `RecursiveOutput::try_from`. -/
  recursiveOutput : PlonkProof Q → Option Q
  /-- `verify_recursive_proof`, if it succeeds. -/
  verifyRecursiveProof : Q → Bool

/-- `verify` of the clients' proof system: a wrong proof is not an error. -/
def PlonkVerifier.engine {Q : Type} (K : PlonkVerifier Q) :
    ProvingEngine (PlonkProof Q) PlonkError where
  verify proof publicInputs :=
    if K.inputHash publicInputs.toList ≠ proof.piHash then .error .publicInputsDoNotMatch
    else
      match K.recursiveOutput proof with
      | none => .error .invalidProof
      | some output => .ok (K.verifyRecursiveProof output)

/-! ### Admission -/

/-- `ClientTransactionError`. -/
inductive ClientTransactionError (ε : Type)
  | invalidTransaction
  | transactionAlreadyExists
  | transactionNotOnChain
  | proofDidNotVerify (e : ε)
  | hashGenerationFailed
  | couldNotStoreTransaction
  | couldNotGetNullifierTree
  | duplicateNullifier
  | commitmentRootUnknown
  | nullifiersAllZero
  deriving DecidableEq, Repr

/-- A computation of the admission. -/
abbrev AdmissionM (P ε : Type) := NodeM (ClientTransactionError ε) (ProposerState P)

section Admission

variable {P ε : Type} (engine : ProvingEngine P ε) (cfg : ProposerConfig P)

/-- Check the root of a nullifier. -/
def checkRoot (tx : ClientTransaction P) (i : Fin 4) : AdmissionM P ε Unit :=
  if tx.nullifiers i ≠ 0 then do
    let known ← onHistoricRoots (fun _ => .commitmentRootUnknown)
      (Trees.expect "Database error looking up historic root"
        (isLeaf (tx.historicCommitmentRoots i)))
    if known then pure () else throwErr .commitmentRootUnknown
  else pure ()

/-- Check that a nullifier is new.  No error of the tree is told from any other. -/
def checkNullifier (tx : ClientTransaction P) (i : Fin 4) : AdmissionM P ε Unit :=
  if tx.nullifiers i ≠ 0 then do
    let _ ← onNullifiers (fun _ => .duplicateNullifier)
      (getNonMembershipProof cfg.leafHash (tx.nullifiers i))
  else pure ()

/-- The document of a transaction that is admitted. -/
def ClientTransaction.admitted (tx : ClientTransaction P) (hash : Bytes) :
    ClientTransactionWithMetaData P where
  clientTransaction := tx
  blockL2 := none
  inMempool := true
  hash := hash
  historicRoots := List.ofFn tx.historicCommitmentRoots

/-- The checks of the roots and the nullifiers, and the insertion of the document, which the database
takes if it is `inserted`. -/
def checkAndStore (inserted : Bool) (tx : ClientTransaction P) (hash : Bytes) :
    AdmissionM P ε Unit := do
  (List.finRange 4).forM (checkRoot tx)
  (List.finRange 4).forM (checkNullifier cfg tx)
  if tx.nullifiers 0 = 0 then throwErr .nullifiersAllZero
  else if inserted then
    modify fun s => { s with transactions := s.transactions.storeTransaction (tx.admitted hash) }
  else throwErr .couldNotStoreTransaction

/-- `process_nightfall_client_transaction`. -/
def processNightfallClientTransaction (inserted : Bool) (tx : ClientTransaction P) :
    AdmissionM P ε Unit := do
  match engine.verify tx.proof tx.publicInputs with
  | .error e => throwErr (.proofDidNotVerify e)
  | .ok _ =>
    let hash ← okOr .hashGenerationFailed (cfg.transactionHash tx)
    let s ← get
    when ((s.transactions.findTransaction hash).isSome = true) (throwErr .transactionAlreadyExists)
    checkAndStore cfg inserted tx hash

/-! ### What the trees answer -/

/-- The first node with the value is a leaf. -/
def findsLeaf (db : TreeDb Fr254) (value : Fr254) : Bool :=
  db.metadata.any fun metadata =>
    (db.nodes.findOne fun node => decide (node.value = value)).any fun node =>
      decide (2 ^ (metadata.treeHeight + metadata.subTreeHeight) - 1 ≤ node.id ∧
        node.id ≤ 2 ^ (metadata.treeHeight + metadata.subTreeHeight + 1) - 2)

/-- The query for a proof that a value is not in the tree finds one. -/
def ProvesAbsent (hash : Fr254 → Fr254 → Fr254 → Fr254) (db : TreeDb Fr254) (value : Fr254) : Prop :=
  ∃ proof, (getNonMembershipProof hash value).run db = .ok proof db

theorem run_isLeaf_of_none {db : TreeDb Fr254} (h : db.metadata = none) (value : Fr254) :
    (isLeaf value).run db = .error (.err .treeNotFound) db := by
  simp only [isLeaf, getMetadata, EStateM.run_bind, EStateM.run_get, h]
  rfl

theorem run_isLeaf_of_some {db : TreeDb Fr254} (h : db.metadata ≠ none) (value : Fr254) :
    (isLeaf value).run db = .ok (findsLeaf db value) db := by
  obtain ⟨metadata, hmetadata⟩ := Option.ne_none_iff_exists'.1 h
  simp only [isLeaf, getMetadata, EStateM.run_bind, EStateM.run_get, hmetadata, EStateM.run_pure,
    findsLeaf, Option.any_some]
  cases db.nodes.findOne fun node => decide (node.value = value) with
  | none => rfl
  | some node => rfl

/-- A value that is found is that of a leaf. -/
theorem exists_leaf_of_findsLeaf {db : TreeDb Fr254} {value : Fr254}
    (h : findsLeaf db value = true) :
    ∃ metadata, db.metadata = some metadata ∧ ∃ node ∈ db.nodes.docs, node.value = value ∧
      2 ^ (metadata.treeHeight + metadata.subTreeHeight) - 1 ≤ node.id ∧
      node.id ≤ 2 ^ (metadata.treeHeight + metadata.subTreeHeight + 1) - 2 := by
  obtain ⟨metadata, hmetadata, hnode⟩ := (Option.any_eq_true _ _).1 h
  obtain ⟨node, hfound, hlevel⟩ := (Option.any_eq_true _ _).1 hnode
  obtain ⟨hmem, hvalue⟩ := Collection.findOne_some hfound
  exact ⟨metadata, hmetadata, node, hmem, of_decide_eq_true hvalue, of_decide_eq_true hlevel⟩

/-- The query for a proof of absence leaves the tree, and it doesn't panic. -/
theorem run_getNonMembershipProof_cases (hash : Fr254 → Fr254 → Fr254 → Fr254) (db : TreeDb Fr254)
    (value : Fr254) :
    ProvesAbsent hash db value ∨
      ∃ e, (getNonMembershipProof hash value).run db = .error (.err e) db := by
  rw [ProvesAbsent]
  by_cases hzero : value = 0
  · rw [getNonMembershipProof, if_pos hzero]
    exact .inr ⟨_, rfl⟩
  · rw [getNonMembershipProof, if_neg hzero, EStateM.run_bind, run_getLeaf]
    cases Leaves.withValue db.indexedLeaves value with
    | some record => exact .inr ⟨_, rfl⟩
    | none =>
      cases hmetadata : db.metadata with
      | none =>
        simp only [Option.isSome_none, Bool.false_eq_true, if_false, findMetadata, EStateM.run_bind,
          EStateM.run_get, hmetadata]
        exact .inr ⟨_, rfl⟩
      | some metadata =>
        cases hlow : Leaves.low db.indexedLeaves value with
        | none =>
          simp only [Option.isSome_none, Bool.false_eq_true, if_false, findMetadata,
            EStateM.run_bind, EStateM.run_get, hmetadata, Trees.okOr, EStateM.run_pure,
            run_getLowLeaf, hlow]
          exact .inr ⟨_, rfl⟩
        | some low =>
          simp only [Option.isSome_none, Bool.false_eq_true, if_false, findMetadata,
            EStateM.run_bind, EStateM.run_get, hmetadata, Trees.okOr, EStateM.run_pure,
            run_getLowLeaf, hlow]
          exact .inl ⟨_, rfl⟩

/-- A value that is proved to be absent has no record. -/
theorem ProvesAbsent.ne {hash : Fr254 → Fr254 → Fr254 → Fr254} {db : TreeDb Fr254} {value : Fr254}
    (h : ProvesAbsent hash db value) : ∀ record ∈ db.indexedLeaves.docs, record.value ≠ value := by
  obtain ⟨proof, h⟩ := h
  by_cases hzero : value = 0
  · rw [getNonMembershipProof, if_pos hzero] at h
    cases h
  · rw [getNonMembershipProof, if_neg hzero, EStateM.run_bind, run_getLeaf] at h
    cases hfind : Leaves.withValue db.indexedLeaves value with
    | some record =>
      rw [hfind] at h
      cases h
    | none =>
      intro record hmem hvalue
      exact withValue_eq_none.1 hfind (List.mem_map.2 ⟨record, hmem, hvalue⟩)

/-! ### One check -/

theorem run_checkRoot (tx : ClientTransaction P) (i : Fin 4) (s : ProposerState P) :
    (checkRoot tx i : AdmissionM P ε Unit).run s =
      if tx.nullifiers i = 0 then .ok () s
      else if s.historicRoots.metadata = none then
        .error (.panic "Database error looking up historic root") s
      else if findsLeaf s.historicRoots (tx.historicCommitmentRoots i) = true then .ok () s
      else .error (.err .commitmentRootUnknown) s := by
  rw [checkRoot]
  by_cases hzero : tx.nullifiers i = 0
  · rw [if_neg (not_not.2 hzero), if_pos hzero]
    rfl
  · rw [if_pos hzero, if_neg hzero, EStateM.run_bind, onHistoricRoots, EStateM.run, onTree,
      EStateM.run, Trees.expect]
    by_cases hmetadata : s.historicRoots.metadata = none
    · have hrun := run_isLeaf_of_none hmetadata (tx.historicCommitmentRoots i)
      rw [EStateM.run] at hrun
      rw [hrun, if_pos hmetadata]
    · have hrun := run_isLeaf_of_some hmetadata (tx.historicCommitmentRoots i)
      rw [EStateM.run] at hrun
      rw [hrun, if_neg hmetadata]
      cases findsLeaf s.historicRoots (tx.historicCommitmentRoots i) with
      | true => rfl
      | false => rfl

theorem run_checkRoot_eq_ok {tx : ClientTransaction P} {i : Fin 4} {s s' : ProposerState P} :
    (checkRoot tx i : AdmissionM P ε Unit).run s = .ok () s' ↔
      (tx.nullifiers i ≠ 0 →
        findsLeaf s.historicRoots (tx.historicCommitmentRoots i) = true) ∧ s' = s := by
  rw [run_checkRoot]
  split_ifs with hzero hmetadata hfinds
  · rw [EStateM.Result.ok.injEq, eq_comm (a := s)]
    exact ⟨fun h => ⟨fun hne => absurd hzero hne, h.2⟩, fun h => ⟨rfl, h.2⟩⟩
  · constructor
    · intro h
      cases h
    · rintro ⟨h, -⟩
      obtain ⟨metadata, hsome, -⟩ := exists_leaf_of_findsLeaf (h hzero)
      rw [hmetadata] at hsome
      cases hsome
  · rw [EStateM.Result.ok.injEq, eq_comm (a := s)]
    exact ⟨fun h => ⟨fun _ => hfinds, h.2⟩, fun h => ⟨rfl, h.2⟩⟩
  · constructor
    · intro h
      cases h
    · rintro ⟨h, -⟩
      exact absurd (h hzero) hfinds

theorem run_checkRoot_eq_error {tx : ClientTransaction P} {i : Fin 4} {s s' : ProposerState P}
    {f : Failure (ClientTransactionError ε)} (h : (checkRoot tx i).run s = .error f s') :
    s' = s ∧ ((∃ e, f = .err e) ∧ s.historicRoots.metadata ≠ none ∨
      (∃ m, f = .panic m) ∧ s.historicRoots.metadata = none ∧ tx.nullifiers i ≠ 0) := by
  rw [run_checkRoot] at h
  split_ifs at h with hzero hmetadata hfinds
  · cases h
    exact ⟨rfl, .inr ⟨⟨_, rfl⟩, hmetadata, hzero⟩⟩
  · cases h
    exact ⟨rfl, .inl ⟨⟨_, rfl⟩, hmetadata⟩⟩

theorem run_checkNullifier_eq_ok {tx : ClientTransaction P} {i : Fin 4} {s s' : ProposerState P} :
    (checkNullifier cfg tx i : AdmissionM P ε Unit).run s = .ok () s' ↔
      (tx.nullifiers i ≠ 0 → ProvesAbsent cfg.leafHash s.nullifiers (tx.nullifiers i)) ∧
        s' = s := by
  by_cases hzero : tx.nullifiers i = 0
  · rw [checkNullifier, if_neg (not_not.2 hzero), run_pure_eq_ok, eq_comm (a := s)]
    exact ⟨fun h => ⟨fun hne => absurd hzero hne, h.2⟩, fun h => ⟨rfl, h.2⟩⟩
  · rw [checkNullifier, if_pos hzero, EStateM.run_bind, onNullifiers, EStateM.run, onTree]
    rcases run_getNonMembershipProof_cases cfg.leafHash s.nullifiers (tx.nullifiers i) with
      hproof | ⟨e, he⟩
    · obtain ⟨proof, hrun⟩ := hproof
      rw [hrun]
      change EStateM.Result.ok () s = _ ↔ _
      rw [EStateM.Result.ok.injEq, eq_comm (a := s)]
      exact ⟨fun h => ⟨fun _ => ⟨proof, hrun⟩, h.2⟩, fun h => ⟨rfl, h.2⟩⟩
    · rw [he]
      constructor
      · intro h
        cases h
      · rintro ⟨h, -⟩
        obtain ⟨proof, hrun⟩ := h hzero
        rw [he] at hrun
        cases hrun

theorem run_checkNullifier_eq_error {tx : ClientTransaction P} {i : Fin 4} {s s' : ProposerState P}
    {f : Failure (ClientTransactionError ε)} (h : (checkNullifier cfg tx i).run s = .error f s') :
    s' = s ∧ ∃ e, f = .err e := by
  by_cases hzero : tx.nullifiers i = 0
  · rw [checkNullifier, if_neg (not_not.2 hzero)] at h
    cases h
  · rw [checkNullifier, if_pos hzero, EStateM.run_bind, onNullifiers, EStateM.run, onTree] at h
    rcases run_getNonMembershipProof_cases cfg.leafHash s.nullifiers (tx.nullifiers i) with
      ⟨proof, hrun⟩ | ⟨e, he⟩
    · rw [hrun] at h
      cases h
    · rw [he] at h
      cases h
      exact ⟨rfl, _, rfl⟩

/-! ### The whole admission -/

/-- The checks of a transaction, except for that of its proof, as the code makes them. -/
structure PassesChecks (s : ProposerState P) (tx : ClientTransaction P) (hash : Bytes) : Prop where
  hash_eq : cfg.transactionHash tx = some hash
  notFound : s.transactions.findTransaction hash = none
  roots : ∀ i, tx.nullifiers i ≠ 0 →
    findsLeaf s.historicRoots (tx.historicCommitmentRoots i) = true
  nullifiers : ∀ i, tx.nullifiers i ≠ 0 →
    ProvesAbsent cfg.leafHash s.nullifiers (tx.nullifiers i)
  first : tx.nullifiers 0 ≠ 0

/-- The transaction is stored. -/
def ProposerState.storing (s : ProposerState P) (tx : ClientTransaction P) (hash : Bytes) :
    ProposerState P :=
  { s with transactions := s.transactions.storeTransaction (tx.admitted hash) }

variable {engine cfg} {inserted : Bool} {tx : ClientTransaction P} {s s' : ProposerState P}

/-- An admission fails before it checks the roots, or all that is left are these checks. -/
theorem run_admission_cases (engine : ProvingEngine P ε) (cfg : ProposerConfig P) (inserted : Bool)
    (tx : ClientTransaction P) (s : ProposerState P) :
    (∃ b hash, engine.verify tx.proof tx.publicInputs = .ok b ∧
        cfg.transactionHash tx = some hash ∧ s.transactions.findTransaction hash = none ∧
        (processNightfallClientTransaction engine cfg inserted tx).run s =
          (checkAndStore cfg inserted tx hash).run s) ∨
      ¬ ((∃ b, engine.verify tx.proof tx.publicInputs = .ok b) ∧
          ∃ hash, cfg.transactionHash tx = some hash ∧
            s.transactions.findTransaction hash = none) ∧
        ∃ e, (processNightfallClientTransaction engine cfg inserted tx).run s =
          .error (.err e) s := by
  rw [processNightfallClientTransaction]
  cases hverify : engine.verify tx.proof tx.publicInputs with
  | error e =>
    refine .inr ⟨?_, _, rfl⟩
    rintro ⟨⟨b, ⟨⟩⟩, -⟩
  | ok b =>
    cases hhash : cfg.transactionHash tx with
    | none =>
      refine .inr ⟨?_, _, rfl⟩
      rintro ⟨-, hash, ⟨⟩, -⟩
    | some hash =>
      cases hfind : s.transactions.findTransaction hash with
      | none =>
        refine .inl ⟨b, hash, rfl, rfl, hfind, ?_⟩
        simp only [okOr, pure_bind, EStateM.run_bind, EStateM.run_get, hfind, Option.isSome_none,
          Bool.false_eq_true, when, if_false]
      | some doc =>
        refine .inr ⟨?_, .transactionAlreadyExists, ?_⟩
        · rintro ⟨-, hash', ⟨⟩, hnone⟩
          rw [hfind] at hnone
          cases hnone
        · simp only [okOr, pure_bind, EStateM.run_bind, EStateM.run_get, hfind, Option.isSome_some,
            when, if_true]
          rfl

theorem run_checkRoots_eq_ok :
    ((List.finRange 4).forM (checkRoot tx) : AdmissionM P ε Unit).run s = .ok () s' ↔
      (∀ i, tx.nullifiers i ≠ 0 →
        findsLeaf s.historicRoots (tx.historicCommitmentRoots i) = true) ∧ s' = s := by
  rw [run_forM_eq_ok fun i _ _ => run_checkRoot_eq_ok (i := i)]
  simp only [List.mem_finRange, true_imp_iff]

theorem run_checkNullifiers_eq_ok :
    ((List.finRange 4).forM (checkNullifier cfg tx) : AdmissionM P ε Unit).run s = .ok () s' ↔
      (∀ i, tx.nullifiers i ≠ 0 →
        ProvesAbsent cfg.leafHash s.nullifiers (tx.nullifiers i)) ∧ s' = s := by
  rw [run_forM_eq_ok fun i _ _ => run_checkNullifier_eq_ok cfg (i := i)]
  simp only [List.mem_finRange, true_imp_iff]

theorem run_checkAndStore_eq_ok {hash : Bytes} :
    (checkAndStore cfg inserted tx hash : AdmissionM P ε Unit).run s = .ok () s' ↔
      (∀ i, tx.nullifiers i ≠ 0 →
        findsLeaf s.historicRoots (tx.historicCommitmentRoots i) = true) ∧
      (∀ i, tx.nullifiers i ≠ 0 → ProvesAbsent cfg.leafHash s.nullifiers (tx.nullifiers i)) ∧
      tx.nullifiers 0 ≠ 0 ∧ inserted = true ∧ s' = s.storing tx hash := by
  rw [checkAndStore, run_bind_eq_ok]
  constructor
  · rintro ⟨_, t, hroots, hrest⟩
    obtain ⟨hroots, rfl⟩ := run_checkRoots_eq_ok.1 hroots
    obtain ⟨_, u, hnullifiers, h⟩ := run_bind_eq_ok.1 hrest
    clear hrest
    obtain ⟨hnullifiers, rfl⟩ := run_checkNullifiers_eq_ok.1 hnullifiers
    by_cases hfirst : tx.nullifiers 0 = 0
    · rw [if_pos hfirst] at h
      exact absurd h run_throw_ne_ok
    · cases inserted with
      | false =>
        rw [if_neg hfirst] at h
        exact absurd h run_throw_ne_ok
      | true =>
        rw [if_neg hfirst] at h
        cases h
        exact ⟨hroots, hnullifiers, hfirst, rfl, rfl⟩
  · rintro ⟨hroots, hnullifiers, hfirst, rfl, rfl⟩
    refine ⟨(), s, run_checkRoots_eq_ok.2 ⟨hroots, rfl⟩, run_bind_eq_ok.2
      ⟨(), s, run_checkNullifiers_eq_ok.2 ⟨hnullifiers, rfl⟩, ?_⟩⟩
    rw [if_neg hfirst]
    rfl

/-- A check that fails leaves the state.  The code panics if it has a root to look up and there is no
tree of historic roots. -/
theorem run_checkAndStore_eq_error {hash : Bytes} {f : Failure (ClientTransactionError ε)}
    (h : (checkAndStore cfg inserted tx hash).run s = .error f s') :
    s' = s ∧ ((∃ e, f = .err e) ↔
      ¬ (s.historicRoots.metadata = none ∧ ∃ i, tx.nullifiers i ≠ 0)) := by
  rw [checkAndStore] at h
  rcases run_bind_eq_error.1 h with hroots | ⟨_, t, hroots, hrest⟩
  · obtain ⟨i, -, hcheck⟩ := run_forM_eq_error (fun i _ _ => run_checkRoot_eq_ok (i := i)) hroots
    obtain ⟨rfl, herr | hpanic⟩ := run_checkRoot_eq_error hcheck
    · exact ⟨rfl, fun _ hnone => herr.2 hnone.1, fun _ => herr.1⟩
    · obtain ⟨⟨m, rfl⟩, hnone, hne⟩ := hpanic
      refine ⟨rfl, ?_, fun hno => absurd ⟨hnone, i, hne⟩ hno⟩
      rintro ⟨e, ⟨⟩⟩
  · obtain ⟨hroots, rfl⟩ := run_checkRoots_eq_ok.1 hroots
    -- the roots were found, so there is a tree of historic roots if there was one to look up
    have hno : ¬ (t.historicRoots.metadata = none ∧ ∃ i, tx.nullifiers i ≠ 0) := by
      rintro ⟨hnone, i, hne⟩
      obtain ⟨metadata, hsome, -⟩ := exists_leaf_of_findsLeaf (hroots i hne)
      rw [hnone] at hsome
      cases hsome
    suffices herr : s' = t ∧ ∃ e, f = .err e from ⟨herr.1, fun _ => hno, fun _ => herr.2⟩
    rcases run_bind_eq_error.1 hrest with hnullifiers | ⟨_, u, hnullifiers, hlast⟩
    · obtain ⟨i, -, hcheck⟩ :=
        run_forM_eq_error (fun i _ _ => run_checkNullifier_eq_ok cfg (i := i)) hnullifiers
      exact run_checkNullifier_eq_error cfg hcheck
    · obtain ⟨-, rfl⟩ := run_checkNullifiers_eq_ok.1 hnullifiers
      by_cases hfirst : tx.nullifiers 0 = 0
      · rw [if_pos hfirst] at hlast
        cases hlast
        exact ⟨rfl, _, rfl⟩
      · cases inserted with
        | false =>
          rw [if_neg hfirst] at hlast
          cases hlast
          exact ⟨rfl, _, rfl⟩
        | true =>
          rw [if_neg hfirst] at hlast
          cases hlast

theorem run_admission_eq_ok :
    (processNightfallClientTransaction engine cfg inserted tx).run s = .ok () s' ↔
      (∃ b, engine.verify tx.proof tx.publicInputs = .ok b) ∧ inserted = true ∧
        ∃ hash, PassesChecks cfg s tx hash ∧ s' = s.storing tx hash := by
  rcases run_admission_cases engine cfg inserted tx s with
    ⟨b, hash, hverify, hhash, hfind, hrun⟩ | ⟨hno, e, hrun⟩
  · rw [hrun, run_checkAndStore_eq_ok]
    constructor
    · rintro ⟨hroots, hnullifiers, hfirst, hinserted, rfl⟩
      exact ⟨⟨b, hverify⟩, hinserted, hash, ⟨hhash, hfind, hroots, hnullifiers, hfirst⟩, rfl⟩
    · rintro ⟨-, hinserted, hash', hpasses, rfl⟩
      obtain rfl : hash' = hash := Option.some_inj.1 (hpasses.hash_eq.symm.trans hhash)
      exact ⟨hpasses.roots, hpasses.nullifiers, hpasses.first, hinserted, rfl⟩
  · rw [hrun]
    constructor
    · intro h
      cases h
    · rintro ⟨hverify, -, hash, hpasses, -⟩
      exact absurd ⟨hverify, hash, hpasses.hash_eq, hpasses.notFound⟩ hno

/-- The code panics on a root: there is no tree of historic roots to look it up in. -/
def PanicsOnRoot (engine : ProvingEngine P ε) (cfg : ProposerConfig P) (s : ProposerState P)
    (tx : ClientTransaction P) : Prop :=
  ((∃ b, engine.verify tx.proof tx.publicInputs = .ok b) ∧
    ∃ hash, cfg.transactionHash tx = some hash ∧ s.transactions.findTransaction hash = none) ∧
    s.historicRoots.metadata = none ∧ ∃ i, tx.nullifiers i ≠ 0

theorem run_admission_eq_error {f : Failure (ClientTransactionError ε)}
    (h : (processNightfallClientTransaction engine cfg inserted tx).run s = .error f s') :
    s' = s ∧ ((∃ e, f = .err e) ↔ ¬ PanicsOnRoot engine cfg s tx) := by
  rcases run_admission_cases engine cfg inserted tx s with
    ⟨b, hash, hverify, hhash, hfind, hrun⟩ | ⟨hno, e, hrun⟩
  · rw [hrun] at h
    obtain ⟨rfl, hiff⟩ := run_checkAndStore_eq_error h
    refine ⟨rfl, hiff.trans (not_congr ?_)⟩
    exact ⟨fun hpanic => ⟨⟨⟨b, hverify⟩, hash, hhash, hfind⟩, hpanic⟩, fun hpanic => hpanic.2⟩
  · rw [hrun] at h
    cases h
    exact ⟨rfl, fun _ hpanic => hno hpanic.1, fun _ => ⟨e, rfl⟩⟩

/-! ### Only valid transactions are stored -/

/-- The transaction is in a block that was applied: its nullifiers are in the tree. -/
def ProposerState.Included (s : ProposerState P) (tx : ClientTransaction P) : Prop :=
  ∀ i, tx.nullifiers i ≠ 0 →
    ∃ record ∈ s.nullifiers.indexedLeaves.docs, record.value = tx.nullifiers i

/-- The root is a leaf of the tree of historic roots. -/
def ProposerState.IsHistoricRoot (s : ProposerState P) (root : Fr254) : Prop :=
  ∃ metadata, s.historicRoots.metadata = some metadata ∧
    ∃ node ∈ s.historicRoots.nodes.docs, node.value = root ∧
      2 ^ (metadata.treeHeight + metadata.subTreeHeight) - 1 ≤ node.id ∧
      node.id ≤ 2 ^ (metadata.treeHeight + metadata.subTreeHeight + 1) - 2

/-- A transaction that is valid and new to the proposer. -/
structure Admissible (engine : ProvingEngine P ε) (cfg : ProposerConfig P) (s : ProposerState P)
    (tx : ClientTransaction P) : Prop where
  verified : engine.verify tx.proof tx.publicInputs = .ok true
  /-- A transaction is known by its hash. -/
  notInMempool : ∀ doc ∈ s.transactions.clientTransactions, doc.inMempool = true →
    some doc.hash ≠ cfg.transactionHash tx
  notIncluded : ¬ s.Included tx
  roots : ∀ i, tx.nullifiers i ≠ 0 → s.IsHistoricRoot (tx.historicCommitmentRoots i)
  nullifiers : ∀ i, tx.nullifiers i ≠ 0 →
    ∀ record ∈ s.nullifiers.indexedLeaves.docs, record.value ≠ tx.nullifiers i
  first : tx.nullifiers 0 ≠ 0

theorem PassesChecks.admissible {hash : Bytes} (h : PassesChecks cfg s tx hash)
    (hverify : engine.verify tx.proof tx.publicInputs = .ok true) : Admissible engine cfg s tx where
  verified := hverify
  notInMempool doc hdoc hin heq := by
    have hne := TransactionsDb.findTransaction_eq_none.1 h.notFound doc hdoc hin
    rw [h.hash_eq, Option.some_inj] at heq
    exact hne heq
  notIncluded hincluded := by
    obtain ⟨record, hrecord, hvalue⟩ := hincluded 0 h.first
    exact (h.nullifiers 0 h.first).ne record hrecord hvalue
  roots i hne := exists_leaf_of_findsLeaf (h.roots i hne)
  nullifiers i hne := (h.nullifiers i hne).ne
  first := h.first

/-- The transaction is stored if it is valid and new, or an error is returned and the state is as
before. -/
def AdmitsOnlyValid (engine : ProvingEngine P ε) (cfg : ProposerConfig P) (inserted : Bool)
    (s : ProposerState P) (tx : ClientTransaction P) : Prop :=
  (∃ hash, Admissible engine cfg s tx ∧
    (processNightfallClientTransaction engine cfg inserted tx).run s = .ok () (s.storing tx hash)) ∨
  ∃ e, (processNightfallClientTransaction engine cfg inserted tx).run s = .error (.err e) s

/-- **When only valid transactions are stored.**  A transaction whose proof is wrong is stored if it
passes all other checks, and a transaction with a nullifier makes the code panic if there is no tree
of historic roots; all other transactions are stored or refused as they should be. -/
theorem admitsOnlyValid_iff :
    AdmitsOnlyValid engine cfg inserted s tx ↔
      ¬ (engine.verify tx.proof tx.publicInputs = .ok false ∧ inserted = true ∧
          ∃ hash, PassesChecks cfg s tx hash) ∧
        ¬ PanicsOnRoot engine cfg s tx := by
  constructor
  · rintro (⟨hash, hadmissible, hrun⟩ | ⟨e, hrun⟩)
    · refine ⟨fun hwrong => ?_, ?_⟩
      · rw [hadmissible.verified] at hwrong
        cases hwrong.1
      · rintro ⟨-, hnone, i, hne⟩
        obtain ⟨metadata, hsome, -⟩ := hadmissible.roots i hne
        rw [hnone] at hsome
        cases hsome
    · refine ⟨?_, (run_admission_eq_error hrun).2.1 ⟨e, rfl⟩⟩
      rintro ⟨hwrong, hinserted, hash, hpasses⟩
      have hok : (processNightfallClientTransaction engine cfg inserted tx).run s =
          .ok () (s.storing tx hash) :=
        run_admission_eq_ok.2 ⟨⟨false, hwrong⟩, hinserted, hash, hpasses, rfl⟩
      rw [hrun] at hok
      cases hok
  · rintro ⟨hwrong, hpanic⟩
    rcases run_cases (processNightfallClientTransaction engine cfg inserted tx) s with
      ⟨_, s', hrun⟩ | ⟨f, s', hrun⟩
    · obtain ⟨⟨b, hverify⟩, hinserted, hash, hpasses, rfl⟩ := run_admission_eq_ok.1 hrun
      cases b with
      | false => exact absurd ⟨hverify, hinserted, hash, hpasses⟩ hwrong
      | true => exact .inl ⟨hash, hpasses.admissible hverify, hrun⟩
    · obtain ⟨rfl, hiff⟩ := run_admission_eq_error hrun
      obtain ⟨e, rfl⟩ := hiff.2 hpanic
      exact .inr ⟨e, hrun⟩

end Admission

/-! ### A transaction with a wrong proof -/

/-- A proof system in which 1 is the right proof. -/
def samplePlonk : PlonkVerifier ℕ where
  inputHash := List.sum
  recursiveOutput proof := some proof.proof
  verifyRecursiveProof output := decide (output = 1)

/-- A configuration in which transactions are known by the hash of their inputs. -/
def sampleConfig : ProposerConfig (PlonkProof ℕ) where
  treeHash a b := (2 : ℕ) * a + (3 : ℕ) * b
  leafHash a b c := (3 : ℕ) * a + (5 : ℕ) * b + (7 : ℕ) * c + (11 : ℕ)
  sha256 bytes := BitVec.ofNat 256 (bytes.foldr (fun b n => 257 * n + b.toNat + 1) 0)
  keccak256 _ := 64
  ourAddress := 1
  nfAddress := 8
  depositHash deposit := some [BitVec.ofNat 8 deposit.depositData.value.val]
  transactionHash tx := some [BitVec.ofNat 8 tx.proof.piHash.val]
  poseidon := List.sum
  blockSize := 64

/-- A proposer with one historic root and no nullifiers. -/
def sampleProposer : ProposerState (PlonkProof ℕ) where
  commitments := .empty
  nullifiers :=
    { metadata := some ⟨29, 3, 0, 0⟩, nodes := .empty, cache := .empty
      indexedLeaves := ⟨[.default], List.nodup_singleton _⟩ }
  historicRoots :=
    { metadata := some ⟨1, 0, 1, 0⟩, nodes := ⟨[⟨1, (9 : ℕ)⟩], List.nodup_singleton _⟩
      cache := .empty, indexedLeaves := .empty }
  expected := 1
  synchronised := true
  blocks := []
  transactions := .empty

/-- A transaction with a wrong proof for its public inputs. -/
def sampleTransaction : ClientTransaction (PlonkProof ℕ) where
  fee := (1 : ℕ)
  historicCommitmentRoots := ![(9 : ℕ), 0, 0, 0]
  commitments := ![(6 : ℕ), 0, 0, 0]
  nullifiers := ![(5 : ℕ), 0, 0, 0]
  compressedSecrets := ⟨![0, 0, 0, 0, 0]⟩
  proof := ⟨0, (21 : ℕ)⟩

theorem sampleTransaction_passesChecks :
    PassesChecks sampleConfig sampleProposer sampleTransaction [21] where
  hash_eq := by decide +kernel
  notFound := rfl
  roots := by decide +kernel
  nullifiers i hne := by
    obtain rfl : i = 0 := by
      revert i
      decide +kernel
    exact ⟨_, rfl⟩
  first := by decide +kernel

/-- The transaction is stored, although its proof is wrong. -/
theorem not_admitsOnlyValid :
    ¬ AdmitsOnlyValid samplePlonk.engine sampleConfig true sampleProposer sampleTransaction := by
  have hverify : samplePlonk.engine.verify sampleTransaction.proof
      sampleTransaction.publicInputs = .ok false := by
    have hhash : samplePlonk.inputHash sampleTransaction.publicInputs.toList =
        sampleTransaction.proof.piHash := by decide +kernel
    simp only [PlonkVerifier.engine, hhash, ne_eq, not_true_eq_false, if_false]
    rfl
  have hrun : (processNightfallClientTransaction samplePlonk.engine sampleConfig true
      sampleTransaction).run sampleProposer = .ok () (sampleProposer.storing sampleTransaction [21]) :=
    run_admission_eq_ok.2 ⟨⟨false, hverify⟩, rfl, _, sampleTransaction_passesChecks, rfl⟩
  rintro (⟨hash, hadmissible, -⟩ | ⟨e, herror⟩)
  · have htrue := hadmissible.verified
    rw [hverify] at htrue
    cases htrue
  · rw [hrun] at herror
    cases herror

end Node

end Nightfall
