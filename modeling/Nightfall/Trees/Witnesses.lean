import Nightfall.Trees.InsertionPaths

/-!
# The witnesses of the rollup circuit

The proposer of a block inserts nullifiers and commitments in batches and gives the circuit what each
of the insertions returned.  On every reachable tree, whatever is accepted forms a chain: each
insertion starts from the root at which the one before ended, and satisfies the relations that the
circuit checks (`witnesses_form_chain`).
-/

namespace Nightfall

namespace Trees

open Merkle Stateful

/-! ### Chains of insertions -/

section Chain

variable {F ι : Type} {insert : List F → TreeM F ι} {oldRoot newRoot : ι → F}
  {Law : TreeMetadata F → List F → ι → TreeDb F → Prop}

/-- The insertions `steps` lead from `root` and `db` to `last` and `db'`.  Each one starts from the
root that the one before returned, and satisfies `Law`. -/
def InsertionChain (insert : List F → TreeM F ι) (oldRoot newRoot : ι → F)
    (Law : TreeMetadata F → List F → ι → TreeDb F → Prop) :
    F → TreeDb F → List (List F × ι) → F → TreeDb F → Prop
  | root, db, [], last, db' => root = last ∧ db = db'
  | root, db, (l, info) :: steps, last, db' => ∃ metadata db₁, db.metadata = some metadata ∧
    (insert l).run db = .ok info db₁ ∧ oldRoot info = root ∧ Law metadata l info db₁ ∧
      InsertionChain insert oldRoot newRoot Law (newRoot info) db₁ steps last db'

/-- What an insertion has to satisfy so that insertions form a chain, for states with the invariant
`I`. -/
def Chains (insert : List F → TreeM F ι) (oldRoot newRoot : ι → F)
    (Law : TreeMetadata F → List F → ι → TreeDb F → Prop) (I : TreeDb F → Prop) : Prop :=
  ∀ db l info db', I db → (insert l).run db = .ok info db' →
    I db' ∧ ∃ metadata metadata', db.metadata = some metadata ∧ db'.metadata = some metadata' ∧
      oldRoot info = metadata.root ∧ newRoot info = metadata'.root ∧ Law metadata l info db'

/-- **Insertions that succeed form a chain.** -/
theorem insertionChain_of_mapM {I : TreeDb F → Prop} (hstep : Chains insert oldRoot newRoot Law I)
    {db db' : TreeDb F} {ls : List (List F)} {infos : List ι} {metadata : TreeMetadata F}
    (hdb : I db) (hmetadata : db.metadata = some metadata)
    (hrun : (ls.mapM insert).run db = .ok infos db') :
    I db' ∧ infos.length = ls.length ∧ ∃ metadata', db'.metadata = some metadata' ∧
      InsertionChain insert oldRoot newRoot Law metadata.root db (ls.zip infos) metadata'.root db' := by
  induction ls generalizing db metadata infos with
  | nil =>
    cases hrun
    exact ⟨hdb, rfl, metadata, hmetadata, rfl, rfl⟩
  | cons l ls ih =>
    rw [List.mapM_cons] at hrun
    obtain ⟨info, db₁, hone, hrun⟩ := run_bind_eq_ok.1 hrun
    obtain ⟨infos', db₂, hrest, hrun⟩ := run_bind_eq_ok.1 hrun
    obtain ⟨rfl, rfl⟩ := run_pure_eq_ok.1 hrun
    obtain ⟨hdb₁, metadata₀, metadata₁, hmetadata₀, hmetadata₁, hold, hnew, hlaw⟩ :=
      hstep _ _ _ _ hdb hone
    obtain rfl := Option.some_inj.1 (hmetadata.symm.trans hmetadata₀)
    obtain ⟨hdb', hlength, metadata', hmetadata', hchain⟩ := ih hdb₁ hmetadata₁ hrest
    rw [← hnew] at hchain
    exact ⟨hdb', by rw [List.length_cons, List.length_cons, hlength], metadata', hmetadata',
      metadata, db₁, hmetadata, hone, hold, hlaw, hchain⟩

theorem run_getRoot_of_metadata {db : TreeDb F} {metadata : TreeMetadata F}
    (h : db.metadata = some metadata) : getRoot.run db = .ok metadata.root db := by
  rw [getRoot, EStateM.run_bind, run_getMetadata h]
  rfl

end Chain

/-! ### Nullifiers -/

section Nullifiers

variable {treeHash : Fr254 → Fr254 → Fr254} {hash : Fr254 → Fr254 → Fr254 → Fr254}
  {db db' : TreeDb Fr254} {treeHeight subTreeHeight : ℕ} {l : List Fr254}

/-- The insertions of batches of nullifiers, from the root before to the root after. -/
def NullifierChain (treeHash : Fr254 → Fr254 → Fr254) (hash : Fr254 → Fr254 → Fr254 → Fr254) :
    Fr254 → TreeDb Fr254 → List (List Fr254 × IMTCircuitInsertionInfo Fr254) → Fr254 →
      TreeDb Fr254 → Prop :=
  InsertionChain (insertNullifiersForCircuit treeHash hash) IMTCircuitInsertionInfo.oldRoot
    (fun info => info.circuitInfo.newRoot)
    fun metadata l info db' => BatchLaws treeHash hash metadata l info db'.indexedLeaves

theorem chains_insertNullifiersForCircuit (hzero : treeHash 0 0 = 0)
    (hheight : treeHeight + subTreeHeight ≤ 32) :
    Chains (insertNullifiersForCircuit treeHash hash) IMTCircuitInsertionInfo.oldRoot
      (fun info => info.circuitInfo.newRoot)
      (fun metadata l info db' => BatchLaws treeHash hash metadata l info db'.indexedLeaves)
      (IndexedState treeHash hash treeHeight subTreeHeight) := by
  rintro db l info db' (⟨t, ht, rfl, rfl⟩ | ⟨n, hn, hshape⟩) hrun
  · obtain ⟨u, hu, heq, hlaws, hold, hnew⟩ := batch_of_ok hzero hheight ht hrun
    exact ⟨.inl ⟨u, hu, by rw [heq], by rw [heq]⟩, t.metadata treeHash, u.metadata treeHash,
      ht.refines.metadata, hu.refines.metadata, hold, hnew, hlaws⟩
  · exact absurd (hasShape_insertNullifiersForCircuit hrun hshape).2.1 hn.not_gt

theorem IndexedState.metadata (h : IndexedState treeHash hash treeHeight subTreeHeight db) :
    ∃ metadata, db.metadata = some metadata := by
  rcases h with ⟨t, ht, -, -⟩ | ⟨n, -, root, hroot⟩
  · exact ⟨_, ht.refines.metadata⟩
  · exact ⟨_, hroot⟩

theorem nullifierChain (hzero : treeHash 0 0 = 0) (hheight : treeHeight + subTreeHeight ≤ 32)
    (hdb : ReachableIndexed treeHash hash treeHeight subTreeHeight db)
    {infos : List (IMTCircuitInsertionInfo Fr254)}
    (hrun : (batchInsertNullifiersWithCircuitInfo treeHash hash l).run db = .ok infos db') :
    infos.length = (chunks 8 l).length ∧ ∃ root last, getRoot.run db = .ok root db ∧
      getRoot.run db' = .ok last db' ∧
      NullifierChain treeHash hash root db ((chunks 8 l).zip infos) last db' := by
  have hstate := hdb.state hzero hheight
  obtain ⟨metadata, hmetadata⟩ := hstate.metadata
  by_cases hl : l = []
  · subst hl
    cases hrun
    exact ⟨rfl, _, _, run_getRoot_of_metadata hmetadata, run_getRoot_of_metadata hmetadata, rfl, rfl⟩
  · rw [batchInsertNullifiersWithCircuitInfo,
      if_neg fun hempty => hl (List.isEmpty_iff.1 hempty)] at hrun
    obtain ⟨-, hlength, metadata', hmetadata', hchain⟩ := insertionChain_of_mapM
      (chains_insertNullifiersForCircuit hzero hheight) hstate hmetadata hrun
    exact ⟨hlength, _, _, run_getRoot_of_metadata hmetadata, run_getRoot_of_metadata hmetadata',
      hchain⟩

end Nullifiers

/-! ### Commitments -/

section Commitments

variable {F : Type} [Zero F] [DecidableEq F] {treeHash : F → F → F} {db db' : TreeDb F}
  {t : NaiveTree F} {treeHeight subTreeHeight k : ℕ} {l : List F}

/-- The commands of a commitment tree. -/
def TreeOp.Appends : TreeOp F → Prop
  | .appendSubTrees _ updateTree => updateTree = true
  | .insertForCircuit _ => True
  | .batchInsertWithCircuitInfo _ => True
  | _ => False

/-- The databases that a new tree and commands of a commitment tree that succeed lead to. -/
def ReachableAppends (treeHash : F → F → F) (treeHeight subTreeHeight : ℕ) (db : TreeDb F) : Prop :=
  ∃ ops results, (∀ op ∈ ops, TreeOp.Appends op) ∧
    (runTree treeHash treeHeight subTreeHeight ops).run TreeDb.empty = .ok results db

/-- A tree within its capacity, with nothing beyond its last sub-tree. -/
structure NaiveTree.OnlyAppended (t : NaiveTree F) : Prop where
  count_le : t.subTreeCount ≤ 2 ^ t.treeHeight
  empty : ∀ i, t.subTreeCount * 2 ^ t.subTreeHeight ≤ i → t.leaves i = 0

/-- A commitment tree within its capacity has nothing beyond its last sub-tree; a tree beyond it
accepts nothing more. -/
def AppendState (treeHash : F → F → F) (treeHeight subTreeHeight : ℕ) (db : TreeDb F) : Prop :=
  (∃ t : NaiveTree F, Refines treeHash db t ∧ t.treeHeight = treeHeight ∧
    t.subTreeHeight = subTreeHeight ∧ t.OnlyAppended) ∨
    ∃ n, 2 ^ treeHeight < n ∧ HasShape db treeHeight subTreeHeight n

omit [DecidableEq F] in
theorem NaiveTree.OnlyAppended.append (h : t.OnlyAppended)
    (hlen : l.length = k * 2 ^ t.subTreeHeight) (hfit : t.subTreeCount + k ≤ 2 ^ t.treeHeight) :
    (t.append l k).OnlyAppended where
  count_le := hfit
  empty i hi := by
    have hend : t.subTreeCount * 2 ^ t.subTreeHeight + l.length ≤ i := by
      rwa [hlen, ← Nat.add_mul]
    rw [append_leaves rfl, if_neg (by omega)]
    exact h.empty i (by omega)

omit [DecidableEq F] in
theorem AppendState.metadata (h : AppendState treeHash treeHeight subTreeHeight db) :
    ∃ metadata, db.metadata = some metadata := by
  rcases h with ⟨t, ht, -⟩ | ⟨n, -, root, hroot⟩
  · exact ⟨_, ht.metadata⟩
  · exact ⟨_, hroot⟩

omit [Zero F] [DecidableEq F] in
theorem run_expect_eq_ok {α : Type} {message : String} {x : TreeM F α} {a : α} :
    (expect message x).run db = .ok a db' ↔ x.run db = .ok a db' := by
  rw [EStateM.run, EStateM.run, expect]
  cases x db with
  | ok b db₁ => exact Iff.rfl
  | error e db₁ =>
    constructor
    · intro h
      cases h
    · intro h
      cases h

omit [Zero F] [DecidableEq F] in
theorem run_mapM_of_expect {α ι : Type} {message : String} {f : α → TreeM F ι} {as : List α}
    {bs : List ι} (h : (as.mapM fun a => expect message (f a)).run db = .ok bs db') :
    (as.mapM f).run db = .ok bs db' := by
  induction as generalizing db db' bs with
  | nil => exact h
  | cons a as ih =>
    rw [List.mapM_cons] at h ⊢
    obtain ⟨b, db₁, hone, h⟩ := run_bind_eq_ok.1 h
    obtain ⟨bs', db₂, hrest, h⟩ := run_bind_eq_ok.1 h
    refine run_bind_eq_ok.2 ⟨b, db₁, run_expect_eq_ok.1 hone, ?_⟩
    exact run_bind_eq_ok.2 ⟨bs', db₂, ih hrest, h⟩

/-- What the circuit relies on of the insertion of a sub-tree of commitments. -/
def CommitmentLaw (treeHash : F → F → F) (metadata : TreeMetadata F) (l : List F)
    (info : CircuitInsertionInfo F) (_ : TreeDb F) : Prop :=
  info.leaves = l ∧ PlaceLaw treeHash metadata.treeHeight metadata.subTreeCount info

/-- The insertions of sub-trees of commitments, from the root before to the root after. -/
def CommitmentChain (treeHash : F → F → F) :
    F → TreeDb F → List (List F × CircuitInsertionInfo F) → F → TreeDb F → Prop :=
  InsertionChain (insertForCircuit treeHash) CircuitInsertionInfo.oldRoot
    CircuitInsertionInfo.newRoot (CommitmentLaw treeHash)

theorem chains_insertForCircuit (hzero : treeHash 0 0 = 0) :
    Chains (insertForCircuit treeHash) CircuitInsertionInfo.oldRoot CircuitInsertionInfo.newRoot
      (CommitmentLaw treeHash) (AppendState treeHash treeHeight subTreeHeight) := by
  rintro db l info db' (⟨t, ht, rfl, rfl, happended⟩ | ⟨n, hn, hshape⟩) hrun
  · obtain ⟨hlen, hroom, -⟩ := hasShape_insertForCircuit hrun ⟨_, ht.metadata⟩
    have hcache := cacheAgrees_of_empty ht.cache ((t.append l 1).node treeHash)
    obtain ⟨updates, hrun', -, hnodes⟩ := run_insertForCircuit ht.toHolds hlen hroom hcache
    rw [hrun] at hrun'
    cases hrun'
    have hdb' := refines_commit hcache hnodes
    refine ⟨.inl ⟨_, hdb', rfl, rfl, happended.append (by rw [hlen, Nat.one_mul]) hroom⟩,
      t.metadata treeHash, _, ht.metadata, hdb'.metadata, rfl, rfl, rfl, ?_⟩
    refine placeLaw_insertionInfo hzero hroom hlen fun i hi => happended.empty i ?_
    rw [← hi]
    exact Nat.div_mul_le_self _ _
  · exact absurd (hasShape_insertForCircuit hrun hshape).2.1 hn.not_gt

theorem commitmentChain_of_batch (hzero : treeHash 0 0 = 0)
    (hdb : AppendState treeHash treeHeight subTreeHeight db) {infos : List (CircuitInsertionInfo F)}
    (hrun : (batchInsertWithCircuitInfo treeHash l).run db = .ok infos db') :
    AppendState treeHash treeHeight subTreeHeight db' ∧ ∃ metadata root last,
      db.metadata = some metadata ∧ infos.length = (chunks (2 ^ metadata.subTreeHeight) l).length ∧
      getRoot.run db = .ok root db ∧ getRoot.run db' = .ok last db' ∧
      CommitmentChain treeHash root db ((chunks (2 ^ metadata.subTreeHeight) l).zip infos) last
        db' := by
  obtain ⟨metadata, hmetadata⟩ := hdb.metadata
  obtain ⟨metadata₀, db₀, hget, hrun⟩ := run_bind_eq_ok.1 hrun
  obtain ⟨hmetadata₀, rfl⟩ := run_getMetadata_eq_ok.1 hget
  obtain rfl := Option.some_inj.1 (hmetadata.symm.trans hmetadata₀)
  dsimp only at hrun
  split_ifs at hrun
  · exact absurd hrun run_throwErr_ne_ok
  · obtain ⟨hdb', hlength, metadata', hmetadata', hchain⟩ := insertionChain_of_mapM
      (chains_insertForCircuit hzero) hdb hmetadata (run_mapM_of_expect hrun)
    exact ⟨hdb', metadata, _, _, hmetadata, hlength, run_getRoot_of_metadata hmetadata,
      run_getRoot_of_metadata hmetadata', hchain⟩

omit [DecidableEq F] in
theorem appendState_appendSubTrees {r : F × ℕ}
    (hdb : AppendState treeHash treeHeight subTreeHeight db)
    (hrun : (appendSubTrees treeHash l true).run db = .ok r db') :
    AppendState treeHash treeHeight subTreeHeight db' := by
  by_cases hl : l = []
  · -- nothing is appended
    obtain ⟨metadata, db₁, hget, happend⟩ := run_bind_eq_ok.1 hrun
    obtain ⟨-, rfl⟩ := run_getMetadata_eq_ok.1 hget
    subst hl
    dsimp only at happend
    split_ifs at happend with hmod hempty
    · exact absurd happend run_throwErr_ne_ok
    · obtain ⟨-, rfl⟩ := run_pure_eq_ok.1 happend
      exact hdb
    · exact absurd happend run_throwErr_ne_ok
    · exact absurd rfl hempty
    · exact absurd rfl hempty
  · rcases hdb with ⟨t, ht, rfl, rfl, happended⟩ | ⟨n, hn, hshape⟩
    · obtain ⟨hmod, -, hshape⟩ := hasShape_appendSubTrees hl hrun ⟨_, ht.metadata⟩
      have hlen : l.length = l.length / 2 ^ t.subTreeHeight * 2 ^ t.subTreeHeight :=
        (Nat.div_mul_cancel (Nat.dvd_of_mod_eq_zero hmod)).symm
      by_cases hfit : t.subTreeCount + l.length / 2 ^ t.subTreeHeight ≤ 2 ^ t.treeHeight
      · have hcache := cacheAgrees_of_empty ht.cache
          ((t.append l (l.length / 2 ^ t.subTreeHeight)).node treeHash)
        obtain ⟨updates, hrun', -, hnodes⟩ := run_appendSubTrees ht.toHolds hl hmod hfit hcache
        rw [hrun] at hrun'
        cases hrun'
        exact .inl ⟨_, refines_commit hcache hnodes, rfl, rfl, happended.append hlen hfit⟩
      · exact .inr ⟨_, not_le.1 hfit, hshape⟩
    · exact absurd (hasShape_appendSubTrees hl hrun hshape).2.1 hn.not_ge

theorem AppendState.exec (hzero : treeHash 0 0 = 0)
    (hdb : AppendState treeHash treeHeight subTreeHeight db) {op : TreeOp F} (hop : op.Appends)
    {result : TreeResult F} (hrun : (op.exec treeHash).run db = .ok result db') :
    AppendState treeHash treeHeight subTreeHeight db' := by
  cases op with
  | appendSubTrees leaves updateTree =>
    obtain rfl : updateTree = true := hop
    obtain ⟨r, db₁, happend, hpure⟩ := run_bind_eq_ok.1 hrun
    obtain ⟨-, rfl⟩ := run_pure_eq_ok.1 hpure
    exact appendState_appendSubTrees hdb happend
  | insertForCircuit commitments =>
    obtain ⟨info, db₁, hinsert, hpure⟩ := run_bind_eq_ok.1 hrun
    obtain ⟨-, rfl⟩ := run_pure_eq_ok.1 hpure
    exact (chains_insertForCircuit hzero _ _ _ _ hdb hinsert).1
  | batchInsertWithCircuitInfo commitments =>
    obtain ⟨infos, db₁, hinsert, hpure⟩ := run_bind_eq_ok.1 hrun
    obtain ⟨-, rfl⟩ := run_pure_eq_ok.1 hpure
    exact (commitmentChain_of_batch hzero hdb hinsert).1
  | insertLeaf leaf updateTree => exact absurd hop id
  | updateSubTree subTreeIndex leaves updateTree => exact absurd hop id
  | getRoot => exact absurd hop id
  | getMembershipProof leaf leafIndex => exact absurd hop id

theorem AppendState.mapM_exec (hzero : treeHash 0 0 = 0)
    (hdb : AppendState treeHash treeHeight subTreeHeight db) {ops : List (TreeOp F)}
    (hops : ∀ op ∈ ops, op.Appends) {results : List (TreeResult F)}
    (hrun : (ops.mapM (TreeOp.exec treeHash)).run db = .ok results db') :
    AppendState treeHash treeHeight subTreeHeight db' := by
  induction ops generalizing db results with
  | nil =>
    cases hrun
    exact hdb
  | cons op ops ih =>
    rw [List.forall_mem_cons] at hops
    rw [List.mapM_cons] at hrun
    obtain ⟨result, db₁, hone, hrun⟩ := run_bind_eq_ok.1 hrun
    obtain ⟨results', db₂, hrest, hrun⟩ := run_bind_eq_ok.1 hrun
    obtain ⟨-, rfl⟩ := run_pure_eq_ok.1 hrun
    exact ih (hdb.exec hzero hops.1 hone) hops.2 hrest

/-- **Reachable commitment trees have nothing beyond their last sub-tree.** -/
theorem ReachableAppends.state (hzero : treeHash 0 0 = 0)
    (hdb : ReachableAppends treeHash treeHeight subTreeHeight db) :
    AppendState treeHash treeHeight subTreeHeight db := by
  obtain ⟨ops, results, hops, hrun⟩ := hdb
  obtain ⟨_, db₀, hnew, hrest⟩ := run_bind_eq_ok.1 hrun
  obtain ⟨db₁, hnew', hdb₁⟩ := @run_newMutableTree F _ treeHash hzero treeHeight subTreeHeight
  rw [hnew] at hnew'
  cases hnew'
  have hstate : AppendState treeHash treeHeight subTreeHeight db₀ :=
    .inl ⟨.new treeHeight subTreeHeight, hdb₁, rfl, rfl, Nat.zero_le _, fun _ _ => rfl⟩
  exact hstate.mapM_exec hzero hops hrest

end Commitments

/-! ### Both trees -/

section Both

variable {treeHash : Fr254 → Fr254 → Fr254} {hash : Fr254 → Fr254 → Fr254 → Fr254}
  {treeHeight subTreeHeight : ℕ}

/-- **The witnesses of the rollup circuit form a chain.**  So do the insertions that a nullifier tree
accepts, and those that a commitment tree accepts: the old root of the first is the root of the tree
before, the new root of each is the old root of the next, and the new root of the last is the root of
the tree after. -/
theorem witnesses_form_chain (hzero : treeHash 0 0 = 0) (hheight : treeHeight + subTreeHeight ≤ 32) :
    (∀ db l infos db', ReachableIndexed treeHash hash treeHeight subTreeHeight db →
      (batchInsertNullifiersWithCircuitInfo treeHash hash l).run db = .ok infos db' →
        infos.length = (chunks 8 l).length ∧ ∃ root last, getRoot.run db = .ok root db ∧
          getRoot.run db' = .ok last db' ∧
          NullifierChain treeHash hash root db ((chunks 8 l).zip infos) last db') ∧
      ∀ db l infos db', ReachableAppends treeHash treeHeight subTreeHeight db →
        (batchInsertWithCircuitInfo treeHash l).run db = .ok infos db' →
          ∃ metadata root last, db.metadata = some metadata ∧
            infos.length = (chunks (2 ^ metadata.subTreeHeight) l).length ∧
            getRoot.run db = .ok root db ∧ getRoot.run db' = .ok last db' ∧
            CommitmentChain treeHash root db ((chunks (2 ^ metadata.subTreeHeight) l).zip infos) last
              db' := by
  constructor
  · intro db l infos db' hdb hrun
    exact nullifierChain hzero hheight hdb hrun
  · intro db l infos db' hdb hrun
    exact (commitmentChain_of_batch hzero (hdb.state hzero) hrun).2

end Both

/-- A new commitment tree with room for two sub-trees of two leaves, and one sub-tree. -/
def sampleCommitmentTree : TreeDb Fr254 :=
  match (runTree sampleHash 1 1 [.appendSubTrees [(7 : ℕ), 1] true]).run TreeDb.empty with
  | .ok _ db => db
  | .error _ db => db

/-- The commitments of one sub-tree. -/
def sampleCommitments : List Fr254 := [0, (5 : ℕ)]

theorem exists_of_succeeds {α : Type} {x : TreeM Fr254 α} {db : TreeDb Fr254}
    (h : Succeeds (x >>= fun _ => pure ()) db = true) : ∃ a db', x.run db = .ok a db' := by
  obtain ⟨db', hrun⟩ := Succeeds.exists h
  obtain ⟨a, db₁, hx, -⟩ := run_bind_eq_ok.1 hrun
  exact ⟨a, db₁, hx⟩

theorem witnesses_form_chain_sample :
    (∃ infos db' root last, (batchInsertNullifiersWithCircuitInfo sampleHash sampleLeafHash
      sampleNullifiers).run (sampleIndexedTree 1) = .ok infos db' ∧
        NullifierChain sampleHash sampleLeafHash root (sampleIndexedTree 1)
          ((chunks 8 sampleNullifiers).zip infos) last db') ∧
      ∃ infos db' metadata root last, (batchInsertWithCircuitInfo sampleHash sampleCommitments).run
        sampleCommitmentTree = .ok infos db' ∧
          sampleCommitmentTree.metadata = some metadata ∧
          CommitmentChain sampleHash root sampleCommitmentTree
            ((chunks (2 ^ metadata.subTreeHeight) sampleCommitments).zip infos) last db' := by
  have hzero : sampleHash 0 0 = 0 := by decide +kernel
  constructor
  · have hreachable : ReachableIndexed sampleHash sampleLeafHash 1 3 (sampleIndexedTree 1) :=
      reachable_sampleIndexedTree (by decide +kernel)
    obtain ⟨infos, db', hrun⟩ : ∃ infos db', (batchInsertNullifiersWithCircuitInfo sampleHash
        sampleLeafHash sampleNullifiers).run (sampleIndexedTree 1) = .ok infos db' :=
      exists_of_succeeds (by decide +kernel)
    obtain ⟨-, root, last, -, -, hchain⟩ :=
      (witnesses_form_chain hzero (by omega)).1 _ _ _ _ hreachable hrun
    exact ⟨infos, db', root, last, hrun, hchain⟩
  · obtain ⟨results, db, hnew⟩ : ∃ results db, (runTree sampleHash 1 1
        [.appendSubTrees [(7 : ℕ), 1] true]).run (TreeDb.empty : TreeDb Fr254) = .ok results db :=
      exists_of_succeeds (by decide +kernel)
    have hreachable : ReachableAppends sampleHash 1 1 sampleCommitmentTree := by
      refine ⟨[.appendSubTrees [(7 : ℕ), 1] true], results, fun op hop => ?_, ?_⟩
      · rw [List.mem_singleton] at hop
        rw [hop]
        exact rfl
      · rw [sampleCommitmentTree, hnew]
    obtain ⟨infos, db', hrun⟩ : ∃ infos db', (batchInsertWithCircuitInfo sampleHash
        sampleCommitments).run sampleCommitmentTree = .ok infos db' :=
      exists_of_succeeds (by decide +kernel)
    obtain ⟨metadata, root, last, hmetadata, -, -, -, hchain⟩ :=
      (@witnesses_form_chain sampleHash sampleLeafHash 1 1 hzero (by omega)).2 _ _ _ _ hreachable hrun
    exact ⟨infos, db', metadata, root, last, hrun, hmetadata, hchain⟩

end Trees

end Nightfall
