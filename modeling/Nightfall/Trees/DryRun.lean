import Nightfall.Trees.MutableRuns

/-!
# Dry runs

An operation with `update_tree = false` computes a root without changing the tree.  It writes the
nodes to the cache, which the code describes as "used for when we don't want to write to the db";
`get_node` reads the cache first, and the next commit writes it to the main database.

`observations` are the results of all commands that are not dry runs.  A dry run leaves no trace in
them if every later command is harmless (`Harmless`): what is in the cache when a command commits are
nodes of the tree that the command makes, and what a proof reads there are nodes of the tree.  A dry
run of `update_sub_tree` stores its root whatever it is.
-/

namespace Nightfall

namespace Trees

open Merkle

variable {F : Type} [Zero F] [DecidableEq F] {treeHash : F → F → F}

/-! ### Observations -/

/-- The command is a dry run. -/
def TreeOp.dry : TreeOp F → Bool
  | .insertLeaf _ updateTree => !updateTree
  | .appendSubTrees _ updateTree => !updateTree
  | .updateSubTree _ _ updateTree => !updateTree
  | _ => false

/-- Execute a command: what it returns or how it fails, and the database after it. -/
def step (treeHash : F → F → F) (op : TreeOp F) (db : TreeDb F) :
    Except Failure (TreeResult F) × TreeDb F :=
  match (op.exec treeHash).run db with
  | .ok r db => (.ok r, db)
  | .error e db => (.error e, db)

/-- The results of the commands that are not dry runs. -/
def observations (treeHash : F → F → F) :
    TreeDb F → List (TreeOp F) → List (Except Failure (TreeResult F))
  | _, [] => []
  | db, op :: ops =>
    if op.dry then observations treeHash (step treeHash op db).2 ops
    else (step treeHash op db).1 :: observations treeHash (step treeHash op db).2 ops

/-- Every proof of a leaf that is given by its value or by its index verifies against the root. -/
def ProofsVerify (treeHash : F → F → F) : TreeDb F → List (TreeOp F) → Prop
  | _, [] => True
  | db, op :: ops =>
    (∀ leaf leafIndex proof root, op = .getMembershipProof leaf leafIndex →
      (leaf = none ∨ leafIndex = none) → (step treeHash op db).1 = .ok (.proof proof) →
      (step treeHash .getRoot db).1 = .ok (.root root) → proof.Verifies treeHash root) ∧
    ProofsVerify treeHash (step treeHash op db).2 ops

/-! ### Harmless commands -/

/-- The command returns before it reads or sets a node. -/
def TreeOp.Idle (t : NaiveTree F) : TreeOp F → Prop
  | .insertLeaf _ _ => False
  | .appendSubTrees leaves _ => leaves.length % 2 ^ t.subTreeHeight ≠ 0 ∨ leaves = []
  | .updateSubTree subTreeIndex leaves _ =>
    2 ^ Nat.clog 2 leaves.length ≠ leaves.length ∨ 2 ^ t.height ≤ subTreeIndex
  | .insertForCircuit commitments => commitments.length ≠ 2 ^ t.subTreeHeight
  | .batchInsertWithCircuitInfo commitments =>
    commitments.length % 2 ^ t.subTreeHeight ≠ 0 ∨ commitments = []
  | .getRoot => True
  | .getMembershipProof _ _ => False

instance decidableIdle (t : NaiveTree F) : (op : TreeOp F) → Decidable (op.Idle t)
  | .insertLeaf _ _ => .isFalse id
  | .appendSubTrees _ _ => inferInstanceAs (Decidable (_ ∨ _))
  | .updateSubTree _ _ _ => inferInstanceAs (Decidable (_ ∨ _))
  | .insertForCircuit _ => inferInstanceAs (Decidable (_ ≠ _))
  | .batchInsertWithCircuitInfo _ => inferInstanceAs (Decidable (_ ∨ _))
  | .getRoot => .isTrue trivial
  | .getMembershipProof _ _ => .isFalse id

/-- The tree after the first commit of a command. -/
def NaiveTree.firstCommit (t : NaiveTree F) : TreeOp F → NaiveTree F
  | .batchInsertWithCircuitInfo commitments => t.append (commitments.take (2 ^ t.subTreeHeight)) 1
  | op => t.apply op

/-- The numbers of the nodes that a command sets before its first commit. -/
def TreeOp.keys (treeHash : F → F → F) (t : NaiveTree F) : TreeOp F → List ℕ
  | .insertLeaf _ _ =>
    hookKeys t.height 0 (nodeIndex t.height (t.subTreeCount * 2 ^ t.subTreeHeight))
  | .appendSubTrees leaves _ =>
    appendKeys (t.metadata treeHash) t.subTreeCount (leaves.length / 2 ^ t.subTreeHeight)
  | .updateSubTree subTreeIndex leaves _ =>
    hookKeys (heightToUse (t.metadata treeHash) leaves) (rowsToSet (t.metadata treeHash) leaves)
      (nodeIndex (heightToUse (t.metadata treeHash) leaves) subTreeIndex)
  | _ => appendKeys (t.metadata treeHash) t.subTreeCount 1

/-- The numbers of the nodes that a proof reads. -/
def siblingKeys : ℕ → ℕ → List ℕ
  | 0, _ => []
  | n + 1, index =>
    (if index % 2 = 0 then index - 1 else index + 1) :: siblingKeys n ((index - 1) / 2)

/-- The nodes that a command flushes are nodes of the tree that it makes, and nothing but what it
stores anyway. -/
def FlushesNothing (treeHash : F → F → F) (db : TreeDb F) (t : NaiveTree F) (op : TreeOp F) : Prop :=
  ∀ node ∈ db.cache.docs, node.value = (t.firstCommit op).node treeHash node.id ∧
    (node.id ∈ db.nodes.keys ∨ node.id ∈ op.keys treeHash t)

/-- The nodes that a proof reads are nodes of the tree. -/
def ReadsTree (treeHash : F → F → F) (db : TreeDb F) (t : NaiveTree F) (leaf : Option F)
    (leafIndex : Option ℕ) : Prop :=
  match leafNodeIndex db t.height leaf leafIndex with
  | .error _ => True
  | .ok index => 2 ^ t.height - 1 ≤ index → index ≤ 2 ^ (t.height + 1) - 2 →
    ∀ node ∈ db.cache.docs, (node.id = index ∧ leaf = none ∨ node.id ∈ siblingKeys t.height index) →
      node.value = t.node treeHash node.id

/-- The dry run of an update stores the root of the tree. -/
def KeepsRoot (treeHash : F → F → F) (db : TreeDb F) (t : NaiveTree F) (subTreeIndex : ℕ)
    (leaves : List F) : Prop :=
  (TreeOp.updateSubTree subTreeIndex leaves false).Fits t ∧
    CacheAgrees db ((t.write (subTreeIndex * leaves.length) leaves).node treeHash) ∧
    (t.write (subTreeIndex * leaves.length) leaves).node treeHash 0 = t.node treeHash 0

/-- **The condition under which a command neither sees an earlier dry run nor is a harmful one.**
`t` is the tree that the committed commands made. -/
def Harmless (treeHash : F → F → F) (db : TreeDb F) (t : NaiveTree F) (op : TreeOp F) : Prop :=
  op.Idle t ∨
    match op with
    | .insertLeaf _ false => True
    | .appendSubTrees _ false => True
    | .updateSubTree subTreeIndex leaves false => KeepsRoot treeHash db t subTreeIndex leaves
    | .getMembershipProof leaf leafIndex => ReadsTree treeHash db t leaf leafIndex
    | op => op.Fits t ∧ FlushesNothing treeHash db t op

instance decidableFlushesNothing (treeHash : F → F → F) (db : TreeDb F) (t : NaiveTree F)
    (op : TreeOp F) : Decidable (FlushesNothing treeHash db t op) :=
  inferInstanceAs (Decidable (∀ _ ∈ _, _ ∧ (_ ∨ _)))

instance decidableReadsTree (treeHash : F → F → F) (db : TreeDb F) (t : NaiveTree F)
    (leaf : Option F) (leafIndex : Option ℕ) : Decidable (ReadsTree treeHash db t leaf leafIndex) :=
  match h : leafNodeIndex db t.height leaf leafIndex with
  | .error _ => .isTrue (by unfold ReadsTree; rw [h]; trivial)
  | .ok index => decidable_of_iff
      (2 ^ t.height - 1 ≤ index → index ≤ 2 ^ (t.height + 1) - 2 → ∀ node ∈ db.cache.docs,
        (node.id = index ∧ leaf = none ∨ node.id ∈ siblingKeys t.height index) →
          node.value = t.node treeHash node.id)
      (by unfold ReadsTree; rw [h])

instance decidableKeepsRoot (treeHash : F → F → F) (db : TreeDb F) (t : NaiveTree F)
    (subTreeIndex : ℕ) (leaves : List F) : Decidable (KeepsRoot treeHash db t subTreeIndex leaves) :=
  inferInstanceAs (Decidable (_ ∧ (∀ _ ∈ db.cache.docs, _) ∧ _))

instance decidableHarmless (treeHash : F → F → F) (db : TreeDb F) (t : NaiveTree F) :
    (op : TreeOp F) → Decidable (Harmless treeHash db t op)
  | .insertLeaf _ false => inferInstanceAs (Decidable (_ ∨ True))
  | .insertLeaf _ true => inferInstanceAs (Decidable (_ ∨ _ ∧ FlushesNothing _ _ _ _))
  | .appendSubTrees _ false => inferInstanceAs (Decidable (_ ∨ True))
  | .appendSubTrees _ true => inferInstanceAs (Decidable (_ ∨ _ ∧ FlushesNothing _ _ _ _))
  | .updateSubTree _ _ false => inferInstanceAs (Decidable (_ ∨ KeepsRoot _ _ _ _ _))
  | .updateSubTree _ _ true => inferInstanceAs (Decidable (_ ∨ _ ∧ FlushesNothing _ _ _ _))
  | .insertForCircuit _ => inferInstanceAs (Decidable (_ ∨ _ ∧ FlushesNothing _ _ _ _))
  | .batchInsertWithCircuitInfo _ => inferInstanceAs (Decidable (_ ∨ _ ∧ FlushesNothing _ _ _ _))
  | .getRoot => .isTrue (.inl trivial)
  | .getMembershipProof _ _ => inferInstanceAs (Decidable (_ ∨ ReadsTree _ _ _ _ _))

/-- The tree after a command. -/
def NaiveTree.next (t : NaiveTree F) (op : TreeOp F) : NaiveTree F :=
  if op.Idle t then t else t.apply op

/-- Every command is harmless when its turn comes. -/
def HarmlessAll (treeHash : F → F → F) : TreeDb F → NaiveTree F → List (TreeOp F) → Prop
  | _, _, [] => True
  | db, t, op :: ops => Harmless treeHash db t op ∧
    HarmlessAll treeHash (step treeHash op db).2 (t.next op) ops

instance decidableHarmlessAll (treeHash : F → F → F) :
    (db : TreeDb F) → (t : NaiveTree F) → (ops : List (TreeOp F)) →
      Decidable (HarmlessAll treeHash db t ops)
  | _, _, [] => .isTrue trivial
  | db, t, op :: ops =>
    @instDecidableAnd _ _ (decidableHarmless treeHash db t op)
      (decidableHarmlessAll treeHash (step treeHash op db).2 (t.next op) ops)

/-! ### One command in two databases -/

/-- The databases of the run with the dry runs and of the run without them: they differ in the cache
of the first one, which the second one does not have. -/
structure SameBut (treeHash : F → F → F) (db₁ db₂ : TreeDb F) (t : NaiveTree F) : Prop where
  eq : db₁ = { db₂ with cache := db₁.cache }
  refines : Refines treeHash db₂ t

section Commands

variable {db db₁ db₂ : TreeDb F} {t u : NaiveTree F} {op : TreeOp F}

omit [DecidableEq F] in
theorem SameBut.holds (h : SameBut treeHash db₁ db₂ t) : Holds treeHash db₁ t := by
  rw [h.eq]
  exact ⟨h.refines.metadata, h.refines.nodes⟩

omit [DecidableEq F] in
theorem nodes_ext {c d : Collection (Node.id (F := F))} (hkeys : c.keys = d.keys)
    (hvalues : ∀ i, storedValue c i = storedValue d i) : c = d := by
  refine Collection.ext_find hkeys fun i => ?_
  by_cases hi : i ∈ c.keys
  · obtain ⟨x, hx⟩ := Collection.mem_keys.1 hi
    obtain ⟨y, hy⟩ := Collection.mem_keys.1 (hkeys ▸ hi)
    have hvalue := hvalues i
    rw [storedValue, storedValue, hx, hy] at hvalue
    have hid : x.id = y.id := (Collection.find_eq_some.1 hx).2.trans (Collection.find_eq_some.1 hy).2.symm
    rw [hx, hy]
    cases x
    cases y
    exact congrArg some (congrArg₂ Node.mk hid hvalue)
  · rw [Collection.find_eq_none.2 hi, Collection.find_eq_none.2 (hkeys ▸ hi)]

omit [DecidableEq F] in
/-- A commit that flushes nodes of the tree that it makes is the commit without them. -/
theorem commit_eq {updates₁ updates₂ : List (Node F)} (h : SameBut treeHash db₁ db₂ t)
    (hids : updates₁.map Node.id = updates₂.map Node.id)
    (h₁ : ∀ i, storedValue (db₁.nodes.upserts updates₁) i = u.node treeHash i)
    (h₂ : ∀ i, storedValue (db₂.nodes.upserts updates₂) i = u.node treeHash i)
    (hcache : ∀ node ∈ db₁.cache.docs, node.value = u.node treeHash node.id ∧
      (node.id ∈ db₁.nodes.keys ∨ node.id ∈ updates₁.map Node.id)) :
    commit treeHash db₁ u updates₁ = commit treeHash db₂ u updates₂ := by
  have hflush : (db₁.nodes.upserts updates₁).upserts db₁.cache.docs = db₁.nodes.upserts updates₁ := by
    refine Collection.upserts_eq_self fun node hnode => ?_
    obtain ⟨hvalue, hmem⟩ := hcache node hnode
    obtain ⟨x, hx⟩ := Collection.mem_keys.1 (Collection.mem_keys_upserts.2 hmem)
    have hstored := h₁ node.id
    rw [storedValue, hx, ← hvalue] at hstored
    have hid := (Collection.find_eq_some.1 hx).2
    rw [hx]
    cases x
    cases node
    exact congrArg some (congrArg₂ Node.mk hid hstored)
  have hnodes : db₁.nodes = db₂.nodes := by rw [h.eq]
  have hleaves : db₁.indexedLeaves = db₂.indexedLeaves := by rw [h.eq]
  have hsame : db₁.nodes.upserts updates₁ = db₂.nodes.upserts updates₂ :=
    nodes_ext (Collection.keys_upserts_congr (by rw [hnodes]) hids) fun i => (h₁ i).trans (h₂ i).symm
  have hempty : db₂.cache.docs = [] := by rw [h.refines.cache]; rfl
  rw [commit, commit, hflush, hsame, hleaves, hempty, Collection.upserts_nil]

theorem step_of_ok {r : TreeResult F} {db' : TreeDb F} (h : (op.exec treeHash).run db = .ok r db') :
    step treeHash op db = (.ok r, db') := by
  rw [step, h]

theorem step_of_error {e : Failure} {db' : TreeDb F}
    (h : (op.exec treeHash).run db = .error e db') : step treeHash op db = (.error e, db') := by
  rw [step, h]

/-- An idle command only looks at the metadata. -/
theorem step_idle (treeHash : F → F → F) (h : op.Idle t) :
    ∃ r, ∀ db, db.metadata = some (t.metadata treeHash) → step treeHash op db = (r, db) := by
  cases op with
  | insertLeaf leaf updateTree => exact absurd h id
  | appendSubTrees leaves updateTree =>
    by_cases hlen : leaves.length % 2 ^ t.subTreeHeight = 0
    · obtain rfl := h.resolve_left (not_not.2 hlen)
      refine ⟨.ok (.appended (t.node treeHash 0) (t.subTreeCount * 2 ^ t.subTreeHeight)),
        fun db hdb => step_of_ok ?_⟩
      simp only [TreeOp.exec, appendSubTrees, EStateM.run_bind, run_getMetadata hdb]
      simp
      exact ⟨rfl, rfl⟩
    · refine ⟨.error (.err .incorrectBatchSize), fun db hdb => step_of_error ?_⟩
      simp only [TreeOp.exec, appendSubTrees, EStateM.run_bind, run_getMetadata hdb]
      simp [NaiveTree.metadata, hlen]
  | updateSubTree subTreeIndex leaves updateTree =>
    by_cases hlen : 2 ^ Nat.clog 2 leaves.length = leaves.length
    · have hindex := h.resolve_left (not_not.2 hlen)
      have hne : leaves ≠ [] := by
        rintro rfl
        exact (Nat.two_pow_pos _).ne hlen.symm
      refine ⟨.error (.err .invalidIndex), fun db hdb => step_of_error ?_⟩
      simp only [TreeOp.exec, updateSubTree, EStateM.run_bind, run_getMetadata hdb]
      simp [NaiveTree.metadata, hlen, hne, show 2 ^ (t.treeHeight + t.subTreeHeight) ≤ _ from hindex]
    · refine ⟨.error (.err .incorrectBatchSize), fun db hdb => step_of_error ?_⟩
      simp only [TreeOp.exec, updateSubTree, EStateM.run_bind, run_getMetadata hdb]
      simp [hlen]
  | insertForCircuit commitments =>
    refine ⟨.error (.err .incorrectBatchSize), fun db hdb => step_of_error ?_⟩
    simp only [TreeOp.exec, insertForCircuit, EStateM.run_bind, run_getMetadata hdb]
    simp [NaiveTree.metadata, show commitments.length ≠ _ from h]
  | batchInsertWithCircuitInfo commitments =>
    by_cases hlen : commitments.length % 2 ^ t.subTreeHeight = 0
    · obtain rfl := h.resolve_left (not_not.2 hlen)
      refine ⟨.ok (.inserted []), fun db hdb => step_of_ok ?_⟩
      simp only [TreeOp.exec, batchInsertWithCircuitInfo, EStateM.run_bind, run_getMetadata hdb]
      simp [chunks_nil (Nat.two_pow_pos _)]
    · refine ⟨.error (.err .incorrectBatchSize), fun db hdb => step_of_error ?_⟩
      simp only [TreeOp.exec, batchInsertWithCircuitInfo, EStateM.run_bind, run_getMetadata hdb]
      simp [NaiveTree.metadata, hlen]
  | getRoot =>
    refine ⟨.ok (.root (t.node treeHash 0)), fun db hdb => step_of_ok ?_⟩
    simp only [TreeOp.exec, getRoot, EStateM.run_bind, run_getMetadata hdb]
    rfl
  | getMembershipProof leaf leafIndex => exact absurd h id

theorem run_insertForCircuit_eq {l : List F} (h : SameBut treeHash db₁ db₂ t)
    (hlen : l.length = 2 ^ t.subTreeHeight) (hfit : t.subTreeCount < 2 ^ t.treeHeight)
    (hcache : ∀ node ∈ db₁.cache.docs, node.value = (t.append l 1).node treeHash node.id ∧
      (node.id ∈ db₁.nodes.keys ∨
        node.id ∈ appendKeys (t.metadata treeHash) t.subTreeCount 1)) :
    ∃ db', (insertForCircuit treeHash l).run db₁ = .ok (t.insertionInfo treeHash l) db' ∧
      (insertForCircuit treeHash l).run db₂ = .ok (t.insertionInfo treeHash l) db' := by
  obtain ⟨updates₁, hrun₁, hkeys₁, hvalues₁⟩ :=
    run_insertForCircuit h.holds hlen hfit fun node hnode => (hcache node hnode).1
  obtain ⟨updates₂, hrun₂, hkeys₂, hvalues₂⟩ :=
    run_insertForCircuit h.refines.toHolds hlen hfit (cacheAgrees_of_empty h.refines.cache _)
  rw [← hkeys₁] at hcache
  rw [commit_eq h (hkeys₁.trans hkeys₂.symm) hvalues₁ hvalues₂ hcache] at hrun₁
  exact ⟨_, hrun₁, hrun₂⟩

/-- **A harmless commit does the same in both databases.** -/
theorem step_commit (h : SameBut treeHash db₁ db₂ t) (hop : op.Committed) (hidle : ¬ op.Idle t)
    (hfit : op.Fits t) (hcache : FlushesNothing treeHash db₁ t op) :
    step treeHash op db₁ = step treeHash op db₂ := by
  have hagrees : CacheAgrees db₁ ((t.firstCommit op).node treeHash) :=
    fun node hnode => (hcache node hnode).1
  have hempty : ∀ N, CacheAgrees db₂ N := cacheAgrees_of_empty h.refines.cache
  cases op with
  | insertLeaf leaf updateTree =>
    obtain rfl : updateTree = true := hop
    obtain ⟨updates₁, hrun₁, hkeys₁, hvalues₁⟩ := run_insertLeaf h.holds hfit hagrees
    obtain ⟨updates₂, hrun₂, hkeys₂, hvalues₂⟩ :=
      run_insertLeaf h.refines.toHolds hfit (hempty _)
    rw [commit_eq h (hkeys₁.trans hkeys₂.symm) hvalues₁ hvalues₂ (hkeys₁ ▸ hcache)] at hrun₁
    simp only [step, TreeOp.exec, EStateM.run_bind, hrun₁, hrun₂]
  | appendSubTrees leaves updateTree =>
    obtain rfl : updateTree = true := hop
    obtain ⟨hne, hlen, hcap⟩ := hfit
    obtain ⟨updates₁, hrun₁, hkeys₁, hvalues₁⟩ := run_appendSubTrees h.holds hne hlen hcap hagrees
    obtain ⟨updates₂, hrun₂, hkeys₂, hvalues₂⟩ :=
      run_appendSubTrees h.refines.toHolds hne hlen hcap (hempty _)
    rw [commit_eq h (hkeys₁.trans hkeys₂.symm) hvalues₁ hvalues₂ (hkeys₁ ▸ hcache)] at hrun₁
    simp only [step, TreeOp.exec, EStateM.run_bind, hrun₁, hrun₂]
  | updateSubTree subTreeIndex leaves updateTree =>
    obtain rfl : updateTree = true := hop
    obtain ⟨updates₁, hrun₁, hkeys₁, hvalues₁⟩ := run_updateSubTree h.holds true hfit rfl hagrees
    obtain ⟨updates₂, hrun₂, hkeys₂, hvalues₂⟩ :=
      run_updateSubTree h.refines.toHolds true hfit rfl (hempty _)
    rw [if_pos rfl] at hrun₁ hrun₂
    have hcommit := commit_eq h (hkeys₁.trans hkeys₂.symm) hvalues₁ hvalues₂ (hkeys₁ ▸ hcache)
    rw [hcommit] at hrun₁
    simp only [step, TreeOp.exec, EStateM.run_bind, hrun₁, hrun₂]
  | insertForCircuit commitments =>
    obtain ⟨hlen, hcap⟩ := hfit
    obtain ⟨db', hrun₁, hrun₂⟩ := run_insertForCircuit_eq h hlen hcap hcache
    simp only [step, TreeOp.exec, EStateM.run_bind, hrun₁, hrun₂]
  | batchInsertWithCircuitInfo commitments =>
    obtain ⟨hlen, hcap⟩ := hfit
    have hpos := Nat.two_pow_pos t.subTreeHeight
    have hne : commitments ≠ [] := fun hnil => hidle (.inr hnil)
    have hle : 2 ^ t.subTreeHeight ≤ commitments.length :=
      Nat.le_of_dvd (List.length_pos_iff.2 hne) (Nat.dvd_of_mod_eq_zero hlen)
    have hcount : t.subTreeCount < 2 ^ t.treeHeight :=
      (Nat.lt_add_of_pos_right (Nat.div_pos hle hpos)).trans_le hcap
    have htake : (commitments.take (2 ^ t.subTreeHeight)).length = 2 ^ t.subTreeHeight := by
      rw [List.length_take, min_eq_left hle]
    obtain ⟨db', hrun₁, hrun₂⟩ := run_insertForCircuit_eq h htake hcount hcache
    have hfirst₁ := run_expect "Could not insert for circuit" hrun₁
    have hfirst₂ := run_expect "Could not insert for circuit" hrun₂
    have hchunks := chunks_of_ne_nil hpos hne
    simp only [step, TreeOp.exec, batchInsertWithCircuitInfo, EStateM.run_bind,
      run_getMetadata h.holds.metadata, run_getMetadata h.refines.metadata, hlen, ne_eq,
      not_true_eq_false, if_false,
      show (t.metadata treeHash).subTreeHeight = t.subTreeHeight from rfl, hchunks,
      List.mapM_cons, hfirst₁, hfirst₂]
  | getRoot => exact absurd hop id
  | getMembershipProof leaf leafIndex => exact absurd hop id

/-! ### Dry runs and proofs -/

omit [DecidableEq F] in
theorem run_foldlM_dry (treeHash : F → F → F) (metadata : TreeMetadata F) (cs : List (List F)) (acc : F × ℕ)
    (db : TreeDb F) :
    ∃ r cache, (cs.foldlM (appendSubTree treeHash metadata false) acc).run db =
      .ok r { db with cache := cache } := by
  induction cs generalizing acc db with
  | nil => exact ⟨acc, db.cache, rfl⟩
  | cons c cs ih =>
    obtain ⟨acc', cache, hstep⟩ : ∃ acc' cache, (appendSubTree treeHash metadata false acc c).run db =
        .ok acc' { db with cache := cache } := ⟨_, _, rfl⟩
    obtain ⟨r, cache', hrest⟩ := ih acc' { db with cache := cache }
    refine ⟨r, cache', ?_⟩
    rw [List.foldlM_cons, EStateM.run_bind, hstep]
    exact hrest

/-- **A harmless dry run changes the cache only.** -/
theorem step_dry (h : SameBut treeHash db₁ db₂ t) (hdry : op.dry = true)
    (hharm : Harmless treeHash db₁ t op) : SameBut treeHash (step treeHash op db₁).2 db₂ t := by
  have hcache : ∀ db', db' = { db₁ with cache := db'.cache } → SameBut treeHash db' db₂ t := by
    intro db' hdb'
    refine ⟨?_, h.refines⟩
    rw [hdb', h.eq]
  by_cases hidle : op.Idle t
  · obtain ⟨r, hr⟩ := step_idle treeHash hidle
    rw [hr db₁ h.holds.metadata]
    exact h
  · replace hharm := hharm.resolve_left hidle
    cases op with
    | insertLeaf leaf updateTree =>
      obtain rfl : updateTree = false := by simpa [TreeOp.dry] using hdry
      refine hcache _ ?_
      simp only [step, TreeOp.exec, insertLeaf, EStateM.run_bind,
        run_getMetadata h.holds.metadata]
      rfl
    | appendSubTrees leaves updateTree =>
      obtain rfl : updateTree = false := by simpa [TreeOp.dry] using hdry
      obtain ⟨hlen, hne⟩ := not_or.1 hidle
      rw [ne_eq, not_not] at hlen
      obtain ⟨r, cache, hrun⟩ := run_foldlM_dry treeHash (t.metadata treeHash)
        (chunks (2 ^ t.subTreeHeight) leaves) (0, t.subTreeCount) db₁
      refine hcache _ ?_
      simp only [step, TreeOp.exec, appendSubTrees, EStateM.run_bind,
        run_getMetadata h.holds.metadata,
        show (t.metadata treeHash).subTreeHeight = t.subTreeHeight from rfl,
        show (t.metadata treeHash).subTreeCount = t.subTreeCount from rfl, hlen, hne,
        List.isEmpty_iff, ne_eq, not_true_eq_false, if_false]
      by_cases hfull : t.subTreeCount > 2 ^ t.treeHeight
      · simp only [show (t.metadata treeHash).treeHeight = t.treeHeight from rfl, hfull, if_true]
        rfl
      · simp only [show (t.metadata treeHash).treeHeight = t.treeHeight from rfl, hfull, if_false,
          EStateM.run_bind, hrun, Bool.false_eq_true]
        rfl
    | updateSubTree subTreeIndex leaves updateTree =>
      obtain rfl : updateTree = false := by simpa [TreeOp.dry] using hdry
      obtain ⟨hfit, hagrees, hroot⟩ := hharm
      obtain ⟨updates, hrun, -, -⟩ := run_updateSubTree h.holds false hfit rfl hagrees
      have hmeta : (t.write (subTreeIndex * leaves.length) leaves).metadata treeHash =
          t.metadata treeHash := by
        simp only [NaiveTree.metadata, hroot]
        rfl
      rw [if_neg Bool.false_ne_true, hmeta, ← h.holds.metadata] at hrun
      refine hcache _ ?_
      simp only [step, TreeOp.exec, EStateM.run_bind, hrun]
      rfl
    | insertForCircuit commitments => exact absurd hdry Bool.false_ne_true
    | batchInsertWithCircuitInfo commitments => exact absurd hdry Bool.false_ne_true
    | getRoot => exact absurd hdry Bool.false_ne_true
    | getMembershipProof leaf leafIndex => exact absurd hdry Bool.false_ne_true

omit [Zero F] [DecidableEq F] in
theorem siblings_congr_keys {getNode getNode' : ℕ → F} {n index : ℕ}
    (hread : ∀ i ∈ siblingKeys n index, getNode i = getNode' i) :
    siblings getNode n index = siblings getNode' n index := by
  induction n generalizing index with
  | zero => rfl
  | succ n ih =>
    rw [siblingKeys, List.forall_mem_cons] at hread
    rw [siblings, siblings, ih hread.2]
    split_ifs at hread ⊢ with heven
    · rw [hread.1]
    · rw [hread.1]

omit [DecidableEq F] in
theorem getNode_of_cache {i : ℕ} (hdb : Holds treeHash db t)
    (hcache : ∀ node ∈ db.cache.docs, node.id = i → node.value = t.node treeHash i) :
    db.getNode i = t.node treeHash i := by
  unfold TreeDb.getNode
  cases hfind : db.cache.find i with
  | none => exact hdb.nodes i
  | some node =>
    obtain ⟨hmem, hid⟩ := Collection.find_eq_some.1 hfind
    exact hcache node hmem hid

theorem step_proof {leaf : Option F} {leafIndex : Option ℕ} (h : SameBut treeHash db₁ db₂ t)
    (hharm : Harmless treeHash db₁ t (.getMembershipProof leaf leafIndex)) :
    (step treeHash (.getMembershipProof leaf leafIndex) db₁).1 =
        (step treeHash (.getMembershipProof leaf leafIndex) db₂).1 ∧
      (step treeHash (.getMembershipProof leaf leafIndex) db₁).2 = db₁ ∧
      (step treeHash (.getMembershipProof leaf leafIndex) db₂).2 = db₂ := by
  have hreads : ReadsTree treeHash db₁ t leaf leafIndex := hharm.resolve_left id
  have hindex : leafNodeIndex db₂ t.height leaf leafIndex =
      leafNodeIndex db₁ t.height leaf leafIndex := by
    rw [h.eq]
    rfl
  have hheight : (t.metadata treeHash).treeHeight + (t.metadata treeHash).subTreeHeight = t.height :=
    rfl
  simp only [step, TreeOp.exec, getMembershipProof, EStateM.run_bind,
    run_getMetadata h.holds.metadata, run_getMetadata h.refines.metadata, EStateM.run_get, hheight,
    hindex]
  cases hleaf : leafNodeIndex db₁ t.height leaf leafIndex with
  | error e => exact ⟨rfl, rfl, rfl⟩
  | ok index =>
    by_cases hrange : index < 2 ^ t.height - 1 ∨ 2 ^ (t.height + 1) - 2 < index
    · simp only [hrange, if_true]
      exact ⟨rfl, rfl, rfl⟩
    · unfold ReadsTree at hreads
      rw [hleaf] at hreads
      have hread := hreads (by omega) (by omega)
      have hsiblings : siblings db₁.getNode t.height index = siblings db₂.getNode t.height index := by
        refine siblings_congr_keys fun i hi => ?_
        rw [h.refines.getNode]
        exact getNode_of_cache h.holds fun node hnode hid => by
          rw [← hid]
          exact hread node hnode (.inr (hid ▸ hi))
      have hvalue : leaf.getD (db₁.getNode index) = leaf.getD (db₂.getNode index) := by
        cases leaf with
        | some x => rfl
        | none =>
          rw [Option.getD_none, Option.getD_none, h.refines.getNode]
          exact getNode_of_cache h.holds fun node hnode hid => by
            rw [← hid]
            exact hread node hnode (.inl ⟨hid, rfl⟩)
      simp only [hrange, if_false, EStateM.run_pure, hsiblings, hvalue, and_self]

/-! ### Proofs verify -/

omit [DecidableEq F] in
theorem foldPath_siblings_node {p : ℕ} (hp : p < 2 ^ t.height) :
    foldPath treeHash (siblings (t.node treeHash) t.height (nodeIndex t.height p))
      (t.node treeHash (nodeIndex t.height p)) = t.node treeHash 0 := by
  rw [foldPath_siblings]
  have hread : ∀ i, i ≠ 0 → True → True →
      (i % 2 = 0 → t.node treeHash (i - 1) = t.node treeHash (i - 1)) ∧
        (i % 2 = 1 → t.node treeHash (i + 1) = t.node treeHash (i + 1)) :=
    fun _ _ _ _ => ⟨fun _ => rfl, fun _ => rfl⟩
  exact (hashPath_value le_rfl hp (fun i hi => completeNode_child hi t.leaves)
    (fun _ _ _ => trivial) (fun _ _ _ => trivial) hread trivial fun _ => rfl).2 trivial

/-- A proof in a database that refines a tree verifies. -/
theorem proof_verifies {leaf : Option F} {leafIndex : Option ℕ} {proof : MembershipProof F}
    {db' : TreeDb F} (hdb : Refines treeHash db t) (hgiven : leaf = none ∨ leafIndex = none)
    (hrun : (getMembershipProof leaf leafIndex).run db = .ok proof db') :
    proof.Verifies treeHash (t.node treeHash 0) := by
  have hheight : (t.metadata treeHash).treeHeight + (t.metadata treeHash).subTreeHeight = t.height :=
    rfl
  have hnode : db.getNode = t.node treeHash := funext hdb.getNode
  simp only [getMembershipProof, EStateM.run_bind, run_getMetadata hdb.metadata, EStateM.run_get,
    hheight, hnode] at hrun
  cases hleaf : leafNodeIndex db t.height leaf leafIndex with
  | error e =>
    rw [hleaf] at hrun
    cases hrun
  | ok index =>
    simp only [hleaf] at hrun
    split_ifs at hrun with hrange
    · cases hrun
    · obtain ⟨rfl, -⟩ : _ = proof ∧ _ := by simpa using hrun
      obtain ⟨p, rfl⟩ : ∃ p, index = nodeIndex t.height p := ⟨index - (2 ^ t.height - 1), by
        unfold nodeIndex
        omega⟩
      have hp : p < 2 ^ t.height := by
        have hindex := nodeIndex_add_one t.height p
        have hpow : 2 ^ (t.height + 1) = 2 * 2 ^ t.height := pow_succ' 2 t.height
        obtain ⟨-, hle⟩ := not_or.1 hrange
        rw [not_lt, hpow] at hle
        have := Nat.two_pow_pos t.height
        omega
      -- the value in the proof is the leaf at its position
      have hvalue : leaf.getD (t.node treeHash (nodeIndex t.height p)) =
          t.node treeHash (nodeIndex t.height p) := by
        cases leaf with
        | none => rfl
        | some x =>
          obtain rfl := hgiven.resolve_left (by simp)
          simp only [leafNodeIndex] at hleaf
          split_ifs at hleaf
          cases hfind : db.nodes.findOne fun node => decide (node.value = x) with
          | none =>
            rw [hfind] at hleaf
            cases hleaf
          | some node =>
            rw [hfind] at hleaf
            obtain ⟨hmem, hval⟩ := Collection.findOne_some hfind
            have hid : node.id = nodeIndex t.height p := Except.ok.inj hleaf
            have hstored := hdb.nodes (nodeIndex t.height p)
            rw [storedValue, Collection.find_eq_some.2 ⟨hmem, hid⟩] at hstored
            rw [← hstored]
            exact (of_decide_eq_true hval).symm
      rw [MembershipProof.Verifies]
      simp only [hvalue]
      exact foldPath_siblings_node hp

end Commands

/-! ### The run -/

section Run

variable {db₁ db₂ : TreeDb F} {t : NaiveTree F} {op : TreeOp F}

theorem step_refines {db : TreeDb F} (hdb : Refines treeHash db t) (hop : op.Committed)
    (hidle : ¬ op.Idle t) (hfit : op.Fits t) :
    Refines treeHash (step treeHash op db).2 (t.next op) := by
  obtain ⟨db', hrun, hdb'⟩ := run_exec hdb hop hfit
  rw [step_of_ok hrun, NaiveTree.next, if_neg hidle]
  exact hdb'

/-- What harmless means for a commit. -/
theorem Harmless.commit {db : TreeDb F} (hharm : Harmless treeHash db t op) (hdry : op.dry = false)
    (hidle : ¬ op.Idle t) :
    (∃ leaf leafIndex, op = .getMembershipProof leaf leafIndex) ∨
      op.Committed ∧ op.Fits t ∧ FlushesNothing treeHash db t op := by
  replace hharm := hharm.resolve_left hidle
  cases op with
  | insertLeaf leaf updateTree =>
    obtain rfl : updateTree = true := by simpa [TreeOp.dry] using hdry
    exact .inr ⟨rfl, hharm⟩
  | appendSubTrees leaves updateTree =>
    obtain rfl : updateTree = true := by simpa [TreeOp.dry] using hdry
    exact .inr ⟨rfl, hharm⟩
  | updateSubTree subTreeIndex leaves updateTree =>
    obtain rfl : updateTree = true := by simpa [TreeOp.dry] using hdry
    exact .inr ⟨rfl, hharm⟩
  | insertForCircuit commitments => exact .inr ⟨trivial, hharm⟩
  | batchInsertWithCircuitInfo commitments => exact .inr ⟨trivial, hharm⟩
  | getRoot => exact absurd trivial hidle
  | getMembershipProof leaf leafIndex => exact .inl ⟨leaf, leafIndex, rfl⟩

/-- **The step.**  A harmless command that is not a dry run returns the same in both databases. -/
theorem step_sameBut (h : SameBut treeHash db₁ db₂ t) (hdry : op.dry = false)
    (hharm : Harmless treeHash db₁ t op) :
    (step treeHash op db₁).1 = (step treeHash op db₂).1 ∧
      SameBut treeHash (step treeHash op db₁).2 (step treeHash op db₂).2 (t.next op) := by
  by_cases hidle : op.Idle t
  · obtain ⟨r, hr⟩ := step_idle treeHash hidle
    rw [hr db₁ h.holds.metadata, hr db₂ h.refines.metadata, NaiveTree.next, if_pos hidle]
    exact ⟨rfl, h⟩
  · rcases hharm.commit hdry hidle with ⟨leaf, leafIndex, rfl⟩ | ⟨hop, hfit, hcache⟩
    · obtain ⟨hresult, hdb₁, hdb₂⟩ := step_proof h hharm
      rw [hdb₁, hdb₂, NaiveTree.next, if_neg hidle]
      exact ⟨hresult, h⟩
    · rw [step_commit h hop hidle hfit hcache]
      exact ⟨rfl, rfl, step_refines h.refines hop hidle hfit⟩

omit [DecidableEq F] in
theorem next_of_dry (hdry : op.dry = true) : t.next op = t := by
  unfold NaiveTree.next
  split_ifs
  · rfl
  · cases op with
    | insertLeaf leaf updateTree =>
      obtain rfl : updateTree = false := by simpa [TreeOp.dry] using hdry
      rfl
    | appendSubTrees leaves updateTree =>
      obtain rfl : updateTree = false := by simpa [TreeOp.dry] using hdry
      rfl
    | updateSubTree subTreeIndex leaves updateTree =>
      obtain rfl : updateTree = false := by simpa [TreeOp.dry] using hdry
      rfl
    | insertForCircuit commitments => exact absurd hdry Bool.false_ne_true
    | batchInsertWithCircuitInfo commitments => exact absurd hdry Bool.false_ne_true
    | getRoot => rfl
    | getMembershipProof leaf leafIndex => rfl

theorem step_verifies {leaf : Option F} {leafIndex : Option ℕ} {proof : MembershipProof F} {root : F}
    (h : SameBut treeHash db₁ db₂ t)
    (hharm : Harmless treeHash db₁ t (.getMembershipProof leaf leafIndex))
    (hgiven : leaf = none ∨ leafIndex = none)
    (hproof : (step treeHash (.getMembershipProof leaf leafIndex) db₁).1 = .ok (.proof proof))
    (hroot : (step treeHash .getRoot db₁).1 = .ok (.root root)) : proof.Verifies treeHash root := by
  rw [(step_proof h hharm).1] at hproof
  have hroot' : root = t.node treeHash 0 := by
    have hrun : getRoot.run db₁ = .ok (t.node treeHash 0) db₁ := by
      rw [getRoot, EStateM.run_bind, run_getMetadata h.holds.metadata]
      rfl
    simp only [step, TreeOp.exec, EStateM.run_bind, hrun, EStateM.run_pure] at hroot
    exact (TreeResult.root.inj (Except.ok.inj hroot)).symm
  subst hroot'
  cases hrun : (getMembershipProof leaf leafIndex).run db₂ with
  | error e db' =>
    simp only [step, TreeOp.exec, EStateM.run_bind, hrun] at hproof
    cases hproof
  | ok proof' db' =>
    simp only [step, TreeOp.exec, EStateM.run_bind, hrun, EStateM.run_pure] at hproof
    obtain rfl := TreeResult.proof.inj (Except.ok.inj hproof)
    exact proof_verifies h.refines hgiven hrun

/-- **Harmless dry runs leave no trace.**  In a run from a tree without a pending dry run, in which
every command is harmless, the results are those of the run without the dry runs, and the proofs
verify. -/
theorem observations_of_harmless {ops : List (TreeOp F)} (h : SameBut treeHash db₁ db₂ t)
    (hops : HarmlessAll treeHash db₁ t ops) :
    observations treeHash db₁ ops = observations treeHash db₂ (ops.filter fun op => !op.dry) ∧
      ProofsVerify treeHash db₁ ops := by
  induction ops generalizing db₁ db₂ t with
  | nil => exact ⟨rfl, trivial⟩
  | cons op ops ih =>
    obtain ⟨hharm, hrest⟩ := hops
    cases hdry : op.dry with
    | true =>
      have hnext := next_of_dry (t := t) hdry
      rw [hnext] at hrest
      obtain ⟨hobs, hverify⟩ := ih (step_dry h hdry hharm) hrest
      rw [observations, if_pos hdry, List.filter_cons_of_neg (by simp [hdry])]
      refine ⟨hobs, ?_, hverify⟩
      rintro leaf leafIndex proof root rfl
      exact absurd hdry Bool.false_ne_true
    | false =>
      obtain ⟨hresult, hnext⟩ := step_sameBut h hdry hharm
      obtain ⟨hobs, hverify⟩ := ih hnext hrest
      rw [observations, if_neg (by simp [hdry]), List.filter_cons_of_pos (by simp [hdry]),
        observations, if_neg (by simp [hdry]), hresult, hobs]
      refine ⟨rfl, ?_, hverify⟩
      rintro leaf leafIndex proof root rfl hgiven hproof hroot
      exact step_verifies h hharm hgiven hproof hroot

/-- **Harmless dry runs leave no trace, from every state without a pending one.** -/
theorem harmless_dry_runs_leave_no_trace {db : TreeDb F} {ops : List (TreeOp F)}
    (hdb : Refines treeHash db t) (hops : HarmlessAll treeHash db t ops) :
    observations treeHash db ops = observations treeHash db (ops.filter fun op => !op.dry) ∧
      ProofsVerify treeHash db ops :=
  observations_of_harmless ⟨rfl, hdb⟩ hops

end Run

/-- A proposer that assembles two blocks, each with its dry run before the commit, and proves the
first root in between. -/
def sampleDryRuns : List (TreeOp Fr254) :=
  [.appendSubTrees [(5 : ℕ)] false, .getRoot, .appendSubTrees [(5 : ℕ)] true,
    .getMembershipProof (some (5 : ℕ)) none, .appendSubTrees [(7 : ℕ)] false,
    .appendSubTrees [(7 : ℕ)] true, .updateSubTree 0 [(5 : ℕ)] false, .getRoot]

theorem harmless_dry_runs_leave_no_trace_sample :
    observations sampleHash (newDb 2 0) sampleDryRuns =
        observations sampleHash (newDb 2 0) (sampleDryRuns.filter fun op => !op.dry) ∧
      ProofsVerify sampleHash (newDb 2 0) sampleDryRuns :=
  harmless_dry_runs_leave_no_trace (refines_newDb 2 0) (by decide +kernel)

/-- The block of the dry run does not land; two other blocks do. -/
def staleDryRun : List (TreeOp Fr254) :=
  [.appendSubTrees [(5 : ℕ)] false, .appendSubTrees [(7 : ℕ)] true, .appendSubTrees [(9 : ℕ)] true,
    .getRoot]

theorem dry_run_leaves_trace :
    observations sampleHash (newDb 2 0) staleDryRun ≠
      observations sampleHash (newDb 2 0) (staleDryRun.filter fun op => !op.dry) := by
  decide +kernel

end Trees

end Nightfall
