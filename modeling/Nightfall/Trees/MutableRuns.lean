import Nightfall.Field.Bn254
import Nightfall.Trees.Refinement

/-!
# Runs of the mutable tree

A run creates a tree and executes a list of commands.  As long as the commands are committed and fit
into the tree, the database refines the naive tree after every one of them.
-/

namespace Nightfall

namespace Trees

open Merkle

variable {F : Type} [Zero F] {treeHash : F → F → F}

/-- The commands that change the tree for good. -/
def TreeOp.Committed : TreeOp F → Prop
  | .insertLeaf _ updateTree => updateTree = true
  | .appendSubTrees _ updateTree => updateTree = true
  | .updateSubTree _ _ updateTree => updateTree = true
  | .insertForCircuit _ => True
  | .batchInsertWithCircuitInfo _ => True
  | .getRoot => False
  | .getMembershipProof _ _ => False

/-- Every command fits when its turn comes. -/
def NaiveTree.FitsAll (t : NaiveTree F) : List (TreeOp F) → Prop
  | [] => True
  | op :: ops => op.Fits t ∧ FitsAll (t.apply op) ops

/-- What a committed command returns. -/
def NaiveTree.result (treeHash : F → F → F) (t : NaiveTree F) : TreeOp F → TreeResult F
  | .appendSubTrees leaves updateTree =>
    .appended ((t.apply (.appendSubTrees leaves updateTree)).node treeHash 0)
      ((t.subTreeCount + leaves.length / 2 ^ t.subTreeHeight) * 2 ^ t.subTreeHeight)
  | .insertForCircuit commitments => .inserted [t.insertionInfo treeHash commitments]
  | .batchInsertWithCircuitInfo commitments =>
    .inserted (t.insertionInfos treeHash (chunks (2 ^ t.subTreeHeight) commitments))
  | op => .root ((t.apply op).node treeHash 0)

/-- The result has the root of `t`, and the number of its leaf slots. -/
structure ResultOf (treeHash : F → F → F) (t : NaiveTree F) (r : TreeResult F) : Prop where
  root : ∀ x ∈ r.returnedRoot, x = t.node treeHash 0
  leafCount : ∀ n ∈ r.leafCount, n = t.subTreeCount * 2 ^ t.subTreeHeight

variable [DecidableEq F]

/-- Create a tree and execute commands. -/
def runTree (treeHash : F → F → F) (treeHeight subTreeHeight : ℕ) (ops : List (TreeOp F)) :
    TreeM F (List (TreeResult F)) := do
  newMutableTree treeHeight subTreeHeight
  ops.mapM (TreeOp.exec treeHash)

variable {db : TreeDb F} {t : NaiveTree F}

/-! ### The step -/

/-- **A committed command refines its effect on the naive tree.** -/
theorem run_exec {op : TreeOp F} (hdb : Refines treeHash db t) (hop : op.Committed)
    (hfit : op.Fits t) :
    ∃ db', (op.exec treeHash).run db = .ok (t.result treeHash op) db' ∧
      Refines treeHash db' (t.apply op) := by
  have hcache : ∀ N, CacheAgrees db N := cacheAgrees_of_empty hdb.cache
  cases op with
  | insertLeaf leaf updateTree =>
    obtain rfl : updateTree = true := hop
    obtain ⟨updates, hrun, -, hvalues⟩ := run_insertLeaf hdb.toHolds hfit (hcache _)
    refine ⟨_, ?_, refines_commit (hcache _) hvalues⟩
    simp only [TreeOp.exec, EStateM.run_bind, hrun, EStateM.run_pure]
    rfl
  | appendSubTrees leaves updateTree =>
    obtain rfl : updateTree = true := hop
    obtain ⟨hne, hlen, hcap⟩ := hfit
    obtain ⟨updates, hrun, -, hvalues⟩ := run_appendSubTrees hdb.toHolds hne hlen hcap (hcache _)
    refine ⟨_, ?_, refines_commit (hcache _) hvalues⟩
    simp only [TreeOp.exec, EStateM.run_bind, hrun, EStateM.run_pure]
    rfl
  | updateSubTree subTreeIndex leaves updateTree =>
    obtain rfl : updateTree = true := hop
    obtain ⟨updates, hrun, -, hvalues⟩ := run_updateSubTree hdb.toHolds true hfit rfl (hcache _)
    refine ⟨_, ?_, refines_commit (hcache _) hvalues⟩
    simp only [TreeOp.exec, EStateM.run_bind, hrun, EStateM.run_pure, if_true]
    rfl
  | insertForCircuit commitments =>
    obtain ⟨hlen, hcap⟩ := hfit
    obtain ⟨updates, hrun, -, hvalues⟩ := run_insertForCircuit hdb.toHolds hlen hcap (hcache _)
    refine ⟨_, ?_, refines_commit (hcache _) hvalues⟩
    simp only [TreeOp.exec, EStateM.run_bind, hrun, EStateM.run_pure]
    rfl
  | batchInsertWithCircuitInfo commitments =>
    obtain ⟨hlen, hcap⟩ := hfit
    obtain ⟨hchunks, hsize, hflat⟩ := chunks_spec (Nat.two_pow_pos t.subTreeHeight) hlen
    rw [← hchunks] at hcap
    obtain ⟨db', hrun, hdb', -⟩ := run_mapM_insertForCircuit "Could not insert for circuit" hdb
      hsize hcap
    rw [NaiveTree.appendAll_eq hsize, hflat, hchunks] at hdb'
    refine ⟨db', ?_, hdb'⟩
    simp only [TreeOp.exec, batchInsertWithCircuitInfo, EStateM.run_bind,
      run_getMetadata hdb.metadata, hlen, ne_eq, not_true_eq_false, if_false,
      show (t.metadata treeHash).subTreeHeight = t.subTreeHeight from rfl, hrun, EStateM.run_pure]
    rfl
  | getRoot => exact absurd hop id
  | getMembershipProof leaf leafIndex => exact absurd hop id

omit [DecidableEq F] in
/-- The result of a committed command has the root and the leaf count of the tree after it. -/
theorem resultOf_result {op : TreeOp F} (hop : op.Committed) (hfit : op.Fits t) :
    ResultOf treeHash (t.apply op) (t.result treeHash op) := by
  cases op with
  | insertLeaf leaf updateTree => exact ⟨by rintro _ ⟨⟩; rfl, nofun⟩
  | appendSubTrees leaves updateTree =>
    obtain rfl : updateTree = true := hop
    exact ⟨by rintro _ ⟨⟩; rfl, by rintro _ ⟨⟩; rfl⟩
  | updateSubTree subTreeIndex leaves updateTree => exact ⟨by rintro _ ⟨⟩; rfl, nofun⟩
  | insertForCircuit commitments =>
    refine ⟨by rintro _ ⟨⟩; rfl, ?_⟩
    rintro _ ⟨⟩
    have hslots : t.subTreeCount * 2 ^ t.subTreeHeight + commitments.length =
        (t.subTreeCount + 1) * 2 ^ t.subTreeHeight := by
      rw [hfit.1]
      ring
    exact hslots
  | batchInsertWithCircuitInfo commitments =>
    obtain ⟨hchunks, hsize, hflat⟩ := chunks_spec (Nat.two_pow_pos t.subTreeHeight) hfit.1
    have hlast := NaiveTree.getLast_insertionInfos treeHash hsize
    rw [NaiveTree.appendAll_eq hsize, hflat, hchunks] at hlast
    constructor
    · intro x hx
      obtain ⟨info, hinfo, rfl⟩ := Option.map_eq_some_iff.1 hx
      exact (hlast info hinfo).1
    · intro n hn
      obtain ⟨info, hinfo, rfl⟩ := Option.map_eq_some_iff.1 hn
      exact (hlast info hinfo).2
  | getRoot => exact absurd hop id
  | getMembershipProof leaf leafIndex => exact absurd hop id

/-! ### The run -/

/-- What a list of committed commands returns. -/
def NaiveTree.results (treeHash : F → F → F) (t : NaiveTree F) :
    List (TreeOp F) → List (TreeResult F)
  | [] => []
  | op :: ops => t.result treeHash op :: NaiveTree.results treeHash (t.apply op) ops

omit [DecidableEq F] in
theorem resultOf_getLast {ops : List (TreeOp F)} (hops : ∀ op ∈ ops, op.Committed)
    (hfit : t.FitsAll ops) :
    ∀ r ∈ (t.results treeHash ops).getLast?, ResultOf treeHash (ops.foldl NaiveTree.apply t) r := by
  induction ops generalizing t with
  | nil => exact nofun
  | cons op ops ih =>
    rw [List.forall_mem_cons] at hops
    cases ops with
    | nil =>
      rintro _ ⟨⟩
      exact resultOf_result hops.1 hfit.1
    | cons op' ops =>
      intro r hr
      rw [NaiveTree.results, NaiveTree.results, List.getLast?_cons_cons] at hr
      exact @ih (t.apply op) hops.2 hfit.2 r hr

theorem run_mapM_exec {ops : List (TreeOp F)} (hdb : Refines treeHash db t)
    (hops : ∀ op ∈ ops, op.Committed) (hfit : t.FitsAll ops) :
    ∃ db', (ops.mapM (TreeOp.exec treeHash)).run db = .ok (t.results treeHash ops) db' ∧
      Refines treeHash db' (ops.foldl NaiveTree.apply t) := by
  induction ops generalizing t db with
  | nil => exact ⟨db, rfl, hdb⟩
  | cons op ops ih =>
    rw [List.forall_mem_cons] at hops
    obtain ⟨db₁, hstep, hdb₁⟩ := run_exec hdb hops.1 hfit.1
    obtain ⟨db₂, hrest, hdb₂⟩ := ih hdb₁ hops.2 hfit.2
    refine ⟨db₂, ?_, hdb₂⟩
    rw [List.mapM_cons, EStateM.run_bind, hstep]
    simp only [EStateM.run_bind, hrest, EStateM.run_pure]
    rfl

omit [DecidableEq F] in
theorem run_newMutableTree (hzero : treeHash 0 0 = 0) (treeHeight subTreeHeight : ℕ) :
    ∃ db, (newMutableTree treeHeight subTreeHeight).run (TreeDb.empty : TreeDb F) = .ok () db ∧
      Refines treeHash db (.new treeHeight subTreeHeight) := by
  refine ⟨_, rfl, ⟨?_, fun i => ?_⟩, rfl⟩
  · simp only [NaiveTree.metadata, NaiveTree.node, NaiveTree.new]
    rw [completeNode_const hzero]
  · exact (completeNode_const hzero _ _).symm

/-- **The mutable tree is the naive tree.**  After every list of committed commands that fit into
the tree, every node is the node of `make_complete_tree` over all leaves, the root is node 0 and the
root that the last command returned, and the leaf count that it returned is the number of the leaf
slots of the sub-trees appended so far.

Heights and numbers of nodes are natural numbers here; those of the code are, as long as the heights of
the tree and of its sub-trees are 62 together at most. -/
theorem mutable_tree_eq_naive_tree (hzero : treeHash 0 0 = 0) (treeHeight subTreeHeight : ℕ)
    (ops : List (TreeOp F)) (hops : ∀ op ∈ ops, op.Committed)
    (hfit : (NaiveTree.new treeHeight subTreeHeight).FitsAll ops) :
    ∃ results db, (runTree treeHash treeHeight subTreeHeight ops).run TreeDb.empty =
        .ok results db ∧
      (∀ i, db.getNode i = (makeCompleteTree treeHash (treeHeight + subTreeHeight)
        (ops.foldl NaiveTree.apply (.new treeHeight subTreeHeight)).leafList).getD i 0) ∧
      getRoot.run db = .ok (db.getNode 0) db ∧
      ∀ r ∈ results.getLast?, (∀ root ∈ r.returnedRoot, root = db.getNode 0) ∧
        ∀ n ∈ r.leafCount, n =
          (ops.foldl NaiveTree.apply (.new treeHeight subTreeHeight)).subTreeCount *
            2 ^ subTreeHeight := by
  obtain ⟨db₀, hnew, hdb₀⟩ := run_newMutableTree hzero treeHeight subTreeHeight
  obtain ⟨db, hrun, hdb⟩ := run_mapM_exec hdb₀ hops hfit
  obtain ⟨hheight, hsub⟩ := NaiveTree.foldl_apply_heights
    (NaiveTree.new treeHeight subTreeHeight : NaiveTree F) ops
  refine ⟨NaiveTree.results treeHash (.new treeHeight subTreeHeight) ops, db, ?_, fun i => ?_, ?_,
    fun r hr => ?_⟩
  · rw [runTree, EStateM.run_bind, hnew]
    exact hrun
  · rw [hdb.getNode, NaiveTree.node_eq_makeCompleteTree, NaiveTree.height, hheight, hsub]
    rfl
  · rw [hdb.getNode, getRoot, EStateM.run_bind, run_getMetadata hdb.metadata]
    rfl
  · obtain ⟨hroot, hcount⟩ := resultOf_getLast hops hfit r hr
    rw [hsub] at hcount
    refine ⟨fun x hx => ?_, hcount⟩
    rw [hdb.getNode]
    exact hroot x hx

/-- A compression function with `h 0 0 = 0`. -/
def sampleHash (a b : Fr254) : Fr254 := (3 : ℕ) * a + (5 : ℕ) * b

/-- One command of every kind. -/
def sampleOps : List (TreeOp Fr254) :=
  [.insertLeaf (7 : ℕ) true, .appendSubTrees [1, (2 : ℕ)] true, .updateSubTree 3 [(4 : ℕ)] true,
    .updateSubTree 0 [(5 : ℕ), (6 : ℕ)] true, .insertForCircuit [(8 : ℕ), 0],
    .batchInsertWithCircuitInfo [(9 : ℕ), 1]]

theorem mutable_tree_eq_naive_tree_sample :
    ∃ results db, (runTree sampleHash 2 1 sampleOps).run TreeDb.empty = .ok results db ∧
      (∀ i, db.getNode i = (makeCompleteTree sampleHash (2 + 1)
        (sampleOps.foldl NaiveTree.apply (.new 2 1)).leafList).getD i 0) ∧
      getRoot.run db = .ok (db.getNode 0) db ∧
      ∀ r ∈ results.getLast?, (∀ root ∈ r.returnedRoot, root = db.getNode 0) ∧
        ∀ n ∈ r.leafCount, n = (sampleOps.foldl NaiveTree.apply (.new 2 1)).subTreeCount * 2 ^ 1 :=
  mutable_tree_eq_naive_tree (by decide +kernel) 2 1 sampleOps
    (by simp [sampleOps, TreeOp.Committed])
    ⟨by decide, by decide, by decide, by decide, by decide, by decide, trivial⟩

/-- The database of a new tree. -/
def newDb (treeHeight subTreeHeight : ℕ) : TreeDb Fr254 :=
  { TreeDb.empty with metadata := some ⟨treeHeight, subTreeHeight, 0, 0⟩ }

theorem refines_newDb (treeHeight subTreeHeight : ℕ) :
    Refines sampleHash (newDb treeHeight subTreeHeight) (.new treeHeight subTreeHeight) := by
  have hzero : sampleHash 0 0 = 0 := by decide +kernel
  have hnode : ∀ i, (NaiveTree.new treeHeight subTreeHeight : NaiveTree Fr254).node sampleHash i = 0 :=
    fun i => completeNode_const hzero _ i
  refine ⟨⟨?_, fun i => (hnode i).symm⟩, rfl⟩
  rw [NaiveTree.metadata, hnode]
  rfl

end Trees

end Nightfall
