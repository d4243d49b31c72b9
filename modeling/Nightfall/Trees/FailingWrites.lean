import Nightfall.Trees.MutableRuns

/-!
# Node writes that fail

The operations of a mutable tree collect their calls of `set_node` and wait for all of them with
`join_all`, which gives the vector of their results.  Here some of these writes fail and aren't applied
(`fails`, by their number in the call), and the results are kept beside the collections, where the
operations don't look.

Without failing writes the operations are those of `Trees.Mutable` (`Call.run_eq`).  With one, a call
still succeeds and publishes its root (`not_reported`).
-/

namespace Nightfall

namespace Trees

namespace Faulty

variable {F α : Type}

/-- An operation on the collections, which keeps the results of the node writes: `false` for those
that failed. -/
abbrev WritesM (F : Type) := EStateM Failure (TreeDb F × List Bool)

/-- An operation without node writes. -/
def onDb (x : TreeM F α) : WritesM F α := fun s =>
  match x s.1 with
  | .ok a db => .ok a (db, s.2)
  | .error e db => .error e (db, s.2)

/-- The updates whose writes succeed. -/
def applied (updates : List (Node F)) (results : List Bool) : List (Node F) :=
  (updates.zip results).filterMap fun u => if u.2 then some u.1 else none

/-- The calls of `set_node`, run together: write `n` of the call fails if `fails n`. -/
def joinAll (fails : ℕ → Bool) (updateTree : Bool) (updates : List (Node F)) :
    WritesM F (List Bool) := fun s =>
  let results := (List.range updates.length).map fun i => !fails (s.2.length + i)
  match setNodes updateTree (applied updates results) s.1 with
  | .ok _ db => .ok results (db, s.2 ++ results)
  | .error e db => .error e (db, s.2 ++ results)

/-! ### The operations -/

section Operations

variable [Zero F] (treeHash : F → F → F) (fails : ℕ → Bool)

/-- `insert_leaf`. -/
def insertLeaf (leaf : F) (updateTree : Bool) : WritesM F F := do
  let metadata ← onDb getMetadata
  let db ← onDb get
  let height := metadata.treeHeight + metadata.subTreeHeight
  let index := 2 ^ height - 1 + metadata.subTreeCount * 2 ^ metadata.subTreeHeight
  let hooked := hookSubTree treeHash db.getNode height 0 index [leaf]
  let _ ← joinAll fails updateTree hooked.2
  if updateTree then
    onDb (replaceMetadata
      { metadata with subTreeCount := metadata.subTreeCount + 1, root := hooked.1 })
    onDb flushCache
  pure hooked.1

/-- One round of `append_sub_trees`. -/
def appendSubTree (metadata : TreeMetadata F) (updateTree : Bool) (acc : F × ℕ)
    (leafBatch : List F) : WritesM F (F × ℕ) := do
  let db ← onDb get
  let subTree := makeCompleteTree treeHash metadata.subTreeHeight leafBatch
  let hooked := hookSubTree treeHash db.getNode metadata.treeHeight metadata.subTreeHeight
    (2 ^ metadata.treeHeight - 1 + acc.2) subTree
  let _ ← joinAll fails updateTree hooked.2
  pure (hooked.1, acc.2 + 1)

/-- `append_sub_trees`. -/
def appendSubTrees (leaves : List F) (updateTree : Bool) : WritesM F (F × ℕ) := do
  let metadata ← onDb getMetadata
  let capacity := 2 ^ metadata.subTreeHeight
  if leaves.length % capacity ≠ 0 then onDb (throwErr .incorrectBatchSize)
  else if leaves.isEmpty then pure (metadata.root, metadata.subTreeCount * capacity)
  else if metadata.subTreeCount > 2 ^ metadata.treeHeight then onDb (throwErr .treeIsFull)
  else do
    let appended ← (chunks capacity leaves).foldlM (appendSubTree treeHash fails metadata updateTree)
      (0, metadata.subTreeCount)
    if updateTree then
      onDb (replaceMetadata { metadata with subTreeCount := appended.2, root := appended.1 })
      onDb flushCache
      pure (appended.1, appended.2 * capacity)
    else pure (appended.1, metadata.subTreeCount * capacity)

/-- `update_sub_tree`. -/
def updateSubTree (subTreeIndex : ℕ) (leaves : List F) (updateTree : Bool) : WritesM F F := do
  let metadata ← onDb getMetadata
  let height := metadata.treeHeight + metadata.subTreeHeight
  let log := Nat.log 2 leaves.length
  if 2 ^ Nat.clog 2 leaves.length ≠ leaves.length then onDb (throwErr .incorrectBatchSize)
  else if leaves.isEmpty then onDb (throwErr .noLeaves)
  else if 2 ^ height ≤ subTreeIndex then onDb (throwErr .invalidIndex)
  else if log ≠ metadata.subTreeHeight ∧ height < log then onDb (throwErr .databaseError)
  else do
    let db ← onDb get
    let subTree := makeCompleteTree treeHash log leaves
    let rows := rowsToSet metadata leaves
    if subTree.length < 2 ^ (rows + 1) - 1 then throw (.panic "index out of bounds")
    else do
      let hooked := hookSubTree treeHash db.getNode (heightToUse metadata leaves) rows
        (2 ^ heightToUse metadata leaves - 1 + subTreeIndex) subTree
      let _ ← joinAll fails updateTree hooked.2
      if updateTree then onDb flushCache
      onDb (replaceMetadata { metadata with root := hooked.1 })
      pure hooked.1

end Operations

/-- A call that writes nodes. -/
inductive Call (F : Type)
  | insertLeaf (leaf : F)
  | appendSubTrees (leaves : List F)
  | updateSubTree (subTreeIndex : ℕ) (leaves : List F)

/-- The call, and the root that it returns. -/
def Call.run [Zero F] (treeHash : F → F → F) (fails : ℕ → Bool) (updateTree : Bool) :
    Call F → WritesM F F
  | .insertLeaf leaf => Faulty.insertLeaf treeHash fails leaf updateTree
  | .appendSubTrees leaves => Prod.fst <$> Faulty.appendSubTrees treeHash fails leaves updateTree
  | .updateSubTree subTreeIndex leaves =>
    Faulty.updateSubTree treeHash fails subTreeIndex leaves updateTree

/-- The call publishes its root: `update_sub_tree` also without `update_tree`. -/
def Call.Publishes (updateTree : Bool) : Call F → Prop
  | .insertLeaf _ | .appendSubTrees _ => updateTree = true
  | .updateSubTree _ _ => True

/-- The call on collections whose writes don't fail. -/
def Call.exec [Zero F] (treeHash : F → F → F) (updateTree : Bool) : Call F → TreeM F F
  | .insertLeaf leaf => Trees.insertLeaf treeHash leaf updateTree
  | .appendSubTrees leaves => Prod.fst <$> Trees.appendSubTrees treeHash leaves updateTree
  | .updateSubTree subTreeIndex leaves =>
    Trees.updateSubTree treeHash subTreeIndex leaves updateTree

/-! ### Without failing writes -/

section Sound

/-- The faulty operation does to the collections what the other one does. -/
def Agrees (x : WritesM F α) (y : TreeM F α) : Prop :=
  ∀ db log, ∃ log', x (db, log) = match y db with
    | .ok a db' => .ok a (db', log')
    | .error e db' => .error e (db', log')

theorem agrees_onDb (x : TreeM F α) : Agrees (onDb x) x := fun _ log => ⟨log, rfl⟩

theorem agrees_pure (a : α) : Agrees (F := F) (pure a) (pure a) := fun _ log => ⟨log, rfl⟩

theorem agrees_throw (e : Failure) : Agrees (F := F) (α := α) (throw e) (throw e) :=
  fun _ log => ⟨log, rfl⟩

theorem Agrees.bind {β : Type} {x : WritesM F α} {y : TreeM F α} {f : α → WritesM F β}
    {g : α → TreeM F β} (h : Agrees x y) (hf : ∀ a, Agrees (f a) (g a)) :
    Agrees (x >>= f) (y >>= g) := by
  intro db log
  obtain ⟨log₁, hx⟩ := h db log
  change ∃ log', EStateM.bind x f (db, log) = match EStateM.bind y g db with
    | .ok a db' => .ok a (db', log')
    | .error e db' => .error e (db', log')
  rw [EStateM.bind, EStateM.bind]
  cases hy : y db with
  | ok a db₁ =>
    rw [hy] at hx
    rw [hx]
    exact hf a db₁ log₁
  | error e db₁ =>
    rw [hy] at hx
    rw [hx]
    exact ⟨log₁, rfl⟩

theorem applied_all (updates : List (Node F)) :
    applied updates (List.replicate updates.length true) = updates := by
  induction updates with
  | nil => rfl
  | cons u updates ih =>
    rw [List.length_cons, List.replicate_succ, applied, List.zip_cons_cons,
      List.filterMap_cons_some (by rfl)]
    exact congrArg _ ih

theorem Agrees.joinAll {x : WritesM F α} {y : TreeM F α} (h : Agrees x y) (updateTree : Bool)
    (updates : List (Node F)) :
    Agrees (Faulty.joinAll (fun _ => false) updateTree updates >>= fun _ => x)
      (setNodes updateTree updates >>= fun _ => y) := by
  intro db log
  have hresults : ((List.range updates.length).map fun _ => !false) =
      List.replicate updates.length true := by
    rw [List.map_const', List.length_range]
    rfl
  change ∃ log', EStateM.bind (Faulty.joinAll (fun _ => false) updateTree updates) _ (db, log) = _
  rw [EStateM.bind, Faulty.joinAll, hresults, applied_all]
  exact h _ _

theorem Agrees.foldlM {β : Type} {f : β → α → WritesM F β} {g : β → α → TreeM F β}
    (h : ∀ b a, Agrees (f b a) (g b a)) (l : List α) (b : β) :
    Agrees (l.foldlM f b) (l.foldlM g b) := by
  induction l generalizing b with
  | nil => exact agrees_pure b
  | cons a l ih =>
    rw [List.foldlM_cons, List.foldlM_cons]
    exact (h b a).bind ih

variable [Zero F] {treeHash : F → F → F}

theorem agrees_insertLeaf (leaf : F) (updateTree : Bool) :
    Agrees (insertLeaf treeHash (fun _ => false) leaf updateTree)
      (Trees.insertLeaf treeHash leaf updateTree) := by
  refine (agrees_onDb _).bind fun metadata => (agrees_onDb _).bind fun db => Agrees.joinAll ?_ _ _
  cases updateTree with
  | false => exact agrees_pure _
  | true => exact (agrees_onDb _).bind fun _ => (agrees_onDb _).bind fun _ => agrees_pure _

theorem agrees_appendSubTrees (leaves : List F) (updateTree : Bool) :
    Agrees (appendSubTrees treeHash (fun _ => false) leaves updateTree)
      (Trees.appendSubTrees treeHash leaves updateTree) := by
  have hrounds : ∀ metadata : TreeMetadata F, Agrees
      ((chunks (2 ^ metadata.subTreeHeight) leaves).foldlM
        (appendSubTree treeHash (fun _ => false) metadata updateTree) (0, metadata.subTreeCount))
      ((chunks (2 ^ metadata.subTreeHeight) leaves).foldlM
        (Trees.appendSubTree treeHash metadata updateTree) (0, metadata.subTreeCount)) :=
    fun metadata => Agrees.foldlM (fun acc leafBatch =>
      (agrees_onDb _).bind fun db => (agrees_pure _).joinAll _ _) _ _
  refine (agrees_onDb _).bind fun metadata => ?_
  dsimp only
  split_ifs
  · exact agrees_onDb _
  · exact agrees_pure _
  · exact agrees_onDb _
  · refine (hrounds metadata).bind fun appended => ?_
    exact (agrees_onDb _).bind fun _ => (agrees_onDb _).bind fun _ => agrees_pure _
  · exact (hrounds metadata).bind fun appended => agrees_pure _

theorem agrees_updateSubTree (subTreeIndex : ℕ) (leaves : List F) (updateTree : Bool) :
    Agrees (updateSubTree treeHash (fun _ => false) subTreeIndex leaves updateTree)
      (Trees.updateSubTree treeHash subTreeIndex leaves updateTree) := by
  refine (agrees_onDb _).bind fun metadata => ?_
  dsimp only
  split_ifs
  · exact agrees_onDb _
  · exact agrees_onDb _
  · exact agrees_onDb _
  · exact agrees_onDb _
  · exact (agrees_onDb _).bind fun db => agrees_throw _
  · refine (agrees_onDb _).bind fun db => Agrees.joinAll ?_ _ _
    exact (agrees_onDb _).bind fun _ => (agrees_onDb _).bind fun _ => agrees_pure _
  · refine (agrees_onDb _).bind fun db => Agrees.joinAll ?_ _ _
    exact (agrees_onDb _).bind fun _ => agrees_pure _

/-- **If no write fails, a call is the one on a sound database.** -/
theorem Call.run_eq (call : Call F) (updateTree : Bool) :
    Agrees (call.run treeHash (fun _ => false) updateTree) (call.exec treeHash updateTree) := by
  cases call with
  | insertLeaf leaf => exact agrees_insertLeaf leaf updateTree
  | appendSubTrees leaves =>
    rw [Call.run, Call.exec, map_eq_pure_bind, map_eq_pure_bind]
    exact (agrees_appendSubTrees leaves updateTree).bind fun _ => agrees_pure _
  | updateSubTree subTreeIndex leaves => exact agrees_updateSubTree subTreeIndex leaves updateTree

end Sound

/-! ### With failing writes -/

/-- The results of the node writes of a call. -/
def resultsOf : EStateM.Result Failure (TreeDb F × List Bool) α → List Bool
  | .ok _ s => s.2
  | .error _ s => s.2

/-- The call returned an error, and the metadata with the root and the count is as before. -/
def Reported (db : TreeDb F) : EStateM.Result Failure (TreeDb F × List Bool) α → Prop
  | .ok _ _ => False
  | .error e s => (∃ error, e = .err error) ∧ s.1.metadata = db.metadata

/-- Either the call fails before its writes, or it succeeds and a root to be published is in the
metadata. -/
inductive Ends (publishes : Prop) (db : TreeDb F) :
    EStateM.Result Failure (TreeDb F × List Bool) F → Prop
  | fails (e : Failure) : Ends publishes db (.error e (db, []))
  | succeeds (root : F) (s : TreeDb F × List Bool)
      (hpublished : publishes → s.1.metadata.map TreeMetadata.root = some root) :
      Ends publishes db (.ok root s)

section Failing

variable {db db' : TreeDb F} {log : List Bool} {fails : ℕ → Bool}

theorem run_onDb_ok {x : TreeM F α} {a : α} (h : x.run db = .ok a db') :
    (onDb x).run (db, log) = .ok a (db', log) := by
  simp only [EStateM.run, onDb] at h ⊢
  rw [h]

theorem run_onDb_error {x : TreeM F α} {e : Failure} (h : x.run db = .error e db') :
    (onDb x).run (db, log) = .error e (db', log) := by
  simp only [EStateM.run, onDb] at h ⊢
  rw [h]

theorem run_joinAll (fails : ℕ → Bool) (updateTree : Bool) (updates : List (Node F))
    (s : TreeDb F × List Bool) :
    ∃ results s', (joinAll fails updateTree updates).run s = .ok results s' ∧
      s'.1.metadata = s.1.metadata := by
  cases updateTree with
  | false => exact ⟨_, _, rfl, rfl⟩
  | true => exact ⟨_, _, rfl, rfl⟩

theorem run_getMetadata_none (h : db.metadata = none) :
    (getMetadata : TreeM F (TreeMetadata F)).run db = .error (.err .treeNotFound) db := by
  simp only [getMetadata, EStateM.run_bind, EStateM.run_get, h]
  rfl

variable [Zero F] {treeHash : F → F → F}

/-- The results of the writes aren't looked at. -/
theorem ends_insertLeaf (leaf : F) (updateTree : Bool) :
    Ends (updateTree = true) db ((insertLeaf treeHash fails leaf updateTree).run (db, [])) := by
  cases hmetadata : db.metadata with
  | none =>
    rw [insertLeaf, EStateM.run_bind, run_onDb_error (run_getMetadata_none hmetadata)]
    exact .fails _
  | some metadata =>
    obtain ⟨results, s, hjoin, -⟩ := run_joinAll fails updateTree (hookSubTree treeHash db.getNode
      (metadata.treeHeight + metadata.subTreeHeight) 0
      (2 ^ (metadata.treeHeight + metadata.subTreeHeight) - 1 +
        metadata.subTreeCount * 2 ^ metadata.subTreeHeight) [leaf]).2 (db, [])
    rw [insertLeaf, EStateM.run_bind, run_onDb_ok (run_getMetadata hmetadata)]
    dsimp only
    rw [EStateM.run_bind, run_onDb_ok (EStateM.run_get _)]
    dsimp only
    rw [EStateM.run_bind, hjoin]
    cases updateTree with
    | false => exact .succeeds _ _ fun h => by cases h
    | true => exact .succeeds _ _ fun _ => rfl

theorem run_rounds (metadata : TreeMetadata F) (updateTree : Bool) (cs : List (List F))
    (acc : F × ℕ) (s : TreeDb F × List Bool) :
    ∃ r s', (cs.foldlM (appendSubTree treeHash fails metadata updateTree) acc).run s =
      .ok r s' := by
  induction cs generalizing acc s with
  | nil => exact ⟨acc, s, rfl⟩
  | cons c cs ih =>
    obtain ⟨results, s₁, hjoin, -⟩ := run_joinAll fails updateTree (hookSubTree treeHash s.1.getNode
      metadata.treeHeight metadata.subTreeHeight (2 ^ metadata.treeHeight - 1 + acc.2)
      (makeCompleteTree treeHash metadata.subTreeHeight c)).2 s
    obtain ⟨r, s', hrest⟩ := ih ((hookSubTree treeHash s.1.getNode
      metadata.treeHeight metadata.subTreeHeight (2 ^ metadata.treeHeight - 1 + acc.2)
      (makeCompleteTree treeHash metadata.subTreeHeight c)).1, acc.2 + 1) s₁
    refine ⟨r, s', ?_⟩
    rw [List.foldlM_cons, EStateM.run_bind, appendSubTree, EStateM.run_bind,
      run_onDb_ok (EStateM.run_get _)]
    dsimp only
    rw [EStateM.run_bind, hjoin]
    exact hrest

theorem ends_appendSubTrees (leaves : List F) (updateTree : Bool) :
    Ends (updateTree = true) db
      ((Prod.fst <$> appendSubTrees treeHash fails leaves updateTree).run (db, [])) := by
  rw [map_eq_pure_bind, EStateM.run_bind]
  cases hmetadata : db.metadata with
  | none =>
    rw [appendSubTrees, EStateM.run_bind, run_onDb_error (run_getMetadata_none hmetadata)]
    exact .fails _
  | some metadata =>
    rw [appendSubTrees, EStateM.run_bind, run_onDb_ok (run_getMetadata hmetadata)]
    dsimp only
    split_ifs
    · exact .fails _
    · refine .succeeds _ _ fun _ => ?_
      rw [hmetadata]
      rfl
    · exact .fails _
    · obtain ⟨r, s, hrounds⟩ := @run_rounds F fails _ treeHash metadata updateTree
        (chunks (2 ^ metadata.subTreeHeight) leaves) (0, metadata.subTreeCount) (db, [])
      rw [EStateM.run_bind, hrounds]
      exact .succeeds _ _ fun _ => rfl
    · obtain ⟨r, s, hrounds⟩ := @run_rounds F fails _ treeHash metadata updateTree
        (chunks (2 ^ metadata.subTreeHeight) leaves) (0, metadata.subTreeCount) (db, [])
      rw [EStateM.run_bind, hrounds]
      exact .succeeds _ _ fun h => absurd h ‹_›

theorem ends_updateSubTree (subTreeIndex : ℕ) (leaves : List F) (updateTree : Bool) :
    Ends True db
      ((updateSubTree treeHash fails subTreeIndex leaves updateTree).run (db, [])) := by
  cases hmetadata : db.metadata with
  | none =>
    rw [updateSubTree, EStateM.run_bind, run_onDb_error (run_getMetadata_none hmetadata)]
    exact .fails _
  | some metadata =>
    obtain ⟨results, s, hjoin, -⟩ := run_joinAll fails updateTree (hookSubTree treeHash db.getNode
      (heightToUse metadata leaves) (rowsToSet metadata leaves)
      (2 ^ heightToUse metadata leaves - 1 + subTreeIndex)
      (makeCompleteTree treeHash (Nat.log 2 leaves.length) leaves)).2 (db, [])
    rw [updateSubTree, EStateM.run_bind, run_onDb_ok (run_getMetadata hmetadata)]
    dsimp only
    split_ifs
    · exact .fails _
    · exact .fails _
    · exact .fails _
    · exact .fails _
    · exact .fails _
    · rw [EStateM.run_bind, run_onDb_ok (EStateM.run_get _)]
      dsimp only
      rw [EStateM.run_bind, hjoin]
      exact .succeeds _ _ fun _ => rfl
    · rw [EStateM.run_bind, run_onDb_ok (EStateM.run_get _)]
      dsimp only
      rw [EStateM.run_bind, hjoin]
      exact .succeeds _ _ fun _ => rfl

theorem ends_run (call : Call F) (updateTree : Bool) :
    Ends (call.Publishes updateTree) db ((call.run treeHash fails updateTree).run (db, [])) := by
  cases call with
  | insertLeaf leaf => exact ends_insertLeaf leaf updateTree
  | appendSubTrees leaves => exact ends_appendSubTrees leaves updateTree
  | updateSubTree subTreeIndex leaves => exact ends_updateSubTree subTreeIndex leaves updateTree

/-- **A failed node write is never reported**: the call succeeds, and a root is published for nodes
that weren't stored. -/
theorem not_reported {call : Call F} {updateTree : Bool}
    (h : false ∈ resultsOf ((call.run treeHash fails updateTree).run (db, []))) :
    ¬Reported db ((call.run treeHash fails updateTree).run (db, [])) ∧
      ∃ root s, (call.run treeHash fails updateTree).run (db, []) = .ok root s ∧
        (call.Publishes updateTree → s.1.metadata.map TreeMetadata.root = some root) := by
  have hends := @ends_run F db fails _ treeHash call updateTree
  generalize (call.run treeHash fails updateTree).run (db, []) = r at h hends ⊢
  cases hends with
  | fails e => cases h
  | succeeds root s hpublished => exact ⟨id, root, s, rfl, hpublished⟩

end Failing

/-- A tree of height 1 without leaves. -/
def emptyTree : TreeDb Fr254 := { TreeDb.empty with metadata := some ⟨1, 0, 0, 0⟩ }

/-- The first leaf is inserted, and the write of its own node fails. -/
def lostLeaf : EStateM.Result Failure (TreeDb Fr254 × List Bool) Fr254 :=
  ((Call.insertLeaf ((5 : ℕ) : Fr254)).run sampleHash (fun n => n == 0) true).run (emptyTree, [])

theorem not_reported_sample : ¬Reported emptyTree lostLeaf ∧ ∃ root s, lostLeaf = .ok root s ∧
    ((Call.insertLeaf ((5 : ℕ) : Fr254)).Publishes true →
      s.1.metadata.map TreeMetadata.root = some root) :=
  not_reported (by decide +kernel)

/-- The root of a tree with the leaf is published, and one leaf is counted, but nothing is stored at
its place. -/
def publishedWithoutLeaf : Bool :=
  match lostLeaf with
  | .ok root s => decide (s.2 = [false, true] ∧ root = sampleHash (5 : ℕ) 0 ∧
      s.1.metadata = some ⟨1, 0, 1, root⟩ ∧ s.1.getNode 0 = root ∧ s.1.getNode 1 = 0)
  | .error _ _ => false

theorem published_without_leaf :
    false ∈ resultsOf lostLeaf ∧ ¬Reported emptyTree lostLeaf ∧ publishedWithoutLeaf = true := by
  refine ⟨?_, ?_, ?_⟩
  · decide +kernel
  · intro h
    exact h
  · decide +kernel

end Faulty

end Trees

end Nightfall
