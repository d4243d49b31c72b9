import Nightfall.Trees.Capacity
import Nightfall.Trees.MutableRuns

/-!
# Updates of sub-trees of other sizes

`update_sub_tree` takes leaves of any number that is a power of two, and hooks their root in where it
belongs; but it sets as many rows below it as the configured sub-trees have, and checks the index
against the number of leaves of the tree.

So it is right for one leaf and for a configured sub-tree.  Of a greater sub-tree the lower rows are
missing, a smaller one ends in a panic, and an index beyond the row of the root is accepted
(`updatesRight_iff`).  More leaves than the tree has are refused, though by a height that wraps around.
-/

namespace Nightfall

namespace Trees

open Merkle

variable {F : Type} [Zero F] {treeHash : F → F → F}

/-! ### What an update is for -/

/-- The database has the metadata of the tree, and its nodes are read. -/
structure Shows (treeHash : F → F → F) (db : TreeDb F) (t : NaiveTree F) : Prop where
  metadata : db.metadata = some (t.metadata treeHash)
  nodes : ∀ i, db.getNode i = t.node treeHash i

/-- The leaves are those of a sub-tree of any size, and the index is one of a sub-tree of that size. -/
def Aligned (t : NaiveTree F) (subTreeIndex : ℕ) (l : List F) : Prop :=
  ∃ k ≤ t.height, l.length = 2 ^ k ∧ subTreeIndex < 2 ^ (t.height - k)

/-- An aligned update replaces the leaves and returns the new root; every other one is refused and
writes nothing. -/
structure UpdatesRight (treeHash : F → F → F) (db : TreeDb F) (t : NaiveTree F)
    (subTreeIndex : ℕ) (l : List F) (updateTree : Bool) : Prop where
  aligned : Aligned t subTreeIndex l → ∃ db',
    (updateSubTree treeHash subTreeIndex l updateTree).run db =
      .ok ((t.write (subTreeIndex * l.length) l).node treeHash 0) db' ∧
    Shows treeHash db' (t.write (subTreeIndex * l.length) l) ∧
    (updateTree = true → Refines treeHash db' (t.write (subTreeIndex * l.length) l))
  refused : ¬Aligned t subTreeIndex l → ∃ e,
    (updateSubTree treeHash subTreeIndex l updateTree).run db = .error (.err e) db

/-- The updates that the code does right. -/
def Handled (t : NaiveTree F) (subTreeIndex : ℕ) (l : List F) : Prop :=
  (∀ k, l.length ≠ 2 ^ k) ∨ 2 ^ t.height ≤ subTreeIndex ∨ 2 ^ t.height < l.length ∨ l.length = 1 ∨
    Aligned t subTreeIndex l ∧ (l.length = 2 ^ t.subTreeHeight ∨
      2 ^ t.subTreeHeight < l.length ∧
        ∀ j < l.length, t.leaves (subTreeIndex * l.length + j) = l.getD j 0)

/-! ### A sub-tree with some of its rows -/

section Rows

variable {db : TreeDb F} {t : NaiveTree F} {d k rows p : ℕ} {l : List F}

/-- Whatever the number of rows that are set, the nodes get the values of the tree with the new
leaves. -/
theorem hookSubTree_rows (hdb : Refines treeHash db t) (hn : d + k = t.height) (hp : p < 2 ^ d)
    (hlen : l.length = 2 ^ k) (hrows : rows ≤ k) :
    (∀ node ∈ (hookSubTree treeHash db.getNode d rows (nodeIndex d p)
        (makeCompleteTree treeHash k l)).2,
        node.value = (t.write (p * 2 ^ k) l).node treeHash node.id) ∧
      (hookSubTree treeHash db.getNode d rows (nodeIndex d p) (makeCompleteTree treeHash k l)).1 =
        (t.write (p * 2 ^ k) l).node treeHash 0 := by
  have hf : ∀ j < 2 ^ k,
      NaiveTree.overwrite t.leaves (p * 2 ^ k) l (2 ^ k * p + j) = l.getD j 0 := by
    intro j hj
    rw [Nat.mul_comm]
    exact NaiveTree.overwrite_add (hlen ▸ hj)
  have hread : ∀ i, Clear t.height (leavesBelow k p ∪ ∅) i → db.getNode i =
      completeNode treeHash 0 t.height (NaiveTree.overwrite t.leaves (p * 2 ^ k) l) i := by
    intro i hi
    rw [Set.union_empty, ← leavesBetween_succ] at hi
    rw [hdb.getNode, NaiveTree.node_overwrite_of_clear rfl (by simp [hlen]) hi]
    rfl
  have hclear : ∀ i, Clear t.height (∅ : Set ℕ) i := fun _ _ _ h => absurd h (Set.notMem_empty _)
  obtain ⟨hnodes, hroot⟩ := hookSubTree_value hn hp hlen.le hf hread
  refine ⟨fun node hnode => hnodes node ?_ (hclear _), hroot (hclear _)⟩
  -- the rows that are set are among those of the whole sub-tree
  rw [hookSubTree, List.mem_append] at hnode ⊢
  refine hnode.imp_right fun hbelow => ?_
  obtain ⟨s, hs, hsr, q, hq, rfl⟩ := mem_rowUpdates_root.1 hbelow
  exact mem_rowUpdates_root.2 ⟨s, hs, hsr.trans hrows, q, hq, rfl⟩

/-- The database after the update. -/
def updated (db : TreeDb F) (metadata : TreeMetadata F) (hooked : F × List (Node F))
    (updateTree : Bool) : TreeDb F :=
  if updateTree then { db with
      metadata := some { metadata with root := hooked.1 }
      nodes := (db.nodes.upserts hooked.2).upserts db.cache.docs
      cache := .empty }
  else { db with
      metadata := some { metadata with root := hooked.1 }
      cache := db.cache.upserts hooked.2 }

theorem getNode_of_find_some {i : ℕ} {node : Node F} (h : db.cache.find i = some node) :
    db.getNode i = node.value := by
  rw [TreeDb.getNode, h]

theorem getNode_of_find_none {i : ℕ} (h : db.cache.find i = none) :
    db.getNode i = storedValue db.nodes i := by
  rw [TreeDb.getNode, h]

/-- If the nodes are those of a tree after the writes, they are read as such. -/
theorem shows_updated {u : NaiveTree F} {hooked : F × List (Node F)} (hdb : Refines treeHash db t)
    (hmetadata : { t.metadata treeHash with root := hooked.1 } = u.metadata treeHash)
    (hvalues : ∀ node ∈ hooked.2, node.value = u.node treeHash node.id)
    (hstored : ∀ i, i ∉ hooked.2.map Node.id → t.node treeHash i = u.node treeHash i)
    (updateTree : Bool) :
    Shows treeHash (updated db (t.metadata treeHash) hooked updateTree) u ∧
      (updateTree = true →
        Refines treeHash (updated db (t.metadata treeHash) hooked updateTree) u) := by
  have hnodes : ∀ i, storedValue (db.nodes.upserts hooked.2) i = u.node treeHash i := by
    intro i
    by_cases hi : i ∈ hooked.2.map Node.id
    · exact storedValue_upserts_of_mem hi fun node hnode hid => hid ▸ hvalues node hnode
    · rw [storedValue_upserts_of_notMem hi, hdb.nodes, hstored i hi]
  have hcommitted : Refines treeHash (updated db (t.metadata treeHash) hooked true) u := by
    refine ⟨⟨congrArg some hmetadata, fun i => ?_⟩, rfl⟩
    exact storedValue_upserts (hnodes i) (cacheAgrees_of_empty hdb.cache _)
  cases updateTree with
  | true => exact ⟨⟨hcommitted.metadata, hcommitted.getNode⟩, fun _ => hcommitted⟩
  | false =>
    refine ⟨⟨congrArg some hmetadata, fun i => ?_⟩, fun h => by cases h⟩
    by_cases hi : i ∈ hooked.2.map Node.id
    · have hfind : (updated db (t.metadata treeHash) hooked false).cache.find i =
          some ⟨i, u.node treeHash i⟩ := by
        refine Collection.find_upserts_of_mem hi ?_
        rintro ⟨id, value⟩ hnode rfl
        exact congrArg _ (hvalues _ hnode)
      exact getNode_of_find_some hfind
    · have hfind : (updated db (t.metadata treeHash) hooked false).cache.find i = none := by
        refine (Collection.find_upserts_of_notMem hi).trans ?_
        rw [hdb.cache, Collection.find_empty]
      rw [getNode_of_find_none hfind]
      exact (hdb.nodes i).trans (hstored i hi)

end Rows

/-! ### The call -/

section Call

variable {db : TreeDb F} {t : NaiveTree F} {k subTreeIndex : ℕ} {l : List F}
  {updateTree : Bool}

theorem run_of_not_pow (hdb : Refines treeHash db t) (hlen : ∀ k, l.length ≠ 2 ^ k) :
    (updateSubTree treeHash subTreeIndex l updateTree).run db =
      .error (.err .incorrectBatchSize) db := by
  have hclog : 2 ^ Nat.clog 2 l.length ≠ l.length := fun h => hlen _ h.symm
  simp only [updateSubTree, EStateM.run_bind, run_getMetadata hdb.metadata, ne_eq, hclog,
    not_false_eq_true, if_true, run_throwErr]

variable (hdb : Refines treeHash db t) (hlen : l.length = 2 ^ k)
include hdb hlen

theorem run_of_large (hlarge : 2 ^ t.height ≤ subTreeIndex) :
    (updateSubTree treeHash subTreeIndex l updateTree).run db =
      .error (.err .invalidIndex) db := by
  have hclog : 2 ^ Nat.clog 2 l.length = l.length := by rw [hlen, Nat.clog_pow 2 _ one_lt_two]
  have hne : l ≠ [] := by
    rintro rfl
    exact (Nat.two_pow_pos _).ne hlen
  have hlarge' : 2 ^ ((t.metadata treeHash).treeHeight + (t.metadata treeHash).subTreeHeight) ≤
      subTreeIndex := hlarge
  simp only [updateSubTree, EStateM.run_bind, run_getMetadata hdb.metadata, ne_eq, hclog,
    not_true_eq_false, if_false, List.isEmpty_iff, hne, hlarge', if_true, run_throwErr]

theorem run_of_lt (hlt : subTreeIndex < 2 ^ t.height) :
    (updateSubTree treeHash subTreeIndex l updateTree).run db =
      if k ≠ t.subTreeHeight ∧ t.height < k then
        .error (.err .databaseError) db
      else if (makeCompleteTree treeHash k l).length < 2 ^ (rowsToSet (t.metadata treeHash) l + 1) - 1
      then .error (.panic "index out of bounds") db
      else .ok (hookSubTree treeHash db.getNode (heightToUse (t.metadata treeHash) l)
          (rowsToSet (t.metadata treeHash) l)
          (nodeIndex (heightToUse (t.metadata treeHash) l) subTreeIndex)
          (makeCompleteTree treeHash k l)).1
        (updated db (t.metadata treeHash) (hookSubTree treeHash db.getNode
          (heightToUse (t.metadata treeHash) l) (rowsToSet (t.metadata treeHash) l)
          (nodeIndex (heightToUse (t.metadata treeHash) l) subTreeIndex)
          (makeCompleteTree treeHash k l)) updateTree) := by
  have hlog : Nat.log 2 l.length = k := by rw [hlen, Nat.log_pow one_lt_two]
  have hclog : 2 ^ Nat.clog 2 l.length = l.length := by rw [hlen, Nat.clog_pow 2 _ one_lt_two]
  have hne : l ≠ [] := by
    rintro rfl
    exact (Nat.two_pow_pos _).ne hlen
  have hlt' : ¬2 ^ ((t.metadata treeHash).treeHeight + (t.metadata treeHash).subTreeHeight) ≤
      subTreeIndex := hlt.not_ge
  simp only [updateSubTree, EStateM.run_bind, run_getMetadata hdb.metadata, ne_eq, hclog, hlog,
    not_true_eq_false, if_false, List.isEmpty_iff, hne, hlt']
  by_cases hover : k ≠ t.subTreeHeight ∧ t.height < k
  · have hover' : ¬k = (t.metadata treeHash).subTreeHeight ∧
        (t.metadata treeHash).treeHeight + (t.metadata treeHash).subTreeHeight < k := hover
    have hover'' : ¬k = t.subTreeHeight ∧ t.height < k := hover
    rw [if_pos hover', if_pos hover'']
    rfl
  · have hover' : ¬(¬k = (t.metadata treeHash).subTreeHeight ∧
        (t.metadata treeHash).treeHeight + (t.metadata treeHash).subTreeHeight < k) := hover
    have hover'' : ¬(¬k = t.subTreeHeight ∧ t.height < k) := hover
    rw [if_neg hover', if_neg hover'']
    simp only [EStateM.run_bind, EStateM.run_get]
    by_cases hshort : (makeCompleteTree treeHash k l).length <
        2 ^ (rowsToSet (t.metadata treeHash) l + 1) - 1
    · rw [if_pos hshort, if_pos hshort]
      rfl
    · rw [if_neg hshort, if_neg hshort]
      cases updateTree <;> rfl

omit hdb in
theorem heightToUse_of_pow :
    heightToUse (t.metadata treeHash) l = t.height - k := by
  unfold heightToUse
  rw [hlen, Nat.log_pow one_lt_two]
  split_ifs with h
  · have hk' : k = t.subTreeHeight := h
    rw [hk', NaiveTree.height, Nat.add_sub_cancel]
    rfl
  · rfl

omit hdb in
theorem rowsToSet_of_pow :
    rowsToSet (t.metadata treeHash) l = if k = 0 then 0 else t.subTreeHeight := by
  unfold rowsToSet
  rw [hlen]
  by_cases hk : k = 0
  · subst hk
    rfl
  · have hone : 2 ^ k ≠ 1 := fun h => hk ((Nat.pow_eq_one.1 h).resolve_left (by decide))
    rw [if_pos hone, if_neg hk]
    rfl

omit [Zero F] hdb in
theorem aligned_iff : Aligned t subTreeIndex l ↔ k ≤ t.height ∧ subTreeIndex < 2 ^ (t.height - k) := by
  constructor
  · rintro ⟨k', hk', hlen', hlt⟩
    obtain rfl : k' = k := Nat.pow_right_injective le_rfl (hlen'.symm.trans hlen)
    exact ⟨hk', hlt⟩
  · rintro ⟨hk, hlt⟩
    exact ⟨k, hk, hlen, hlt⟩

omit hdb in
theorem not_short {rows : ℕ} (hrows : rows ≤ k) :
    ¬(makeCompleteTree treeHash k l).length < 2 ^ (rows + 1) - 1 := by
  rw [length_makeCompleteTree hlen.le, not_lt]
  exact Nat.sub_le_sub_right (Nat.pow_le_pow_right two_pos (by omega)) 1

omit hdb in
/-- Leaves that are written over themselves change nothing. -/
theorem node_write_of_same (h : ∀ j < l.length, t.leaves (subTreeIndex * l.length + j) = l.getD j 0)
    (i : ℕ) : t.node treeHash i = (t.write (subTreeIndex * l.length) l).node treeHash i := by
  refine completeNode_congr fun q _ _ => ?_
  change t.leaves q = NaiveTree.overwrite t.leaves (subTreeIndex * l.length) l q
  rw [NaiveTree.overwrite]
  split_ifs with hin
  · have hsame := h (q - subTreeIndex * l.length) (by omega)
    rwa [Nat.add_sub_cancel' hin.1] at hsame
  · rfl

/-- An update with rows enough is right if the rows that aren't set have their values. -/
theorem updatesRight_of_rows (hk : k ≤ t.height) (hp : subTreeIndex < 2 ^ (t.height - k))
    (hrows : rowsToSet (t.metadata treeHash) l ≤ k)
    (hrest : rowsToSet (t.metadata treeHash) l = k ∨
      ∀ j < l.length, t.leaves (subTreeIndex * l.length + j) = l.getD j 0) :
    UpdatesRight treeHash db t subTreeIndex l updateTree := by
  have hn : t.height - k + k = t.height := Nat.sub_add_cancel hk
  have hlt : subTreeIndex < 2 ^ t.height :=
    hp.trans_le (Nat.pow_le_pow_right two_pos (Nat.sub_le _ _))
  obtain ⟨hvalues, hroot⟩ := hookSubTree_rows hdb hn hp hlen hrows
  rw [← hlen] at hvalues hroot
  refine ⟨fun _ => ?_, fun h => absurd ((aligned_iff hlen).2 ⟨hk, hp⟩) h⟩
  have hrun := @run_of_lt F _ treeHash db t k subTreeIndex l updateTree hdb hlen hlt
  rw [if_neg (fun h => absurd h.2 hk.not_gt), if_neg (not_short hlen hrows),
    heightToUse_of_pow hlen, hroot] at hrun
  refine ⟨_, hrun, ?_⟩
  refine shows_updated hdb (by rw [hroot]; rfl) hvalues (fun i hi => ?_) updateTree
  rcases hrest with hall | hsame
  · rw [hall, mem_map_id_hookSubTree _ _ hn hp] at hi
    refine (NaiveTree.node_overwrite_of_clear (m := k) (a := subTreeIndex) (b := subTreeIndex + 1)
      (by rw [hlen]) (by simp [hlen]) fun q hq hbelow hcov => hi ⟨q, hq, ?_, hcov⟩).symm
    rw [leavesBetween_succ] at hbelow
    exact hbelow
  · exact node_write_of_same hlen hsame i

omit hlen in
theorem getNode_leaf {d : ℕ} (hrows : d + t.subTreeHeight < t.height) (hp : subTreeIndex < 2 ^ d)
    {q : ℕ} (hq : q < 2 ^ t.height) (subTree : List F) :
    (updated db (t.metadata treeHash) (hookSubTree treeHash db.getNode d t.subTreeHeight
      (nodeIndex d subTreeIndex) subTree) updateTree).getNode (nodeIndex t.height q) =
        t.leaves q := by
  have hnotMem : nodeIndex t.height q ∉ (hookSubTree treeHash db.getNode d t.subTreeHeight
      (nodeIndex d subTreeIndex) subTree).2.map Node.id := by
    intro hmem
    have hid := hookSubTree_inside hp _ hmem
    have hpow : 2 ^ (d + t.subTreeHeight + 1) ≤ 2 ^ t.height :=
      Nat.pow_le_pow_right two_pos hrows
    unfold nodeIndex at hid
    omega
  have hleaf : storedValue db.nodes (nodeIndex t.height q) = t.leaves q := by
    rw [hdb.nodes, NaiveTree.node, completeNode_nodeIndex le_rfl hq, Nat.sub_self]
    rfl
  have hcache : ∀ i, db.cache.find i = none := fun i => by rw [hdb.cache, Collection.find_empty]
  cases updateTree with
  | true =>
    have hdocs : db.cache.docs = [] := by rw [hdb.cache]; rfl
    change storedValue ((db.nodes.upserts _).upserts db.cache.docs) _ = _
    rw [hdocs, Collection.upserts_nil, storedValue_upserts_of_notMem hnotMem, hleaf]
  | false =>
    have hfind : (db.cache.upserts (hookSubTree treeHash db.getNode d t.subTreeHeight
        (nodeIndex d subTreeIndex) subTree).2).find (nodeIndex t.height q) = none := by
      rw [Collection.find_upserts_of_notMem hnotMem, hcache]
    rw [getNode_of_find_none hfind]
    exact hleaf

theorem updatesRight_of_height_lt (hlt : subTreeIndex < 2 ^ t.height) (hk : t.height < k) :
    UpdatesRight treeHash db t subTreeIndex l updateTree := by
  have hsub : k ≠ t.subTreeHeight := by
    unfold NaiveTree.height at hk
    omega
  have hrun := @run_of_lt F _ treeHash db t k subTreeIndex l updateTree hdb hlen hlt
  rw [if_pos ⟨hsub, hk⟩] at hrun
  exact ⟨fun h => absurd ((aligned_iff hlen).1 h).1 hk.not_ge, fun _ => ⟨_, hrun⟩⟩

/-- **The exact condition, for a power of two and an index below the number of leaves.** -/
theorem updatesRight_iff_of_lt (hlt : subTreeIndex < 2 ^ t.height) :
    UpdatesRight treeHash db t subTreeIndex l updateTree ↔
      k = 0 ∨ t.height < k ∨ k ≤ t.height ∧ subTreeIndex < 2 ^ (t.height - k) ∧ (k = t.subTreeHeight ∨
        t.subTreeHeight < k ∧ ∀ j < l.length, t.leaves (subTreeIndex * l.length + j) =
          l.getD j 0) := by
  have hrows := @rowsToSet_of_pow F _ treeHash t k l hlen
  constructor
  · intro h
    by_cases hk : k = 0
    · exact .inl hk
    by_cases hgt : t.height < k
    · exact .inr (.inl hgt)
    have hrun := @run_of_lt F _ treeHash db t k subTreeIndex l updateTree hdb hlen hlt
    rw [if_neg (fun h => hgt h.2)] at hrun
    rw [if_neg hk] at hrows
    by_cases hal : k ≤ t.height ∧ subTreeIndex < 2 ^ (t.height - k)
    · refine .inr (.inr ⟨hal.1, hal.2, ?_⟩)
      obtain ⟨db', hok, hshows, -⟩ := h.aligned ((aligned_iff hlen).2 hal)
      rw [hrun] at hok
      rcases lt_trichotomy k t.subTreeHeight with hless | heq | hgreater
      · -- the rows to set are not all there
        have hshort : (makeCompleteTree treeHash k l).length <
            2 ^ (rowsToSet (t.metadata treeHash) l + 1) - 1 := by
          rw [length_makeCompleteTree hlen.le, hrows]
          have hpow : 2 ^ (k + 1) < 2 ^ (t.subTreeHeight + 1) :=
            Nat.pow_lt_pow_right one_lt_two (by omega)
          have hpos := Nat.two_pow_pos (k + 1)
          omega
        rw [if_pos hshort] at hok
        cases hok
      · exact .inl heq
      · refine .inr ⟨hgreater, fun j hj => ?_⟩
        rw [if_neg (not_short hlen (hrows.trans_le hgreater.le)), heightToUse_of_pow hlen,
          hrows] at hok
        obtain ⟨-, rfl⟩ := EStateM.Result.ok.inj hok
        have hq : subTreeIndex * l.length + j < 2 ^ t.height := by
          rw [hlen] at hj ⊢
          calc subTreeIndex * 2 ^ k + j < subTreeIndex * 2 ^ k + 2 ^ k := by omega
            _ = (subTreeIndex + 1) * 2 ^ k := by ring
            _ ≤ 2 ^ (t.height - k) * 2 ^ k := Nat.mul_le_mul_right _ hal.2
            _ = 2 ^ t.height := by rw [← pow_add, Nat.sub_add_cancel hal.1]
        have hnode := hshows.nodes (nodeIndex t.height (subTreeIndex * l.length + j))
        rw [getNode_leaf hdb (by omega) hal.2 hq, NaiveTree.node] at hnode
        change _ = completeNode treeHash 0 t.height _ _ at hnode
        rw [completeNode_nodeIndex le_rfl hq, Nat.sub_self] at hnode
        exact hnode.trans (NaiveTree.overwrite_add hj)
    · obtain ⟨e, herror⟩ := h.refused fun h => hal ((aligned_iff hlen).1 h)
      rw [hrun] at herror
      split_ifs at herror
      cases herror
  · rintro (rfl | hgt | ⟨hk, hp, rfl | ⟨hgreater, hsame⟩⟩)
    · rw [if_pos rfl] at hrows
      exact updatesRight_of_rows hdb hlen (Nat.zero_le _) hlt (hrows.le) (.inl hrows)
    · exact updatesRight_of_height_lt hdb hlen hlt hgt
    · have hall : rowsToSet (t.metadata treeHash) l = t.subTreeHeight := by
        rw [hrows]
        split_ifs with hzero
        · exact hzero.symm
        · rfl
      exact updatesRight_of_rows hdb hlen hk hp hall.le (.inl hall)
    · rw [if_neg (by omega)] at hrows
      exact updatesRight_of_rows hdb hlen hk hp (hrows.trans_le hgreater.le) (.inr hsame)

end Call

/-- **`update_sub_tree` is right exactly for these updates.** -/
theorem updatesRight_iff {db : TreeDb F} {t : NaiveTree F} (hdb : Refines treeHash db t)
    (subTreeIndex : ℕ) (l : List F) (updateTree : Bool) :
    UpdatesRight treeHash db t subTreeIndex l updateTree ↔ Handled t subTreeIndex l := by
  by_cases hpow : ∃ k, l.length = 2 ^ k
  · obtain ⟨k, hlen⟩ := hpow
    by_cases hlt : subTreeIndex < 2 ^ t.height
    · rw [updatesRight_iff_of_lt hdb hlen hlt, Handled, aligned_iff hlen]
      constructor
      · rintro (rfl | hgt | ⟨hk, hp, rfl | ⟨hgreater, hsame⟩⟩)
        · exact .inr (.inr (.inr (.inl hlen)))
        · exact .inr (.inr (.inl (hlen ▸ Nat.pow_lt_pow_right one_lt_two hgt)))
        · exact .inr (.inr (.inr (.inr ⟨⟨hk, hp⟩, .inl hlen⟩)))
        · refine .inr (.inr (.inr (.inr ⟨⟨hk, hp⟩, .inr ⟨?_, hsame⟩⟩)))
          rw [hlen]
          exact Nat.pow_lt_pow_right one_lt_two hgreater
      · rintro (hnot | hlarge | hmany | hone | ⟨⟨hk, hp⟩, heq | ⟨hgreater, hsame⟩⟩)
        · exact absurd hlen (hnot k)
        · exact absurd hlt hlarge.not_gt
        · rw [hlen] at hmany
          exact .inr (.inl ((Nat.pow_lt_pow_iff_right one_lt_two).1 hmany))
        · exact .inl ((Nat.pow_eq_one.1 (hlen.symm.trans hone)).resolve_left (by decide))
        · exact .inr (.inr ⟨hk, hp, .inl (Nat.pow_right_injective le_rfl (hlen.symm.trans heq))⟩)
        · rw [hlen] at hgreater
          exact .inr (.inr ⟨hk, hp, .inr ⟨(Nat.pow_lt_pow_iff_right one_lt_two).1 hgreater, hsame⟩⟩)
    · have hlarge := not_lt.1 hlt
      refine iff_of_true ⟨fun h => ?_, fun _ => ⟨_, run_of_large hdb hlen hlarge⟩⟩
        (.inr (.inl hlarge))
      obtain ⟨-, hp⟩ := (aligned_iff hlen).1 h
      exact absurd (hp.trans_le (Nat.pow_le_pow_right two_pos (Nat.sub_le _ _))) hlt
  · have hnot : ∀ k, l.length ≠ 2 ^ k := fun k h => hpow ⟨k, h⟩
    refine iff_of_true ⟨fun h => ?_, fun _ => ⟨_, run_of_not_pow hdb hnot⟩⟩ (.inl hnot)
    obtain ⟨k, -, hlen, -⟩ := h
    exact absurd hlen (hnot k)

theorem updatesRight_iff_sample :
    UpdatesRight sampleHash (newDb 29 3) (.new 29 3) 6 (List.replicate 8 ((5 : ℕ) : Fr254)) true ↔
      Handled (.new 29 3) 6 (List.replicate 8 ((5 : ℕ) : Fr254)) :=
  updatesRight_iff (refines_newDb 29 3) 6 _ true

/-- What is read at a node after an update, if it succeeds. -/
def nodeAfter (treeHeight subTreeHeight subTreeIndex : ℕ) (l : List Fr254) (i : ℕ) : Option Fr254 :=
  match (updateSubTree sampleHash subTreeIndex l true).run (newDb treeHeight subTreeHeight) with
  | .ok _ db => some (db.getNode i)
  | .error _ _ => none

/-- Two leaves make the update of a tree with sub-trees of eight leaves panic; of four leaves in a tree
with sub-trees of two, none is stored; an index beyond the sub-trees is accepted. -/
theorem updates_not_right :
    ¬UpdatesRight sampleHash (newDb 29 3) (.new 29 3) 0 [(5 : ℕ), (7 : ℕ)] true ∧
      ¬UpdatesRight sampleHash (newDb 1 1) (.new 1 1) 0
        [(5 : ℕ), (7 : ℕ), (11 : ℕ), (13 : ℕ)] true ∧
      ¬UpdatesRight sampleHash (newDb 1 1) (.new 1 1) 2 [(5 : ℕ), (7 : ℕ)] true := by
  refine ⟨fun h => ?_, fun h => ?_, fun h => ?_⟩
  · obtain ⟨db', hrun, -, -⟩ := h.aligned ⟨1, by decide, rfl, by decide⟩
    have hafter : nodeAfter 29 3 0 [(5 : ℕ), (7 : ℕ)] 0 = none := by decide +kernel
    rw [nodeAfter, hrun] at hafter
    cases hafter
  · obtain ⟨db', hrun, hshows, -⟩ := h.aligned ⟨2, by decide, rfl, by decide⟩
    have hafter : nodeAfter 1 1 0 [(5 : ℕ), (7 : ℕ), (11 : ℕ), (13 : ℕ)] 3 = some 0 := by
      decide +kernel
    rw [nodeAfter, hrun] at hafter
    have hzero := (hshows.nodes 3).symm.trans (Option.some.inj hafter)
    revert hzero
    decide +kernel
  · obtain ⟨e, hrun⟩ := h.refused (by
      rintro ⟨k, hk, hlen, hlt⟩
      obtain rfl : k = 1 := (Nat.pow_right_injective le_rfl (hlen : 2 ^ 1 = 2 ^ k)).symm
      exact absurd hlt (by decide))
    have hafter : nodeAfter 1 1 2 [(5 : ℕ), (7 : ℕ)] 0 ≠ none := by decide +kernel
    rw [nodeAfter, hrun] at hafter
    exact hafter rfl

end Trees

end Nightfall
