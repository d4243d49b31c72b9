import Nightfall.Trees.Capacity
import Nightfall.Trees.InsertionPaths
import Nightfall.Trees.NewLeaves

/-!
# Rejected insertions

An insertion into an indexed tree that is rejected leaves the tree as it was, if nothing was stored
before the rejection.  `insert_leaves` looks up all values first, but it looks for values that are
repeated, for a length that doesn't fit and for room only after it stored records; the insertion for
a circuit checks the length first, and everything else on the way.  The records that were stored stay
(`rejected_clean_iff`).
-/

namespace Nightfall

namespace Trees

open Merkle Stateful

variable {treeHash : Fr254 → Fr254 → Fr254} {hash : Fr254 → Fr254 → Fr254 → Fr254}
  {db db' : TreeDb Fr254} {metadata : TreeMetadata Fr254} {treeHeight subTreeHeight start : ℕ}
  {c d : Leaves} {l : List Fr254}

/-! ### The same tree -/

/-- The records, the nodes and the metadata, with the root and the number of sub-trees, are as they
were. -/
structure SameTree (db db' : TreeDb Fr254) : Prop where
  records : db'.indexedLeaves = db.indexedLeaves
  nodes : ∀ i, db'.getNode i = db.getNode i
  metadata : db'.metadata = db.metadata

theorem SameTree.refl (db : TreeDb Fr254) : SameTree db db := ⟨rfl, fun _ => rfl, rfl⟩

/-- If `x` returns an error, then the tree is as before. -/
def RejectsCleanly {α : Type} (x : TreeM Fr254 α) (db : TreeDb Fr254) : Prop :=
  ∀ e db', x.run db = .error (.err e) db' → SameTree db db'

/-- **The proofs are those from before.**  A proof that verified against the root still does. -/
theorem SameTree.nonMembershipProof (h : SameTree db db') {v root : Fr254}
    {proof : MembershipProof Fr254} (hproof : (getNonMembershipProof hash v).run db = .ok proof db)
    (hroot : getRoot.run db = .ok root db) :
    (getNonMembershipProof hash v).run db' = .ok proof db' ∧ getRoot.run db' = .ok root db' := by
  have hnodes : db'.getNode = db.getNode := funext h.nodes
  constructor
  · unfold getNonMembershipProof at hproof ⊢
    by_cases hv : v = 0
    · rw [if_pos hv] at hproof
      cases hproof
    · rw [if_neg hv, EStateM.run_bind, run_getLeaf] at hproof ⊢
      rw [h.records]
      dsimp only at hproof ⊢
      split_ifs at hproof ⊢
      · cases hproof
      · obtain ⟨m, t, hfind, hproof⟩ := run_bind_eq_ok.1 hproof
        obtain ⟨hmetadata, rfl⟩ := run_findMetadata_eq_ok.1 hfind
        obtain ⟨low, t, hlow, hproof⟩ := run_bind_eq_ok.1 hproof
        rw [run_getLowLeaf] at hlow
        cases hlow
        obtain ⟨low, t, hsome, hproof⟩ := run_bind_eq_ok.1 hproof
        obtain ⟨hlow, rfl⟩ := run_okOr_eq_ok.1 hsome
        cases hproof
        have hfind' : findMetadata.run db' = .ok m db' :=
          run_findMetadata_eq_ok.2 ⟨h.metadata.trans hmetadata, rfl⟩
        simp only [EStateM.run_bind, hfind', run_getLowLeaf, h.records, hlow, okOr, EStateM.run_pure,
          EStateM.run_get, hnodes]
  · obtain ⟨m, t, hget, hpure⟩ := run_bind_eq_ok.1 hroot
    obtain ⟨hmetadata, rfl⟩ := run_getMetadata_eq_ok.1 hget
    cases hpure
    rw [getRoot, EStateM.run_bind, run_getMetadata (h.metadata.trans hmetadata)]
    rfl

/-! ### Insertions only add -/

/-- The failure is an error that is returned. -/
def IsErr (e : Failure) : Prop := ∃ e', e = .err e'

/-- No value and no sub-tree was lost. -/
structure Grows (db db' : TreeDb Fr254) : Prop where
  values : ∀ v ∈ Leaves.values db.indexedLeaves, v ∈ Leaves.values db'.indexedLeaves
  count : ∀ {treeHeight subTreeHeight n : ℕ}, HasShape db treeHeight subTreeHeight n →
    ∃ m, n ≤ m ∧ HasShape db' treeHeight subTreeHeight m

instance refl_grows : Std.Refl Grows where
  refl _ := ⟨fun _ h => h, fun h => ⟨_, le_rfl, h⟩⟩

instance trans_grows : IsTrans (TreeDb Fr254) Grows where
  trans _ _ _ h h' := by
    refine ⟨fun v hv => h'.values v (h.values v hv), fun hshape => ?_⟩
    obtain ⟨m, hm, hshape⟩ := h.count hshape
    obtain ⟨k, hk, hshape⟩ := h'.count hshape
    exact ⟨k, hm.trans hk, hshape⟩

/-- `x` only adds to the tree and its records, and doesn't panic. -/
abbrev Adds {α : Type} (x : TreeM Fr254 α) : Prop := Moves IsErr Grows x

theorem adds_throwErr {α : Type} (e : MerkleTreeError) : Adds (throwErr e : TreeM Fr254 α) :=
  .throw ⟨e, rfl⟩

theorem adds_okOr {α : Type} (e : MerkleTreeError) (o : Option α) : Adds (okOr e o) := by
  cases o with
  | none => exact adds_throwErr e
  | some a => exact .pure a

theorem adds_getMetadata : Adds (getMetadata : TreeM Fr254 _) := by
  refine .bind .get fun db => ?_
  cases db.metadata with
  | none => exact adds_throwErr _
  | some metadata => exact .pure metadata

theorem adds_findMetadata : Adds findMetadata := .bind .get fun _ => adds_okOr _ _

theorem adds_getLeaf (value nextValue : Option Fr254) : Adds (getLeaf value nextValue) :=
  .bind .get fun _ => .pure _

theorem adds_getLowLeaf (v : Fr254) : Adds (getLowLeaf v) := .bind .get fun _ => .pure _

theorem adds_getMembershipProof (leaf : Option Fr254) (leafIndex : Option ℕ) :
    Adds (getMembershipProof leaf leafIndex) := by
  refine .bind adds_getMetadata fun metadata => .bind .get fun db => ?_
  dsimp only
  cases leafNodeIndex db (metadata.treeHeight + metadata.subTreeHeight) leaf leafIndex with
  | error e => exact adds_throwErr e
  | ok index => exact .ite (adds_throwErr _) (.pure _)

theorem adds_getNonMembershipProof (v : Fr254) : Adds (getNonMembershipProof hash v) := by
  refine .ite (adds_throwErr _) (.bind (adds_getLeaf _ _) fun existing => ?_)
  refine .ite (adds_throwErr _) (.bind adds_findMetadata fun metadata => ?_)
  exact .bind (adds_getLowLeaf _) fun low => .bind (adds_okOr _ _) fun low' =>
    .bind .get fun db => .pure _

theorem run_storeLeaf_eq_error {v : Fr254} {index : Option ℕ} {e : Failure}
    (h : (storeLeaf v index).run db = .error e db') : IsErr e ∧ db' = db := by
  rw [storeLeaf, EStateM.run_bind, run_getLeaf] at h
  dsimp only at h
  split_ifs at h
  · cases h
    exact ⟨⟨_, rfl⟩, rfl⟩
  · rw [EStateM.run_bind, run_getLowLeaf] at h
    dsimp only at h
    cases hlow : Leaves.low db.indexedLeaves v with
    | none =>
      rw [hlow] at h
      cases h
      exact ⟨⟨_, rfl⟩, rfl⟩
    | some low =>
      simp only [hlow, okOr, EStateM.run_bind, EStateM.run_pure, EStateM.run_get] at h
      cases hinsert : db.indexedLeaves.insertOne ⟨v,
          index.getD (db.indexedLeaves.docs.length % 2 ^ 32), low.nextIndex, low.nextValue⟩ with
      | none =>
        rw [hinsert] at h
        cases h
        exact ⟨⟨_, rfl⟩, rfl⟩
      | some indexedLeaves =>
        rw [hinsert] at h
        cases h

theorem adds_storeLeaf (v : Fr254) (index : Option ℕ) : Adds (storeLeaf v index) where
  of_ok db r db' h := by
    obtain ⟨-, c, hc, rfl⟩ := run_storeLeaf_eq_ok.1 h
    refine ⟨fun w hw => ?_, fun hshape => ⟨_, le_rfl, hshape⟩⟩
    dsimp only
    rw [hc.values_eq]
    exact List.mem_append_left _ hw
  of_error db e db' h := by
    obtain ⟨he, rfl⟩ := run_storeLeaf_eq_error h
    exact ⟨he, refl_of Grows db'⟩

theorem run_appendSubTrees_eq_error {e : Failure}
    (h : (appendSubTrees treeHash l true).run db = .error e db') : IsErr e ∧ db' = db := by
  rcases run_bind_eq_error.1 h with hget | ⟨metadata, t, hget, hrest⟩
  · cases hmetadata : db.metadata with
    | none =>
      simp only [getMetadata, EStateM.run_bind, EStateM.run_get, hmetadata] at hget
      cases hget
      exact ⟨⟨_, rfl⟩, rfl⟩
    | some metadata =>
      rw [run_getMetadata hmetadata] at hget
      cases hget
  · obtain ⟨hmetadata, rfl⟩ := run_getMetadata_eq_ok.1 hget
    by_cases hlen : l.length % 2 ^ metadata.subTreeHeight = 0
    · by_cases hl : l = []
      · rw [if_neg (not_not.2 hlen), if_pos (List.isEmpty_iff.2 hl)] at hrest
        cases hrest
      · rcases @run_append _ _ treeHash _ _ hmetadata l hl hlen true with
          ⟨-, hrun⟩ | ⟨-, r, db₁, hrun, -⟩
        · rw [hrun] at h
          cases h
          exact ⟨⟨_, rfl⟩, rfl⟩
        · rw [hrun] at h
          cases h
    · rw [if_pos hlen] at hrest
      cases hrest
      exact ⟨⟨_, rfl⟩, rfl⟩

theorem adds_appendSubTrees (l : List Fr254) : Adds (appendSubTrees treeHash l true) where
  of_ok db r db' h := by
    refine ⟨fun v hv => ?_, fun hshape => ?_⟩
    · rwa [keeps_appendSubTrees treeHash l true _ _ _ h]
    · by_cases hl : l = []
      · obtain ⟨metadata, t, hget, hrest⟩ := run_bind_eq_ok.1 h
        obtain ⟨-, rfl⟩ := run_getMetadata_eq_ok.1 hget
        simp only [hl, List.length_nil, Nat.zero_mod, ne_eq, not_true_eq_false, if_false,
          List.isEmpty_nil, if_true] at hrest
        cases hrest
        exact ⟨_, le_rfl, hshape⟩
      · exact ⟨_, Nat.le_add_right _ _, (hasShape_appendSubTrees hl h hshape).2.2⟩
  of_error db e db' h := by
    obtain ⟨he, rfl⟩ := run_appendSubTrees_eq_error h
    exact ⟨he, refl_of Grows db'⟩

theorem run_updateSubTree_singleton (hmetadata : db.metadata = some metadata) (p : ℕ) (x : Fr254) :
    (2 ^ (metadata.treeHeight + metadata.subTreeHeight) ≤ p ∧
        (updateSubTree treeHash p [x] true).run db = .error (.err .invalidIndex) db) ∨
      p < 2 ^ (metadata.treeHeight + metadata.subTreeHeight) ∧
        ∃ root db', (updateSubTree treeHash p [x] true).run db = .ok root db' := by
  have hsize : (makeCompleteTree treeHash (Nat.log 2 [x].length) [x]).length = 1 := by
    simp [makeCompleteTree]
  rcases Nat.lt_or_ge p (2 ^ (metadata.treeHeight + metadata.subTreeHeight)) with hp | hp
  · refine .inr ⟨hp, ?_⟩
    rw [updateSubTree, EStateM.run_bind, run_getMetadata hmetadata]
    dsimp only
    rw [if_neg (by simp), if_neg (by simp), if_neg (not_le.2 hp), if_neg (by simp), EStateM.run_bind,
      EStateM.run_get]
    dsimp only
    rw [if_neg (by rw [hsize]; simp [rowsToSet])]
    exact ⟨_, _, rfl⟩
  · refine .inl ⟨hp, ?_⟩
    rw [updateSubTree, EStateM.run_bind, run_getMetadata hmetadata]
    dsimp only
    rw [if_neg (by simp), if_neg (by simp), if_pos hp]
    rfl

theorem adds_updateSubTree (p : ℕ) (x : Fr254) : Adds (updateSubTree treeHash p [x] true) where
  of_ok db r db' h := by
    refine ⟨fun v hv => ?_, fun hshape => ⟨_, le_rfl, hasShape_updateSubTree h hshape⟩⟩
    rwa [keeps_updateSubTree treeHash p [x] true _ _ _ h]
  of_error db e db' h := by
    cases hmetadata : db.metadata with
    | none =>
      rw [updateSubTree, EStateM.run_bind, getMetadata, EStateM.run_bind, EStateM.run_get] at h
      dsimp only at h
      rw [hmetadata] at h
      cases h
      exact ⟨⟨_, rfl⟩, refl_of Grows db⟩
    | some metadata =>
      rcases @run_updateSubTree_singleton treeHash _ _ hmetadata p x with
        ⟨-, hrun⟩ | ⟨-, root, db₁, hrun⟩
      · rw [hrun] at h
        cases h
        exact ⟨⟨_, rfl⟩, refl_of Grows db⟩
      · rw [hrun] at h
        cases h

theorem adds_insertForCircuit (l : List Fr254) : Adds (insertForCircuit treeHash l) :=
  .bind adds_getMetadata fun _ => .ite (adds_throwErr _)
    (.bind (adds_getMembershipProof _ _) fun _ => .bind (adds_appendSubTrees _) fun _ => .pure _)

theorem adds_insertNullifier (metadata : TreeMetadata Fr254) (firstIndex initialIndex : ℕ)
    (v : Fr254) : Adds (insertNullifier treeHash hash metadata firstIndex initialIndex v) := by
  refine .bind (adds_getLeaf _ _) fun existing => .ite (adds_throwErr _) (.ite ?_ (.pure _))
  refine .bind (adds_getLowLeaf _) fun low => .bind (adds_okOr _ _) fun low' => .ite ?_ ?_
  · refine .bind (adds_getNonMembershipProof _) fun proof => .bind (adds_storeLeaf _ _) fun _ =>
      .bind (adds_okOr _ _) fun _ => ?_
    exact .bind (adds_getLeaf _ _) fun updated => .bind (adds_okOr _ _) fun updated' =>
      .bind (adds_updateSubTree _ _) fun _ => .pure _
  · exact .bind (adds_storeLeaf _ _) fun _ => .bind (adds_okOr _ _) fun _ => .pure _

theorem adds_insertEach (metadata : TreeMetadata Fr254) (firstIndex initialIndex : ℕ)
    (l : List Fr254) : Adds (insertEach treeHash hash metadata firstIndex initialIndex l) := by
  induction l generalizing initialIndex with
  | nil => exact .pure _
  | cons v l ih =>
    rw [insertEach]
    exact .bind (adds_insertNullifier _ _ _ _) fun _ => .bind (ih _) fun _ => .pure _

theorem adds_getPendingInsert (v : Fr254) : Adds (getPendingInsert v) :=
  .ite (.bind (adds_getLeaf _ _) fun _ => .bind (adds_okOr _ _) fun _ => .pure _) (.pure _)

theorem adds_insertNullifiersForCircuit (l : List Fr254) :
    Adds (insertNullifiersForCircuit treeHash hash l) := by
  refine .bind adds_findMetadata fun metadata => .ite (adds_throwErr _)
    (.bind (adds_insertEach _ _ _ _) fun lows => ?_)
  exact .bind (.mapM adds_getPendingInsert _) fun pending =>
    .bind (adds_insertForCircuit _) fun info => .pure _

theorem adds_checkNew (l : List Fr254) : Adds (checkNew l) := by
  induction l with
  | nil => exact .pure _
  | cons v l ih => exact .bind (adds_getLeaf _ _) fun _ => .ite (adds_throwErr _) ih

theorem adds_storeLeaves (start : ℕ) (l : List Fr254) : Adds (storeLeaves start l) := by
  induction l generalizing start with
  | nil => exact .pure _
  | cons v l ih =>
    rw [storeLeaves]
    split_ifs
    · exact .bind (adds_storeLeaf _ _) fun _ => .bind (adds_okOr _ _) fun _ => ih _
    · exact ih _

/-- What `insert_leaves` does after the leaves were stored. -/
def insertStored (treeHash : Fr254 → Fr254 → Fr254) (hash : Fr254 → Fr254 → Fr254 → Fr254)
    (l lowNullifiers : List Fr254) : TreeM Fr254 Fr254 := do
  let indexedLeaves ← l.mapM getIndexedLeaf
  let leafValues := indexedLeaves.map fun leaf => if leaf.value ≠ 0 then leaf.leaf hash else 0
  let _ ← appendSubTrees treeHash leafValues true
  let updateInfo ← lowNullifiers.mapM (getUpdateInfo hash)
  updateInfo.foldlM (fun _ info => updateSubTree treeHash info.2 [info.1] true) 0

theorem adds_insertStored (l lowNullifiers : List Fr254) :
    Adds (insertStored treeHash hash l lowNullifiers) := by
  refine .bind (.mapM (fun _ => .bind (adds_getLeaf _ _) fun _ => adds_okOr _ _) _) fun leaves =>
    .bind (adds_appendSubTrees _) fun _ => ?_
  refine .bind (.mapM (fun _ => ?_) _) fun infos =>
    .foldlM (fun _ info => adds_updateSubTree _ _) _ _
  exact .bind (adds_getLeaf _ _) fun _ => .bind (adds_okOr _ _) fun _ => .pure _

theorem adds_insertLeaves (l : List Fr254) : Adds (insertLeaves treeHash hash l) := by
  refine .ite (.bind adds_getMetadata fun _ => .pure _) (.bind (adds_checkNew l) fun _ => ?_)
  exact .bind (.mapM adds_getLowLeaf l) fun lows => .bind adds_findMetadata fun metadata =>
    .bind (adds_storeLeaves _ _) fun _ => adds_insertStored l _

theorem run_insertLeaves_eq (hmetadata : db.metadata = some metadata) (hl : l ≠ [])
    (hnew : ∀ v ∈ l, v ≠ 0 → v ∉ db.indexedLeaves.docs.map IndexedLeaf.value) :
    (insertLeaves treeHash hash l).run db = (storeLeaves metadata.insertIndex l >>= fun _ =>
      insertStored treeHash hash l (lowValues db.indexedLeaves l)).run db := by
  have hempty : l.isEmpty = false := by simpa using hl
  have hlow : (l.mapM getLowLeaf).run db = .ok (l.map (Leaves.low db.indexedLeaves)) db :=
    run_mapM_pure fun v _ => run_getLowLeaf v db
  have hfind : findMetadata.run db = .ok metadata db := run_findMetadata_eq_ok.2 ⟨hmetadata, rfl⟩
  simp only [insertLeaves, hempty, Bool.false_eq_true, if_false]
  rw [EStateM.run_bind, run_checkNew hnew]
  dsimp only
  rw [EStateM.run_bind, hlow]
  dsimp only
  rw [EStateM.run_bind, hfind]
  rfl

/-! ### What can be stored -/

/-- The values of `l` that are not zero can be stored with the indices from `start` on: no value and
no index occurs twice among the records and them. -/
structure CanStore (c : Leaves) (start : ℕ) (l : List Fr254) : Prop where
  values : (c.values ++ l.filter (· ≠ 0)).Nodup
  indices : (c.docs.map IndexedLeaf.id ++ (slots start l).map Prod.snd).Nodup

/-- The first value to be stored can't be: it is in the collection, or its index is. -/
def FirstTaken (c : Leaves) (start : ℕ) (l : List Fr254) : Prop :=
  ∃ p, (slots start l).head? = some p ∧ (p.1 ∈ c.values ∨ p.2 ∈ c.docs.map IndexedLeaf.id)

theorem ReachableIndexed.linked (h : ReachableIndexed treeHash hash treeHeight subTreeHeight db) :
    ∃ r, IsLinked db.indexedLeaves r := by
  obtain ⟨ops, -, hrun⟩ := h
  obtain ⟨_, new, hnew, hops⟩ := run_bind_eq_ok.1 hrun
  have hdefault := newIndexedTree_leaves treeHash hash _ _ _ _ _ hnew rfl
  obtain ⟨ps, -, hstored⟩ := storesValues_execAll treeHash hash ops _ _ _ hops
  exact (hstored.isLinked (isLinked_default hdefault)).1

theorem exists_storedAll {r : List (IndexedLeaf Fr254)} (hc : IsLinked c r)
    {ps : List (Fr254 × ℕ)} (hzero : ∀ p ∈ ps, p.1 ≠ 0)
    (hvalues : (c.values ++ ps.map Prod.fst).Nodup)
    (hindices : (c.docs.map IndexedLeaf.id ++ ps.map Prod.snd).Nodup) :
    ∃ d, StoredAll c ps d := by
  induction ps generalizing c r with
  | nil => exact ⟨c, .nil⟩
  | cons p ps ih =>
    rw [List.forall_mem_cons] at hzero
    rw [List.map_cons] at hvalues hindices
    have hvalue : p.1 ∉ c.values := fun hmem =>
      List.disjoint_of_nodup_append hvalues hmem List.mem_cons_self
    have hindex : p.2 ∉ c.docs.map IndexedLeaf.id := fun hmem =>
      List.disjoint_of_nodup_append hindices hmem List.mem_cons_self
    obtain ⟨low, hlow⟩ := exists_low hc.zero hzero.1
    obtain ⟨c', hstored⟩ := exists_stored hlow hvalue hindex
    obtain ⟨r', hr'⟩ := hc.stored hstored
    obtain ⟨d, hd⟩ := ih hr' hzero.2
      (by rwa [hstored.values_eq, List.append_assoc, List.singleton_append])
      (by
        rw [map_id_eq, hstored.pairs hc, List.map_append, ← map_id_eq, List.append_assoc]
        exact hindices)
    exact ⟨d, .cons hstored hd⟩

theorem ne_zero_of_mem_slots {p : Fr254 × ℕ} (h : p ∈ slots start l) : p.1 ≠ 0 := by
  have hmem : p.1 ∈ l.filter (· ≠ 0) := by
    rw [← map_fst_slots start]
    exact List.mem_map.2 ⟨p, h, rfl⟩
  simpa using (List.mem_filter.1 hmem).2

theorem canStore_iff {r : List (IndexedLeaf Fr254)} (hc : IsLinked c r) :
    CanStore c start l ↔ ∃ d, StoredAll c (slots start l) d := by
  constructor
  · intro h
    have hvalues := h.values
    rw [← map_fst_slots start] at hvalues
    exact exists_storedAll hc (fun p hp => ne_zero_of_mem_slots hp) hvalues h.indices
  · rintro ⟨d, hd⟩
    obtain ⟨⟨r', hr'⟩, hpairs⟩ := hd.isLinked hc
    refine ⟨?_, ?_⟩
    · have hnodup := hr'.nodup_values
      rwa [map_value_eq, hpairs, List.map_append, map_fst_slots, ← map_value_eq] at hnodup
    · have hnodup := d.nodup
      rwa [map_id_eq, hpairs, List.map_append, ← map_id_eq] at hnodup

theorem run_storeLeaves_of_storedAll (h : StoredAll db.indexedLeaves (slots start l) d) :
    (storeLeaves start l).run db = .ok () { db with indexedLeaves := d } := by
  induction l generalizing start db with
  | nil =>
    cases h
    rfl
  | cons v l ih =>
    rw [storeLeaves]
    rw [slots] at h
    by_cases hv : v = 0
    · rw [if_neg (not_not.2 hv)] at h
      simp only [hv, ne_eq, not_true_eq_false, if_false]
      exact ih h
    · rw [if_pos hv] at h
      cases h with
      | @cons _ c _ _ _ _ hstored hrest =>
        have hstore : (storeLeaf v (some start)).run db =
            .ok (some ()) { db with indexedLeaves := c } :=
          run_storeLeaf_eq_ok.2 ⟨rfl, c, hstored, rfl⟩
        have hlast : (storeLeaves ((start + 1) % 2 ^ 32) l).run { db with indexedLeaves := c } =
            .ok () { db with indexedLeaves := d } := ih hrest
        simp only [hv, ne_eq, not_false_eq_true, if_true, EStateM.run_bind, hstore, okOr,
          EStateM.run_pure, hlast]

/-- Nothing is stored for zeros. -/
theorem slots_eq_nil : slots start l = [] ↔ ∀ v ∈ l, v = 0 := by
  rw [← List.map_eq_nil_iff (f := Prod.fst), map_fst_slots, List.filter_eq_nil_iff]
  simp

/-! ### The first leaf -/

/-- A leaf whose value or whose index is taken is not stored. -/
theorem run_storeLeaf_taken {v : Fr254} {index : ℕ}
    (h : v ∈ Leaves.values db.indexedLeaves ∨
      index ∈ db.indexedLeaves.docs.map IndexedLeaf.id) :
    ∃ e, (storeLeaf v (some index)).run db = .error e db := by
  rcases run_cases (storeLeaf v (some index)) db with ⟨r, db', hrun⟩ | ⟨e, db', hrun⟩
  · obtain ⟨-, c, hc, -⟩ := run_storeLeaf_eq_ok.1 hrun
    rcases h with h | h
    · exact absurd h hc.value
    · exact absurd h hc.index
  · obtain ⟨-, rfl⟩ := run_storeLeaf_eq_error hrun
    exact ⟨e, hrun⟩

/-- The first leaf can be stored unless its value or its index is taken. -/
theorem exists_stored_first {r : List (IndexedLeaf Fr254)} (hc : IsLinked c r)
    {p : Fr254 × ℕ} (hp : (slots start l).head? = some p) (h : ¬ FirstTaken c start l) :
    p.1 ∉ c.values ∧ ∃ d, Stored c p.1 p.2 d := by
  have hfree : p.1 ∉ c.values ∧ p.2 ∉ c.docs.map IndexedLeaf.id := by
    rw [← not_or]
    exact fun htaken => h ⟨p, hp, htaken⟩
  obtain ⟨low, hlow⟩ := exists_low hc.zero (ne_zero_of_mem_slots (List.mem_of_mem_head? hp))
  exact ⟨hfree.1, exists_stored hlow hfree.1 hfree.2⟩

theorem exists_head_slots (h : ¬ ∀ v ∈ l, v = 0) (start : ℕ) :
    ∃ p, (slots start l).head? = some p := by
  cases hslots : slots start l with
  | nil => exact absurd (slots_eq_nil.1 hslots) h
  | cons p ps => exact ⟨p, rfl⟩

/-- `v` is stored, however `x` ends. -/
structure Gains {α : Type} (v : Fr254) (x : TreeM Fr254 α) (db : TreeDb Fr254) : Prop where
  of_ok : ∀ a db', x.run db = .ok a db' → v ∈ Leaves.values db'.indexedLeaves
  of_error : ∀ e db', x.run db = .error e db' → v ∈ Leaves.values db'.indexedLeaves

theorem Gains.bind {α β : Type} {v : Fr254} {x : TreeM Fr254 α} {f : α → TreeM Fr254 β}
    (hx : Gains v x db) (hf : ∀ a, Adds (f a)) : Gains v (x >>= f) db where
  of_ok b db' h := by
    obtain ⟨a, t, hrun, hrest⟩ := run_bind_eq_ok.1 h
    exact ((hf a).of_ok _ _ _ hrest).values v (hx.of_ok _ _ hrun)
  of_error e db' h := by
    rcases run_bind_eq_error.1 h with hrun | ⟨a, t, hrun, hrest⟩
    · exact hx.of_error _ _ hrun
    · exact ((hf a).of_error _ _ _ hrest).2.values v (hx.of_ok _ _ hrun)

theorem Gains.after {α β : Type} {v : Fr254} {x : TreeM Fr254 α} {f : α → TreeM Fr254 β} {a : α}
    (hx : x.run db = .ok a db) (hf : Gains v (f a) db) : Gains v (x >>= f) db where
  of_ok b db' h := by
    rw [EStateM.run_bind, hx] at h
    exact hf.of_ok _ _ h
  of_error e db' h := by
    rw [EStateM.run_bind, hx] at h
    exact hf.of_error _ _ h

theorem gains_storeLeaf {v : Fr254} {index : ℕ} (h : Stored db.indexedLeaves v index c) :
    Gains v (storeLeaf v (some index)) db := by
  have hrun : (storeLeaf v (some index)).run db = .ok (some ()) { db with indexedLeaves := c } :=
    run_storeLeaf_eq_ok.2 ⟨rfl, c, h, rfl⟩
  constructor
  · intro r db' h'
    rw [hrun] at h'
    cases h'
    dsimp only
    rw [h.values_eq]
    exact List.mem_append_right _ (List.mem_singleton_self v)
  · intro e db' h'
    rw [hrun] at h'
    cases h'

/-- The first value that is stored stays. -/
theorem gains_storeLeaves {p : Fr254 × ℕ} (hp : (slots start l).head? = some p)
    (h : Stored db.indexedLeaves p.1 p.2 c) : Gains p.1 (storeLeaves start l) db := by
  induction l generalizing start with
  | nil => cases hp
  | cons v l ih =>
    rw [slots] at hp
    rw [storeLeaves]
    split_ifs at hp ⊢
    · cases hp
      exact (gains_storeLeaf h).bind fun _ => .bind (adds_okOr _ _) fun _ => adds_storeLeaves _ _
    · exact ih hp

theorem run_storeLeaves_taken (h : FirstTaken db.indexedLeaves start l) :
    ∃ e, (storeLeaves start l).run db = .error e db := by
  obtain ⟨p, hp, htaken⟩ := h
  induction l generalizing start with
  | nil => cases hp
  | cons v l ih =>
    rw [slots] at hp
    rw [storeLeaves]
    split_ifs at hp ⊢
    · cases hp
      obtain ⟨e, hrun⟩ := run_storeLeaf_taken htaken
      exact ⟨e, run_bind_eq_error.2 (.inl hrun)⟩
    · exact ih hp

theorem exists_nonMembershipProof (hmetadata : db.metadata = some metadata) {v : Fr254}
    (hv : v ≠ 0) (hnew : v ∉ Leaves.values db.indexedLeaves) {low : IndexedLeaf Fr254}
    (hlow : Leaves.low db.indexedLeaves v = some low) :
    ∃ proof, (getNonMembershipProof hash v).run db = .ok proof db := by
  have hfind : findMetadata.run db = .ok metadata db := run_findMetadata_eq_ok.2 ⟨hmetadata, rfl⟩
  simp only [getNonMembershipProof, if_neg hv, EStateM.run_bind, run_getLeaf,
    withValue_eq_none.2 hnew, Option.isSome_none, Bool.false_eq_true, if_false, hfind, run_getLowLeaf,
    hlow, okOr, EStateM.run_pure, EStateM.run_get]
  exact ⟨_, rfl⟩

/-- A new nullifier is stored before anything else is written. -/
theorem run_insertNullifier_eq (hmetadata : db.metadata = some metadata) {v : Fr254} (hv : v ≠ 0)
    (hnew : v ∉ Leaves.values db.indexedLeaves) {low : IndexedLeaf Fr254}
    (hlow : Leaves.low db.indexedLeaves v = some low) (m : TreeMetadata Fr254)
    (firstIndex initialIndex : ℕ) :
    ∃ f : Option Unit → TreeM Fr254 (LeafDBEntry Fr254 × MembershipProof Fr254), (∀ a, Adds (f a)) ∧
      (insertNullifier treeHash hash m firstIndex initialIndex v).run db =
        (storeLeaf v (some initialIndex) >>= f).run db := by
  simp only [insertNullifier, EStateM.run_bind (x := getLeaf _ _), run_getLeaf,
    withValue_eq_none.2 hnew, Option.isSome_none, Bool.false_eq_true, false_and, if_false, ne_eq, hv,
    not_false_eq_true, if_true, EStateM.run_bind (x := getLowLeaf _), run_getLowLeaf, hlow, okOr,
    EStateM.run_bind (x := pure _), EStateM.run_pure]
  by_cases hid : low.id < firstIndex
  · obtain ⟨proof, hproof⟩ :=
      @exists_nonMembershipProof hash _ _ hmetadata _ hv hnew _ hlow
    rw [if_pos hid, EStateM.run_bind, hproof]
    dsimp only
    refine ⟨_, fun _ => ?_, rfl⟩
    exact .bind (adds_okOr _ _) fun _ => .bind (adds_getLeaf _ _) fun updated =>
      .bind (adds_okOr _ _) fun updated' => .bind (adds_updateSubTree _ _) fun _ => .pure _
  · rw [if_neg hid]
    exact ⟨_, fun _ => .bind (adds_okOr _ _) fun _ => .pure _, rfl⟩

theorem run_insertNullifier_zero (m : TreeMetadata Fr254) (firstIndex initialIndex : ℕ) :
    (insertNullifier treeHash hash m firstIndex initialIndex 0).run db =
      .ok (IndexedLeaf.default.toEntry, dummyProof m 0 0) db := by
  simp only [insertNullifier, EStateM.run_bind, run_getLeaf, ne_eq, not_true_eq_false, and_false,
    if_false]
  rfl

theorem gains_insertEach {r : List (IndexedLeaf Fr254)} (hr : IsLinked db.indexedLeaves r)
    (hmetadata : db.metadata = some metadata) {p : Fr254 × ℕ}
    (hp : (slots start l).head? = some p) (hnew : p.1 ∉ Leaves.values db.indexedLeaves)
    (h : Stored db.indexedLeaves p.1 p.2 c) (m : TreeMetadata Fr254) (firstIndex : ℕ) :
    Gains p.1 (insertEach treeHash hash m firstIndex start l) db := by
  induction l generalizing start with
  | nil => cases hp
  | cons v l ih =>
    rw [slots] at hp
    rw [insertEach]
    by_cases hv : v = 0
    · rw [if_neg (not_not.2 hv)] at hp
      subst hv
      have hrest := (ih hp).bind fun lows =>
        (Moves.pure ((IndexedLeaf.default.toEntry, dummyProof m 0 0) :: lows) : Adds _)
      exact .after (run_insertNullifier_zero m firstIndex start) hrest
    · rw [if_pos hv] at hp
      cases hp
      obtain ⟨low, hlow⟩ := exists_low hr.zero hv
      obtain ⟨f, hf, hrun⟩ := @run_insertNullifier_eq treeHash hash _ _ hmetadata _ hv hnew _ hlow m
        firstIndex start
      have hone : Gains v (insertNullifier treeHash hash m firstIndex start v) db := by
        have hstored := (gains_storeLeaf h).bind hf
        refine ⟨fun a db' hok => hstored.of_ok a db' ?_, fun e db' herr => hstored.of_error e db' ?_⟩
        · rwa [← hrun]
        · rwa [← hrun]
      exact hone.bind fun _ => .bind (adds_insertEach _ _ _ _) fun _ => .pure _

theorem run_insertEach_taken {r : List (IndexedLeaf Fr254)} (hr : IsLinked db.indexedLeaves r)
    (hmetadata : db.metadata = some metadata) (h : FirstTaken db.indexedLeaves start l)
    (m : TreeMetadata Fr254) (firstIndex : ℕ) :
    ∃ e, (insertEach treeHash hash m firstIndex start l).run db = .error e db := by
  obtain ⟨p, hp, htaken⟩ := h
  induction l generalizing start with
  | nil => cases hp
  | cons v l ih =>
    rw [slots] at hp
    rw [insertEach]
    by_cases hv : v = 0
    · rw [if_neg (not_not.2 hv)] at hp
      subst hv
      obtain ⟨e, hrest⟩ := ih hp
      refine ⟨e, run_bind_eq_error.2 (.inr ⟨_, _, run_insertNullifier_zero m firstIndex start, ?_⟩)⟩
      exact run_bind_eq_error.2 (.inl hrest)
    · rw [if_pos hv] at hp
      cases hp
      by_cases hnew : v ∈ Leaves.values db.indexedLeaves
      · refine ⟨.err .leafExists, run_bind_eq_error.2 (.inl ?_)⟩
        obtain ⟨x, hx, rfl⟩ := List.mem_map.1 hnew
        rw [insertNullifier, EStateM.run_bind, run_getLeaf, hr.withValue_eq hx]
        dsimp only
        rw [if_pos ⟨rfl, hv⟩]
        rfl
      · obtain ⟨low, hlow⟩ := exists_low hr.zero hv
        obtain ⟨f, -, hrun⟩ := @run_insertNullifier_eq treeHash hash _ _ hmetadata _ hv hnew _ hlow m
          firstIndex start
        obtain ⟨e, hstore⟩ := run_storeLeaf_taken htaken
        refine ⟨e, run_bind_eq_error.2 (.inl ?_)⟩
        rw [hrun]
        exact run_bind_eq_error.2 (.inl hstore)

theorem run_insertEach_zeros (h : ∀ v ∈ l, v = 0) (m : TreeMetadata Fr254) (firstIndex : ℕ) :
    ∃ lows, (insertEach treeHash hash m firstIndex start l).run db = .ok lows db := by
  induction l generalizing start with
  | nil => exact ⟨[], rfl⟩
  | cons v l ih =>
    rw [List.forall_mem_cons] at h
    obtain ⟨rfl, h⟩ := h
    obtain ⟨lows, hrest⟩ := @ih ((start + 1) % 2 ^ 32) h
    refine ⟨(IndexedLeaf.default.toEntry, dummyProof m 0 0) :: lows,
      run_bind_eq_ok.2 ⟨_, _, run_insertNullifier_zero m firstIndex start, ?_⟩⟩
    exact run_bind_eq_ok.2 ⟨lows, _, hrest, rfl⟩

/-! ### `insert_leaves` -/

theorem run_checkNew_taken (h : ∃ v ∈ l, v ≠ 0 ∧ v ∈ Leaves.values db.indexedLeaves) :
    ∃ e, (checkNew l).run db = .error e db := by
  obtain ⟨v, hv, hv0, hmem⟩ := h
  induction l with
  | nil => cases hv
  | cons w l ih =>
    rw [checkNew, EStateM.run_bind, run_getLeaf]
    dsimp only
    by_cases hw : (Leaves.withValue db.indexedLeaves w).isSome = true ∧ w ≠ 0
    · rw [if_pos hw]
      exact ⟨_, rfl⟩
    · rw [if_neg hw]
      rcases List.mem_cons.1 hv with rfl | hv
      · refine absurd ⟨?_, hv0⟩ hw
        rw [Option.isSome_iff_ne_none]
        exact fun hnone => withValue_eq_none.1 hnone hmem
      · exact ih hv

/-- The updates of leaves of the tree succeed. -/
theorem exists_updates {n : ℕ} {infos : List (Fr254 × ℕ)}
    (hdb : HasShape db treeHeight subTreeHeight n)
    (hinfos : ∀ info ∈ infos, info.2 < 2 ^ (treeHeight + subTreeHeight)) (acc : Fr254) :
    ∃ root db', (infos.foldlM (fun _ info => updateSubTree treeHash info.2 [info.1] true)
      acc).run db = .ok root db' := by
  induction infos generalizing db acc with
  | nil => exact ⟨acc, db, rfl⟩
  | cons info infos ih =>
    rw [List.forall_mem_cons] at hinfos
    obtain ⟨old, hold⟩ := id hdb
    rcases @run_updateSubTree_singleton treeHash _ _ hold info.2 info.1 with
      ⟨hle, -⟩ | ⟨-, root, db₁, hrun⟩
    · exact absurd hinfos.1 (not_lt.2 hle)
    · obtain ⟨root', db', hrest⟩ := ih (hasShape_updateSubTree hrun hdb) hinfos.2 root
      exact ⟨root', db', run_bind_eq_ok.2 ⟨root, db₁, hrun, hrest⟩⟩

theorem mem_values_of_storedAll {r : List (IndexedLeaf Fr254)} (hc : IsLinked c r)
    (h : StoredAll c (slots start l) d) {v : Fr254} (hv : v ∈ l) : v ∈ d.values := by
  rw [h.values_eq, map_fst_slots, List.mem_append]
  by_cases hv0 : v = 0
  · rw [hv0]
    exact .inl hc.zero
  · exact .inr (List.mem_filter.2 ⟨hv, by simpa using hv0⟩)

/-- What follows the records succeeds on a tree that is not beyond its capacity. -/
theorem exists_insertStored {n first : ℕ} {r : List (IndexedLeaf Fr254)} (hc : IsLinked c r)
    (hbelow : ∀ x ∈ c.docs, x.id < first) (hfirst : first ≤ 2 ^ (treeHeight + subTreeHeight))
    (hstored : StoredAll c (slots start l) db.indexedLeaves)
    (hdb : HasShape db treeHeight subTreeHeight n) (hl : l ≠ [])
    (hlen : l.length % 2 ^ subTreeHeight = 0) (hn : n ≤ 2 ^ treeHeight) :
    ∃ root db', (insertStored treeHash hash l (lowValues c l)).run db = .ok root db' := by
  obtain ⟨old, hold⟩ := id hdb
  obtain ⟨⟨r', hr'⟩, hpairs⟩ := hstored.isLinked hc
  have hrecords : (l.mapM getIndexedLeaf).run db =
      .ok (l.map (Leaves.record db.indexedLeaves)) db :=
    run_mapM_pure fun v hv => run_getIndexedLeaf (mem_values_of_storedAll hc hstored hv)
  have hlength : ((l.map (Leaves.record db.indexedLeaves)).map
      fun leaf => if leaf.value ≠ 0 then leaf.leaf hash else 0).length = l.length := by
    rw [List.length_map, List.length_map]
  have hne : ((l.map (Leaves.record db.indexedLeaves)).map
      fun leaf => if leaf.value ≠ 0 then leaf.leaf hash else 0) ≠ [] := by
    rw [Ne, List.map_eq_nil_iff, List.map_eq_nil_iff]
    exact hl
  rcases @run_append _ _ treeHash _ _ hold _ hne (by rwa [hlength]) true with
    ⟨hfull, -⟩ | ⟨-, appended, db₁, happend, -⟩
  · exact absurd hn (not_le.2 hfull)
  · have hdb₁ := (hasShape_appendSubTrees hne happend hdb).2.2
    have hleaves : db₁.indexedLeaves = db.indexedLeaves :=
      keeps_appendSubTrees treeHash _ _ _ _ _ happend
    have hlows : ∀ u ∈ lowValues c l, ∃ x ∈ db.indexedLeaves.docs, x.value = u ∧ x.id < first :=
      fun u hu => exists_low_record hpairs hbelow hu
    have hinfos : ((lowValues c l).mapM (getUpdateInfo hash)).run db₁ =
        .ok (updateInfos hash db₁.indexedLeaves (lowValues c l)) db₁ := by
      refine run_mapM_pure fun u hu => run_getUpdateInfo ?_
      obtain ⟨x, hx, hvalue, -⟩ := hlows u hu
      rw [hleaves]
      exact List.mem_map.2 ⟨x, hx, hvalue⟩
    obtain ⟨root, db', hupdates⟩ := @exists_updates treeHash _ _ _ _
      (updateInfos hash db₁.indexedLeaves (lowValues c l)) hdb₁ (fun info hinfo => by
        obtain ⟨u, hu, rfl⟩ := List.mem_map.1 hinfo
        obtain ⟨x, hx, rfl, hid⟩ := hlows u hu
        rw [hleaves, Leaves.record_eq hr' hx]
        exact hid.trans_le hfirst) 0
    refine ⟨root, db', run_bind_eq_ok.2 ⟨_, _, hrecords, ?_⟩⟩
    exact run_bind_eq_ok.2 ⟨_, _, happend, run_bind_eq_ok.2 ⟨_, _, hinfos, hupdates⟩⟩

/-- Nothing is written if no leaf is stored and the append fails. -/
theorem run_insertStored_zeros {r : List (IndexedLeaf Fr254)} (hr : IsLinked db.indexedLeaves r)
    (hzeros : ∀ v ∈ l, v = 0) {e : Failure}
    (h : (insertStored treeHash hash l []).run db = .error e db') : db' = db := by
  have hrecords : (l.mapM getIndexedLeaf).run db =
      .ok (l.map (Leaves.record db.indexedLeaves)) db := by
    refine run_mapM_pure fun v hv => run_getIndexedLeaf ?_
    rw [hzeros v hv]
    exact hr.zero
  rw [insertStored, EStateM.run_bind, hrecords] at h
  rcases run_bind_eq_error.1 h with happend | ⟨appended, t, -, hrest⟩
  · exact (run_appendSubTrees_eq_error happend).2
  · cases hrest

/-- `insert_leaves` rejects `l` before it writes, or accepts it. -/
def LeavesCondition (db : TreeDb Fr254) (metadata : TreeMetadata Fr254) (l : List Fr254) : Prop :=
  (∃ v ∈ l, v ≠ 0 ∧ v ∈ Leaves.values db.indexedLeaves) ∨ (∀ v ∈ l, v = 0) ∨
    FirstTaken db.indexedLeaves metadata.insertIndex l ∨
      CanStore db.indexedLeaves metadata.insertIndex l ∧
        l.length % 2 ^ metadata.subTreeHeight = 0 ∧ metadata.subTreeCount ≤ 2 ^ metadata.treeHeight

theorem insertLeaves_rejects_iff (hzero : treeHash 0 0 = 0)
    (hheight : treeHeight + subTreeHeight ≤ 32)
    (hdb : ReachableIndexed treeHash hash treeHeight subTreeHeight db)
    (hmetadata : db.metadata = some metadata) (l : List Fr254) :
    RejectsCleanly (insertLeaves treeHash hash l) db ↔ LeavesCondition db metadata l := by
  obtain ⟨r, hr⟩ := hdb.linked
  have hshape : HasShape db metadata.treeHeight metadata.subTreeHeight metadata.subTreeCount :=
    ⟨metadata.root, hmetadata⟩
  constructor
  · intro hclean
    by_contra hnot
    rw [LeavesCondition, not_or, not_or, not_or] at hnot
    obtain ⟨hknown, hzeros, hfree, hrejected⟩ := hnot
    have hnew : ∀ v ∈ l, v ≠ 0 → v ∉ db.indexedLeaves.docs.map IndexedLeaf.value :=
      fun v hv hv0 hmem => hknown ⟨v, hv, hv0, hmem⟩
    have hl : l ≠ [] := by
      rintro rfl
      exact hzeros (List.forall_mem_nil _)
    have hrun := @run_insertLeaves_eq treeHash hash _ _ _ hmetadata hl hnew
    rcases run_cases (insertLeaves treeHash hash l) db with ⟨root, db', hok⟩ | ⟨e, db', herr⟩
    · -- it is accepted only if all leaves can be stored and there is room
      refine hrejected ⟨(canStore_iff hr).2 ?_, (hasShape_insertLeaves hl hok hshape).1,
        (hasShape_insertLeaves hl hok hshape).2.1⟩
      rw [hrun] at hok
      obtain ⟨_, t, hstore, -⟩ := run_bind_eq_ok.1 hok
      exact ⟨_, stores_storeLeaves _ l _ _ _ hstore⟩
    · -- the first leaf was stored, and stays
      obtain ⟨p, hp⟩ := exists_head_slots hzeros metadata.insertIndex
      obtain ⟨hvalue, c, hc⟩ := exists_stored_first hr hp hfree
      obtain ⟨e', rfl⟩ := ((adds_insertLeaves l).of_error _ _ _ herr).1
      have hsame := hclean e' db' herr
      rw [hrun] at herr
      have hmem := ((gains_storeLeaves hp hc).bind fun _ =>
        @adds_insertStored treeHash hash l (lowValues db.indexedLeaves l)).of_error _ _ herr
      rw [hsame.records] at hmem
      exact hvalue hmem
  · intro hcond e db' herr
    by_cases hknown : ∃ v ∈ l, v ≠ 0 ∧ v ∈ Leaves.values db.indexedLeaves
    · obtain ⟨e', hcheck⟩ := run_checkNew_taken hknown
      obtain ⟨v, hv, -⟩ := hknown
      have hempty : l.isEmpty = false := by
        cases l with
        | nil => cases hv
        | cons => rfl
      simp only [insertLeaves, hempty, Bool.false_eq_true, if_false] at herr
      rw [EStateM.run_bind, hcheck] at herr
      cases herr
      exact .refl db
    have hnew : ∀ v ∈ l, v ≠ 0 → v ∉ db.indexedLeaves.docs.map IndexedLeaf.value :=
      fun v hv hv0 hmem => hknown ⟨v, hv, hv0, hmem⟩
    by_cases hl : l = []
    · subst hl
      rw [insertLeaves, if_pos List.isEmpty_nil, getRoot, EStateM.run_bind,
        run_getMetadata hmetadata] at herr
      cases herr
    have hrun := @run_insertLeaves_eq treeHash hash _ _ _ hmetadata hl hnew
    rw [hrun] at herr
    rcases hcond.resolve_left hknown with hzeros | htaken | ⟨hstore, hlen, hcount⟩
    · have hnone : StoredAll db.indexedLeaves (slots metadata.insertIndex l) db.indexedLeaves := by
        rw [slots_eq_nil.2 hzeros]
        exact .nil
      rw [EStateM.run_bind, run_storeLeaves_of_storedAll hnone] at herr
      rw [(lowValues_eq_nil hr).2 hzeros] at herr
      rw [show db' = db from run_insertStored_zeros hr hzeros herr]
      exact .refl db
    · obtain ⟨e', hstore⟩ := run_storeLeaves_taken htaken
      rw [EStateM.run_bind, hstore] at herr
      cases herr
      exact .refl db
    · -- it succeeds
      obtain ⟨d, hd⟩ := (canStore_iff hr).1 hstore
      rcases hdb.state hzero hheight with ⟨t, ht, -, -⟩ | ⟨n, hn, hbeyond⟩
      · obtain rfl := Option.some_inj.1 (ht.refines.metadata.symm.trans hmetadata)
        obtain ⟨root, db₁, hlast⟩ := @exists_insertStored treeHash hash
          { db with indexedLeaves := d } _ _ _ _ _ _ _ _ hr ht.below ht.first_le hd hshape hl hlen
          hcount
        rw [EStateM.run_bind, run_storeLeaves_of_storedAll hd] at herr
        dsimp only at herr
        rw [hlast] at herr
        cases herr
      · obtain ⟨rfl, -, rfl⟩ := hshape.unique hbeyond
        exact absurd hcount (not_le.2 hn)

/-! ### Insertions for a circuit -/

theorem nodup_values_iff {r : List (IndexedLeaf Fr254)} (hc : IsLinked c r) :
    (c.values ++ l.filter (· ≠ 0)).Nodup ↔
      (∀ v ∈ l, v ≠ 0 → v ∉ c.docs.map IndexedLeaf.value) ∧ (l.filter (· ≠ 0)).Nodup := by
  rw [List.nodup_append']
  constructor
  · rintro ⟨-, hdistinct, hdisjoint⟩
    exact ⟨fun v hv hv0 hmem => hdisjoint hmem (List.mem_filter.2 ⟨hv, by simpa using hv0⟩), hdistinct⟩
  · rintro ⟨hnew, hdistinct⟩
    refine ⟨hc.nodup_values, hdistinct, fun v hmem hv => ?_⟩
    obtain ⟨hv, hv0⟩ := List.mem_filter.1 hv
    exact hnew v hv (by simpa using hv0) hmem

theorem run_insertForCircuit_eq_error {e : Failure}
    (h : (insertForCircuit treeHash l).run db = .error e db') (hmetadata : db.metadata = some metadata) :
    db' = db := by
  rw [insertForCircuit, EStateM.run_bind, run_getMetadata hmetadata] at h
  dsimp only at h
  split_ifs at h
  · cases h
    rfl
  · rcases run_bind_eq_error.1 h with hproof | ⟨proof, t, hproof, hrest⟩
    · rw [getMembershipProof, EStateM.run_bind, run_getMetadata hmetadata] at hproof
      dsimp only at hproof
      rw [EStateM.run_bind, EStateM.run_get] at hproof
      dsimp only [leafNodeIndex] at hproof
      split_ifs at hproof
      · cases hproof
        rfl
      · cases hproof
    · obtain rfl : t = db := keeps_getMembershipProof (p := id) _ _ _ _ _ hproof
      rcases run_bind_eq_error.1 hrest with happend | ⟨appended, u, -, hlast⟩
      · exact (run_appendSubTrees_eq_error happend).2
      · cases hlast

/-- What the insertion of a batch does after its nullifiers were stored. -/
def insertPending (treeHash : Fr254 → Fr254 → Fr254) (hash : Fr254 → Fr254 → Fr254 → Fr254)
    (metadata : TreeMetadata Fr254) (l : List Fr254)
    (lowNullifiers : List (LeafDBEntry Fr254 × MembershipProof Fr254)) :
    TreeM Fr254 (IMTCircuitInsertionInfo Fr254) := do
  let pendingInserts ← l.mapM getPendingInsert
  let circuitInfo ← insertForCircuit treeHash (pendingInserts.map (LeafDBEntry.leaf hash))
  pure ⟨metadata.root, circuitInfo, metadata.insertIndex, lowNullifiers, pendingInserts⟩

theorem adds_insertPending (metadata : TreeMetadata Fr254) (l : List Fr254)
    (lowNullifiers : List (LeafDBEntry Fr254 × MembershipProof Fr254)) :
    Adds (insertPending treeHash hash metadata l lowNullifiers) :=
  .bind (.mapM adds_getPendingInsert _) fun _ => .bind (adds_insertForCircuit _) fun _ => .pure _

theorem run_insertNullifiersForCircuit_eq (hmetadata : db.metadata = some metadata)
    (hlen : l.length = 2 ^ metadata.subTreeHeight) :
    (insertNullifiersForCircuit treeHash hash l).run db =
      (insertEach treeHash hash metadata metadata.insertIndex metadata.insertIndex l >>=
        insertPending treeHash hash metadata l).run db := by
  have hfind : findMetadata.run db = .ok metadata db := run_findMetadata_eq_ok.2 ⟨hmetadata, rfl⟩
  rw [insertNullifiersForCircuit, EStateM.run_bind, hfind]
  dsimp only
  rw [if_neg (not_not.2 hlen.symm)]
  rfl

theorem run_insertPending_zeros (hzeros : ∀ v ∈ l, v = 0) (hmetadata : db.metadata = some metadata)
    {m : TreeMetadata Fr254} {lows : List (LeafDBEntry Fr254 × MembershipProof Fr254)} {e : Failure}
    (h : (insertPending treeHash hash m l lows).run db = .error e db') : db' = db := by
  rw [insertPending, EStateM.run_bind,
    run_getPendingInserts fun v hv hv0 => absurd (hzeros v hv) hv0] at h
  rcases run_bind_eq_error.1 h with hinsert | ⟨info, t, -, hlast⟩
  · exact run_insertForCircuit_eq_error hinsert hmetadata
  · cases hlast

/-- The insertion of a batch for a circuit rejects `l` before it writes, or accepts it. -/
def BatchCondition (db : TreeDb Fr254) (metadata : TreeMetadata Fr254) (l : List Fr254) : Prop :=
  l.length ≠ 2 ^ metadata.subTreeHeight ∨ (∀ v ∈ l, v = 0) ∨
    FirstTaken db.indexedLeaves metadata.insertIndex l ∨
      (Leaves.values db.indexedLeaves ++ l.filter (· ≠ 0)).Nodup ∧
        metadata.subTreeCount < 2 ^ metadata.treeHeight

theorem exists_insertNullifiersForCircuit (hzero : treeHash 0 0 = 0)
    (hheight : treeHeight + subTreeHeight ≤ 32)
    (hdb : ReachableIndexed treeHash hash treeHeight subTreeHeight db)
    (hmetadata : db.metadata = some metadata) (hlen : l.length = 2 ^ metadata.subTreeHeight)
    (hnew : (Leaves.values db.indexedLeaves ++ l.filter (· ≠ 0)).Nodup)
    (hroom : metadata.subTreeCount < 2 ^ metadata.treeHeight) :
    ∃ info db', (insertNullifiersForCircuit treeHash hash l).run db = .ok info db' := by
  obtain ⟨r, hr⟩ := hdb.linked
  rcases hdb.state hzero hheight with ⟨t, ht, rfl, rfl⟩ | ⟨n, hn, root, hbeyond⟩
  · obtain rfl := Option.some_inj.1 (ht.refines.metadata.symm.trans hmetadata)
    obtain ⟨hfresh, hdistinct⟩ := (nodup_values_iff hr).1 hnew
    obtain ⟨info, db', -, hrun, -⟩ :=
      run_insertNullifiersForCircuit hzero ht hheight hroom hlen hfresh hdistinct
    exact ⟨info, db', hrun⟩
  · rw [hbeyond] at hmetadata
    cases hmetadata
    exact absurd hroom hn.not_gt

theorem gains_insertNullifiersForCircuit {r : List (IndexedLeaf Fr254)}
    (hr : IsLinked db.indexedLeaves r) (hmetadata : db.metadata = some metadata)
    (hlen : l.length = 2 ^ metadata.subTreeHeight) (hzeros : ¬ ∀ v ∈ l, v = 0)
    (hfree : ¬ FirstTaken db.indexedLeaves metadata.insertIndex l) :
    ∃ v ∉ Leaves.values db.indexedLeaves, Gains v (insertNullifiersForCircuit treeHash hash l) db := by
  obtain ⟨p, hp⟩ := exists_head_slots hzeros metadata.insertIndex
  obtain ⟨hvalue, c, hc⟩ := exists_stored_first hr hp hfree
  have hrun := @run_insertNullifiersForCircuit_eq treeHash hash _ _ _ hmetadata hlen
  have heach := @gains_insertEach treeHash hash _ _ _ _ _ _ hr hmetadata _ hp hvalue hc metadata
    metadata.insertIndex
  have hgains := heach.bind (@adds_insertPending treeHash hash metadata l)
  refine ⟨p.1, hvalue, fun a db' hok => hgains.of_ok a db' ?_,
    fun e db' herr => hgains.of_error e db' ?_⟩
  · rwa [← hrun]
  · rwa [← hrun]

theorem insertNullifiersForCircuit_rejects_iff (hzero : treeHash 0 0 = 0)
    (hheight : treeHeight + subTreeHeight ≤ 32)
    (hdb : ReachableIndexed treeHash hash treeHeight subTreeHeight db)
    (hmetadata : db.metadata = some metadata) (l : List Fr254) :
    RejectsCleanly (insertNullifiersForCircuit treeHash hash l) db ↔
      BatchCondition db metadata l := by
  obtain ⟨r, hr⟩ := hdb.linked
  have hshape : HasShape db metadata.treeHeight metadata.subTreeHeight metadata.subTreeCount :=
    ⟨metadata.root, hmetadata⟩
  constructor
  · intro hclean
    by_contra hnot
    rw [BatchCondition, not_or, not_or, not_or, not_not] at hnot
    obtain ⟨hlen, hzeros, hfree, hrejected⟩ := hnot
    rcases run_cases (insertNullifiersForCircuit treeHash hash l) db with
      ⟨info, db', hok⟩ | ⟨e, db', herr⟩
    · refine hrejected ⟨(nodup_values_iff hr).2 ?_,
        (hasShape_insertNullifiersForCircuit hok hshape).2.1⟩
      exact new_of_storesValues (storesValues_insertNullifiersForCircuit treeHash hash l) hok hr
    · obtain ⟨v, hv, hgains⟩ :=
        @gains_insertNullifiersForCircuit treeHash hash _ _ _ _ hr hmetadata hlen hzeros hfree
      have hmem := hgains.of_error _ _ herr
      obtain ⟨e', rfl⟩ := ((adds_insertNullifiersForCircuit l).of_error _ _ _ herr).1
      rw [(hclean e' db' herr).records] at hmem
      exact hv hmem
  · intro hcond e db' herr
    by_cases hlen : l.length = 2 ^ metadata.subTreeHeight
    · have hrun := @run_insertNullifiersForCircuit_eq treeHash hash _ _ _ hmetadata hlen
      rcases hcond.resolve_left (not_not.2 hlen) with hzeros | htaken | ⟨hnew, hroom⟩
      · obtain ⟨lows, heach⟩ := @run_insertEach_zeros treeHash hash db metadata.insertIndex l hzeros
          metadata metadata.insertIndex
        rw [hrun, EStateM.run_bind, heach] at herr
        rw [show db' = db from run_insertPending_zeros hzeros hmetadata herr]
        exact .refl db
      · obtain ⟨e', heach⟩ := @run_insertEach_taken treeHash hash _ _ _ _ _ hr hmetadata htaken
          metadata metadata.insertIndex
        rw [hrun, EStateM.run_bind, heach] at herr
        cases herr
        exact .refl db
      · obtain ⟨info, db₁, hok⟩ :=
          exists_insertNullifiersForCircuit hzero hheight hdb hmetadata hlen hnew hroom
        rw [hok] at herr
        cases herr
    · have hfind : findMetadata.run db = .ok metadata db :=
        run_findMetadata_eq_ok.2 ⟨hmetadata, rfl⟩
      rw [insertNullifiersForCircuit, EStateM.run_bind, hfind] at herr
      dsimp only at herr
      rw [if_pos (Ne.symm hlen)] at herr
      cases herr
      exact .refl db

/-! ### Several batches -/

/-- The first batch is refused before anything is written. -/
def FirstRefused (db : TreeDb Fr254) (metadata : TreeMetadata Fr254) (l : List Fr254) : Prop :=
  l.length ≠ 2 ^ metadata.subTreeHeight ∨
    FirstTaken db.indexedLeaves metadata.insertIndex l ∨
      (∀ v ∈ l, v = 0) ∧ 2 ^ metadata.treeHeight ≤ metadata.subTreeCount

/-- The insertion of batches of eight refuses the first one before it writes, or accepts all. -/
def BatchesCondition (db : TreeDb Fr254) (metadata : TreeMetadata Fr254) (l : List Fr254) : Prop :=
  l = [] ∨ FirstRefused db metadata (l.take 8) ∨
    (∀ batch ∈ chunks 8 l, batch.length = 2 ^ metadata.subTreeHeight) ∧
      (Leaves.values db.indexedLeaves ++ l.filter (· ≠ 0)).Nodup ∧
        metadata.subTreeCount + (chunks 8 l).length ≤ 2 ^ metadata.treeHeight

theorem length_of_batches {n : ℕ} {cs : List (List Fr254)}
    {infos : List (IMTCircuitInsertionInfo Fr254)}
    (h : (cs.mapM (insertNullifiersForCircuit treeHash hash)).run db = .ok infos db')
    (hdb : HasShape db treeHeight subTreeHeight n) : ∀ c ∈ cs, c.length = 2 ^ subTreeHeight := by
  induction cs generalizing db db' n infos with
  | nil => exact List.forall_mem_nil _
  | cons c cs ih =>
    rw [List.mapM_cons] at h
    obtain ⟨info, db₁, hrun, h⟩ := run_bind_eq_ok.1 h
    obtain ⟨infos', db₂, hrest, -⟩ := run_bind_eq_ok.1 h
    obtain ⟨hlen, -, hdb₁⟩ := hasShape_insertNullifiersForCircuit hrun hdb
    exact List.forall_mem_cons.2 ⟨hlen, ih hrest hdb₁⟩

theorem FirstRefused.not_ok {r : List (IndexedLeaf Fr254)} (hr : IsLinked db.indexedLeaves r)
    (hmetadata : db.metadata = some metadata) (h : FirstRefused db metadata l)
    {info : IMTCircuitInsertionInfo Fr254} :
    (insertNullifiersForCircuit treeHash hash l).run db ≠ .ok info db' := by
  intro hok
  have hshape : HasShape db metadata.treeHeight metadata.subTreeHeight metadata.subTreeCount :=
    ⟨metadata.root, hmetadata⟩
  obtain ⟨hlen, hroom, -⟩ := hasShape_insertNullifiersForCircuit hok hshape
  rcases h with hne | htaken | ⟨-, hfull⟩
  · exact hne hlen
  · obtain ⟨e, heach⟩ := @run_insertEach_taken treeHash hash _ _ _ _ _ hr hmetadata htaken metadata
      metadata.insertIndex
    rw [run_insertNullifiersForCircuit_eq hmetadata hlen, EStateM.run_bind, heach] at hok
    cases hok
  · exact absurd hroom hfull.not_gt

theorem FirstRefused.batchCondition (h : FirstRefused db metadata l) :
    BatchCondition db metadata l := by
  rcases h with hlen | htaken | ⟨hzeros, -⟩
  · exact .inl hlen
  · exact .inr (.inr (.inl htaken))
  · exact .inr (.inl hzeros)

/-- A batch that isn't refused changes the tree, if it is accepted and if it isn't. -/
theorem not_sameTree_of_first (hzero : treeHash 0 0 = 0) (hheight : treeHeight + subTreeHeight ≤ 32)
    (hdb : ReachableIndexed treeHash hash treeHeight subTreeHeight db)
    (hmetadata : db.metadata = some metadata) (h : ¬ FirstRefused db metadata l)
    {α : Type} {f : IMTCircuitInsertionInfo Fr254 → TreeM Fr254 α} (hf : ∀ info, Adds (f info))
    {e : Failure} (herr : (insertNullifiersForCircuit treeHash hash l >>= f).run db = .error e db') :
    ¬ SameTree db db' := by
  intro hsame
  rw [FirstRefused, not_or, not_or, not_not] at h
  obtain ⟨hlen, hfree, hroom⟩ := h
  obtain ⟨r, hr⟩ := hdb.linked
  have hshape : HasShape db metadata.treeHeight metadata.subTreeHeight metadata.subTreeCount :=
    ⟨metadata.root, hmetadata⟩
  rcases run_bind_eq_error.1 herr with hfirst | ⟨info, db₁, hfirst, hrest⟩
  · by_cases hzeros : ∀ v ∈ l, v = 0
    · -- zeros are accepted where there is room for them
      have hfilter : l.filter (· ≠ 0) = [] := by
        rw [List.filter_eq_nil_iff]
        intro v hv
        simpa using hzeros v hv
      have hnew : (Leaves.values db.indexedLeaves ++ l.filter (· ≠ 0)).Nodup := by
        rw [hfilter, List.append_nil]
        exact hr.nodup_values
      obtain ⟨info, db₁, hok⟩ := exists_insertNullifiersForCircuit hzero hheight hdb hmetadata hlen
        hnew (not_le.1 fun hfull => hroom ⟨hzeros, hfull⟩)
      rw [hok] at hfirst
      cases hfirst
    · obtain ⟨v, hv, hgains⟩ :=
        @gains_insertNullifiersForCircuit treeHash hash _ _ _ _ hr hmetadata hlen hzeros hfree
      have hmem := hgains.of_error _ _ hfirst
      rw [hsame.records] at hmem
      exact hv hmem
  · -- the number of sub-trees has grown
    obtain ⟨-, -, hshape₁⟩ := hasShape_insertNullifiersForCircuit hfirst hshape
    obtain ⟨m, hm, hshape'⟩ := ((hf info).of_error _ _ _ hrest).2.count hshape₁
    have hsame' : HasShape db' metadata.treeHeight metadata.subTreeHeight metadata.subTreeCount :=
      ⟨metadata.root, hsame.metadata.trans hmetadata⟩
    obtain ⟨-, -, rfl⟩ := hshape'.unique hsame'
    exact absurd hm (Nat.not_succ_le_self _)

theorem batchInsertNullifiers_rejects_iff (hzero : treeHash 0 0 = 0)
    (hheight : treeHeight + subTreeHeight ≤ 32)
    (hdb : ReachableIndexed treeHash hash treeHeight subTreeHeight db)
    (hmetadata : db.metadata = some metadata) (l : List Fr254) :
    RejectsCleanly (batchInsertNullifiersWithCircuitInfo treeHash hash l) db ↔
      BatchesCondition db metadata l := by
  obtain ⟨r, hr⟩ := hdb.linked
  have hshape : HasShape db metadata.treeHeight metadata.subTreeHeight metadata.subTreeCount :=
    ⟨metadata.root, hmetadata⟩
  by_cases hl : l = []
  · refine iff_of_true (fun e db' herr => ?_) (.inl hl)
    rw [batchInsertNullifiersWithCircuitInfo, if_pos (List.isEmpty_iff.2 hl)] at herr
    cases herr
  have hrun : batchInsertNullifiersWithCircuitInfo treeHash hash l =
      (chunks 8 l).mapM (insertNullifiersForCircuit treeHash hash) :=
    if_neg fun hempty => hl (List.isEmpty_iff.1 hempty)
  have hchunks := chunks_of_ne_nil (by omega : 0 < 8) hl
  have hrest : ∀ info, Adds ((chunks 8 (l.drop 8)).mapM
      (insertNullifiersForCircuit treeHash hash) >>= fun infos => pure (info :: infos)) :=
    fun info => .bind (.mapM adds_insertNullifiersForCircuit _) fun _ => .pure _
  constructor
  · intro hclean
    by_contra hnot
    rw [BatchesCondition, not_or, not_or] at hnot
    obtain ⟨-, haccepted, hrejected⟩ := hnot
    rcases run_cases (batchInsertNullifiersWithCircuitInfo treeHash hash l) db with
      ⟨infos, db', hok⟩ | ⟨e, db', herr⟩
    · have hnew := new_of_storesValues
        (storesValues_batchInsertNullifiersWithCircuitInfo treeHash hash l) hok hr
      rw [hrun] at hok
      exact hrejected ⟨length_of_batches hok hshape, (nodup_values_iff hr).2 hnew,
        (hasShape_batches hok hshape (.inr (chunks_ne_nil hl))).1⟩
    · have hadds : Adds (batchInsertNullifiersWithCircuitInfo treeHash hash l) := by
        rw [hrun]
        exact .mapM adds_insertNullifiersForCircuit _
      obtain ⟨e', rfl⟩ := (hadds.of_error _ _ _ herr).1
      have hsame := hclean e' db' herr
      rw [hrun, hchunks, List.mapM_cons] at herr
      exact not_sameTree_of_first hzero hheight hdb hmetadata haccepted hrest herr hsame
  · intro hcond e db' herr
    rw [hrun] at herr
    rcases hcond.resolve_left hl with hrefused | ⟨hlen, hnew, hfit⟩
    · rw [hchunks, List.mapM_cons] at herr
      rcases run_bind_eq_error.1 herr with hfirst | ⟨info, db₁, hfirst, -⟩
      · exact (insertNullifiersForCircuit_rejects_iff hzero hheight hdb hmetadata _).2
          hrefused.batchCondition e db' hfirst
      · exact absurd hfirst (hrefused.not_ok hr hmetadata)
    · obtain ⟨hfresh, hdistinct⟩ := (nodup_values_iff hr).1 hnew
      rcases hdb.state hzero hheight with ⟨t, ht, rfl, rfl⟩ | ⟨n, hn, root, hbeyond⟩
      · obtain rfl := Option.some_inj.1 (ht.refines.metadata.symm.trans hmetadata)
        have hflatten := flatten_chunks (by omega : 0 < 8) l
        obtain ⟨infos, db₁, -, hok, -⟩ := run_batches hzero hheight ht hlen hfit
          (by rwa [hflatten]) (by rwa [hflatten])
        rw [hok] at herr
        cases herr
      · rw [hbeyond] at hmetadata
        cases hmetadata
        exact absurd hfit (by dsimp only; omega)

/-! ### Rejections -/

/-- **Which rejections change nothing.**  On every reachable tree an insertion that is rejected leaves
the records, the nodes and the metadata exactly if it is rejected before the first leaf is stored. -/
theorem rejected_clean_iff (hzero : treeHash 0 0 = 0) (hheight : treeHeight + subTreeHeight ≤ 32)
    (hdb : ReachableIndexed treeHash hash treeHeight subTreeHeight db)
    (hmetadata : db.metadata = some metadata) (l : List Fr254) :
    (RejectsCleanly (insertLeaves treeHash hash l) db ↔ LeavesCondition db metadata l) ∧
      (RejectsCleanly (insertNullifiersForCircuit treeHash hash l) db ↔
        BatchCondition db metadata l) ∧
      (RejectsCleanly (batchInsertNullifiersWithCircuitInfo treeHash hash l) db ↔
        BatchesCondition db metadata l) :=
  ⟨insertLeaves_rejects_iff hzero hheight hdb hmetadata l,
    insertNullifiersForCircuit_rejects_iff hzero hheight hdb hmetadata l,
    batchInsertNullifiers_rejects_iff hzero hheight hdb hmetadata l⟩

/-- A tree of four sub-trees after some insertions. -/
def filledTree (ops : List IndexedOp) : TreeDb Fr254 :=
  match (runIndexed sampleHash sampleLeafHash 2 3 ops).run TreeDb.empty with
  | .ok _ db => db
  | .error _ db => db

theorem reachable_filledTree {ops : List IndexedOp} (hops : ∀ op ∈ ops, op.InsertsLeaves)
    (h : Succeeds (runIndexed sampleHash sampleLeafHash 2 3 ops) .empty = true) :
    ReachableIndexed sampleHash sampleLeafHash 2 3 (filledTree ops) := by
  obtain ⟨db, hdb⟩ := Succeeds.exists h
  refine ⟨ops, hops, ?_⟩
  rw [filledTree, hdb]

/-- The insertion of one batch. -/
def filledOps : List IndexedOp := [.insertNullifiersForCircuit sampleNullifiers]

theorem insertsLeaves_filledOps : ∀ op ∈ filledOps, op.InsertsLeaves := by
  intro op hop
  rw [filledOps, List.mem_singleton] at hop
  rw [hop]
  exact trivial

/-- A batch whose first value is in the tree. -/
def spentNullifiers : List Fr254 := [(8 : ℕ), (9 : ℕ), 0, 0, 0, 0, 0, 0]

/-- All three insertions reject a nullifier that was spent, and change nothing. -/
theorem rejected_clean_iff_sample : ∃ metadata, (filledTree filledOps).metadata = some metadata ∧
    (RejectsCleanly (insertLeaves sampleHash sampleLeafHash spentNullifiers)
        (filledTree filledOps) ∧
      RejectsCleanly (insertNullifiersForCircuit sampleHash sampleLeafHash spentNullifiers)
        (filledTree filledOps) ∧
      RejectsCleanly (batchInsertNullifiersWithCircuitInfo sampleHash sampleLeafHash spentNullifiers)
        (filledTree filledOps)) ∧
    Succeeds (insertLeaves sampleHash sampleLeafHash spentNullifiers >>= fun _ => pure ())
        (filledTree filledOps) = false ∧
      Succeeds (insertNullifiersForCircuit sampleHash sampleLeafHash spentNullifiers >>=
        fun _ => pure ()) (filledTree filledOps) = false ∧
      Succeeds (batchInsertNullifiersWithCircuitInfo sampleHash sampleLeafHash spentNullifiers >>=
        fun _ => pure ()) (filledTree filledOps) = false := by
  have hshape : shape (filledTree filledOps) = some (2, 3, 2) := by decide +kernel
  obtain ⟨root, hroot⟩ := hasShape_iff.2 hshape
  obtain ⟨hleaves, hbatch, hbatches⟩ := rejected_clean_iff (by decide +kernel)
    (by omega : 2 + 3 ≤ 32) (reachable_filledTree insertsLeaves_filledOps (by decide +kernel))
    hroot spentNullifiers
  have hspent : ((8 : ℕ) : Fr254) ∈ Leaves.values (filledTree filledOps).indexedLeaves := by
    decide +kernel
  have htaken : ∀ n, FirstTaken (filledTree filledOps).indexedLeaves n spentNullifiers := fun n =>
    ⟨_, rfl, .inl hspent⟩
  refine ⟨_, hroot, ⟨hleaves.2 (.inl ⟨(8 : ℕ), ?_, ?_, hspent⟩),
    hbatch.2 (.inr (.inr (.inl (htaken _)))),
    hbatches.2 (.inr (.inl (.inr (.inl (htaken _)))))⟩, ?_, ?_, ?_⟩
  all_goals decide +kernel

/-- A value that is repeated in a batch. -/
def repeatedNullifiers : List Fr254 := [(5 : ℕ), (5 : ℕ), 0, 0, 0, 0, 0, 0]

/-- The computation returns an error, and there are more records after it. -/
def LeavesRecords {α : Type} (x : TreeM Fr254 α) (db : TreeDb Fr254) : Bool :=
  match x.run db with
  | .error (.err _) db' => db'.indexedLeaves.docs.length ≠ db.indexedLeaves.docs.length
  | _ => false

theorem LeavesRecords.not_clean {α : Type} {x : TreeM Fr254 α} (h : LeavesRecords x db = true) :
    ¬ RejectsCleanly x db := by
  intro hclean
  rw [LeavesRecords] at h
  split at h
  · rename_i e db' hrun
    rw [(hclean e db' hrun).records] at h
    simp at h
  · cases h

/-- Each of the three insertions stores the first of two equal values and then rejects the second;
`insert_leaves` also stores a batch that is too short for a sub-tree before it rejects it. -/
theorem rejected_batch_leaves_records :
    ReachableIndexed sampleHash sampleLeafHash 1 3 (sampleIndexedTree 1) ∧
      ¬ RejectsCleanly (insertLeaves sampleHash sampleLeafHash repeatedNullifiers)
        (sampleIndexedTree 1) ∧
      ¬ RejectsCleanly (insertNullifiersForCircuit sampleHash sampleLeafHash repeatedNullifiers)
        (sampleIndexedTree 1) ∧
      ¬ RejectsCleanly (batchInsertNullifiersWithCircuitInfo sampleHash sampleLeafHash
        repeatedNullifiers) (sampleIndexedTree 1) ∧
      ¬ RejectsCleanly (insertLeaves sampleHash sampleLeafHash [(7 : ℕ)])
        (sampleIndexedTree 1) := by
  refine ⟨reachable_sampleIndexedTree (by decide +kernel), ?_, ?_, ?_, ?_⟩
  · exact LeavesRecords.not_clean (by decide +kernel)
  · exact LeavesRecords.not_clean (by decide +kernel)
  · exact LeavesRecords.not_clean (by decide +kernel)
  · exact LeavesRecords.not_clean (by decide +kernel)

end Trees

end Nightfall
