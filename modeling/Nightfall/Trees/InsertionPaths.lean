import Nightfall.Trees.Replay

/-!
# The two insertion paths

A node that replays a block inserts its nullifiers with `insert_leaves`, the proposer of the block
with `batch_insert_nullifiers_with_circuit_info`.  On every reachable tree with room for the
nullifiers the two lead to the same records and the same tree (`paths_agree_iff`).

`append_sub_trees` takes a full tree for one with room, since it compares the number of sub-trees with
`>`.  So without room `insert_leaves` may succeed, and the other path fails.
-/

namespace Nightfall

namespace Trees

open Merkle Stateful

variable {treeHash : Fr254 → Fr254 → Fr254} {hash : Fr254 → Fr254 → Fr254 → Fr254}
  {db db' : TreeDb Fr254} {t : NaiveTree Fr254} {treeHeight subTreeHeight n : ℕ} {l : List Fr254}

/-! ### The shape after an insertion -/

theorem keepsShape_storeLeaf (v : Fr254) (index : Option ℕ) : Keeps shape (storeLeaf v index) := by
  intro db r db' h
  obtain ⟨-, c, -, rfl⟩ := run_storeLeaf_eq_ok.1 h
  rfl

theorem keepsShape_insertNullifier (metadata : TreeMetadata Fr254) (firstIndex initialIndex : ℕ)
    (v : Fr254) :
    Keeps shape (insertNullifier treeHash hash metadata firstIndex initialIndex v) := by
  refine .bind (keeps_getLeaf _ _) fun existing => .ite (keeps_throwErr _) (.ite ?_ (.pure _))
  refine .bind (keeps_getLowLeaf _) fun low => .bind (keeps_okOr _ _) fun low' => .ite ?_ ?_
  · refine .bind (keeps_getNonMembershipProof _ _) fun proof =>
      .bind (keepsShape_storeLeaf _ _) fun _ => .bind (keeps_okOr _ _) fun _ => ?_
    exact .bind (keeps_getLeaf _ _) fun updated => .bind (keeps_okOr _ _) fun updated' =>
      .bind (keepsShape_updateSubTree _ _) fun _ => .pure _
  · exact .bind (keepsShape_storeLeaf _ _) fun _ => .bind (keeps_okOr _ _) fun _ => .pure _

theorem keepsShape_insertEach (metadata : TreeMetadata Fr254) (firstIndex initialIndex : ℕ)
    (l : List Fr254) :
    Keeps shape (insertEach treeHash hash metadata firstIndex initialIndex l) := by
  induction l generalizing initialIndex with
  | nil => exact .pure _
  | cons v l ih =>
    rw [insertEach]
    exact .bind (keepsShape_insertNullifier _ _ _ _) fun _ => .bind (ih _) fun _ => .pure _

theorem keepsShape_storeLeaves (start : ℕ) (l : List Fr254) : Keeps shape (storeLeaves start l) := by
  induction l generalizing start with
  | nil => exact .pure _
  | cons v l ih =>
    rw [storeLeaves]
    split_ifs
    · exact .bind (keepsShape_storeLeaf _ _) fun _ => .bind (keeps_okOr _ _) fun _ => ih _
    · exact ih _

theorem run_findMetadata_eq_ok {metadata : TreeMetadata Fr254} :
    findMetadata.run db = .ok metadata db' ↔ db.metadata = some metadata ∧ db' = db := by
  have hrun : findMetadata.run db = (okOr .itemNotFound db.metadata).run db := rfl
  rw [hrun, run_okOr_eq_ok]

/-- A batch succeeds only if there is room for it. -/
theorem hasShape_insertNullifiersForCircuit {info : IMTCircuitInsertionInfo Fr254}
    (h : (insertNullifiersForCircuit treeHash hash l).run db = .ok info db')
    (hdb : HasShape db treeHeight subTreeHeight n) :
    l.length = 2 ^ subTreeHeight ∧ n < 2 ^ treeHeight ∧
      HasShape db' treeHeight subTreeHeight (n + 1) := by
  obtain ⟨metadata, db₁, hfind, h⟩ := run_bind_eq_ok.1 h
  obtain ⟨hmetadata, rfl⟩ := run_findMetadata_eq_ok.1 hfind
  obtain ⟨root, hroot⟩ := id hdb
  obtain rfl := Option.some_inj.1 (hroot.symm.trans hmetadata)
  dsimp only at h
  split_ifs at h with hlen
  · exact absurd h run_throwErr_ne_ok
  · rw [not_not] at hlen
    obtain ⟨lows, db₂, heach, h⟩ := run_bind_eq_ok.1 h
    obtain ⟨pending, db₃, hpending, h⟩ := run_bind_eq_ok.1 h
    obtain ⟨circuitInfo, db₄, hinsert, h⟩ := run_bind_eq_ok.1 h
    obtain ⟨-, rfl⟩ := run_pure_eq_ok.1 h
    have hdb₃ : HasShape db₃ treeHeight subTreeHeight n := by
      have hshape₂ : shape db₂ = shape db₁ := keepsShape_insertEach _ _ _ l _ _ _ heach
      have hshape₃ : shape db₃ = shape db₂ := Keeps.mapM keeps_getPendingInsert l _ _ _ hpending
      rw [hasShape_iff] at hdb ⊢
      rw [hshape₃, hshape₂, hdb]
    obtain ⟨-, hroom, hshape⟩ := hasShape_insertForCircuit hinsert hdb₃
    exact ⟨hlen.symm, hroom, hshape⟩

theorem hasShape_batches {cs : List (List Fr254)} {infos : List (IMTCircuitInsertionInfo Fr254)}
    (h : (cs.mapM (insertNullifiersForCircuit treeHash hash)).run db = .ok infos db')
    (hdb : HasShape db treeHeight subTreeHeight n) (hn : n ≤ 2 ^ treeHeight ∨ cs ≠ []) :
    n + cs.length ≤ 2 ^ treeHeight ∧ HasShape db' treeHeight subTreeHeight (n + cs.length) := by
  induction cs generalizing db n infos with
  | nil =>
    cases h
    exact ⟨hn.resolve_right fun hne => hne rfl, hdb⟩
  | cons c cs ih =>
    rw [List.mapM_cons] at h
    obtain ⟨info, db₁, hrun, h⟩ := run_bind_eq_ok.1 h
    obtain ⟨infos', db₂, hrest, h⟩ := run_bind_eq_ok.1 h
    obtain ⟨-, rfl⟩ := run_pure_eq_ok.1 h
    obtain ⟨-, hroom, hdb₁⟩ := hasShape_insertNullifiersForCircuit hrun hdb
    obtain ⟨hle, hdb₂⟩ := ih hrest hdb₁ (.inl hroom)
    rw [List.length_cons, Nat.add_comm cs.length, ← Nat.add_assoc]
    exact ⟨hle, hdb₂⟩

theorem hasShape_insertLeaves {root : Fr254} (hl : l ≠ [])
    (h : (insertLeaves treeHash hash l).run db = .ok root db')
    (hdb : HasShape db treeHeight subTreeHeight n) :
    l.length % 2 ^ subTreeHeight = 0 ∧ n ≤ 2 ^ treeHeight ∧
      HasShape db' treeHeight subTreeHeight (n + l.length / 2 ^ subTreeHeight) := by
  have hempty : l.isEmpty = false := by simpa using hl
  simp only [insertLeaves, hempty, Bool.false_eq_true, if_false] at h
  obtain ⟨_, db₁, hcheck, h⟩ := run_bind_eq_ok.1 h
  obtain ⟨lows, db₂, hlows, h⟩ := run_bind_eq_ok.1 h
  obtain ⟨metadata, db₃, hfind, h⟩ := run_bind_eq_ok.1 h
  obtain ⟨_, db₄, hstore, h⟩ := run_bind_eq_ok.1 h
  obtain ⟨records, db₅, hrecords, h⟩ := run_bind_eq_ok.1 h
  obtain ⟨appended, db₆, happend, h⟩ := run_bind_eq_ok.1 h
  obtain ⟨infos, db₇, hinfos, hupdates⟩ := run_bind_eq_ok.1 h
  have hrecord : ∀ v, Keeps shape (getIndexedLeaf v) :=
    fun v => .bind (keeps_getLeaf _ _) fun _ => keeps_okOr _ _
  have hinfo : ∀ u, Keeps shape (getUpdateInfo hash u) := fun u =>
    .bind (keeps_getLeaf _ _) fun _ => .bind (keeps_okOr _ _) fun _ => .pure _
  have hdb₅ : HasShape db₅ treeHeight subTreeHeight n := by
    have h₁ : shape db₁ = shape db := keeps_checkNew l _ _ _ hcheck
    have h₂ : shape db₂ = shape db₁ := Keeps.mapM keeps_getLowLeaf l _ _ _ hlows
    have h₃ : shape db₃ = shape db₂ := keeps_findMetadata _ _ _ hfind
    have h₄ : shape db₄ = shape db₃ := keepsShape_storeLeaves _ l _ _ _ hstore
    have h₅ : shape db₅ = shape db₄ := Keeps.mapM hrecord l _ _ _ hrecords
    rw [hasShape_iff] at hdb ⊢
    rw [h₅, h₄, h₃, h₂, h₁, hdb]
  have hlength : (records.map fun leaf => if leaf.value ≠ 0 then leaf.leaf hash else 0).length =
      l.length := by
    rw [List.length_map, length_of_mapM hrecords]
  have hne : (records.map fun leaf => if leaf.value ≠ 0 then leaf.leaf hash else 0) ≠ [] := by
    intro hnil
    rw [hnil] at hlength
    exact hl (List.length_eq_zero_iff.1 hlength.symm)
  obtain ⟨hmod, hle, hdb₆⟩ := hasShape_appendSubTrees hne happend hdb₅
  rw [hlength] at hmod hdb₆
  refine ⟨hmod, hle, ?_⟩
  have h₇ : shape db₇ = shape db₆ := Keeps.mapM hinfo _ _ _ _ hinfos
  have h₈ : shape db' = shape db₇ :=
    Keeps.foldlM (fun _ (info : Fr254 × ℕ) => keepsShape_updateSubTree info.2 [info.1]) _ _ _ _ _
      hupdates
  rw [hasShape_iff] at hdb₆ ⊢
  rw [h₈, h₇, hdb₆]

/-! ### Reachable trees -/

/-- The insertions into the tree and its records together. -/
def IndexedOp.InsertsLeaves : IndexedOp → Prop
  | .storeLeaf _ _ => False
  | _ => True

/-- The databases that a new indexed tree and insertions that succeed lead to. -/
def ReachableIndexed (treeHash : Fr254 → Fr254 → Fr254) (hash : Fr254 → Fr254 → Fr254 → Fr254)
    (treeHeight subTreeHeight : ℕ) (db : TreeDb Fr254) : Prop :=
  ∃ ops, (∀ op ∈ ops, IndexedOp.InsertsLeaves op) ∧
    (runIndexed treeHash hash treeHeight subTreeHeight ops).run TreeDb.empty = .ok () db

/-- A tree within its capacity satisfies the invariant; a tree beyond it accepts nothing more. -/
def IndexedState (treeHash : Fr254 → Fr254 → Fr254) (hash : Fr254 → Fr254 → Fr254 → Fr254)
    (treeHeight subTreeHeight : ℕ) (db : TreeDb Fr254) : Prop :=
  (∃ t, AtRest treeHash hash db t ∧ t.treeHeight = treeHeight ∧ t.subTreeHeight = subTreeHeight) ∨
    ∃ n, 2 ^ treeHeight < n ∧ HasShape db treeHeight subTreeHeight n

theorem AtRest.hasShape (h : AtRest treeHash hash db t) :
    HasShape db t.treeHeight t.subTreeHeight t.subTreeCount :=
  ⟨_, h.refines.metadata⟩

/-- What was stored was new, and the values were distinct. -/
theorem new_of_storesValues {α : Type} {x : TreeM Fr254 α} {a : α} {r : List (IndexedLeaf Fr254)}
    (hx : StoresValues l x) (hrun : x.run db = .ok a db') (hr : IsLinked db.indexedLeaves r) :
    (∀ v ∈ l, v ≠ 0 → v ∉ db.indexedLeaves.docs.map IndexedLeaf.value) ∧
      (l.filter (· ≠ 0)).Nodup := by
  obtain ⟨ps, hps, hstored⟩ := hx _ _ _ hrun
  obtain ⟨⟨r', hr'⟩, hpairs⟩ := hstored.isLinked hr
  have hnodup := hr'.nodup_values
  rw [map_value_eq, hpairs, List.map_append, hps, ← map_value_eq, List.nodup_append] at hnodup
  refine ⟨fun v hv hv0 hmem => ?_, hnodup.2.1⟩
  exact hnodup.2.2 v hmem v (List.mem_filter.2 ⟨hv, by simpa using hv0⟩) rfl

/-- A new tree has the leaf of the zero record. -/
theorem run_newIndexedTree (hzero : treeHash 0 0 = 0) (treeHeight subTreeHeight : ℕ) :
    ∃ db t, (newIndexedTree treeHash hash treeHeight subTreeHeight).run TreeDb.empty = .ok () db ∧
      AtRest treeHash hash db t ∧ t.treeHeight = treeHeight ∧ t.subTreeHeight = subTreeHeight := by
  obtain ⟨db₁, hnew, hdb₁⟩ := run_newMutableTree (F := Fr254) hzero treeHeight subTreeHeight
  have hleaves : db₁.indexedLeaves = .empty := keeps_newMutableTree _ _ _ _ _ hnew
  obtain ⟨c, hinsert⟩ : ∃ c, db₁.indexedLeaves.insertOne IndexedLeaf.default = some c :=
    ⟨⟨[.default], by simp⟩, Collection.insertOne_eq_some.2 (by
      rw [hleaves]
      exact ⟨List.not_mem_nil, rfl⟩)⟩
  have hdocs : c.docs = [.default] := by
    rw [(Collection.insertOne_eq_some.1 hinsert).2, hleaves]
    rfl
  have hleavesDb : newIndexedLeavesDb.run db₁ = .ok () { db₁ with indexedLeaves := c } := by
    simp only [newIndexedLeavesDb, EStateM.run_bind, EStateM.run_get, hinsert]
    rfl
  have hlinked : IsLinked c [.default] := isLinked_default hdocs
  have hmem : IndexedLeaf.default ∈ c.docs := by
    rw [hdocs]
    exact List.mem_cons_self
  have hentry : Leaves.withValue c 0 = some .default := hlinked.withValue_eq hmem
  have hdb₂ : Refines treeHash { db₁ with indexedLeaves := c }
      (.new treeHeight subTreeHeight) := ⟨⟨hdb₁.metadata, hdb₁.nodes⟩, hdb₁.cache⟩
  have hcache := cacheAgrees_of_empty hdb₂.cache
    (((NaiveTree.new treeHeight subTreeHeight).append [IndexedLeaf.default.leaf hash] 1).node
      treeHash)
  obtain ⟨updates, hleaf, -, hnodes⟩ := run_insertLeaf hdb₂.toHolds (Nat.two_pow_pos _) hcache
  have hpos := Nat.two_pow_pos subTreeHeight
  refine ⟨_, (NaiveTree.new treeHeight subTreeHeight).append [IndexedLeaf.default.leaf hash] 1, ?_,
    ⟨refines_commit hcache hnodes, ⟨[.default], hlinked⟩, rfl, ?_, le_rfl, fun i => ?_, ?_⟩, rfl, rfl⟩
  · simp only [newIndexedTree, EStateM.run_bind, hnew, hleavesDb, run_getLeaf, hentry, okOr,
      EStateM.run_pure, hleaf]
  · show (0 + 1) * 2 ^ subTreeHeight ≤ 2 ^ (treeHeight + subTreeHeight)
    rw [Nat.zero_add, Nat.one_mul]
    exact Nat.pow_le_pow_right (by omega) (Nat.le_add_left _ _)
  · have hleafAt : leafAt hash c i = if i = 0 then IndexedLeaf.default.leaf hash else 0 := by
      split_ifs with hi
      · rw [hi]
        exact leafAt_of_mem hmem
      · refine leafAt_of_notMem ?_
        rw [hdocs, List.map_singleton, List.mem_singleton]
        exact hi
    have hwrite : ((NaiveTree.new treeHeight subTreeHeight).append
        [IndexedLeaf.default.leaf hash] 1).leaves i =
          if i = 0 then IndexedLeaf.default.leaf hash else 0 := by
      rw [append_leaves (Nat.zero_mul _).symm]
      by_cases hi : i = 0
      · rw [hi]
        rfl
      · rw [if_neg (by rw [List.length_singleton]; omega), if_neg hi]
        rfl
    rw [hwrite, ← hleafAt]
    show leafAt hash c i = if i < (0 + 1) * 2 ^ subTreeHeight then leafAt hash c i else 0
    split_ifs with hi
    · rfl
    · rw [hleafAt, if_neg]
      rintro rfl
      exact hi (by omega)
  · intro r hr
    change r ∈ c.docs at hr
    rw [hdocs, List.mem_singleton] at hr
    rw [hr]
    show 0 < (0 + 1) * 2 ^ subTreeHeight
    omega

/-- **A batch that succeeds.**  There was room for it, its values were new, and what it returned
satisfies the laws of the circuit. -/
theorem batch_of_ok (hzero : treeHash 0 0 = 0) (hheight : t.height ≤ 32)
    (h : AtRest treeHash hash db t) {info : IMTCircuitInsertionInfo Fr254}
    (hrun : (insertNullifiersForCircuit treeHash hash l).run db = .ok info db') :
    ∃ u, AtRest treeHash hash db' u ∧
      u = { t with leaves := u.leaves, subTreeCount := t.subTreeCount + 1 } ∧
      BatchLaws treeHash hash (t.metadata treeHash) l info db'.indexedLeaves ∧
      info.oldRoot = t.node treeHash 0 ∧
      info.circuitInfo.newRoot = u.node treeHash 0 := by
  obtain ⟨hlen, hroom, -⟩ := hasShape_insertNullifiersForCircuit hrun h.hasShape
  obtain ⟨r, hr⟩ := h.linked
  obtain ⟨hnew, hdistinct⟩ :=
    new_of_storesValues (storesValues_insertNullifiersForCircuit treeHash hash l) hrun hr
  obtain ⟨info', db'', u, hrun', h', hu, hlaws, hold, hroot, -, -⟩ :=
    run_insertNullifiersForCircuit hzero h hheight hroom hlen hnew hdistinct
  rw [hrun] at hrun'
  cases hrun'
  refine ⟨u, ?_, hu, hlaws, hold, hroot⟩
  have hfirst : u.subTreeCount * 2 ^ u.subTreeHeight =
      t.subTreeCount * 2 ^ t.subTreeHeight + l.length := by
    rw [hu, hlen, Nat.add_mul, Nat.one_mul]
  rwa [AtRest, hfirst]

theorem atRest_of_batches (hzero : treeHash 0 0 = 0) (hheight : t.height ≤ 32)
    (h : AtRest treeHash hash db t) {cs : List (List Fr254)}
    {infos : List (IMTCircuitInsertionInfo Fr254)}
    (hrun : (cs.mapM (insertNullifiersForCircuit treeHash hash)).run db = .ok infos db') :
    ∃ u, AtRest treeHash hash db' u ∧ u.treeHeight = t.treeHeight ∧
      u.subTreeHeight = t.subTreeHeight := by
  induction cs generalizing db t infos with
  | nil =>
    cases hrun
    exact ⟨t, h, rfl, rfl⟩
  | cons c cs ih =>
    rw [List.mapM_cons] at hrun
    obtain ⟨info, db₁, hone, hrun⟩ := run_bind_eq_ok.1 hrun
    obtain ⟨infos', db₂, hrest, hrun⟩ := run_bind_eq_ok.1 hrun
    obtain ⟨-, rfl⟩ := run_pure_eq_ok.1 hrun
    obtain ⟨u, hu, heq, -, -, -⟩ := batch_of_ok hzero hheight h hone
    have htree : u.treeHeight = t.treeHeight := by rw [heq]
    have hsub : u.subTreeHeight = t.subTreeHeight := by rw [heq]
    have hheight' : u.height ≤ 32 := by
      rw [NaiveTree.height, htree, hsub]
      exact hheight
    obtain ⟨w, hw, htree', hsub'⟩ := ih hheight' hu hrest
    exact ⟨w, hw, htree'.trans htree, hsub'.trans hsub⟩

theorem chunks_ne_nil (hl : l ≠ []) : chunks 8 l ≠ [] := by
  rw [chunks_of_ne_nil (by omega) hl]
  exact List.cons_ne_nil _ _

theorem run_insertLeaves_nil {root : Fr254}
    (h : (insertLeaves treeHash hash []).run db = .ok root db') : db' = db := by
  have hkeeps : Keeps id (getRoot : TreeM Fr254 Fr254) := keeps_getRoot
  exact hkeeps db root db' h

theorem IndexedState.exec (hzero : treeHash 0 0 = 0) (hheight : treeHeight + subTreeHeight ≤ 32)
    (h : IndexedState treeHash hash treeHeight subTreeHeight db) {op : IndexedOp}
    (hop : op.InsertsLeaves) (hrun : (op.exec treeHash hash).run db = .ok () db') :
    IndexedState treeHash hash treeHeight subTreeHeight db' := by
  cases op with
  | storeLeaf leaf index => exact absurd hop id
  | insertLeaves l =>
    obtain ⟨root, db₁, hinsert, hpure⟩ := run_bind_eq_ok.1 hrun
    obtain ⟨-, rfl⟩ := run_pure_eq_ok.1 hpure
    by_cases hl : l = []
    · subst hl
      rwa [run_insertLeaves_nil hinsert]
    · rcases h with ⟨t, ht, rfl, rfl⟩ | ⟨n, hn, hshape⟩
      · obtain ⟨hlen, -, hshape⟩ := hasShape_insertLeaves hl hinsert ht.hasShape
        by_cases hfit : t.subTreeCount + l.length / 2 ^ t.subTreeHeight ≤ 2 ^ t.treeHeight
        · obtain ⟨r, hr⟩ := ht.linked
          obtain ⟨hnew, hdistinct⟩ :=
            new_of_storesValues (storesValues_insertLeaves treeHash hash l) hinsert hr
          obtain ⟨root', db'', u, hinsert', hu, heq, -, -⟩ :=
            run_insertLeaves ht hheight hl hlen hfit hnew hdistinct
          rw [hinsert] at hinsert'
          cases hinsert'
          exact .inl ⟨u, hu, by rw [heq], by rw [heq]⟩
        · exact .inr ⟨_, not_le.1 hfit, hshape⟩
      · exact absurd (hasShape_insertLeaves hl hinsert hshape).2.1 hn.not_ge
  | insertNullifiersForCircuit l =>
    obtain ⟨info, db₁, hinsert, hpure⟩ := run_bind_eq_ok.1 hrun
    obtain ⟨-, rfl⟩ := run_pure_eq_ok.1 hpure
    rcases h with ⟨t, ht, rfl, rfl⟩ | ⟨n, hn, hshape⟩
    · obtain ⟨u, hu, heq, -, -, -⟩ := batch_of_ok hzero hheight ht hinsert
      exact .inl ⟨u, hu, by rw [heq], by rw [heq]⟩
    · exact absurd (hasShape_insertNullifiersForCircuit hinsert hshape).2.1 hn.not_gt
  | batchInsertNullifiersWithCircuitInfo l =>
    obtain ⟨infos, db₁, hinsert, hpure⟩ := run_bind_eq_ok.1 hrun
    obtain ⟨-, rfl⟩ := run_pure_eq_ok.1 hpure
    rw [batchInsertNullifiersWithCircuitInfo] at hinsert
    by_cases hl : l = []
    · rw [if_pos (List.isEmpty_iff.2 hl)] at hinsert
      rwa [← (run_pure_eq_ok.1 hinsert).2]
    · rw [if_neg (fun hempty => hl (List.isEmpty_iff.1 hempty))] at hinsert
      rcases h with ⟨t, ht, rfl, rfl⟩ | ⟨n, hn, hshape⟩
      · obtain ⟨u, hu, htree, hsub⟩ := atRest_of_batches hzero hheight ht hinsert
        exact .inl ⟨u, hu, htree, hsub⟩
      · have hle := (hasShape_batches hinsert hshape (.inr (chunks_ne_nil hl))).1
        omega

theorem IndexedState.execAll (hzero : treeHash 0 0 = 0) (hheight : treeHeight + subTreeHeight ≤ 32)
    (h : IndexedState treeHash hash treeHeight subTreeHeight db) {ops : List IndexedOp}
    (hops : ∀ op ∈ ops, op.InsertsLeaves) (hrun : (execAll treeHash hash ops).run db = .ok () db') :
    IndexedState treeHash hash treeHeight subTreeHeight db' := by
  induction ops generalizing db with
  | nil =>
    cases hrun
    exact h
  | cons op ops ih =>
    rw [List.forall_mem_cons] at hops
    rw [Trees.execAll] at hrun
    obtain ⟨_, db₁, hop, hrest⟩ := run_bind_eq_ok.1 hrun
    exact ih (h.exec hzero hheight hops.1 hop) hops.2 hrest

/-- **Reachable trees satisfy the invariant, or are beyond their capacity.** -/
theorem ReachableIndexed.state (hzero : treeHash 0 0 = 0)
    (hheight : treeHeight + subTreeHeight ≤ 32)
    (h : ReachableIndexed treeHash hash treeHeight subTreeHeight db) :
    IndexedState treeHash hash treeHeight subTreeHeight db := by
  obtain ⟨ops, hops, hrun⟩ := h
  obtain ⟨_, db₀, hnew, hrest⟩ := run_bind_eq_ok.1 hrun
  obtain ⟨db₁, t, hnew', ht, htree, hsub⟩ :=
    @run_newIndexedTree treeHash hash hzero treeHeight subTreeHeight
  rw [hnew] at hnew'
  cases hnew'
  have hstate : IndexedState treeHash hash treeHeight subTreeHeight db₀ := .inl ⟨t, ht, htree, hsub⟩
  exact hstate.execAll hzero hheight hops hrest

/-! ### The two paths -/

theorem slots_append (start : ℕ) (hstart : start < 2 ^ 32) (a b : List Fr254) :
    slots start (a ++ b) = slots start a ++ slots ((start + a.length) % 2 ^ 32) b := by
  induction a generalizing start with
  | nil =>
    rw [List.length_nil, Nat.add_zero, Nat.mod_eq_of_lt hstart]
    rfl
  | cons v a ih =>
    have hnext := ih ((start + 1) % 2 ^ 32) (Nat.mod_lt _ (by omega))
    have hsum : ((start + 1) % 2 ^ 32 + a.length) % 2 ^ 32 =
        (start + (v :: a).length) % 2 ^ 32 := by
      rw [List.length_cons]
      omega
    rw [hsum] at hnext
    rw [List.cons_append, slots, slots]
    split_ifs
    · rw [hnext, List.cons_append]
    · rw [hnext]

/-- **Batches.**  They succeed while there is room, for new values that are distinct. -/
theorem run_batches (hzero : treeHash 0 0 = 0) (hheight : t.height ≤ 32)
    (h : AtRest treeHash hash db t) {cs : List (List Fr254)}
    (hlen : ∀ c ∈ cs, c.length = 2 ^ t.subTreeHeight)
    (hfit : t.subTreeCount + cs.length ≤ 2 ^ t.treeHeight)
    (hnew : ∀ v ∈ cs.flatten, v ≠ 0 → v ∉ db.indexedLeaves.docs.map IndexedLeaf.value)
    (hdistinct : (cs.flatten.filter (· ≠ 0)).Nodup) :
    ∃ infos db' u, (cs.mapM (insertNullifiersForCircuit treeHash hash)).run db = .ok infos db' ∧
      AtRest treeHash hash db' u ∧
      u = { t with leaves := u.leaves, subTreeCount := t.subTreeCount + cs.length } ∧
      StoredAll db.indexedLeaves (slots (t.subTreeCount * 2 ^ t.subTreeHeight) cs.flatten)
        db'.indexedLeaves := by
  induction cs generalizing db t with
  | nil => exact ⟨[], db, t, rfl, h, rfl, .nil⟩
  | cons c cs ih =>
    rw [List.forall_mem_cons] at hlen
    rw [List.length_cons] at hfit
    rw [List.flatten_cons] at hnew hdistinct
    rw [List.filter_append, List.nodup_append] at hdistinct
    obtain ⟨info, db₁, t₁, hrun, hinserting, ht₁, -, -, -, -, hstored⟩ :=
      run_insertNullifiersForCircuit hzero h hheight (by omega) hlen.1
        (fun v hv => hnew v (List.mem_append_left _ hv)) hdistinct.1
    have hcount : t₁.subTreeCount * 2 ^ t₁.subTreeHeight =
        t.subTreeCount * 2 ^ t.subTreeHeight + c.length := by
      rw [ht₁, hlen.1, Nat.add_mul, Nat.one_mul]
    have h₁ : AtRest treeHash hash db₁ t₁ := by rwa [AtRest, hcount]
    obtain ⟨r, hr⟩ := h.linked
    obtain ⟨-, hpairs⟩ := hstored.isLinked hr
    have hnew₁ : ∀ v ∈ cs.flatten, v ≠ 0 → v ∉ db₁.indexedLeaves.docs.map IndexedLeaf.value := by
      intro v hv hv0 hmem
      rw [map_value_eq, hpairs, List.map_append, map_fst_slots, ← map_value_eq,
        List.mem_append] at hmem
      rcases hmem with hmem | hmem
      · exact hnew v (List.mem_append_right _ hv) hv0 hmem
      · exact hdistinct.2.2 v hmem v (List.mem_filter.2 ⟨hv, by simpa using hv0⟩) rfl
    have htree : t₁.treeHeight = t.treeHeight := by rw [ht₁]
    have hsub : t₁.subTreeHeight = t.subTreeHeight := by rw [ht₁]
    have hnum : t₁.subTreeCount = t.subTreeCount + 1 := by rw [ht₁]
    have hheight₁ : t₁.height ≤ 32 := by
      rw [NaiveTree.height, htree, hsub]
      exact hheight
    obtain ⟨infos, db', u, hrest, hu, heq, hstored'⟩ := ih hheight₁ h₁
      (by rw [hsub]; exact hlen.2) (by rw [htree, hnum]; omega) hnew₁ hdistinct.2.1
    refine ⟨info :: infos, db', u, ?_, hu, ?_, ?_⟩
    · rw [List.mapM_cons, EStateM.run_bind, hrun]
      simp only [EStateM.run_bind, hrest]
      rfl
    · rw [heq, htree, hsub, hnum, List.length_cons]
      congr 1
      omega
    · have hlt : t.subTreeCount * 2 ^ t.subTreeHeight + c.length ≤ 2 ^ 32 := by
        have hle := h₁.first_le
        rw [hcount] at hle
        exact hle.trans (Nat.pow_le_pow_right (by omega) hheight₁)
      have hpos := Nat.two_pow_pos t.subTreeHeight
      rw [List.flatten_cons, slots_append _ (by omega)]
      refine hstored.append ?_
      by_cases hnil : cs.flatten = []
      · rw [hnil] at hstored' ⊢
        exact hstored'
      · -- there is room for another batch, so the index does not overflow
        have hpos' : 0 < cs.length := by
          refine List.length_pos_iff.2 fun hcs => hnil ?_
          rw [hcs, List.flatten_nil]
        have hroom : (t₁.subTreeCount + 1) * 2 ^ t₁.subTreeHeight ≤ 2 ^ 32 := by
          calc (t₁.subTreeCount + 1) * 2 ^ t₁.subTreeHeight
              ≤ 2 ^ t₁.treeHeight * 2 ^ t₁.subTreeHeight :=
                Nat.mul_le_mul_right _ (by rw [htree, hnum]; omega)
            _ = 2 ^ t₁.height := by rw [NaiveTree.height, pow_add]
            _ ≤ 2 ^ 32 := Nat.pow_le_pow_right (by omega) hheight₁
        rw [Nat.add_mul, Nat.one_mul, hcount, hsub] at hroom
        rw [Nat.mod_eq_of_lt (by omega), ← hcount]
        exact hstored'

/-- The state that the values and indices `pairs` of the records determine: the records are linked in
the order of their values, and the nodes are those over the leaves of the records. -/
structure Determined (treeHash : Fr254 → Fr254 → Fr254) (hash : Fr254 → Fr254 → Fr254 → Fr254)
    (height : ℕ) (pairs : List (Fr254 × ℕ)) (db : TreeDb Fr254) : Prop where
  pairs : db.indexedLeaves.docs.map IndexedLeaf.pair = pairs
  linked : ∃ records, IsLinked db.indexedLeaves records
  nodes : ∀ i, db.getNode i =
    completeNode treeHash 0 height (leafAt hash db.indexedLeaves) i

/-- Both paths succeed on `db` and leave the same records, the same nodes and the same root, and this
state is determined by the old records and the indices of the new values. -/
def PathsAgree (treeHash : Fr254 → Fr254 → Fr254) (hash : Fr254 → Fr254 → Fr254 → Fr254)
    (treeHeight subTreeCount : ℕ) (db : TreeDb Fr254) (l : List Fr254) : Prop :=
  ∃ root db₁ infos db₂, (insertLeaves treeHash hash l).run db = .ok root db₁ ∧
    (batchInsertNullifiersWithCircuitInfo treeHash hash l).run db = .ok infos db₂ ∧
    db₁.indexedLeaves = db₂.indexedLeaves ∧ (∀ i, db₁.getNode i = db₂.getNode i) ∧
    (∃ newRoot, getRoot.run db₁ = .ok newRoot db₁ ∧ getRoot.run db₂ = .ok newRoot db₂) ∧
    (l ≠ [] → Determined treeHash hash (treeHeight + 3)
      (db.indexedLeaves.docs.map IndexedLeaf.pair ++ slots (subTreeCount * 8) l) db₁)

theorem AtRest.run_getRoot (h : AtRest treeHash hash db t) :
    getRoot.run db = .ok (t.node treeHash 0) db := by
  rw [getRoot, EStateM.run_bind, run_getMetadata h.refines.metadata]
  rfl

/-- **The two paths agree if and only if the nullifiers fit into the tree.**  The records and the tree
that they lead to are determined by the records before and the indices of the new values. -/
theorem paths_agree_iff (hzero : treeHash 0 0 = 0) (hheight : treeHeight + 3 ≤ 32)
    (hdb : ReachableIndexed treeHash hash treeHeight 3 db) {metadata : TreeMetadata Fr254}
    (hmetadata : db.metadata = some metadata) (hlen : l.length % 8 = 0)
    (hnew : ∀ v ∈ l, v ≠ 0 → v ∉ db.indexedLeaves.docs.map IndexedLeaf.value)
    (hdistinct : (l.filter (· ≠ 0)).Nodup) :
    PathsAgree treeHash hash metadata.treeHeight metadata.subTreeCount db l ↔
      l = [] ∨ metadata.subTreeCount + l.length / 8 ≤ 2 ^ metadata.treeHeight := by
  by_cases hl : l = []
  · refine iff_of_true ?_ (.inl hl)
    subst hl
    have hroot : getRoot.run db = .ok metadata.root db := by
      rw [getRoot, EStateM.run_bind, run_getMetadata hmetadata]
      rfl
    exact ⟨metadata.root, db, [], db, hroot, rfl, rfl, fun _ => rfl, ⟨metadata.root, hroot, hroot⟩,
      fun hne => absurd rfl hne⟩
  · have hchunks := chunks_spec (by omega : 0 < 8) hlen
    have hbatch : batchInsertNullifiersWithCircuitInfo treeHash hash l =
        (chunks 8 l).mapM (insertNullifiersForCircuit treeHash hash) :=
      if_neg fun hempty => hl (List.isEmpty_iff.1 hempty)
    constructor
    · rintro ⟨-, -, infos, db₂, -, hrun, -⟩
      rw [hbatch] at hrun
      have hshape : HasShape db metadata.treeHeight metadata.subTreeHeight metadata.subTreeCount :=
        ⟨metadata.root, hmetadata⟩
      have hle := (hasShape_batches hrun hshape (.inr (chunks_ne_nil hl))).1
      rw [hchunks.1] at hle
      exact .inr hle
    · intro hfit
      replace hfit := hfit.resolve_left hl
      rcases hdb.state hzero hheight with ⟨t, ht, rfl, hsub⟩ | ⟨n, hn, root, hroot⟩
      · obtain rfl := Option.some_inj.1 (ht.refines.metadata.symm.trans hmetadata)
        have hpow : 2 ^ t.subTreeHeight = 8 := by
          rw [hsub]
          rfl
        have hfit' : t.subTreeCount + l.length / 2 ^ t.subTreeHeight ≤ 2 ^ t.treeHeight := by
          rw [hpow]
          exact hfit
        have hheight' : t.height ≤ 32 := by
          rw [NaiveTree.height, hsub]
          exact hheight
        obtain ⟨root, db₁, u₁, hrun₁, hu₁, heq₁, hstored₁, -⟩ :=
          run_insertLeaves ht hheight' hl (by rw [hpow]; exact hlen) hfit' hnew hdistinct
        obtain ⟨infos, db₂, u₂, hrun₂, hu₂, heq₂, hstored₂⟩ :=
          run_batches hzero hheight' ht (by rw [hpow]; exact hchunks.2.1)
            (by rw [hchunks.1]; exact hfit) (by rw [hchunks.2.2]; exact hnew)
            (by rw [hchunks.2.2]; exact hdistinct)
        rw [hchunks.2.2] at hstored₂
        rw [hchunks.1] at heq₂
        -- the same values were stored with the same indices, so the trees have the same leaves
        have hleaves : db₁.indexedLeaves = db₂.indexedLeaves := hstored₁.unique hstored₂
        have htrees : u₁ = u₂ := by
          have hcount : u₁.subTreeCount * 2 ^ u₁.subTreeHeight =
              u₂.subTreeCount * 2 ^ u₂.subTreeHeight := by
            rw [heq₁, heq₂, hpow]
          have hsame : u₁.leaves = u₂.leaves := by
            funext i
            rw [hu₁.leaves, hu₂.leaves, hleaves, hcount]
          rw [heq₁, heq₂, hsame, hpow]
        subst htrees
        refine ⟨root, db₁, infos, db₂, hrun₁, hbatch ▸ hrun₂, hleaves, fun i => ?_,
          ⟨_, hu₁.run_getRoot, hu₂.run_getRoot⟩, fun _ => ⟨?_, hu₁.linked, fun i => ?_⟩⟩
        · rw [hu₁.refines.getNode, hu₂.refines.getNode]
        · obtain ⟨r, hr⟩ := ht.linked
          rw [(hstored₁.isLinked hr).2, hpow]
          rfl
        · have hheights : u₁.height = t.treeHeight + 3 := by rw [heq₁, NaiveTree.height, hsub]
          rw [hu₁.refines.getNode, NaiveTree.node, hu₁.leaves_eq, hheights]
          rfl
      · rw [hroot] at hmetadata
        cases hmetadata
        dsimp only at hfit
        omega

/-- A new tree with the height `treeHeight`, and sub-trees of eight leaves. -/
def sampleIndexedTree (treeHeight : ℕ) : TreeDb Fr254 :=
  match (runIndexed sampleHash sampleLeafHash treeHeight 3 []).run TreeDb.empty with
  | .ok _ db => db
  | .error _ db => db

theorem reachable_sampleIndexedTree {treeHeight : ℕ}
    (h : Succeeds (runIndexed sampleHash sampleLeafHash treeHeight 3 []) .empty = true) :
    ReachableIndexed sampleHash sampleLeafHash treeHeight 3 (sampleIndexedTree treeHeight) := by
  obtain ⟨db, hdb⟩ := Succeeds.exists h
  refine ⟨[], fun op hop => absurd hop List.not_mem_nil, ?_⟩
  rw [sampleIndexedTree, hdb]

/-- The nullifiers of one batch. -/
def sampleNullifiers : List Fr254 := [(5 : ℕ), 0, 0, (8 : ℕ), 0, 0, 0, 0]

theorem paths_agree_iff_sample :
    ∃ metadata, (sampleIndexedTree 1).metadata = some metadata ∧
      PathsAgree sampleHash sampleLeafHash metadata.treeHeight metadata.subTreeCount
        (sampleIndexedTree 1) sampleNullifiers := by
  have hreachable : ReachableIndexed sampleHash sampleLeafHash 1 3 (sampleIndexedTree 1) :=
    reachable_sampleIndexedTree (by decide +kernel)
  have hshape : shape (sampleIndexedTree 1) = some (1, 3, 1) := by decide +kernel
  obtain ⟨root, hroot⟩ := hasShape_iff.2 hshape
  have hnew : (sampleNullifiers.all fun v =>
      v = 0 ∨ v ∉ (sampleIndexedTree 1).indexedLeaves.docs.map IndexedLeaf.value) = true := by
    decide +kernel
  have hfit : 1 + sampleNullifiers.length / 8 ≤ 2 ^ 1 := by decide
  refine ⟨_, hroot, (paths_agree_iff (by decide +kernel) (by omega) hreachable hroot (by rfl)
    (fun v hv hv0 => ?_) (by decide +kernel)).2 (.inr hfit)⟩
  exact (of_decide_eq_true (List.all_eq_true.1 hnew v hv)).resolve_left hv0

theorem succeeds_of_run {α : Type} {x : TreeM Fr254 α} {db db' : TreeDb Fr254} {a : α}
    (h : x.run db = .ok a db') : Succeeds (x >>= fun _ => pure ()) db = true := by
  rw [Succeeds, EStateM.run_bind, h]
  rfl

/-- A tree whose only sub-tree is taken: `insert_leaves` writes over its nodes, and the batch fails. -/
theorem full_tree_paths_differ :
    ReachableIndexed sampleHash sampleLeafHash 0 3 (sampleIndexedTree 0) ∧
      Succeeds (insertLeaves sampleHash sampleLeafHash sampleNullifiers >>= fun _ => pure ())
        (sampleIndexedTree 0) = true ∧
      ¬ PathsAgree sampleHash sampleLeafHash 0 1 (sampleIndexedTree 0) sampleNullifiers := by
  refine ⟨reachable_sampleIndexedTree (by decide +kernel), by decide +kernel, ?_⟩
  rintro ⟨-, -, infos, db₂, -, hbatch, -⟩
  have hfails : Succeeds (batchInsertNullifiersWithCircuitInfo sampleHash sampleLeafHash
      sampleNullifiers >>= fun _ => pure ()) (sampleIndexedTree 0) = false := by
    decide +kernel
  exact Bool.false_ne_true (hfails.symm.trans (succeeds_of_run hbatch))

end Trees

end Nightfall
