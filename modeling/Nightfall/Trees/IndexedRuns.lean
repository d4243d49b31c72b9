import Nightfall.Trees.LinkedLeaves
import Nightfall.Trees.MutableRuns

/-!
# Runs of an indexed tree

Every insertion stores its values that are not zero, one by one (`StoredAll`); the tree operations
leave the records alone.  So the records are a sorted linked list of the values that were inserted
after every run of insertions that succeed (`indexed_leaves_linked`).
-/

namespace Nightfall

namespace Trees

open Stateful

/-! ### Storing several leaves -/

/-- Values were stored one after the other, each with its index. -/
inductive StoredAll : Leaves → List (Fr254 × ℕ) → Leaves → Prop
  | nil {c : Leaves} : StoredAll c [] c
  | cons {c d e : Leaves} {v : Fr254} {i : ℕ} {ps : List (Fr254 × ℕ)} :
      Stored c v i d → StoredAll d ps e → StoredAll c ((v, i) :: ps) e

theorem StoredAll.append {c d e : Leaves} {ps qs : List (Fr254 × ℕ)} (h : StoredAll c ps d)
    (h' : StoredAll d qs e) : StoredAll c (ps ++ qs) e := by
  induction h with
  | nil => exact h'
  | cons hstored _ ih => exact .cons hstored (ih h')

/-- The values that are not zero, with consecutive indices from `start` on. -/
def slots : ℕ → List Fr254 → List (Fr254 × ℕ)
  | _, [] => []
  | start, v :: vs =>
    if v ≠ 0 then (v, start) :: slots ((start + 1) % 2 ^ 32) vs else slots ((start + 1) % 2 ^ 32) vs

theorem map_fst_slots (start : ℕ) (l : List Fr254) :
    (slots start l).map Prod.fst = l.filter (· ≠ 0) := by
  induction l generalizing start with
  | nil => rfl
  | cons v vs ih =>
    rw [slots]
    split_ifs with h
    · rw [List.map_cons, ih, List.filter_cons_of_pos (by simpa using h)]
    · rw [ih, List.filter_cons_of_neg (by simpa using h)]

theorem StoredAll.isLinked {c d : Leaves} {ps : List (Fr254 × ℕ)} {l : List (IndexedLeaf Fr254)}
    (h : StoredAll c ps d) (hc : IsLinked c l) :
    (∃ l', IsLinked d l') ∧
      d.docs.map IndexedLeaf.pair = c.docs.map IndexedLeaf.pair ++ ps := by
  induction h generalizing l with
  | nil => exact ⟨⟨l, hc⟩, by simp⟩
  | cons hstored _ ih =>
    obtain ⟨l', hd⟩ := hc.stored hstored
    obtain ⟨hlinked, hpairs⟩ := ih hd
    refine ⟨hlinked, ?_⟩
    rw [hpairs, hstored.pairs hc, List.append_assoc, List.singleton_append]

theorem StoredAll.unique {c d d' : Leaves} {ps : List (Fr254 × ℕ)} (h : StoredAll c ps d)
    (h' : StoredAll c ps d') : d = d' := by
  induction h with
  | nil =>
    cases h'
    rfl
  | cons hstored _ ih =>
    cases h' with
    | cons hstored' hrest =>
      obtain rfl := hstored.unique hstored'
      exact ih hrest

/-! ### Operations that leave the records alone -/

section Keeps

variable {β : Type} {p : TreeDb Fr254 → β}

theorem keeps_throwErr {α : Type} (e : MerkleTreeError) : Keeps p (throwErr e : TreeM Fr254 α) :=
  .throw _

theorem keeps_getMetadata : Keeps p (getMetadata : TreeM Fr254 _) := by
  refine .bind .get fun db => ?_
  cases db.metadata with
  | none => exact keeps_throwErr _
  | some metadata => exact .pure metadata

theorem keeps_okOr {α : Type} (e : MerkleTreeError) (o : Option α) : Keeps p (okOr e o) := by
  cases o with
  | none => exact keeps_throwErr e
  | some a => exact .pure a

theorem keeps_findMetadata : Keeps p findMetadata := .bind .get fun _ => keeps_okOr _ _

theorem keeps_getLeaf (value nextValue : Option Fr254) : Keeps p (getLeaf value nextValue) :=
  .bind .get fun _ => .pure _

theorem keeps_getLowLeaf (v : Fr254) : Keeps p (getLowLeaf v) := .bind .get fun _ => .pure _

theorem keeps_getRoot : Keeps p (getRoot : TreeM Fr254 _) :=
  .bind keeps_getMetadata fun _ => .pure _

theorem keeps_getMembershipProof (leaf : Option Fr254) (leafIndex : Option ℕ) :
    Keeps p (getMembershipProof leaf leafIndex) := by
  refine .bind keeps_getMetadata fun metadata => .bind .get fun db => ?_
  dsimp only
  cases leafNodeIndex db (metadata.treeHeight + metadata.subTreeHeight) leaf leafIndex with
  | error e => exact keeps_throwErr e
  | ok index => exact .ite (keeps_throwErr _) (.pure _)

theorem keeps_getNonMembershipProof (hash : Fr254 → Fr254 → Fr254 → Fr254) (v : Fr254) :
    Keeps p (getNonMembershipProof hash v) := by
  refine .ite (keeps_throwErr _) (.bind (keeps_getLeaf _ _) fun existing => ?_)
  refine .ite (keeps_throwErr _) (.bind keeps_findMetadata fun metadata => ?_)
  exact .bind (keeps_getLowLeaf _) fun low => .bind (keeps_okOr _ _) fun low' =>
    .bind .get fun db => .pure _

end Keeps

section Leaves

variable (treeHash : Fr254 → Fr254 → Fr254) (hash : Fr254 → Fr254 → Fr254 → Fr254)

theorem keeps_setNodes (updateTree : Bool) (updates : List (Node Fr254)) :
    Keeps TreeDb.indexedLeaves (setNodes updateTree updates) := by
  refine .modify fun db => ?_
  split_ifs
  · rfl
  · rfl

theorem keeps_flushCache : Keeps TreeDb.indexedLeaves (flushCache : TreeM Fr254 Unit) :=
  .modify fun _ => rfl

theorem keeps_replaceMetadata (metadata : TreeMetadata Fr254) :
    Keeps TreeDb.indexedLeaves (replaceMetadata metadata) :=
  .modify fun _ => rfl

theorem keeps_insertLeaf (leaf : Fr254) (updateTree : Bool) :
    Keeps TreeDb.indexedLeaves (insertLeaf treeHash leaf updateTree) := by
  refine .bind keeps_getMetadata fun metadata => .bind .get fun db =>
    .bind (keeps_setNodes _ _) fun _ => ?_
  cases updateTree with
  | true => exact .bind (keeps_replaceMetadata _) fun _ => .bind keeps_flushCache fun _ => .pure _
  | false => exact .pure _

theorem keeps_appendSubTrees (leaves : List Fr254) (updateTree : Bool) :
    Keeps TreeDb.indexedLeaves (appendSubTrees treeHash leaves updateTree) := by
  refine .bind keeps_getMetadata fun metadata => ?_
  refine .ite (keeps_throwErr _) (.ite (.pure _) (.ite (keeps_throwErr _) ?_))
  refine .bind (.foldlM (fun acc chunk => ?_) _ _) fun appended => ?_
  · exact .bind .get fun db => .bind (keeps_setNodes _ _) fun _ => .pure _
  · exact .ite (.bind (keeps_replaceMetadata _) fun _ => .bind keeps_flushCache fun _ => .pure _)
      (.pure _)

theorem keeps_updateSubTree (subTreeIndex : ℕ) (leaves : List Fr254) (updateTree : Bool) :
    Keeps TreeDb.indexedLeaves (updateSubTree treeHash subTreeIndex leaves updateTree) := by
  refine .bind keeps_getMetadata fun metadata => ?_
  refine .ite (keeps_throwErr _) (.ite (keeps_throwErr _) (.ite (keeps_throwErr _)
    (.ite (keeps_throwErr _) (.bind .get fun db => .ite (.throw _) ?_))))
  refine .bind (keeps_setNodes _ _) fun _ => ?_
  cases updateTree with
  | true => exact .bind keeps_flushCache fun _ => .bind (keeps_replaceMetadata _) fun _ => .pure _
  | false => exact .bind (keeps_replaceMetadata _) fun _ => .pure _

theorem keeps_insertForCircuit (commitments : List Fr254) :
    Keeps TreeDb.indexedLeaves (insertForCircuit treeHash commitments) := by
  refine .bind keeps_getMetadata fun metadata => .ite (keeps_throwErr _) ?_
  exact .bind (keeps_getMembershipProof _ _) fun proof =>
    .bind (keeps_appendSubTrees treeHash _ _) fun appended => .pure _

end Leaves

/-! ### What the insertions store -/

section Stores

variable (treeHash : Fr254 → Fr254 → Fr254) (hash : Fr254 → Fr254 → Fr254 → Fr254)

/-- The computation stores the values of `ps`, with their indices. -/
abbrev Stores {α : Type} (ps : List (Fr254 × ℕ)) (x : TreeM Fr254 α) : Prop :=
  Changes TreeDb.indexedLeaves (fun c d => StoredAll c ps d) x

theorem Stores.bind {α β : Type} {ps qs : List (Fr254 × ℕ)} {x : TreeM Fr254 α}
    {f : α → TreeM Fr254 β} (hx : Stores ps x) (hf : ∀ a, Stores qs (f a)) :
    Stores (ps ++ qs) (x >>= f) :=
  (Changes.bind hx hf).imp fun _ _ ⟨_, hps, hqs⟩ => hps.append hqs

theorem Stores.nil {α : Type} {x : TreeM Fr254 α} (hx : Keeps TreeDb.indexedLeaves x) :
    Stores [] x :=
  .of_keeps hx fun _ => .nil

theorem stores_storeLeaf (v : Fr254) (i : ℕ) : Stores [(v, i)] (storeLeaf v (some i)) := by
  intro db r db' h
  obtain ⟨-, c, hc, rfl⟩ := run_storeLeaf_eq_ok.1 h
  exact .cons hc .nil

theorem stores_storeLeaves (start : ℕ) (l : List Fr254) :
    Stores (slots start l) (storeLeaves start l) := by
  induction l generalizing start with
  | nil => exact Stores.nil (.pure _)
  | cons v vs ih =>
    rw [storeLeaves, slots]
    split_ifs with h
    · exact Stores.bind (stores_storeLeaf v start) fun _ => .after (keeps_okOr _ _) fun _ => ih _
    · exact ih _

theorem stores_insertNullifier (metadata : TreeMetadata Fr254) (firstIndex initialIndex : ℕ)
    (v : Fr254) : Stores (slots initialIndex [v])
      (insertNullifier treeHash hash metadata firstIndex initialIndex v) := by
  refine .after (keeps_getLeaf _ _) fun existing => .ite (fun _ => .throw _) fun _ =>
    .ite (fun hv => ?_) fun hv => ?_
  · have hslots : slots initialIndex [v] = [(v, initialIndex)] := by simp [slots, hv]
    rw [hslots]
    refine .after (keeps_getLowLeaf _) fun low => .after (keeps_okOr _ _) fun low' =>
      .ite (fun _ => ?_) fun _ => ?_
    · refine .after (keeps_getNonMembershipProof _ _) fun proof =>
        .before (stores_storeLeaf _ _) fun _ => ?_
      refine .bind (keeps_okOr _ _) fun _ => .bind (keeps_getLeaf _ _) fun updated => ?_
      exact .bind (keeps_okOr _ _) fun updated' => .bind (keeps_updateSubTree treeHash _ _ _) fun _ =>
        .pure _
    · exact .before (stores_storeLeaf _ _) fun _ => .bind (keeps_okOr _ _) fun _ => .pure _
  · have hslots : slots initialIndex [v] = [] := by simp [slots, hv]
    rw [hslots]
    exact Stores.nil (.pure _)

theorem slots_cons (start : ℕ) (v : Fr254) (vs : List Fr254) :
    slots start (v :: vs) = slots start [v] ++ slots ((start + 1) % 2 ^ 32) vs := by
  simp only [slots]
  split_ifs
  · rfl
  · rfl

theorem stores_insertEach (metadata : TreeMetadata Fr254) (firstIndex initialIndex : ℕ)
    (l : List Fr254) :
    Stores (slots initialIndex l) (insertEach treeHash hash metadata firstIndex initialIndex l) := by
  induction l generalizing initialIndex with
  | nil => exact Stores.nil (.pure _)
  | cons v vs ih =>
    rw [insertEach, slots_cons]
    exact .bind (stores_insertNullifier treeHash hash metadata firstIndex initialIndex v) fun _ =>
      .before (ih _) fun _ => .pure _

theorem keeps_checkNew {β : Type} {p : TreeDb Fr254 → β} (l : List Fr254) : Keeps p (checkNew l) := by
  induction l with
  | nil => exact .pure _
  | cons v vs ih => exact .bind (keeps_getLeaf _ _) fun _ => .ite (keeps_throwErr _) ih

/-- The values of `l` that are not zero are stored, with some indices. -/
def StoresValues {α : Type} (l : List Fr254) (x : TreeM Fr254 α) : Prop :=
  Changes TreeDb.indexedLeaves
    (fun c d => ∃ ps, ps.map Prod.fst = l.filter (· ≠ 0) ∧ StoredAll c ps d) x

theorem Stores.values {α : Type} {start : ℕ} {l : List Fr254} {x : TreeM Fr254 α}
    (hx : Stores (slots start l) x) : StoresValues l x :=
  Changes.imp hx fun _ _ h => ⟨_, map_fst_slots start l, h⟩

theorem storesValues_insertLeaves (l : List Fr254) :
    StoresValues l (insertLeaves treeHash hash l) := by
  refine .ite (fun hl => ?_) fun _ => ?_
  · rw [List.isEmpty_iff.1 hl]
    exact .of_keeps keeps_getRoot fun _ => ⟨[], rfl, .nil⟩
  · refine .after (keeps_checkNew l) fun _ =>
      .after (.mapM (fun _ => keeps_getLowLeaf _) l) fun lows => ?_
    refine .after keeps_findMetadata fun metadata =>
      .before (Stores.values (stores_storeLeaves _ l)) fun _ => ?_
    refine .bind (.mapM (fun v => .bind (keeps_getLeaf _ _) fun _ => keeps_okOr _ _) l) fun leaves =>
      .bind (keeps_appendSubTrees treeHash _ _) fun _ => ?_
    refine .bind (.mapM (fun v => ?_) _) fun infos =>
      .foldlM (fun _ info => keeps_updateSubTree treeHash _ _ _) _ _
    exact .bind (keeps_getLeaf _ _) fun _ => .bind (keeps_okOr _ _) fun _ => .pure _

theorem keeps_getPendingInsert {β : Type} {p : TreeDb Fr254 → β} (v : Fr254) :
    Keeps p (getPendingInsert v) :=
  .ite (.bind (keeps_getLeaf _ _) fun _ => .bind (keeps_okOr _ _) fun _ => .pure _) (.pure _)

theorem storesValues_insertNullifiersForCircuit (l : List Fr254) :
    StoresValues l (insertNullifiersForCircuit treeHash hash l) := by
  refine .after keeps_findMetadata fun metadata => .ite (fun _ => .throw _) fun _ => ?_
  refine .before (Stores.values (stores_insertEach treeHash hash metadata _ _ l)) fun _ => ?_
  exact .bind (.mapM keeps_getPendingInsert l) fun _ =>
    .bind (keeps_insertForCircuit treeHash _) fun _ => .pure _

theorem StoresValues.mapM {α : Type} {f : List Fr254 → TreeM Fr254 α}
    (hf : ∀ l, StoresValues l (f l)) (ls : List (List Fr254)) :
    StoresValues ls.flatten (ls.mapM f) := by
  induction ls with
  | nil => exact .of_keeps (.pure _) fun _ => ⟨[], rfl, .nil⟩
  | cons l ls ih =>
    rw [List.mapM_cons]
    refine (Changes.bind (hf l) fun _ => Changes.before ih fun _ => .pure _).imp ?_
    rintro c e ⟨d, ⟨ps, hps, hcd⟩, qs, hqs, hde⟩
    refine ⟨ps ++ qs, ?_, hcd.append hde⟩
    rw [List.map_append, hps, hqs, List.flatten_cons, List.filter_append]

theorem storesValues_batchInsertNullifiersWithCircuitInfo (l : List Fr254) :
    StoresValues l (batchInsertNullifiersWithCircuitInfo treeHash hash l) := by
  refine .ite (fun hl => ?_) fun _ => ?_
  · rw [List.isEmpty_iff.1 hl]
    exact .of_keeps (.pure _) fun _ => ⟨[], rfl, .nil⟩
  · have h := StoresValues.mapM (storesValues_insertNullifiersForCircuit treeHash hash) (chunks 8 l)
    rwa [flatten_chunks (by omega)] at h

theorem storesValues_storeLeaf (v : Fr254) (index : Option ℕ) :
    Changes TreeDb.indexedLeaves (fun c d => ∃ i, StoredAll c [(v, i)] d) (storeLeaf v index) := by
  intro db r db' h
  obtain ⟨-, c, hc, rfl⟩ := run_storeLeaf_eq_ok.1 h
  exact ⟨_, .cons hc .nil⟩

end Stores

/-! ### Runs -/

/-- An insertion into an indexed tree. -/
inductive IndexedOp
  | storeLeaf (leaf : Fr254) (index : Option ℕ)
  | insertLeaves (innerLeafValues : List Fr254)
  | insertNullifiersForCircuit (leaves : List Fr254)
  | batchInsertNullifiersWithCircuitInfo (nullifiers : List Fr254)
  deriving DecidableEq, Repr

/-- The values that an insertion inserts. -/
def IndexedOp.inserted : IndexedOp → List Fr254
  | .storeLeaf leaf _ => [leaf]
  | .insertLeaves innerLeafValues => innerLeafValues.filter (· ≠ 0)
  | .insertNullifiersForCircuit leaves => leaves.filter (· ≠ 0)
  | .batchInsertNullifiersWithCircuitInfo nullifiers => nullifiers.filter (· ≠ 0)

section Runs

variable (treeHash : Fr254 → Fr254 → Fr254) (hash : Fr254 → Fr254 → Fr254 → Fr254)

/-- Execute an insertion. -/
def IndexedOp.exec : IndexedOp → TreeM Fr254 Unit
  | .storeLeaf leaf index => do
    let _ ← Trees.storeLeaf leaf index
    pure ()
  | .insertLeaves innerLeafValues => do
    let _ ← Trees.insertLeaves treeHash hash innerLeafValues
    pure ()
  | .insertNullifiersForCircuit leaves => do
    let _ ← Trees.insertNullifiersForCircuit treeHash hash leaves
    pure ()
  | .batchInsertNullifiersWithCircuitInfo nullifiers => do
    let _ ← Trees.batchInsertNullifiersWithCircuitInfo treeHash hash nullifiers
    pure ()

/-- Execute insertions one after the other. -/
def execAll : List IndexedOp → TreeM Fr254 Unit
  | [] => pure ()
  | op :: ops => do
    op.exec treeHash hash
    execAll ops

/-- A new indexed tree, and insertions. -/
def runIndexed (treeHeight subTreeHeight : ℕ) (ops : List IndexedOp) : TreeM Fr254 Unit := do
  newIndexedTree treeHash hash treeHeight subTreeHeight
  execAll treeHash hash ops

theorem storesValues_exec (op : IndexedOp) :
    Changes TreeDb.indexedLeaves (fun c d => ∃ ps, ps.map Prod.fst = op.inserted ∧ StoredAll c ps d)
      (op.exec treeHash hash) := by
  cases op with
  | storeLeaf leaf index =>
    exact .before (.imp (storesValues_storeLeaf leaf index) fun _ _ ⟨i, h⟩ => ⟨[(leaf, i)], rfl, h⟩)
      fun _ => .pure _
  | insertLeaves l => exact .before (storesValues_insertLeaves treeHash hash l) fun _ => .pure _
  | insertNullifiersForCircuit l =>
    exact .before (storesValues_insertNullifiersForCircuit treeHash hash l) fun _ => .pure _
  | batchInsertNullifiersWithCircuitInfo l =>
    exact .before (storesValues_batchInsertNullifiersWithCircuitInfo treeHash hash l) fun _ => .pure _

theorem storesValues_execAll (ops : List IndexedOp) :
    Changes TreeDb.indexedLeaves
      (fun c d => ∃ ps, ps.map Prod.fst = ops.flatMap IndexedOp.inserted ∧ StoredAll c ps d)
      (execAll treeHash hash ops) := by
  induction ops with
  | nil => exact .of_keeps (.pure _) fun _ => ⟨[], rfl, .nil⟩
  | cons op ops ih =>
    rw [execAll]
    refine (Changes.bind (storesValues_exec treeHash hash op) fun _ => ih).imp ?_
    rintro c e ⟨d, ⟨ps, hps, hcd⟩, qs, hqs, hde⟩
    exact ⟨ps ++ qs, by rw [List.map_append, hps, hqs, List.flatMap_cons], hcd.append hde⟩

theorem keeps_newMutableTree (treeHeight subTreeHeight : ℕ) :
    Keeps TreeDb.indexedLeaves (newMutableTree treeHeight subTreeHeight : TreeM Fr254 Unit) := by
  intro db a db' h
  cases hmetadata : db.metadata with
  | none =>
    simp only [newMutableTree, EStateM.run_bind, EStateM.run_get, hmetadata] at h
    cases h
    rfl
  | some metadata =>
    simp only [newMutableTree, EStateM.run_bind, EStateM.run_get, hmetadata] at h
    cases h

theorem newIndexedTree_leaves (treeHeight subTreeHeight : ℕ) :
    Changes TreeDb.indexedLeaves (fun c d => c = .empty → d.docs = [.default])
      (newIndexedTree treeHash hash treeHeight subTreeHeight) := by
  refine .after (keeps_newMutableTree _ _) fun _ => .before ?_ fun _ => ?_
  · intro db a db' h hempty
    have hinsert : db.indexedLeaves.insertOne .default = some ⟨[.default], by simp⟩ :=
      Collection.insertOne_eq_some.2 (by rw [hempty]; exact ⟨List.not_mem_nil, rfl⟩)
    simp only [newIndexedLeavesDb, EStateM.run_bind, EStateM.run_get, hinsert] at h
    cases h
    rfl
  · exact .bind (keeps_getLeaf _ _) fun _ => .bind (keeps_okOr _ _) fun _ =>
      .bind (keeps_insertLeaf treeHash _ _) fun _ => .pure _

variable {treeHash hash}

/-- **The records of an indexed tree are a sorted linked list.**  After a new tree and insertions that
succeed they are the zero record and one record for each value that was inserted.  Each record names
the one with the next larger value, beginning with the zero record, and the largest names zeros; and
`get_low_leaf` finds the one record below a value that isn't there and whose next value is above it
or zero. -/
theorem indexed_leaves_linked {treeHeight subTreeHeight : ℕ} {ops : List IndexedOp}
    {db : TreeDb Fr254}
    (h : (runIndexed treeHash hash treeHeight subTreeHeight ops).run TreeDb.empty = .ok () db) :
    db.indexedLeaves.docs.map IndexedLeaf.value = 0 :: ops.flatMap IndexedOp.inserted ∧
      (db.indexedLeaves.docs.map IndexedLeaf.value).Nodup ∧
      (db.indexedLeaves.docs.map IndexedLeaf.id).Nodup ∧
      (∃ zero l, db.indexedLeaves.docs.Perm (zero :: l) ∧ zero.value = 0 ∧ zero.id = 0 ∧
        SortedLinks IndexedLeaf.rank IndexedLeaf.Names (zero :: l)) ∧
      ∀ v ≠ 0, v ∉ db.indexedLeaves.docs.map IndexedLeaf.value →
        ∃ low ∈ db.indexedLeaves.docs, (getLowLeaf v).run db = .ok (some low) db ∧
          ∀ r ∈ db.indexedLeaves.docs, r = low ↔
            r.value.val < v.val ∧ (v.val < r.nextValue.val ∨ r.nextValue = 0) := by
  obtain ⟨_, new, hnew, hops⟩ := run_bind_eq_ok.1 h
  have hdefault := newIndexedTree_leaves treeHash hash _ _ _ _ _ hnew rfl
  obtain ⟨ps, hps, hstored⟩ := storesValues_execAll treeHash hash ops _ _ _ hops
  obtain ⟨⟨l, hl⟩, hpairs⟩ := hstored.isLinked (isLinked_default hdefault)
  rw [hdefault] at hpairs
  have hvalues : db.indexedLeaves.docs.map IndexedLeaf.value = 0 :: ops.flatMap IndexedOp.inserted := by
    rw [map_value_eq, hpairs, List.map_append, hps]
    rfl
  have hindices : db.indexedLeaves.docs.map IndexedLeaf.id = 0 :: ps.map Prod.snd := by
    rw [map_id_eq, hpairs, List.map_append]
    rfl
  refine ⟨hvalues, hl.nodup_values, db.indexedLeaves.nodup, ?_, fun v hv hvnew => ?_⟩
  · -- the first record is the least one
    cases hdocs : db.indexedLeaves.docs with
    | nil => simp [hdocs] at hvalues
    | cons first rest =>
      rw [hdocs] at hvalues hindices
      have hfirst : first ∈ db.indexedLeaves.docs := by simp [hdocs]
      have hvalue : first.value = 0 := (List.cons.inj hvalues).1
      have hid : first.id = 0 := (List.cons.inj hindices).1
      cases l with
      | nil => exact absurd (hl.perm.mem_iff.1 hfirst) List.not_mem_nil
      | cons zero l =>
        have hzero : zero = first := by
          rcases List.mem_cons.1 (hl.perm.mem_iff.1 hfirst) with heq | hmem
          · exact heq.symm
          · have hlt := (List.pairwise_cons.1 hl.linked.sorted).1 first hmem
            have hrank : first.rank = 0 := by rw [IndexedLeaf.rank, hvalue, ZMod.val_zero]
            rw [hrank] at hlt
            exact absurd hlt (Nat.not_lt_zero _)
        rw [hzero] at hl
        exact ⟨first, l, hdocs ▸ hl.perm, hvalue, hid, hl.linked⟩
  · obtain ⟨low, hlow, huniq⟩ := hl.low hv hvnew
    refine ⟨low, (low_some hlow).1, ?_, huniq⟩
    rw [run_getLowLeaf, hlow]

end Runs

/-- Insertions of every kind into a tree with room for four sub-trees of eight leaves. -/
def sampleInsertions : List IndexedOp :=
  [.storeLeaf (50 : ℕ) (some 30), .insertLeaves [(7 : ℕ), 0, 0, 0, 0, 0, 0, (3 : ℕ)],
    .insertNullifiersForCircuit [0, (8 : ℕ), 0, 0, 0, 0, 0, 0],
    .batchInsertNullifiersWithCircuitInfo [(1 : ℕ), 0, 0, 0, 0, 0, 0, 0]]

/-- A hash of three field elements. -/
def sampleLeafHash (a b c : Fr254) : Fr254 :=
  (3 : ℕ) * a + (5 : ℕ) * b + (7 : ℕ) * c + (11 : ℕ)

/-- The computation succeeds. -/
def Succeeds (x : TreeM Fr254 Unit) (db : TreeDb Fr254) : Bool :=
  match x.run db with
  | .ok _ _ => true
  | .error _ _ => false

theorem Succeeds.exists {x : TreeM Fr254 Unit} {db : TreeDb Fr254} (h : Succeeds x db = true) :
    ∃ db', x.run db = .ok () db' := by
  rw [Succeeds] at h
  cases hrun : x.run db with
  | ok a db' => exact ⟨db', rfl⟩
  | error e db' =>
    rw [hrun] at h
    cases h

theorem indexed_leaves_linked_sample :
    ∃ db, (runIndexed sampleHash sampleLeafHash 2 3 sampleInsertions).run TreeDb.empty = .ok () db ∧
      db.indexedLeaves.docs.map IndexedLeaf.value =
        0 :: sampleInsertions.flatMap IndexedOp.inserted := by
  have hrun : Succeeds (runIndexed sampleHash sampleLeafHash 2 3 sampleInsertions) .empty = true := by
    decide +kernel
  obtain ⟨db, hdb⟩ := Succeeds.exists hrun
  exact ⟨db, hdb, (indexed_leaves_linked hdb).1⟩

end Trees

end Nightfall
