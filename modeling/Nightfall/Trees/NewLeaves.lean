import Nightfall.Trees.IndexedRuns

/-!
# Insertion of new leaves

An insertion of nullifiers for a circuit fails with `LeafExists` if one of them is in the tree already
or occurs twice.  It is the only reason: with new and distinct nullifiers the insertion may fail
otherwise, but not so (`batchInsertNullifiers_ne_leafExists`).
-/

namespace Nightfall

namespace Trees

open Stateful

/-- `x` never fails with `LeafExists`. -/
abbrev NeverExists {α : Type} (x : TreeM Fr254 α) : Prop := Avoids (.err .leafExists) x

section Operations

variable (treeHash : Fr254 → Fr254 → Fr254) (hash : Fr254 → Fr254 → Fr254 → Fr254)

theorem neverExists_throwErr {α : Type} {e : MerkleTreeError} (h : e ≠ .leafExists) :
    NeverExists (throwErr e : TreeM Fr254 α) := by
  refine .throw ?_
  intro heq
  injection heq with heq
  exact h heq

theorem neverExists_okOr {α : Type} {e : MerkleTreeError} (h : e ≠ .leafExists) (o : Option α) :
    NeverExists (okOr e o) := by
  cases o with
  | none => exact neverExists_throwErr h
  | some a => exact .pure _ a

theorem neverExists_getMetadata : NeverExists (getMetadata : TreeM Fr254 _) := by
  refine .bind (.get _) fun db => ?_
  cases db.metadata with
  | none => exact neverExists_throwErr (by decide)
  | some metadata => exact .pure _ _

theorem neverExists_findMetadata : NeverExists findMetadata :=
  .bind (.get _) fun _ => neverExists_okOr (by decide) _

theorem neverExists_getLeaf (value nextValue : Option Fr254) :
    NeverExists (getLeaf value nextValue) :=
  .bind (.get _) fun _ => .pure _ _

theorem neverExists_getPendingInsert (v : Fr254) : NeverExists (getPendingInsert v) :=
  .ite (.bind (neverExists_getLeaf _ _) fun _ =>
    .bind (neverExists_okOr (by decide) _) fun _ => .pure _ _) (.pure _ _)

theorem neverExists_setNodes (updateTree : Bool) (updates : List (Node Fr254)) :
    NeverExists (setNodes updateTree updates) := by
  cases updateTree with
  | true => exact .modify _ _
  | false => exact .modify _ _

theorem neverExists_appendSubTrees (leaves : List Fr254) (updateTree : Bool) :
    NeverExists (appendSubTrees treeHash leaves updateTree) := by
  refine .bind neverExists_getMetadata fun metadata => .ite (neverExists_throwErr (by decide))
    (.ite (.pure _ _) (.ite (neverExists_throwErr (by decide)) ?_))
  refine .bind (.foldlM (fun acc batch => ?_) _ _) fun appended => ?_
  · exact .bind (.get _) fun db => .bind (neverExists_setNodes _ _) fun _ => .pure _ _
  · exact .ite (.bind (.modify _ _) fun _ => .bind (.modify _ _) fun _ => .pure _ _) (.pure _ _)

theorem neverExists_updateSubTree (subTreeIndex : ℕ) (leaves : List Fr254) (updateTree : Bool) :
    NeverExists (updateSubTree treeHash subTreeIndex leaves updateTree) := by
  refine .bind neverExists_getMetadata fun metadata => .ite (neverExists_throwErr (by decide))
    (.ite (neverExists_throwErr (by decide)) (.ite (neverExists_throwErr (by decide)) (.ite ?_ ?_)))
  · exact neverExists_throwErr (by decide)
  · refine .bind (.get _) fun db => .ite (.throw (by decide)) ?_
    refine .bind (neverExists_setNodes _ _) fun _ => ?_
    cases updateTree with
    | true => exact .bind (.modify _ _) fun _ => .bind (.modify _ _) fun _ => .pure _ _
    | false => exact .bind (.modify _ _) fun _ => .pure _ _

theorem neverExists_getMembershipProof (leafIndex : ℕ) :
    NeverExists (getMembershipProof none (some leafIndex) : TreeM Fr254 _) := by
  refine .bind neverExists_getMetadata fun metadata => .bind (.get _) fun db => ?_
  exact .ite (neverExists_throwErr (by decide)) (.pure _ _)

theorem neverExists_insertForCircuit (commitments : List Fr254) :
    NeverExists (insertForCircuit treeHash commitments) :=
  .bind neverExists_getMetadata fun metadata => .ite (neverExists_throwErr (by decide))
    (.bind (neverExists_getMembershipProof _) fun proof =>
      .bind (neverExists_appendSubTrees treeHash _ _) fun appended => .pure _ _)

/-! ### New values -/

/-- The values in the collection. -/
def Leaves.values (c : Leaves) : List Fr254 := c.docs.map IndexedLeaf.value

/-- The values of `l` that are not zero are distinct, and none of them is in the collection. -/
structure AreNew (c : Leaves) (l : List Fr254) : Prop where
  nodup : (l.filter (· ≠ 0)).Nodup
  disjoint : ∀ v ∈ l, v ≠ 0 → v ∉ c.values

theorem Stored.values_eq {c c' : Leaves} {v : Fr254} {i : ℕ} (h : Stored c v i c') :
    c'.values = c.values ++ [v] := by
  obtain ⟨low, -, hdocs⟩ := h.docs
  have hvalues : ∀ docs : List (IndexedLeaf Fr254), (Collection.updateDocs
      (fun x => serializeToPaddedHex x.value = serializeToPaddedHex low.value) (·.relink v i)
      docs).map IndexedLeaf.value = docs.map IndexedLeaf.value :=
    Collection.map_key_updateDocs fun _ => rfl
  rw [Leaves.values, hdocs, hvalues, List.map_append]
  rfl

theorem StoredAll.values_eq {c d : Leaves} {ps : List (Fr254 × ℕ)} (h : StoredAll c ps d) :
    d.values = c.values ++ ps.map Prod.fst := by
  induction h with
  | nil => rw [List.map_nil, List.append_nil]
  | cons hstored _ ih => rw [ih, hstored.values_eq, List.append_assoc]; rfl

theorem AreNew.append {c d : Leaves} {l l' : List Fr254} (h : AreNew c (l ++ l'))
    (hd : d.values = c.values ++ l.filter (· ≠ 0)) : AreNew d l' where
  nodup := by
    have hnodup := h.nodup
    rw [List.filter_append] at hnodup
    exact hnodup.of_append_right
  disjoint v hv hne hmem := by
    rw [hd, List.mem_append] at hmem
    rcases hmem with hold | hnew
    · exact h.disjoint v (List.mem_append_right _ hv) hne hold
    · have hnodup := h.nodup
      rw [List.filter_append] at hnodup
      exact List.disjoint_of_nodup_append hnodup hnew
        (List.mem_filter.2 ⟨hv, decide_eq_true hne⟩)

theorem AreNew.left {c : Leaves} {l l' : List Fr254} (h : AreNew c (l ++ l')) : AreNew c l where
  nodup := by
    have hnodup := h.nodup
    rw [List.filter_append] at hnodup
    exact hnodup.of_append_left
  disjoint v hv := h.disjoint v (List.mem_append_left _ hv)

/-! ### Insertions -/

/-- A new leaf for which there is a low leaf is not refused because it exists. -/
theorem storeLeaf_ne_leafExists {v : Fr254} {index : Option ℕ} {db db' : TreeDb Fr254}
    {low : IndexedLeaf Fr254} (hv : v ∉ Leaves.values db.indexedLeaves)
    (hlow : Leaves.low db.indexedLeaves v = some low) :
    (storeLeaf v index).run db ≠ .error (.err .leafExists) db' := by
  intro h
  simp only [storeLeaf, EStateM.run_bind, run_getLeaf, withValue_eq_none.2 hv, Option.isSome_none,
    Bool.false_eq_true, if_false, run_getLowLeaf, hlow, okOr, EStateM.run_pure,
    EStateM.run_get] at h
  cases hinsert : db.indexedLeaves.insertOne ⟨v,
      index.getD (db.indexedLeaves.docs.length % 2 ^ 32), low.nextIndex, low.nextValue⟩ with
  | none =>
    rw [hinsert] at h
    cases h
  | some indexedLeaves =>
    rw [hinsert] at h
    cases h

theorem getNonMembershipProof_ne_leafExists {v : Fr254} {db db' : TreeDb Fr254} (hne : v ≠ 0)
    (hv : v ∉ Leaves.values db.indexedLeaves) :
    (getNonMembershipProof hash v).run db ≠ .error (.err .leafExists) db' := by
  intro h
  simp only [getNonMembershipProof, if_neg hne, EStateM.run_bind, run_getLeaf,
    withValue_eq_none.2 hv, Option.isSome_none, Bool.false_eq_true, if_false] at h
  have htail : NeverExists (findMetadata >>= fun metadata => getLowLeaf v >>= fun low =>
      okOr (.error "Could not get low leaf") low >>= fun low => get >>= fun db : TreeDb Fr254 =>
        pure ({
          siblingPath := siblings db.getNode (metadata.treeHeight + metadata.subTreeHeight)
            (2 ^ (metadata.treeHeight + metadata.subTreeHeight) - 1 + low.id)
          leafIndex := low.id
          nodeValue := low.leaf hash } : MembershipProof Fr254)) :=
    .bind neverExists_findMetadata fun _ => .bind (.bind (.get _) fun _ => .pure _ _) fun _ =>
      .bind (neverExists_okOr (by decide) _) fun _ => .bind (.get _) fun _ => .pure _ _
  refine htail db db' ?_
  simpa only [EStateM.run_bind] using h

theorem insertNullifier_ne_leafExists {metadata : TreeMetadata Fr254} {firstIndex initialIndex : ℕ}
    {v : Fr254} {db db' : TreeDb Fr254} (hv : v ≠ 0 → v ∉ Leaves.values db.indexedLeaves) :
    (insertNullifier treeHash hash metadata firstIndex initialIndex v).run db ≠
      .error (.err .leafExists) db' := by
  intro h
  rw [insertNullifier, EStateM.run_bind, run_getLeaf] at h
  by_cases hne : v = 0
  · simp only [hne, ne_eq, not_true_eq_false, and_false, if_false] at h
    cases h
  · have hnew := hv hne
    simp only [withValue_eq_none.2 hnew, Option.isSome_none, Bool.false_eq_true, false_and, if_false,
      ne_eq, hne, not_false_eq_true, if_true] at h
    rw [EStateM.run_bind, run_getLowLeaf] at h
    cases hlow : Leaves.low db.indexedLeaves v with
    | none =>
      rw [hlow] at h
      cases h
    | some low =>
      rw [hlow] at h
      change EStateM.run (if low.id < firstIndex then _ else _) db = _ at h
      by_cases hid : low.id < firstIndex
      · rw [if_pos hid] at h
        rcases run_bind_eq_error.1 h with hproof | ⟨proof, t, hproof, hrest⟩
        · exact getNonMembershipProof_ne_leafExists hash hne hnew hproof
        · obtain rfl : t = db :=
            keeps_getNonMembershipProof (p := id) hash v _ _ _ hproof
          rcases run_bind_eq_error.1 hrest with hstore | ⟨stored, u, -, hlast⟩
          · exact storeLeaf_ne_leafExists hnew hlow hstore
          · refine (Avoids.bind (neverExists_okOr (by decide) _) fun _ =>
              .bind (neverExists_getLeaf _ _) fun updated =>
              .bind (neverExists_okOr (by decide) _) fun updated' =>
              .bind (neverExists_updateSubTree treeHash _ _ _) fun _ => .pure _ _ : NeverExists _)
              _ _ hlast
      · rw [if_neg hid] at h
        rcases run_bind_eq_error.1 h with hstore | ⟨stored, u, -, hlast⟩
        · exact storeLeaf_ne_leafExists hnew hlow hstore
        · exact (Avoids.bind (neverExists_okOr (by decide) _) fun _ => .pure _ _ : NeverExists _)
            _ _ hlast

theorem insertEach_ne_leafExists {metadata : TreeMetadata Fr254} {firstIndex initialIndex : ℕ}
    {l : List Fr254} {db db' : TreeDb Fr254} (h : AreNew db.indexedLeaves l) :
    (insertEach treeHash hash metadata firstIndex initialIndex l).run db ≠
      .error (.err .leafExists) db' := by
  induction l generalizing initialIndex db with
  | nil => exact run_pure_ne_error
  | cons v vs ih =>
    intro hrun
    have hsplit : AreNew db.indexedLeaves ([v] ++ vs) := h
    rcases run_bind_eq_error.1 hrun with hfirst | ⟨low, t, hfirst, hrest⟩
    · exact insertNullifier_ne_leafExists treeHash hash
        (fun hne => h.disjoint v List.mem_cons_self hne) hfirst
    · have hstored := stores_insertNullifier treeHash hash metadata firstIndex initialIndex v
        _ _ _ hfirst
      have hvalues := hstored.values_eq
      rw [map_fst_slots] at hvalues
      rcases run_bind_eq_error.1 hrest with hvs | ⟨lows, u, -, hlast⟩
      · exact ih (hsplit.append hvalues) hvs
      · exact run_pure_ne_error hlast

theorem insertNullifiersForCircuit_ne_leafExists {l : List Fr254} {db db' : TreeDb Fr254}
    (h : AreNew db.indexedLeaves l) :
    (insertNullifiersForCircuit treeHash hash l).run db ≠ .error (.err .leafExists) db' := by
  intro hrun
  rcases run_bind_eq_error.1 hrun with hmetadata | ⟨metadata, t, hmetadata, hrest⟩
  · exact neverExists_findMetadata _ _ hmetadata
  · obtain rfl : t = db := keeps_findMetadata (p := id) _ _ _ hmetadata
    by_cases hlength : 2 ^ metadata.subTreeHeight ≠ l.length
    · rw [if_pos hlength] at hrest
      exact neverExists_throwErr (by decide) _ _ hrest
    · rw [if_neg hlength] at hrest
      rcases run_bind_eq_error.1 hrest with heach | ⟨lows, u, -, hlast⟩
      · exact insertEach_ne_leafExists treeHash hash h heach
      · exact (Avoids.bind (.mapM neverExists_getPendingInsert _) fun pending =>
          .bind (neverExists_insertForCircuit treeHash _) fun info => .pure _ _ : NeverExists _)
          _ _ hlast

/-- **With new nullifiers no insertion fails with `LeafExists`.** -/
theorem batchInsertNullifiers_ne_leafExists {l : List Fr254} {db db' : TreeDb Fr254}
    (h : AreNew db.indexedLeaves l) :
    (batchInsertNullifiersWithCircuitInfo treeHash hash l).run db ≠
      .error (.err .leafExists) db' := by
  have hbatches : ∀ (ls : List (List Fr254)) (db : TreeDb Fr254),
      AreNew db.indexedLeaves ls.flatten →
        (ls.mapM (insertNullifiersForCircuit treeHash hash)).run db ≠
          .error (.err .leafExists) db' := by
    intro ls
    induction ls with
    | nil => exact fun _ _ => run_pure_ne_error
    | cons l ls ih =>
      intro db hnew hrun
      rw [List.mapM_cons] at hrun
      rw [List.flatten_cons] at hnew
      rcases run_bind_eq_error.1 hrun with hfirst | ⟨info, t, hfirst, hrest⟩
      · exact insertNullifiersForCircuit_ne_leafExists treeHash hash hnew.left hfirst
      · obtain ⟨ps, hps, hstored⟩ :=
          storesValues_insertNullifiersForCircuit treeHash hash l _ _ _ hfirst
        have hvalues := hstored.values_eq
        rw [hps] at hvalues
        rcases run_bind_eq_error.1 hrest with hls | ⟨infos, u, -, hlast⟩
        · exact ih t (hnew.append hvalues) hls
        · exact run_pure_ne_error hlast
  rw [batchInsertNullifiersWithCircuitInfo]
  by_cases hnil : l.isEmpty = true
  · rw [if_pos hnil]
    exact run_pure_ne_error
  · rw [if_neg hnil]
    refine hbatches _ db ?_
    rwa [flatten_chunks (by omega)]

end Operations

end Trees

end Nightfall
