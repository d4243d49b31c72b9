import Nightfall.Trees.IndexedTree

/-!
# Batches of nullifiers

`insert_nullifiers_for_circuit` on an indexed tree with room for a sub-tree: it succeeds for new
values, and what it returns satisfies the relations that the rollup circuit checks (`BatchLaws`).
-/

namespace Nightfall

namespace Trees

open Merkle Stateful

/-! ### The relations of the circuit -/

/-- The running root goes from `root` to `last` through the low nullifiers of a batch. -/
def LowChain (treeHash : Fr254 → Fr254 → Fr254) (hash : Fr254 → Fr254 → Fr254 → Fr254)
    (height firstIndex : ℕ) : ℕ → Fr254 → List (Fr254 × LeafDBEntry Fr254 × MembershipProof Fr254) →
      Fr254 → Prop
  | _, root, [], last => root = last
  | index, root, (v, low) :: lows, last => ∃ root',
    LowStep treeHash hash height firstIndex index v low root root' ∧
      LowChain treeHash hash height firstIndex (index + 1) root' lows last

/-- The proof of an insertion at sub-tree `p` leads from zero to the old root, and from the root of
the new sub-tree to the new one. -/
def PlaceLaw {F : Type} [Zero F] (treeHash : F → F → F) (treeHeight p : ℕ)
    (info : CircuitInsertionInfo F) : Prop :=
  info.proof.nodeValue = 0 ∧ info.proof.StartsAt treeHeight p ∧
    info.proof.Verifies treeHash info.oldRoot ∧
    foldPath treeHash info.proof.siblingPath
      ((makeCompleteTree treeHash (Nat.log 2 info.leaves.length) info.leaves).getD 0 0) = info.newRoot

theorem append_leaves {F : Type} [Zero F] {t : NaiveTree F} {first : ℕ} {l : List F}
    (hfirst : first = t.subTreeCount * 2 ^ t.subTreeHeight) (n i : ℕ) :
    (t.append l n).leaves i =
      if first ≤ i ∧ i < first + l.length then l.getD (i - first) 0 else t.leaves i := by
  subst hfirst
  rfl

/-- The insertion of a sub-tree at a place without leaves satisfies the law of its place. -/
theorem placeLaw_insertionInfo {F : Type} [Zero F] {treeHash : F → F → F} {t : NaiveTree F}
    {l : List F} (hzero : treeHash 0 0 = 0) (hroom : t.subTreeCount < 2 ^ t.treeHeight)
    (hlen : l.length = 2 ^ t.subTreeHeight)
    (hempty : ∀ i, i / 2 ^ t.subTreeHeight = t.subTreeCount → t.leaves i = 0) :
    PlaceLaw treeHash t.treeHeight t.subTreeCount (t.insertionInfo treeHash l) := by
  have hd : t.treeHeight ≤ t.height := Nat.le_add_right _ _
  have hsub : t.height - t.treeHeight = t.subTreeHeight := Nat.add_sub_cancel_left _ _
  have hpos := Nat.two_pow_pos t.subTreeHeight
  have hold : t.node treeHash (nodeIndex t.treeHeight t.subTreeCount) = 0 := by
    have hconst : t.node treeHash (nodeIndex t.treeHeight t.subTreeCount) =
        completeNode treeHash 0 t.height (fun _ => 0) (nodeIndex t.treeHeight t.subTreeCount) := by
      refine completeNode_congr fun i hi hcov => hempty i ?_
      rwa [covers_nodeIndex hd hroom hi, hsub] at hcov
    rw [hconst, completeNode_const hzero]
  have hnew : (t.append l 1).node treeHash (nodeIndex t.treeHeight t.subTreeCount) =
      (makeCompleteTree treeHash (Nat.log 2 l.length) l).getD 0 0 := by
    have hf : ∀ j < 2 ^ t.subTreeHeight,
        (t.append l 1).leaves (2 ^ t.subTreeHeight * t.subTreeCount + j) = l.getD j 0 := by
      intro j hj
      rw [Nat.mul_comm]
      exact NaiveTree.overwrite_add (hlen ▸ hj)
    have hroot := @makeCompleteTree_eq_completeNode F treeHash _ t.height t.treeHeight
      t.subTreeHeight t.subTreeCount (t.append l 1).leaves l rfl hroom hlen.le hf 0 0
      (Nat.zero_le _) (by simp)
    rw [nodeIndex_zero, Nat.add_zero, pow_zero, Nat.mul_one, Nat.add_zero] at hroot
    rw [hlen, Nat.log_pow (by omega), hroot]
    rfl
  refine ⟨rfl, ⟨rfl, pathIndex_siblings _ hroom⟩, ?_, ?_⟩
  · have hpath : foldPath treeHash (siblings (t.node treeHash) t.treeHeight
        (nodeIndex t.treeHeight t.subTreeCount))
        (t.node treeHash (nodeIndex t.treeHeight t.subTreeCount)) = t.node treeHash 0 :=
      foldPath_update rfl hroom rfl fun _ _ => rfl
    rwa [hold] at hpath
  · have hpath : foldPath treeHash (siblings (t.node treeHash) t.treeHeight
        (nodeIndex t.treeHeight t.subTreeCount))
        ((t.append l 1).node treeHash (nodeIndex t.treeHeight t.subTreeCount)) =
          (t.append l 1).node treeHash 0 := by
      refine foldPath_update rfl hroom rfl fun i hi => ?_
      rw [append_leaves rfl, if_neg]
      rintro ⟨hle, hlt⟩
      refine hi (Nat.div_eq_of_lt_le hle ?_)
      rw [hlen] at hlt
      rwa [Nat.add_mul, Nat.one_mul]
    rw [hnew] at hpath
    exact hpath

/-- What the circuit relies on of one batch with the values `l`, inserted into a tree with the metadata
`metadata`, after which the records are `c`. -/
structure BatchLaws (treeHash : Fr254 → Fr254 → Fr254) (hash : Fr254 → Fr254 → Fr254 → Fr254)
    (metadata : TreeMetadata Fr254) (l : List Fr254) (info : IMTCircuitInsertionInfo Fr254)
    (c : Leaves) : Prop where
  firstIndex : info.firstIndex = metadata.subTreeCount * l.length
  length : info.lowNullifiers.length = l.length
  lowChain : LowChain treeHash hash (metadata.treeHeight + metadata.subTreeHeight) info.firstIndex
    info.firstIndex info.oldRoot (l.zip info.lowNullifiers) info.circuitInfo.oldRoot
  place : PlaceLaw treeHash metadata.treeHeight metadata.subTreeCount info.circuitInfo
  leaves : info.circuitInfo.leaves = info.pendingInserts.map (LeafDBEntry.leaf hash)
  values : info.pendingInserts.map LeafDBEntry.value = l
  /-- The pending insert of a value is its record. -/
  pending : ∀ k entry, info.pendingInserts[k]? = some entry → entry.value ≠ 0 →
    ∃ r ∈ c.docs, r.id = info.firstIndex + k ∧ entry = r.toEntry

/-! ### The insertion -/

section Batch

variable {treeHash : Fr254 → Fr254 → Fr254} {hash : Fr254 → Fr254 → Fr254 → Fr254}
  {db : TreeDb Fr254} {t : NaiveTree Fr254} {first next start : ℕ} {l : List Fr254}

/-- **The nullifiers of a batch, one by one.** -/
theorem run_insertEach (h : Inserting treeHash hash db t first next)
    (hstart : l ≠ [] → start = next) (hcap : next + l.length ≤ 2 ^ 32)
    (hnew : ∀ v ∈ l, v ≠ 0 → v ∉ db.indexedLeaves.docs.map IndexedLeaf.value)
    (hdistinct : (l.filter (· ≠ 0)).Nodup) (metadata : TreeMetadata Fr254) :
    ∃ lows db' u, (insertEach treeHash hash metadata first start l).run db = .ok lows db' ∧
      Inserting treeHash hash db' u first (next + l.length) ∧ u = { t with leaves := u.leaves } ∧
      lows.length = l.length ∧
      LowChain treeHash hash t.height first next (t.node treeHash 0) (l.zip lows)
        (u.node treeHash 0) := by
  induction l generalizing db t start next with
  | nil => exact ⟨[], db, t, rfl, h, rfl, rfl, rfl⟩
  | cons v l ih =>
    obtain rfl := hstart (List.cons_ne_nil _ _)
    rw [List.forall_mem_cons] at hnew
    rw [List.length_cons] at hcap
    obtain ⟨low, db₁, t₁, hrun, h₁, ht₁, hstep⟩ := run_insertNullifier h hnew.1 metadata
    -- the values that are there afterwards
    have hstored := stores_insertNullifier treeHash hash metadata first start v _ _ _ hrun
    obtain ⟨r, hr⟩ := h.linked
    obtain ⟨-, hpairs⟩ := hstored.isLinked hr
    have hvalues : db₁.indexedLeaves.docs.map IndexedLeaf.value =
        db.indexedLeaves.docs.map IndexedLeaf.value ++ [v].filter (· ≠ 0) := by
      rw [map_value_eq, hpairs, List.map_append, map_fst_slots, ← map_value_eq]
    have hfilter : (v :: l).filter (· ≠ 0) = [v].filter (· ≠ 0) ++ l.filter (· ≠ 0) := by
      rw [← List.filter_append, List.singleton_append]
    rw [hfilter, List.nodup_append] at hdistinct
    have hnew₁ : ∀ w ∈ l, w ≠ 0 → w ∉ db₁.indexedLeaves.docs.map IndexedLeaf.value := by
      intro w hw hw0 hmem
      rw [hvalues, List.mem_append] at hmem
      rcases hmem with hmem | hmem
      · exact hnew.2 w hw hw0 hmem
      · exact hdistinct.2.2 w hmem w (List.mem_filter.2 ⟨hw, by simpa using hw0⟩) rfl
    have hnext : l ≠ [] → (start + 1) % 2 ^ 32 = start + 1 := by
      intro hl
      have hpos := List.length_pos_iff.2 hl
      exact Nat.mod_eq_of_lt (by omega)
    obtain ⟨lows, db', u, hrest, h', hu, hlength, hchain⟩ :=
      ih h₁ hnext (by omega) hnew₁ hdistinct.2.1
    have hheight : t₁.height = t.height := by rw [ht₁, NaiveTree.height, NaiveTree.height]
    rw [hheight] at hchain
    refine ⟨low :: lows, db', u, ?_, ?_, ?_, ?_, _, hstep, hchain⟩
    · rw [insertEach, EStateM.run_bind, hrun]
      simp only [EStateM.run_bind, hrest]
      rfl
    · rwa [List.length_cons, Nat.add_comm l.length 1, ← Nat.add_assoc]
    · rw [hu, ht₁]
    · rw [List.length_cons, hlength, List.length_cons]

/-- The pending insert of a value. -/
def Leaves.pending (c : Leaves) (v : Fr254) : LeafDBEntry Fr254 :=
  if v ≠ 0 then
    match c.withValue v with
    | some r => r.toEntry
    | none => .default
  else .default

theorem run_getPendingInserts
    (hmem : ∀ v ∈ l, v ≠ 0 → v ∈ db.indexedLeaves.docs.map IndexedLeaf.value) :
    (l.mapM getPendingInsert).run db = .ok (l.map (Leaves.pending db.indexedLeaves)) db := by
  induction l with
  | nil => rfl
  | cons v l ih =>
    rw [List.forall_mem_cons] at hmem
    have hone : (getPendingInsert v).run db = .ok (Leaves.pending db.indexedLeaves v) db := by
      by_cases hv : v = 0
      · simp only [getPendingInsert, Leaves.pending, hv, ne_eq, not_true_eq_false, if_false]
        rfl
      · cases hrecord : Leaves.withValue db.indexedLeaves v with
        | none => exact absurd (hmem.1 hv) (withValue_eq_none.1 hrecord)
        | some r =>
          simp only [getPendingInsert, Leaves.pending, hv, ne_eq, not_false_eq_true, if_true,
            EStateM.run_bind, run_getLeaf, hrecord, okOr, EStateM.run_pure]
    rw [List.mapM_cons, EStateM.run_bind, hone]
    simp only [EStateM.run_bind, ih hmem.2]
    rfl

theorem map_value_pending {c : Leaves} (hmem : ∀ v ∈ l, v ≠ 0 → v ∈ c.docs.map IndexedLeaf.value) :
    (l.map c.pending).map LeafDBEntry.value = l := by
  rw [List.map_map]
  refine (List.map_congr_left fun v hv => ?_).trans (List.map_id l)
  by_cases hv0 : v = 0
  · rw [Function.comp_apply, Leaves.pending, if_neg (not_not.2 hv0), hv0]
    rfl
  · rw [Function.comp_apply, Leaves.pending, if_pos hv0]
    cases hrecord : c.withValue v with
    | none => exact absurd (hmem v hv hv0) (withValue_eq_none.1 hrecord)
    | some r => exact (withValue_some hrecord).2

theorem pending_leaf (c : Leaves) (v : Fr254) : (c.pending v).leaf hash = newLeaf hash c v := by
  by_cases hv : v = 0
  · rw [Leaves.pending, newLeaf, if_neg (not_not.2 hv), if_neg (not_not.2 hv)]
    rfl
  · rw [Leaves.pending, newLeaf, if_pos hv, if_pos hv]
    cases hrecord : c.withValue v with
    | none => rfl
    | some r =>
      obtain ⟨-, rfl⟩ := withValue_some hrecord
      exact if_pos hv

/-- The index of the first leaf does not overflow while there is room. -/
theorem insertIndex_eq (hfirst : first = t.subTreeCount * 2 ^ t.subTreeHeight)
    (hlt : first < 2 ^ 32) : (t.metadata treeHash).insertIndex = first := by
  have hle : t.subTreeCount ≤ first := by
    rw [hfirst]
    exact Nat.le_mul_of_pos_right _ (Nat.two_pow_pos _)
  rw [TreeMetadata.insertIndex, NaiveTree.metadata]
  dsimp only
  rw [Nat.mod_eq_of_lt (hle.trans_lt hlt), ← hfirst, Nat.mod_eq_of_lt hlt]

/-- The invariant between insertions, after new leaves were appended. -/
theorem Inserting.append {n : ℕ} {db' : TreeDb Fr254}
    (h : Inserting treeHash hash db t first (first + l.length))
    (hlen : l.length = n * 2 ^ t.subTreeHeight) (hroom : first + l.length ≤ 2 ^ t.height)
    (hdb' : Refines treeHash db' (t.append l n)) (hleaves : db'.indexedLeaves = db.indexedLeaves)
    (hl : ∀ k < l.length, l.getD k 0 = leafAt hash db.indexedLeaves (first + k)) :
    Inserting treeHash hash db' (t.append l n) (first + l.length) (first + l.length) where
  refines := hdb'
  linked := by
    rw [hleaves]
    exact h.linked
  first_eq := by
    rw [h.first_eq, hlen, ← Nat.add_mul]
    rfl
  first_le := hroom
  le := le_rfl
  leaves i := by
    rw [append_leaves h.first_eq, hleaves, h.leaves]
    by_cases hi : i < first
    · rw [if_neg (by omega), if_pos hi, if_pos (by omega)]
    · by_cases hi' : i < first + l.length
      · rw [if_pos ⟨by omega, hi'⟩, if_pos hi', hl _ (by omega), Nat.add_sub_cancel' (by omega)]
      · rw [if_neg (by omega), if_neg hi, if_neg hi']
  below := by
    rw [hleaves]
    exact h.below

theorem getD_newLeaves {c : Leaves} {r : List (IndexedLeaf Fr254)}
    (hd : IsLinked db.indexedLeaves r)
    (hpairs : db.indexedLeaves.docs.map IndexedLeaf.pair =
      c.docs.map IndexedLeaf.pair ++ slots start l)
    (hstart : l ≠ [] → start = first) (hcap : first + l.length ≤ 2 ^ 32)
    (hbelow : ∀ x ∈ c.docs, x.id < first) :
    ∀ k < (l.map (newLeaf hash db.indexedLeaves)).length,
      (l.map (newLeaf hash db.indexedLeaves)).getD k 0 =
        leafAt hash db.indexedLeaves (first + k) := by
  intro k hk
  rw [List.length_map] at hk
  rw [List.getD_eq_getElem _ _ (by rwa [List.length_map]), List.getElem_map]
  exact newLeaf_eq hd hpairs hstart hcap hbelow (List.getElem?_eq_getElem hk)

/-- Every value of a batch that was stored has a record, zero among them. -/
theorem mem_values_of_stored {c d : Leaves} {r : List (IndexedLeaf Fr254)} (hc : IsLinked c r)
    (hpairs : d.docs.map IndexedLeaf.pair = c.docs.map IndexedLeaf.pair ++ slots start l) :
    ∀ v ∈ l, v ∈ d.docs.map IndexedLeaf.value := by
  intro v hv
  rw [map_value_eq, hpairs, List.map_append, map_fst_slots, ← map_value_eq]
  by_cases hv0 : v = 0
  · rw [hv0]
    exact List.mem_append_left _ hc.zero
  · exact List.mem_append_right _ (List.mem_filter.2 ⟨hv, by simpa using hv0⟩)

/-- The pending insert of a value is the record at its place in the batch. -/
theorem record_of_pending {c d : Leaves} {r : List (IndexedLeaf Fr254)} (hd : IsLinked d r)
    (hpairs : d.docs.map IndexedLeaf.pair = c.docs.map IndexedLeaf.pair ++ slots first l)
    (hcap : first + l.length ≤ 2 ^ 32) {k : ℕ} {entry : LeafDBEntry Fr254}
    (hk : (l.map (Leaves.pending d))[k]? = some entry) (hv : entry.value ≠ 0) :
    ∃ x ∈ d.docs, x.id = first + k ∧ entry = x.toEntry := by
  rw [List.getElem?_map] at hk
  obtain ⟨v, hvk, rfl⟩ := Option.map_eq_some_iff.1 hk
  have hv0 : v ≠ 0 := by
    rintro rfl
    exact hv rfl
  obtain ⟨x, hx, hvalue, hid⟩ := exists_record hpairs (fun _ => rfl) hcap hvk hv0
  refine ⟨x, hx, hid, ?_⟩
  rw [Leaves.pending, if_pos hv0, ← hvalue, hd.withValue_eq hx]

theorem NaiveTree.room (h : t.subTreeCount < 2 ^ t.treeHeight) :
    t.subTreeCount * 2 ^ t.subTreeHeight + 2 ^ t.subTreeHeight ≤ 2 ^ t.height := by
  rw [NaiveTree.height, pow_add]
  calc t.subTreeCount * 2 ^ t.subTreeHeight + 2 ^ t.subTreeHeight
      = (t.subTreeCount + 1) * 2 ^ t.subTreeHeight := by rw [Nat.add_mul, Nat.one_mul]
    _ ≤ 2 ^ t.treeHeight * 2 ^ t.subTreeHeight := Nat.mul_le_mul_right _ h

theorem Inserting.placeLaw (hzero : treeHash 0 0 = 0) (h : Inserting treeHash hash db t first next)
    (hroom : t.subTreeCount < 2 ^ t.treeHeight) (hlen : l.length = 2 ^ t.subTreeHeight) :
    PlaceLaw treeHash t.treeHeight t.subTreeCount (t.insertionInfo treeHash l) := by
  refine placeLaw_insertionInfo hzero hroom hlen fun i hi => ?_
  rw [h.leaves, if_neg]
  rw [h.first_eq, not_lt, ← hi]
  exact Nat.div_mul_le_self _ _

/-- **A batch of nullifiers.**  It succeeds while there is room, for new values that are distinct. -/
theorem run_insertNullifiersForCircuit (hzero : treeHash 0 0 = 0)
    (h : Inserting treeHash hash db t first first) (hheight : t.height ≤ 32)
    (hroom : t.subTreeCount < 2 ^ t.treeHeight) (hlen : l.length = 2 ^ t.subTreeHeight)
    (hnew : ∀ v ∈ l, v ≠ 0 → v ∉ db.indexedLeaves.docs.map IndexedLeaf.value)
    (hdistinct : (l.filter (· ≠ 0)).Nodup) :
    ∃ info db' u, (insertNullifiersForCircuit treeHash hash l).run db = .ok info db' ∧
      Inserting treeHash hash db' u (first + l.length) (first + l.length) ∧
      u = { t with leaves := u.leaves, subTreeCount := t.subTreeCount + 1 } ∧
      BatchLaws treeHash hash (t.metadata treeHash) l info db'.indexedLeaves ∧
      info.oldRoot = t.node treeHash 0 ∧
      info.circuitInfo.newRoot = u.node treeHash 0 ∧ info.firstIndex = first ∧
      StoredAll db.indexedLeaves (slots first l) db'.indexedLeaves := by
  have hpos := Nat.two_pow_pos t.subTreeHeight
  have hroom' : first + l.length ≤ 2 ^ t.height := by
    rw [h.first_eq, hlen]
    exact NaiveTree.room hroom
  have hcap : first + l.length ≤ 2 ^ 32 :=
    hroom'.trans (Nat.pow_le_pow_right (by omega) hheight)
  have hindex : (t.metadata treeHash).insertIndex = first := insertIndex_eq h.first_eq (by omega)
  obtain ⟨lows, db₁, t₁, hrun, h₁, ht₁, hlength, hchain⟩ :=
    run_insertEach h (fun _ => rfl) hcap hnew hdistinct (t.metadata treeHash)
  have hstored := stores_insertEach treeHash hash (t.metadata treeHash) first first l _ _ _ hrun
  obtain ⟨r, hr⟩ := h.linked
  obtain ⟨⟨r₁, hr₁⟩, hpairs⟩ := hstored.isLinked hr
  -- the pending inserts are the records, and their leaves the new leaves
  have hvalues : ∀ v ∈ l, v ≠ 0 → v ∈ db₁.indexedLeaves.docs.map IndexedLeaf.value :=
    fun v hv _ => mem_values_of_stored hr hpairs v hv
  have hpending := run_getPendingInserts hvalues
  have hleaves : (l.map (Leaves.pending db₁.indexedLeaves)).map (LeafDBEntry.leaf hash) =
      l.map (newLeaf hash db₁.indexedLeaves) := by
    rw [List.map_map]
    exact List.map_congr_left fun v _ => pending_leaf _ v
  have hlen₁ : (l.map (newLeaf hash db₁.indexedLeaves)).length = 2 ^ t₁.subTreeHeight := by
    rw [List.length_map, hlen, ht₁]
  have hroom₁ : t₁.subTreeCount < 2 ^ t₁.treeHeight := by
    rw [ht₁]
    exact hroom
  have hcache := cacheAgrees_of_empty h₁.refines.cache
    ((t₁.append (l.map (newLeaf hash db₁.indexedLeaves)) 1).node treeHash)
  obtain ⟨updates, hinsert, -, hnodes⟩ :=
    run_insertForCircuit h₁.refines.toHolds hlen₁ hroom₁ hcache
  have hrefines := refines_commit hcache hnodes
  refine ⟨⟨t.node treeHash 0, t₁.insertionInfo treeHash (l.map (newLeaf hash db₁.indexedLeaves)),
    first, lows, l.map (Leaves.pending db₁.indexedLeaves)⟩,
    commit treeHash db₁ (t₁.append (l.map (newLeaf hash db₁.indexedLeaves)) 1) updates,
    t₁.append (l.map (newLeaf hash db₁.indexedLeaves)) 1, ?_, ?_, ?_, ?_, rfl, rfl, rfl, hstored⟩
  · have hsub : (t.metadata treeHash).subTreeHeight = t.subTreeHeight := rfl
    simp only [insertNullifiersForCircuit, EStateM.run_bind, run_findMetadata h.refines, hsub, hlen,
      ne_eq, not_true_eq_false, if_false, hindex, hrun, hpending, hleaves, hinsert]
    rfl
  · have h' : Inserting treeHash hash db₁ t₁ first
        (first + (l.map (newLeaf hash db₁.indexedLeaves)).length) := by rwa [List.length_map]
    have hfit : first + (l.map (newLeaf hash db₁.indexedLeaves)).length ≤ 2 ^ t₁.height := by
      rw [List.length_map, ht₁]
      exact hroom'
    have happend := h'.append (by rw [hlen₁, Nat.one_mul]) hfit hrefines rfl
      (getD_newLeaves hr₁ hpairs (fun _ => rfl) hcap h.below)
    rw [List.length_map] at happend
    exact happend
  · rw [ht₁]
    rfl
  · have hfirst := h.first_eq
    rw [← hlen] at hfirst
    have hcount : (t.metadata treeHash).subTreeCount = t₁.subTreeCount := by
      rw [ht₁]
      rfl
    have hplace : (t.metadata treeHash).treeHeight = t₁.treeHeight := by
      rw [ht₁]
      rfl
    refine ⟨hfirst, hlength, hchain, ?_, hleaves.symm, map_value_pending hvalues,
      fun k entry hk hv => record_of_pending hr₁ hpairs hcap hk hv⟩
    rw [hcount, hplace]
    exact h₁.placeLaw hzero hroom₁ hlen₁

end Batch

end Trees

end Nightfall
