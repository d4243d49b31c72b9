import Nightfall.Trees.IndexedRuns
import Nightfall.Trees.Shape

/-!
# Indexed trees

Between two insertions the leaf at the index of a record is the hash of the record, and all other
leaves are zero.  While a batch is inserted, the leaves below its first index are those of the records
as they are, and the rest of the tree is empty (`Inserting`).
-/

namespace Nightfall

namespace Trees

open Merkle Stateful

/-! ### Paths -/

/-- The path of a sub-tree leads from its root to the root of every tree with the same leaves outside
of it. -/
theorem foldPath_update {F : Type} [Zero F] {treeHash : F → F → F} {t u : NaiveTree F} {d m p : ℕ}
    (hn : d + m = t.height) (hp : p < 2 ^ d) (hheight : u.height = t.height)
    (hleaves : ∀ i, i / 2 ^ m ≠ p → u.leaves i = t.leaves i) :
    foldPath treeHash (siblings (t.node treeHash) d (nodeIndex d p))
      (u.node treeHash (nodeIndex d p)) = u.node treeHash 0 := by
  have hsame : ∀ i, Clear t.height (leavesBelow m p ∪ ∅) i →
      t.node treeHash i = u.node treeHash i := by
    intro i hi
    rw [NaiveTree.node, NaiveTree.node, hheight]
    refine completeNode_congr fun j hj hcov => (hleaves j fun hmem => ?_).symm
    exact hi j hj (.inl hmem) hcov
  have hread : ∀ i, i ≠ 0 → CoversAll t.height (leavesBelow m p) i → True →
      (i % 2 = 0 → t.node treeHash (i - 1) = u.node treeHash (i - 1)) ∧
        (i % 2 = 1 → t.node treeHash (i + 1) = u.node treeHash (i + 1)) := by
    intro i hi hall _
    obtain ⟨hleft, hright⟩ := hall.clear_sibling hi
      (fun _ _ hmem => absurd hmem (Set.notMem_empty _))
    exact ⟨fun h => hsame _ (hleft h), fun h => hsame _ (hright h)⟩
  have hchild : ∀ i < 2 ^ t.height - 1, u.node treeHash i =
      treeHash (u.node treeHash (2 * i + 1)) (u.node treeHash (2 * i + 2)) := by
    intro i hi
    simp only [NaiveTree.node, hheight]
    exact completeNode_child hi u.leaves
  rw [foldPath_siblings]
  exact (hashPath_value (Nat.le.intro hn) hp hchild (fun _ _ _ => trivial)
    (fun i hi h => CoversAll.parent h hi) hread (coversAll_root hn) fun _ => rfl).2 trivial

theorem NaiveTree.node_leaf {F : Type} [Zero F] {treeHash : F → F → F} {t : NaiveTree F} {p : ℕ}
    (hp : p < 2 ^ t.height) : t.node treeHash (nodeIndex t.height p) = t.leaves p := by
  rw [NaiveTree.node, completeNode_nodeIndex le_rfl hp, Nat.sub_self]
  rfl

theorem NaiveTree.write_leaves {F : Type} [Zero F] (t : NaiveTree F) (p : ℕ) (x : F) (i : ℕ) :
    (t.write (p * [x].length) [x]).leaves i = if i = p then x else t.leaves i := by
  simp only [NaiveTree.write, NaiveTree.overwrite, List.length_singleton, Nat.mul_one]
  by_cases hi : i = p
  · rw [if_pos (by omega), if_pos hi, hi, Nat.sub_self]
    rfl
  · rw [if_neg (by omega), if_neg hi]

/-- The path of a leaf leads from a new leaf to the root of the tree with it. -/
theorem foldPath_write {F : Type} [Zero F] {treeHash : F → F → F} {t : NaiveTree F} {p : ℕ}
    (hp : p < 2 ^ t.height) (x : F) :
    foldPath treeHash (siblings (t.node treeHash) t.height (nodeIndex t.height p)) x =
      (t.write (p * [x].length) [x]).node treeHash 0 := by
  have hleaf : (t.write (p * [x].length) [x]).node treeHash (nodeIndex t.height p) = x := by
    have hnode : (t.write (p * [x].length) [x]).node treeHash (nodeIndex t.height p) =
        (t.write (p * [x].length) [x]).leaves p := NaiveTree.node_leaf hp
    rw [hnode, NaiveTree.write_leaves, if_pos rfl]
  have hpath : foldPath treeHash (siblings (t.node treeHash) t.height (nodeIndex t.height p))
      ((t.write (p * [x].length) [x]).node treeHash (nodeIndex t.height p)) =
        (t.write (p * [x].length) [x]).node treeHash 0 := by
    refine foldPath_update (Nat.add_zero t.height) hp rfl fun i hi => ?_
    rw [pow_zero, Nat.div_one] at hi
    rw [NaiveTree.write_leaves, if_neg hi]
  rwa [hleaf] at hpath

/-- The path of the proof is the one from leaf `p` of a tree of the height `height`. -/
def MembershipProof.StartsAt {F : Type} (proof : MembershipProof F) (height p : ℕ) : Prop :=
  proof.leafIndex = p ∧ proof.siblingPath.length = height ∧ pathIndex proof.siblingPath = p

theorem pathIndex_siblings {F : Type} (getNode : ℕ → F) {n p : ℕ} (hp : p < 2 ^ n) :
    (siblings getNode n (nodeIndex n p)).length = n ∧
      pathIndex (siblings getNode n (nodeIndex n p)) = p := by
  induction n generalizing p with
  | zero =>
    rw [pow_zero] at hp
    exact ⟨rfl, (Nat.lt_one_iff.1 hp).symm⟩
  | succ n ih =>
    rw [pow_succ] at hp
    obtain ⟨hlength, hindex⟩ := @ih (p / 2) (by omega)
    rw [siblings, List.length_cons, pathIndex, parent_nodeIndex, hlength, hindex]
    refine ⟨rfl, ?_⟩
    by_cases hodd : p % 2 = 1
    · rw [if_pos ((nodeIndex_mod_two n p).2 hodd), if_pos rfl]
      omega
    · rw [if_neg (fun heven => hodd ((nodeIndex_mod_two n p).1 heven)), if_neg Bool.false_ne_true]
      omega

/-! ### The leaves of the records -/

section LeafAt

variable {hash : Fr254 → Fr254 → Fr254 → Fr254} {c d : Leaves} {l : List (IndexedLeaf Fr254)}
  {v : Fr254} {i j : ℕ}

/-- The leaf at an index: the hash of the record with the index, if there is one. -/
def leafAt (hash : Fr254 → Fr254 → Fr254 → Fr254) (c : Leaves) (i : ℕ) : Fr254 :=
  match c.find i with
  | some r => r.leaf hash
  | none => 0

theorem leafAt_of_mem {r : IndexedLeaf Fr254} (hr : r ∈ c.docs) : leafAt hash c r.id = r.leaf hash := by
  rw [leafAt, Collection.find_eq_some.2 ⟨hr, rfl⟩]

theorem leafAt_of_notMem (hi : i ∉ c.docs.map IndexedLeaf.id) : leafAt hash c i = 0 := by
  rw [leafAt, Collection.find_eq_none.2 hi]

/-- A record that a new one does not change. -/
theorem Stored.mem_of_ne (hc : IsLinked c l) (h : Stored c v i d) {low r : IndexedLeaf Fr254}
    (hlow : c.low v = some low) (hr : r ∈ c.docs) (hne : r ≠ low) : r ∈ d.docs := by
  obtain ⟨low', hlow', hdocs⟩ := h.docs_eq hc
  obtain rfl := Option.some_inj.1 (hlow.symm.trans hlow')
  rw [hdocs]
  refine List.mem_append_left _ (List.mem_map.2 ⟨r, hr, if_neg fun hvalue => hne ?_⟩)
  exact hc.value_inj hr (low_some hlow).1 hvalue

theorem Stored.mem_docs (hc : IsLinked c l) (h : Stored c v i d) {low : IndexedLeaf Fr254}
    (hlow : c.low v = some low) : low.relink v i ∈ d.docs ∧ low.after v i ∈ d.docs := by
  obtain ⟨low', hlow', hdocs⟩ := h.docs_eq hc
  obtain rfl := Option.some_inj.1 (hlow.symm.trans hlow')
  rw [hdocs]
  refine ⟨List.mem_append_left _ (List.mem_map.2 ⟨low, (low_some hlow).1, if_pos rfl⟩), ?_⟩
  exact List.mem_append_right _ List.mem_cons_self

/-- The leaves after a new record: those of the low leaf and of the new record change. -/
theorem leafAt_stored (hc : IsLinked c l) (h : Stored c v i d) {low : IndexedLeaf Fr254}
    (hlow : c.low v = some low) (hj : j ≠ i) :
    leafAt hash d j = if j = low.id then (low.relink v i).leaf hash else leafAt hash c j := by
  obtain ⟨hrelink, -⟩ := h.mem_docs hc hlow
  split_ifs with hlowid
  · rw [hlowid]
    exact leafAt_of_mem hrelink
  · by_cases hmem : j ∈ c.docs.map IndexedLeaf.id
    · obtain ⟨r, hr, rfl⟩ := List.mem_map.1 hmem
      have hne : r ≠ low := by
        rintro rfl
        exact hlowid rfl
      rw [leafAt_of_mem hr, leafAt_of_mem (h.mem_of_ne hc hlow hr hne)]
    · have hmem' : j ∉ d.docs.map IndexedLeaf.id := by
        rw [map_id_eq, h.pairs hc, List.map_append, ← map_id_eq, List.mem_append]
        rintro (hmem' | hmem')
        · exact hmem hmem'
        · exact hj (List.mem_singleton.1 hmem')
      rw [leafAt_of_notMem hmem, leafAt_of_notMem hmem']

/-- A record that is no low leaf of the new values stays as it is. -/
theorem StoredAll.mem_of_not_low {ps : List (Fr254 × ℕ)} (h : StoredAll c ps d) (hc : IsLinked c l)
    {r : IndexedLeaf Fr254} (hr : r ∈ c.docs) (hlow : ∀ p ∈ ps, c.low p.1 ≠ some r) : r ∈ d.docs := by
  induction h generalizing l with
  | nil => exact hr
  | @cons c c₁ d v i ps hstored _ ih =>
    rw [List.forall_mem_cons] at hlow
    obtain ⟨low, hlowv, -⟩ := hstored.docs
    obtain ⟨l₁, hc₁⟩ := hc.stored hstored
    have hne : r ≠ low := by
      rintro rfl
      exact hlow.1 hlowv
    have hr₁ := hstored.mem_of_ne hc hlowv hr hne
    refine ih hc₁ hr₁ fun p hp hlow₁ => hlow.2 p hp ?_
    -- the low leaf of `p` was there before, so it was the low leaf of `p` before
    obtain ⟨-, hlt, hmax⟩ := low_some hlow₁
    cases hq : c.low p.1 with
    | none => exact absurd hlt (low_eq_none.1 hq r hr).not_gt
    | some q =>
      obtain ⟨hqmem, hqlt, hqmax⟩ := low_some hq
      have hvalue : q.value ∈ c₁.docs.map IndexedLeaf.value := by
        rw [hstored.values hc]
        exact List.mem_append_left _ (List.mem_map.2 ⟨q, hqmem, rfl⟩)
      obtain ⟨q', hq', heq⟩ := List.mem_map.1 hvalue
      have hle := hmax q' hq' (by rw [heq]; exact hqlt)
      rw [heq] at hle
      have hqr := hc.value_inj hqmem hr
        (ZMod.val_injective _ (Nat.le_antisymm hle (hqmax r hr hlt)))
      rw [hqr]

end LeafAt

/-! ### One nullifier -/

section Inserting

variable {treeHash : Fr254 → Fr254 → Fr254} {hash : Fr254 → Fr254 → Fr254 → Fr254}
  {db : TreeDb Fr254} {t : NaiveTree Fr254} {first next : ℕ} {v : Fr254}

/-- A batch with the indices from `first` on is being inserted, and `next` is the next index.  The
leaves of the new records are not in the tree yet. -/
structure Inserting (treeHash : Fr254 → Fr254 → Fr254) (hash : Fr254 → Fr254 → Fr254 → Fr254)
    (db : TreeDb Fr254) (t : NaiveTree Fr254) (first next : ℕ) : Prop where
  refines : Refines treeHash db t
  linked : ∃ l, IsLinked db.indexedLeaves l
  first_eq : first = t.subTreeCount * 2 ^ t.subTreeHeight
  first_le : first ≤ 2 ^ t.height
  le : first ≤ next
  leaves : ∀ i, t.leaves i = if i < first then leafAt hash db.indexedLeaves i else 0
  below : ∀ r ∈ db.indexedLeaves.docs, r.id < next

theorem Inserting.next_new (h : Inserting treeHash hash db t first next) :
    next ∉ db.indexedLeaves.docs.map IndexedLeaf.id := by
  intro hmem
  obtain ⟨r, hr, hid⟩ := List.mem_map.1 hmem
  exact absurd hid (h.below r hr).ne

/-- The proof for a low leaf. -/
def lowProof (treeHash : Fr254 → Fr254 → Fr254) (hash : Fr254 → Fr254 → Fr254 → Fr254)
    (t : NaiveTree Fr254) (low : IndexedLeaf Fr254) : MembershipProof Fr254 where
  siblingPath := siblings (t.node treeHash) t.height (nodeIndex t.height low.id)
  leafIndex := low.id
  nodeValue := low.leaf hash

/-- What the circuit checks of the low nullifier of `v`, which gets the index `index`.  If the low
nullifier is in the tree, its proof leads to the running root, and with the record that names the new
leaf to the next one. -/
def LowStep (treeHash : Fr254 → Fr254 → Fr254) (hash : Fr254 → Fr254 → Fr254 → Fr254)
    (height firstIndex index : ℕ) (v : Fr254) (low : LeafDBEntry Fr254 × MembershipProof Fr254)
    (root root' : Fr254) : Prop :=
  if v ≠ 0 ∧ low.1.index < firstIndex then
    (low.1.value.val < v.val ∧ (v.val < low.1.nextValue.val ∨ low.1.nextValue = 0)) ∧
      low.2.nodeValue = hash low.1.value low.1.nextIndex low.1.nextValue ∧
      low.2.StartsAt height low.1.index ∧ low.2.Verifies treeHash root ∧
      foldPath treeHash low.2.siblingPath (hash low.1.value (index : Fr254) v) = root'
  else root' = root

theorem run_findMetadata (h : Refines treeHash db t) :
    findMetadata.run db = .ok (t.metadata treeHash) db := by
  simp only [findMetadata, EStateM.run_bind, EStateM.run_get, h.metadata]
  rfl

theorem run_getNonMembershipProof (h : Refines treeHash db t) (hv : v ≠ 0)
    (hnew : v ∉ db.indexedLeaves.docs.map IndexedLeaf.value) {low : IndexedLeaf Fr254}
    (hlow : Leaves.low db.indexedLeaves v = some low) :
    (getNonMembershipProof hash v).run db = .ok (lowProof treeHash hash t low) db := by
  have hnone := withValue_eq_none.2 hnew
  have hnode : db.getNode = t.node treeHash := funext h.getNode
  simp only [getNonMembershipProof, if_neg hv, EStateM.run_bind, run_getLeaf, hnone,
    Option.isSome_none, Bool.false_eq_true, if_false, run_findMetadata h, run_getLowLeaf, hlow, okOr,
    EStateM.run_pure, EStateM.run_get, hnode]
  rfl

theorem Inserting.node_leaf (h : Inserting treeHash hash db t first next) {r : IndexedLeaf Fr254}
    (hr : r ∈ db.indexedLeaves.docs) (hfirst : r.id < first) :
    t.node treeHash (nodeIndex t.height r.id) = r.leaf hash := by
  rw [NaiveTree.node_leaf (hfirst.trans_le h.first_le), h.leaves, if_pos hfirst, leafAt_of_mem hr]

theorem run_updateLeaf (hdb : Refines treeHash db t) {p : ℕ} (hp : p < 2 ^ t.height) (x : Fr254) :
    ∃ db', (updateSubTree treeHash p [x] true).run db =
        .ok ((t.write (p * [x].length) [x]).node treeHash 0) db' ∧
      Refines treeHash db' (t.write (p * [x].length) [x]) ∧
      db'.indexedLeaves = db.indexedLeaves := by
  have hcache := cacheAgrees_of_empty hdb.cache ((t.write (p * [x].length) [x]).node treeHash)
  obtain ⟨updates, hrun, -, hvalues⟩ := run_updateSubTree hdb.toHolds true (.inl ⟨rfl, hp⟩) rfl hcache
  exact ⟨_, hrun, refines_commit hcache hvalues, rfl⟩

/-- A new record that is not in the tree yet keeps the invariant, when the leaf of its low leaf is
updated. -/
theorem Inserting.stored {l : List (IndexedLeaf Fr254)} {c : Leaves} {low : IndexedLeaf Fr254}
    {u : NaiveTree Fr254} {db' : TreeDb Fr254} (h : Inserting treeHash hash db t first next)
    (hl : IsLinked db.indexedLeaves l) (hc : Stored db.indexedLeaves v next c)
    (hlow : Leaves.low db.indexedLeaves v = some low) (hdb' : Refines treeHash db' u)
    (hleaves : db'.indexedLeaves = c) (hu : u = { t with leaves := u.leaves })
    (hwrite : ∀ i, u.leaves i =
      if i = low.id ∧ i < first then (low.relink v next).leaf hash else t.leaves i) :
    Inserting treeHash hash db' u first (next + 1) where
  refines := hdb'
  linked := by
    rw [hleaves]
    exact hl.stored hc
  first_eq := by
    rw [hu]
    exact h.first_eq
  first_le := by
    rw [hu]
    exact h.first_le
  le := h.le.trans (Nat.le_succ _)
  leaves i := by
    rw [hwrite, hleaves]
    by_cases hi : i < first
    · have hne : i ≠ next := (hi.trans_le h.le).ne
      rw [if_pos hi, leafAt_stored hl hc hlow hne, h.leaves, if_pos hi]
      simp only [hi, and_true]
    · rw [if_neg fun hand => hi hand.2, if_neg hi, h.leaves, if_neg hi]
  below r hr := by
    rw [hleaves] at hr
    have hmem : r.id ∈ c.docs.map IndexedLeaf.id := List.mem_map.2 ⟨r, hr, rfl⟩
    rw [map_id_eq, hc.pairs hl, List.map_append, ← map_id_eq, List.mem_append] at hmem
    rcases hmem with hmem | hmem
    · obtain ⟨s, hs, hid⟩ := List.mem_map.1 hmem
      rw [← hid]
      exact (h.below s hs).trans (Nat.lt_succ_self _)
    · rw [List.mem_singleton.1 hmem]
      exact Nat.lt_succ_self _

/-- **One nullifier.**  A nullifier that isn't there is stored, and its low nullifier is updated in
the tree if it is there. -/
theorem run_insertNullifier (h : Inserting treeHash hash db t first next)
    (hnew : v ≠ 0 → v ∉ db.indexedLeaves.docs.map IndexedLeaf.value)
    (metadata : TreeMetadata Fr254) :
    ∃ low db' u, (insertNullifier treeHash hash metadata first next v).run db = .ok low db' ∧
      Inserting treeHash hash db' u first (next + 1) ∧ u = { t with leaves := u.leaves } ∧
      LowStep treeHash hash t.height first next v low (t.node treeHash 0) (u.node treeHash 0) := by
  by_cases hv : v = 0
  · -- nothing is stored for a zero
    refine ⟨(IndexedLeaf.default.toEntry, dummyProof metadata 0 0), db, t, ?_, ?_, rfl, ?_⟩
    · simp only [insertNullifier, EStateM.run_bind, run_getLeaf, hv, ne_eq, not_true_eq_false,
        and_false, if_false]
      rfl
    · exact { h with
        le := h.le.trans (Nat.le_succ _)
        below := fun r hr => (h.below r hr).trans (Nat.lt_succ_self _) }
    · rw [LowStep, if_neg fun hand => hand.1 hv]
  · obtain ⟨l, hl⟩ := h.linked
    have hvalue := hnew hv
    obtain ⟨low, hlow, huniq⟩ := hl.low hv hvalue
    obtain ⟨c, hc⟩ := exists_stored hlow hvalue h.next_new
    have hnone := withValue_eq_none.2 hvalue
    have hstore : (storeLeaf v (some next)).run db = .ok (some ()) { db with indexedLeaves := c } :=
      run_storeLeaf_eq_ok.2 ⟨rfl, c, hc, rfl⟩
    have hstored : Refines treeHash { db with indexedLeaves := c } t :=
      ⟨⟨h.refines.metadata, h.refines.nodes⟩, h.refines.cache⟩
    obtain ⟨hlowmem, -, -⟩ := low_some hlow
    by_cases hin : low.id < first
    · -- the low nullifier is in the tree
      have hp := hin.trans_le h.first_le
      have hupdated : Leaves.withValue c low.value = some (low.relink v next) := by
        obtain ⟨l', hl'⟩ := hl.stored hc
        exact hl'.withValue_eq (hc.mem_docs hl hlow).1
      obtain ⟨db', hupdate, hdb', hleaves⟩ :=
        run_updateLeaf hstored hp ((low.relink v next).leaf hash)
      refine ⟨(low.toEntry, lowProof treeHash hash t low), db', _, ?_,
        h.stored hl hc hlow hdb' hleaves rfl fun i => ?_, rfl, ?_⟩
      · simp only [insertNullifier, EStateM.run_bind, run_getLeaf, hnone, Option.isSome_none,
          Bool.false_eq_true, false_and, if_false, ne_eq, hv, not_false_eq_true, if_true,
          run_getLowLeaf, hlow, okOr, EStateM.run_pure, hin,
          run_getNonMembershipProof h.refines hv hvalue hlow, hstore, hupdated]
        rw [show (low.relink v next).id = low.id from rfl, hupdate]
      · rw [NaiveTree.write_leaves]
        by_cases hi : i = low.id
        · rw [if_pos hi, if_pos ⟨hi, hi ▸ hin⟩]
        · rw [if_neg hi, if_neg fun hand => hi hand.1]
      · rw [LowStep, if_pos ⟨hv, hin⟩]
        refine ⟨(huniq low hlowmem).1 rfl, rfl, ⟨rfl, pathIndex_siblings _ hp⟩, ?_, ?_⟩
        · have hpath : foldPath treeHash (siblings (t.node treeHash) t.height
              (nodeIndex t.height low.id)) (t.node treeHash (nodeIndex t.height low.id)) =
                t.node treeHash 0 :=
            foldPath_update (Nat.add_zero t.height) hp rfl fun _ _ => rfl
          rw [h.node_leaf hlowmem hin] at hpath
          exact hpath
        · exact foldPath_write hp _
    · -- the low nullifier is pending
      refine ⟨(low.toEntry, dummyProof metadata (((next + 1) % 2 ^ 32 + (2 ^ 64 - 1)) % 2 ^ 64)
        (low.leaf hash)), { db with indexedLeaves := c }, t, ?_,
        h.stored hl hc hlow hstored rfl rfl fun i => ?_, rfl, ?_⟩
      · simp only [insertNullifier, EStateM.run_bind, run_getLeaf, hnone, Option.isSome_none,
          Bool.false_eq_true, false_and, if_false, ne_eq, hv, not_false_eq_true, if_true,
          run_getLowLeaf, hlow, okOr, EStateM.run_pure, hin, hstore]
      · rw [if_neg]
        rintro ⟨rfl, hi⟩
        exact hin hi
      · rw [LowStep, if_neg fun hand => hin hand.2]

end Inserting

/-! ### The indices of a batch -/

section Slots

variable {hash : Fr254 → Fr254 → Fr254 → Fr254} {c d : Leaves} {r : List (IndexedLeaf Fr254)}
  {start next k : ℕ} {l : List Fr254} {v : Fr254}

/-- Without an overflow the indices are those of the places in the list. -/
theorem mem_slots (hstart : l ≠ [] → start = next) (hcap : next + l.length ≤ 2 ^ 32) {i : ℕ} :
    (v, i) ∈ slots start l ↔ ∃ k, l[k]? = some v ∧ v ≠ 0 ∧ i = next + k := by
  induction l generalizing start next with
  | nil => simp [slots]
  | cons w l ih =>
    obtain rfl := hstart (List.cons_ne_nil _ _)
    rw [List.length_cons] at hcap
    have hrest : (v, i) ∈ slots ((start + 1) % 2 ^ 32) l ↔
        ∃ k, l[k]? = some v ∧ v ≠ 0 ∧ i = start + 1 + k := by
      refine ih (fun hl => ?_) (by omega)
      have hpos := List.length_pos_iff.2 hl
      exact Nat.mod_eq_of_lt (by omega)
    have hsplit : (∃ k, (w :: l)[k]? = some v ∧ v ≠ 0 ∧ i = start + k) ↔
        (w = v ∧ v ≠ 0 ∧ i = start) ∨ ∃ k, l[k]? = some v ∧ v ≠ 0 ∧ i = start + 1 + k := by
      constructor
      · rintro ⟨k, hk, hv, hi⟩
        cases k with
        | zero => exact .inl ⟨by simpa using hk, hv, hi⟩
        | succ k => exact .inr ⟨k, by simpa using hk, hv, by omega⟩
      · rintro (⟨rfl, hv, hi⟩ | ⟨k, hk, hv, hi⟩)
        · exact ⟨0, rfl, hv, hi⟩
        · exact ⟨k + 1, by simpa using hk, hv, by omega⟩
    rw [hsplit, ← hrest, slots]
    split_ifs with hw
    · rw [List.mem_cons, Prod.mk.injEq]
      constructor
      · rintro (⟨rfl, rfl⟩ | hmem)
        · exact .inl ⟨rfl, hw, rfl⟩
        · exact .inr hmem
      · rintro (⟨rfl, -, rfl⟩ | hmem)
        · exact .inl ⟨rfl, rfl⟩
        · exact .inr hmem
    · constructor
      · exact .inr
      · rintro (⟨rfl, hv, -⟩ | hmem)
        · exact absurd hv hw
        · exact hmem

/-- The new leaf of a value that was stored. -/
def newLeaf (hash : Fr254 → Fr254 → Fr254 → Fr254) (c : Leaves) (v : Fr254) : Fr254 :=
  if v ≠ 0 then
    match c.withValue v with
    | some r => r.leaf hash
    | none => 0
  else 0

/-- A value that was stored has a record, with its index. -/
theorem exists_record (hpairs : d.docs.map IndexedLeaf.pair = c.docs.map IndexedLeaf.pair ++ slots start l)
    (hstart : l ≠ [] → start = next) (hcap : next + l.length ≤ 2 ^ 32) (hk : l[k]? = some v)
    (hv : v ≠ 0) : ∃ x ∈ d.docs, x.value = v ∧ x.id = next + k := by
  have hslot : (v, next + k) ∈ slots start l := (mem_slots hstart hcap).2 ⟨k, hk, hv, rfl⟩
  have hmem : (v, next + k) ∈ d.docs.map IndexedLeaf.pair := by
    rw [hpairs]
    exact List.mem_append_right _ hslot
  obtain ⟨x, hx, hpair⟩ := List.mem_map.1 hmem
  obtain ⟨hvalue, hid⟩ := Prod.mk.inj hpair
  exact ⟨x, hx, hvalue, hid⟩

theorem newLeaf_eq (hd : IsLinked d r)
    (hpairs : d.docs.map IndexedLeaf.pair = c.docs.map IndexedLeaf.pair ++ slots start l)
    (hstart : l ≠ [] → start = next) (hcap : next + l.length ≤ 2 ^ 32)
    (hbelow : ∀ x ∈ c.docs, x.id < next) (hk : l[k]? = some v) :
    newLeaf hash d v = leafAt hash d (next + k) := by
  by_cases hv : v = 0
  · rw [newLeaf, if_neg (not_not.2 hv), leafAt_of_notMem]
    rw [map_id_eq, hpairs, List.map_append, ← map_id_eq, List.mem_append]
    rintro (hmem | hmem)
    · obtain ⟨x, hx, hid⟩ := List.mem_map.1 hmem
      have := hbelow x hx
      omega
    · obtain ⟨⟨w, i⟩, hslot, rfl⟩ := List.mem_map.1 hmem
      obtain ⟨j, hj, hw, hi⟩ := (mem_slots hstart hcap).1 hslot
      obtain rfl : k = j := by omega
      rw [hk] at hj
      exact hw (Option.some_inj.1 hj ▸ hv)
  · obtain ⟨x, hx, rfl, hid⟩ := exists_record hpairs hstart hcap hk hv
    rw [newLeaf, if_pos hv, hd.withValue_eq hx, ← hid, leafAt_of_mem hx]

theorem id_lt_of_stored
    (hpairs : d.docs.map IndexedLeaf.pair = c.docs.map IndexedLeaf.pair ++ slots start l)
    (hstart : l ≠ [] → start = next) (hcap : next + l.length ≤ 2 ^ 32)
    (hbelow : ∀ x ∈ c.docs, x.id < next) : ∀ x ∈ d.docs, x.id < next + l.length := by
  intro x hx
  have hmem : x.id ∈ d.docs.map IndexedLeaf.id := List.mem_map.2 ⟨x, hx, rfl⟩
  rw [map_id_eq, hpairs, List.map_append, ← map_id_eq, List.mem_append] at hmem
  rcases hmem with hmem | hmem
  · obtain ⟨y, hy, hid⟩ := List.mem_map.1 hmem
    have := hbelow y hy
    omega
  · obtain ⟨⟨w, i⟩, hslot, hid⟩ := List.mem_map.1 hmem
    obtain ⟨k, hk, -, rfl⟩ := (mem_slots hstart hcap).1 hslot
    have hlt := (List.getElem?_eq_some_iff.1 hk).1
    dsimp only at hid
    omega

end Slots

end Trees

end Nightfall
