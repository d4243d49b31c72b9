import Nightfall.Trees.AppendOnly
import Nightfall.Trees.Shape

/-!
# The capacity of trees

An append checks its room with `sub_tree_count > 2 ^ tree_height`, once and without the number of new
sub-trees; `insert_leaf` has no check.  So a full tree, and a batch that is too long, pass, and what a
mutable tree writes for them are the nodes of another row.  An append-only tree has no entry of the
frontier for the last sub-tree, and panics.

`capacity_guarded_iff` : **when the capacity is enforced.**
-/

namespace Nightfall

namespace Trees

open Merkle Stateful

variable {F : Type} [Zero F] {treeHash : F → F → F} {db : TreeDb F} {metadata : TreeMetadata F}

/-! ### Nodes outside a tree -/

/-- The stored node with a number: in the cache, or else in the main database. -/
def TreeDb.lookup (db : TreeDb F) (i : ℕ) : Option (Node F) :=
  match db.cache.find i with
  | some node => some node
  | none => db.nodes.find i

/-- The number of nodes of a tree. -/
def TreeMetadata.nodeCount (metadata : TreeMetadata F) : ℕ :=
  2 ^ (metadata.treeHeight + metadata.subTreeHeight + 1) - 1

/-- The two databases have the same nodes with numbers from `n` on. -/
def SameOutside (n : ℕ) (db db' : TreeDb F) : Prop := ∀ i, n ≤ i → db'.lookup i = db.lookup i

/-- `x` enforces the capacity on `db`: if the tree would be over-full, it returns `TreeIsFull` and
changes nothing, and it never writes a node with a number from `n` on. -/
structure Guarded {α : Type} (x : TreeM F α) (db : TreeDb F) (full : Prop) (n : ℕ) : Prop where
  refuses : full → x.run db = .error (.err .treeIsFull) db
  inside_of_ok : ∀ a db', x.run db = .ok a db' → SameOutside n db db'
  inside_of_error : ∀ e db', x.run db = .error e db' → SameOutside n db db'

/-- An append-only tree enforces the capacity; it has no nodes. -/
def AppendOnly.Guarded (x : AppendOnly.AppendOnlyM Fr254) (db : AppendOnly.Db) (full : Prop) :
    Prop :=
  full → x.run db = .error (.err .treeIsFull) db

omit [Zero F] in
theorem SameOutside.refl (n : ℕ) (db : TreeDb F) : SameOutside n db db := fun _ _ => rfl

omit [Zero F] in
theorem SameOutside.trans {n : ℕ} {db₁ db₂ db₃ : TreeDb F} (h₁ : SameOutside n db₁ db₂)
    (h₂ : SameOutside n db₂ db₃) : SameOutside n db₁ db₃ :=
  fun i hi => (h₂ i hi).trans (h₁ i hi)

omit [Zero F] in
theorem run_setNodes (updateTree : Bool) (updates : List (Node F)) (db : TreeDb F) :
    ∃ db', (setNodes updateTree updates).run db = .ok () db' ∧
      ∀ n, (∀ i ∈ updates.map Node.id, i < n) → SameOutside n db db' := by
  have hnot : ∀ {n}, (∀ i ∈ updates.map Node.id, i < n) → ∀ i, n ≤ i → i ∉ updates.map Node.id :=
    fun hupdates i hi hmem => (hupdates i hmem).not_ge hi
  cases updateTree with
  | true =>
    refine ⟨_, rfl, fun n hupdates i hi => ?_⟩
    simp only [TreeDb.lookup, if_true, Collection.find_upserts_of_notMem (hnot hupdates i hi)]
  | false =>
    refine ⟨_, rfl, fun n hupdates i hi => ?_⟩
    simp only [TreeDb.lookup, Bool.false_eq_true, if_false,
      Collection.find_upserts_of_notMem (hnot hupdates i hi)]

/-- The database after a commit: the new metadata, and the nodes with those from the cache. -/
def TreeDb.flushed (db : TreeDb F) (metadata : TreeMetadata F) : TreeDb F :=
  { db with
    metadata := some metadata
    nodes := db.nodes.upserts db.cache.docs
    cache := .empty }

omit [Zero F] in
theorem lookup_flush (db : TreeDb F) (metadata : TreeMetadata F) (i : ℕ) :
    (db.flushed metadata).lookup i = db.lookup i := by
  simp only [TreeDb.lookup, TreeDb.flushed, Collection.find_empty]
  cases hfind : db.cache.find i with
  | none =>
    have hmem := Collection.find_eq_none.1 hfind
    exact Collection.find_upserts_of_notMem hmem
  | some node =>
    obtain ⟨hmem, hid⟩ := Collection.find_eq_some.1 hfind
    refine Collection.find_upserts_of_mem (List.mem_map.2 ⟨node, hmem, hid⟩) fun x hx hxid => ?_
    exact Collection.eq_of_key_eq hx hmem (hxid.trans hid.symm)

/-! ### Mutable trees -/

/-- The nodes of a sub-tree within the capacity are nodes of the tree. -/
theorem hookSubTree_inside {getNode : ℕ → F} {d m p : ℕ} (hp : p < 2 ^ d) {subTree : List F} :
    ∀ i ∈ (hookSubTree treeHash getNode d m (nodeIndex d p) subTree).2.map Node.id,
      i < 2 ^ (d + m + 1) - 1 := by
  intro i hi
  obtain ⟨l, hl, -, hcov⟩ := (mem_map_id_hookSubTree getNode subTree rfl hp).1 hi
  exact hcov.lt hl

/-- The rounds of an append always succeed, and stay inside the tree within the capacity. -/
theorem run_rounds (cs : List (List F)) (acc : F × ℕ) (updateTree : Bool) (db : TreeDb F) :
    ∃ r db', (cs.foldlM (appendSubTree treeHash metadata updateTree) acc).run db = .ok r db' ∧
      (acc.2 + cs.length ≤ 2 ^ metadata.treeHeight → SameOutside metadata.nodeCount db db') := by
  induction cs generalizing acc db with
  | nil => exact ⟨acc, db, rfl, fun _ => .refl _ _⟩
  | cons c cs ih =>
    let hooked := hookSubTree treeHash db.getNode metadata.treeHeight metadata.subTreeHeight
      (nodeIndex metadata.treeHeight acc.2) (makeCompleteTree treeHash metadata.subTreeHeight c)
    obtain ⟨db₁, hset, hsame⟩ := run_setNodes updateTree hooked.2 db
    obtain ⟨r, db', hrest, hsame'⟩ := ih (hooked.1, acc.2 + 1) db₁
    have hstep : (appendSubTree treeHash metadata updateTree acc c).run db =
        .ok (hooked.1, acc.2 + 1) db₁ := by
      rw [appendSubTree, EStateM.run_bind, EStateM.run_get]
      dsimp only
      rw [← nodeIndex, EStateM.run_bind, hset]
      rfl
    refine ⟨r, db', ?_, fun hfit => ?_⟩
    · rw [List.foldlM_cons, EStateM.run_bind, hstep]
      exact hrest
    · rw [List.length_cons] at hfit
      exact (hsame _ (hookSubTree_inside (by omega))).trans (hsame' (by dsimp only; omega))

theorem run_append (hmetadata : db.metadata = some metadata) {l : List F} (hl : l ≠ [])
    (hlen : l.length % 2 ^ metadata.subTreeHeight = 0) (updateTree : Bool) :
    (2 ^ metadata.treeHeight < metadata.subTreeCount ∧
        (appendSubTrees treeHash l updateTree).run db = .error (.err .treeIsFull) db) ∨
      metadata.subTreeCount ≤ 2 ^ metadata.treeHeight ∧
        ∃ r db', (appendSubTrees treeHash l updateTree).run db = .ok r db' ∧
          (metadata.subTreeCount + l.length / 2 ^ metadata.subTreeHeight ≤ 2 ^ metadata.treeHeight →
            SameOutside metadata.nodeCount db db') := by
  have hempty : l.isEmpty = false := by simpa using hl
  by_cases hfull : metadata.subTreeCount > 2 ^ metadata.treeHeight
  · refine .inl ⟨hfull, ?_⟩
    simp only [appendSubTrees, EStateM.run_bind, run_getMetadata hmetadata, hlen, ne_eq, not_true,
      if_false, hempty, Bool.false_eq_true, hfull, if_true, run_throwErr]
  · refine .inr ⟨not_lt.1 hfull, ?_⟩
    obtain ⟨r, db₁, hrounds, hsame⟩ := @run_rounds _ _ treeHash metadata
      (chunks (2 ^ metadata.subTreeHeight) l) (0, metadata.subTreeCount) updateTree db
    rw [(chunks_spec (Nat.two_pow_pos _) hlen).1] at hsame
    cases updateTree with
    | true =>
      refine ⟨(r.1, r.2 * 2 ^ metadata.subTreeHeight),
        db₁.flushed { metadata with subTreeCount := r.2, root := r.1 }, ?_,
        fun hfit => (hsame hfit).trans fun i _ => lookup_flush db₁ _ i⟩
      simp only [appendSubTrees, EStateM.run_bind, run_getMetadata hmetadata, hlen, ne_eq, not_true,
        if_false, hempty, Bool.false_eq_true, hfull, hrounds, if_true]
      rfl
    | false =>
      refine ⟨(r.1, metadata.subTreeCount * 2 ^ metadata.subTreeHeight), db₁, ?_, hsame⟩
      simp only [appendSubTrees, EStateM.run_bind, run_getMetadata hmetadata, hlen, ne_eq, not_true,
        if_false, hempty, Bool.false_eq_true, hfull, hrounds]
      rfl

/-- **An append to a mutable tree.** -/
theorem append_guarded_iff (hmetadata : db.metadata = some metadata) {l : List F} (hl : l ≠ [])
    (hlen : l.length % 2 ^ metadata.subTreeHeight = 0) (updateTree : Bool) :
    Guarded (appendSubTrees treeHash l updateTree) db
        (2 ^ metadata.treeHeight < metadata.subTreeCount + l.length / 2 ^ metadata.subTreeHeight)
        metadata.nodeCount ↔
      metadata.subTreeCount + l.length / 2 ^ metadata.subTreeHeight ≤ 2 ^ metadata.treeHeight ∨
        2 ^ metadata.treeHeight < metadata.subTreeCount := by
  rcases @run_append _ _ treeHash _ _ hmetadata l hl hlen updateTree with
    ⟨hfull, hrun⟩ | ⟨hcount, r, db', hrun, hsame⟩
  · refine iff_of_true ⟨fun _ => hrun, fun a db' h => ?_, fun e db' h => ?_⟩ (.inr hfull)
    · rw [hrun] at h
      cases h
    · rw [hrun] at h
      cases h
      exact .refl _ _
  · constructor
    · intro h
      by_contra hnot
      rw [not_or, not_le] at hnot
      have hrefuses := h.refuses hnot.1
      rw [hrun] at hrefuses
      cases hrefuses
    · intro h
      have hfit := h.resolve_right hcount.not_gt
      refine ⟨fun hfull => absurd hfit hfull.not_ge, fun a db₁ h₁ => ?_, fun e db₁ h₁ => ?_⟩
      · rw [hrun] at h₁
        cases h₁
        exact hsame hfit
      · rw [hrun] at h₁
        cases h₁

theorem run_insert (hmetadata : db.metadata = some metadata) (leaf : F) (updateTree : Bool) :
    ∃ r db', (insertLeaf treeHash leaf updateTree).run db = .ok r db' ∧
      (metadata.subTreeCount + 1 ≤ 2 ^ metadata.treeHeight →
        SameOutside metadata.nodeCount db db') := by
  let hooked := hookSubTree treeHash db.getNode (metadata.treeHeight + metadata.subTreeHeight) 0
    (nodeIndex (metadata.treeHeight + metadata.subTreeHeight)
      (metadata.subTreeCount * 2 ^ metadata.subTreeHeight)) [leaf]
  obtain ⟨db₁, hset, hsame⟩ := run_setNodes updateTree hooked.2 db
  have hinside : metadata.subTreeCount + 1 ≤ 2 ^ metadata.treeHeight →
      SameOutside metadata.nodeCount db db₁ := by
    intro hfit
    refine hsame _ (hookSubTree_inside ?_)
    rw [pow_add]
    exact Nat.mul_lt_mul_of_pos_right hfit (Nat.two_pow_pos _)
  cases updateTree with
  | true =>
    refine ⟨hooked.1,
      db₁.flushed { metadata with subTreeCount := metadata.subTreeCount + 1, root := hooked.1 }, ?_,
      fun hfit => (hinside hfit).trans fun i _ => lookup_flush db₁ _ i⟩
    rw [insertLeaf, EStateM.run_bind, run_getMetadata hmetadata]
    dsimp only
    rw [EStateM.run_bind, EStateM.run_get]
    dsimp only
    rw [← nodeIndex, EStateM.run_bind, hset]
    rfl
  | false =>
    refine ⟨hooked.1, db₁, ?_, hinside⟩
    rw [insertLeaf, EStateM.run_bind, run_getMetadata hmetadata]
    dsimp only
    rw [EStateM.run_bind, EStateM.run_get]
    dsimp only
    rw [← nodeIndex, EStateM.run_bind, hset]
    rfl

/-- **`insert_leaf`.** -/
theorem insert_guarded_iff (hmetadata : db.metadata = some metadata) (leaf : F)
    (updateTree : Bool) :
    Guarded (insertLeaf treeHash leaf updateTree) db
        (2 ^ metadata.treeHeight < metadata.subTreeCount + 1) metadata.nodeCount ↔
      metadata.subTreeCount + 1 ≤ 2 ^ metadata.treeHeight := by
  obtain ⟨r, db', hrun, hsame⟩ := @run_insert _ _ treeHash _ _ hmetadata leaf updateTree
  constructor
  · intro h
    by_contra hnot
    have hrefuses := h.refuses (not_le.1 hnot)
    rw [hrun] at hrefuses
    cases hrefuses
  · intro hfit
    refine ⟨fun hfull => absurd hfit hfull.not_ge, fun a db₁ h₁ => ?_, fun e db₁ h₁ => ?_⟩
    · rw [hrun] at h₁
      cases h₁
      exact hsame hfit
    · rw [hrun] at h₁
      cases h₁

/-! ### Append-only trees -/

namespace AppendOnly

variable {treeHash : Fr254 → Fr254 → Fr254} {fromStr : String → Option Fr254} {db : Db}
  {metadata : TreeMetadata Fr254}

/-- The rounds of an append fail in one way only. -/
theorem rounds_error {cs : List (List Fr254)} {acc : Appending} {e : Failure}
    (h : cs.foldlM (appendSubTree treeHash metadata) acc = .error e) :
    e = .panic "index out of bounds" := by
  induction cs generalizing acc with
  | nil => cases h
  | cons c cs ih =>
    rw [List.foldlM_cons] at h
    cases hstep : appendSubTree treeHash metadata acc c with
    | error e' =>
      rw [hstep] at h
      cases h
      unfold appendSubTree at hstep
      dsimp only at hstep
      split_ifs at hstep
      cases hstep
      rfl
    | ok acc' =>
      rw [hstep] at h
      exact ih h

/-- **An append to an append-only tree.** -/
theorem append_guarded_iff (hmetadata : db.metadata = some metadata) {frontier : List Fr254}
    (hfrontier : db.frontier = some (frontier.map toStringRep))
    (hparse : ∀ a, fromStr (toStringRep a) = some a) {l : List Fr254} (hl : l ≠ [])
    (hlen : l.length % 2 ^ metadata.subTreeHeight = 0) (updateTree : Bool) :
    Guarded (appendSubTrees treeHash fromStr l updateTree) db
        (2 ^ metadata.treeHeight < metadata.subTreeCount + l.length / 2 ^ metadata.subTreeHeight) ↔
      metadata.subTreeCount + l.length / 2 ^ metadata.subTreeHeight ≤ 2 ^ metadata.treeHeight ∨
        2 ^ metadata.treeHeight < metadata.subTreeCount := by
  have hempty : l.isEmpty = false := by simpa using hl
  have hrun : (appendSubTrees treeHash fromStr l updateTree).run db =
      if metadata.subTreeCount > 2 ^ metadata.treeHeight then .error (.err .treeIsFull) db
      else if frontier.length ≠ metadata.treeHeight then .error (.err .serializationError) db
      else (storeAppended metadata updateTree ((chunks (2 ^ metadata.subTreeHeight) l).foldlM
        (appendSubTree treeHash metadata) ⟨frontier, metadata.subTreeCount, 0⟩)).run db := by
    simp only [appendSubTrees, EStateM.run_bind, EStateM.run_get, hmetadata, hfrontier, okOr,
      parse_frontier hparse, EStateM.run_pure, hlen, ne_eq, not_true, if_false, hempty,
      Bool.false_eq_true]
    split_ifs
    · rfl
    · rfl
    · rfl
  unfold Guarded
  rw [hrun]
  by_cases hfull : metadata.subTreeCount > 2 ^ metadata.treeHeight
  · rw [if_pos hfull]
    exact iff_of_true (fun _ => rfl) (.inr hfull)
  · rw [if_neg hfull]
    constructor
    · intro h
      by_contra hnot
      rw [not_or, not_le] at hnot
      replace h := h hnot.1
      split_ifs at h
      · cases h
      · -- the rounds panic, or they succeed
        generalize hfold : (chunks (2 ^ metadata.subTreeHeight) l).foldlM
          (appendSubTree treeHash metadata) ⟨frontier, metadata.subTreeCount, 0⟩ = r at h
        cases r with
        | error e =>
          rw [rounds_error hfold] at h
          cases h
        | ok appended =>
          cases updateTree
          · cases h
          · cases h
    · intro h hover
      exact absurd (h.resolve_right hfull) hover.not_ge

end AppendOnly

/-! ### All trees -/

/-- **The capacity is enforced** on an append exactly if it fits or the tree has passed its capacity
before, and on `insert_leaf` exactly if there is room. -/
theorem capacity_guarded_iff (treeHash : F → F → F) (frHash : Fr254 → Fr254 → Fr254)
    {fromStr : String → Option Fr254} (hparse : ∀ a, fromStr (toStringRep a) = some a) :
    (∀ (db : TreeDb F) (metadata : TreeMetadata F) (l : List F) (updateTree : Bool),
      db.metadata = some metadata → l ≠ [] → l.length % 2 ^ metadata.subTreeHeight = 0 →
      (Guarded (appendSubTrees treeHash l updateTree) db
          (2 ^ metadata.treeHeight < metadata.subTreeCount + l.length / 2 ^ metadata.subTreeHeight)
          metadata.nodeCount ↔
        metadata.subTreeCount + l.length / 2 ^ metadata.subTreeHeight ≤ 2 ^ metadata.treeHeight ∨
          2 ^ metadata.treeHeight < metadata.subTreeCount)) ∧
    (∀ (db : TreeDb F) (metadata : TreeMetadata F) (leaf : F) (updateTree : Bool),
      db.metadata = some metadata →
      (Guarded (insertLeaf treeHash leaf updateTree) db
          (2 ^ metadata.treeHeight < metadata.subTreeCount + 1) metadata.nodeCount ↔
        metadata.subTreeCount + 1 ≤ 2 ^ metadata.treeHeight)) ∧
    ∀ (db : AppendOnly.Db) (metadata : TreeMetadata Fr254) (frontier l : List Fr254)
      (updateTree : Bool), db.metadata = some metadata →
      db.frontier = some (frontier.map toStringRep) → l ≠ [] →
      l.length % 2 ^ metadata.subTreeHeight = 0 →
      (AppendOnly.Guarded (AppendOnly.appendSubTrees frHash fromStr l updateTree) db
          (2 ^ metadata.treeHeight <
            metadata.subTreeCount + l.length / 2 ^ metadata.subTreeHeight) ↔
        metadata.subTreeCount + l.length / 2 ^ metadata.subTreeHeight ≤ 2 ^ metadata.treeHeight ∨
          2 ^ metadata.treeHeight < metadata.subTreeCount) := by
  refine ⟨fun db metadata l updateTree hmetadata hl hlen => ?_,
    fun db metadata leaf updateTree hmetadata => ?_,
    fun db metadata frontier l updateTree hmetadata hfrontier hl hlen => ?_⟩
  · exact append_guarded_iff hmetadata hl hlen updateTree
  · exact insert_guarded_iff hmetadata leaf updateTree
  · exact AppendOnly.append_guarded_iff hmetadata hfrontier hparse hl hlen updateTree

/-- A tree of height 1 with one sub-tree of one leaf. -/
def halfFull : TreeDb Fr254 := { TreeDb.empty with metadata := some ⟨1, 0, 1, 0⟩ }

/-- An append-only tree of height 1 with one sub-tree of one leaf. -/
def halfFullAppendOnly : AppendOnly.Db := ⟨some ⟨1, 0, 1, 0⟩, some ([(5 : ℕ)].map toStringRep)⟩

theorem capacity_guarded_iff_sample :
    Guarded (appendSubTrees sampleHash [(7 : ℕ)] true) halfFull (2 < 1 + 1) 3 ∧
      Guarded (insertLeaf sampleHash (7 : ℕ) true) halfFull (2 < 1 + 1) 3 ∧
      AppendOnly.Guarded (AppendOnly.appendSubTrees sampleHash AppendOnly.sampleFromStr
        [(7 : ℕ)] true) halfFullAppendOnly (2 < 1 + 1) := by
  obtain ⟨happend, hinsert, honly⟩ :=
    capacity_guarded_iff sampleHash sampleHash AppendOnly.sampleFromStr_toStringRep
  refine ⟨(happend halfFull ⟨1, 0, 1, 0⟩ _ true rfl (by simp) (by simp)).2 (.inl (by simp)),
    (hinsert halfFull ⟨1, 0, 1, 0⟩ _ true rfl).2 (by simp), ?_⟩
  exact (honly halfFullAppendOnly ⟨1, 0, 1, 0⟩ [(5 : ℕ)] _ true rfl rfl (by simp) (by simp)).2
    (.inl (by simp))

/-- The tree of one node after two appends. -/
def overfullTree : EStateM.Result Failure (TreeDb Fr254) (List (TreeResult Fr254)) :=
  (runTree sampleHash 0 0 [.appendSubTrees [(5 : ℕ)] true, .appendSubTrees [(7 : ℕ)] true]).run .empty

/-- The second append succeeds, and writes a node with the number 1. -/
def writesOutside : Bool :=
  match overfullTree with
  | .ok _ db => decide (db.lookup 1 = some ⟨1, (7 : ℕ)⟩)
  | .error _ _ => false

/-- A full mutable tree accepts another sub-tree, and a leaf, and writes outside; a batch that is too
long for an append-only tree makes it panic. -/
theorem capacity_not_guarded :
    writesOutside = true ∧ (⟨0, 0, 1, 0⟩ : TreeMetadata Fr254).nodeCount = 1 ∧
      ¬Guarded (appendSubTrees sampleHash [(7 : ℕ)] true)
        { TreeDb.empty with metadata := some ⟨0, 0, 1, 0⟩ } (1 < 1 + 1) 1 ∧
      ¬Guarded (insertLeaf sampleHash (7 : ℕ) true)
        { TreeDb.empty with metadata := some ⟨0, 0, 1, 0⟩ } (1 < 1 + 1) 1 ∧
      ¬AppendOnly.Guarded (AppendOnly.appendSubTrees sampleHash AppendOnly.sampleFromStr
        [(7 : ℕ), (9 : ℕ)] true) halfFullAppendOnly (2 < 1 + 2) := by
  refine ⟨by decide +kernel, rfl, fun h => ?_, fun h => ?_, fun h => ?_⟩
  · have hiff := @append_guarded_iff Fr254 _ sampleHash
      { TreeDb.empty with metadata := some ⟨0, 0, 1, 0⟩ } _ rfl [(7 : ℕ)]
      (List.cons_ne_nil _ _) rfl true
    exact absurd (hiff.1 h) (by simp)
  · have hiff := @insert_guarded_iff Fr254 _ sampleHash
      { TreeDb.empty with metadata := some ⟨0, 0, 1, 0⟩ } _ rfl ((7 : ℕ) : Fr254) true
    exact absurd (hiff.1 h) (by simp)
  · have hiff := @AppendOnly.append_guarded_iff sampleHash AppendOnly.sampleFromStr
      halfFullAppendOnly _ rfl [(5 : ℕ)] rfl AppendOnly.sampleFromStr_toStringRep
      [(7 : ℕ), (9 : ℕ)] (List.cons_ne_nil _ _) rfl true
    exact absurd (hiff.1 h) (by simp)

end Trees

end Nightfall
