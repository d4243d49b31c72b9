import Nightfall.Semantics.Stateful
import Nightfall.Trees.Mutable

/-!
# The shape of a tree

The heights of a tree and the number of its sub-trees, and what the operations that succeed do to
them in any state.  An insertion for a circuit succeeds only if there is room for the sub-tree;
`append_sub_trees` succeeds also if there isn't.
-/

namespace Nightfall

namespace Trees

open Stateful

variable {F : Type} [Zero F] [DecidableEq F] {treeHash : F → F → F} {db db' : TreeDb F}
  {treeHeight subTreeHeight subTreeCount : ℕ} {l : List F}

/-- The metadata, up to the root. -/
def HasShape (db : TreeDb F) (treeHeight subTreeHeight subTreeCount : ℕ) : Prop :=
  ∃ root, db.metadata = some ⟨treeHeight, subTreeHeight, subTreeCount, root⟩

/-- The heights of a tree and the number of its sub-trees. -/
def shape (db : TreeDb F) : Option (ℕ × ℕ × ℕ) :=
  db.metadata.map fun metadata =>
    (metadata.treeHeight, metadata.subTreeHeight, metadata.subTreeCount)

omit [Zero F] [DecidableEq F] in
theorem hasShape_iff : HasShape db treeHeight subTreeHeight subTreeCount ↔
    shape db = some (treeHeight, subTreeHeight, subTreeCount) := by
  constructor
  · rintro ⟨root, hroot⟩
    rw [shape, hroot]
    rfl
  · intro h
    obtain ⟨metadata, hmetadata, heq⟩ := Option.map_eq_some_iff.1 h
    cases heq
    exact ⟨metadata.root, hmetadata⟩

omit [Zero F] [DecidableEq F] in
theorem HasShape.unique {h s n h' s' n' : ℕ} (hdb : HasShape db h s n) (hdb' : HasShape db h' s' n') :
    h = h' ∧ s = s' ∧ n = n' := by
  obtain ⟨root, hroot⟩ := hdb
  obtain ⟨root', hroot'⟩ := hdb'
  rw [hroot] at hroot'
  cases hroot'
  exact ⟨rfl, rfl, rfl⟩

omit [Zero F] [DecidableEq F] in
theorem run_getMetadata_eq_ok {metadata : TreeMetadata F} :
    getMetadata.run db = .ok metadata db' ↔ db.metadata = some metadata ∧ db' = db := by
  cases h : db.metadata with
  | none =>
    refine ⟨fun hrun => ?_, fun hand => ?_⟩
    · simp only [getMetadata, EStateM.run_bind, EStateM.run_get, h] at hrun
      cases hrun
    · cases hand.1
  | some m =>
    simp only [getMetadata, EStateM.run_bind, EStateM.run_get, h]
    rw [run_pure_eq_ok, Option.some_inj, eq_comm (a := db)]

omit [Zero F] [DecidableEq F] in
theorem run_throwErr_ne_ok {α : Type} {e : MerkleTreeError} {a : α} :
    (throwErr e : TreeM F α).run db ≠ .ok a db' :=
  run_throw_ne_ok

omit [DecidableEq F] in
theorem count_foldlM_appendSubTree {metadata : TreeMetadata F} {updateTree : Bool}
    {cs : List (List F)} {acc r : F × ℕ}
    (h : (cs.foldlM (appendSubTree treeHash metadata updateTree) acc).run db = .ok r db') :
    r.2 = acc.2 + cs.length := by
  induction cs generalizing acc db with
  | nil =>
    cases h
    rfl
  | cons c cs ih =>
    obtain ⟨acc', db₁, hstep, h⟩ := run_bind_eq_ok.1 h
    cases hstep
    rw [ih h, List.length_cons]
    exact Nat.add_right_comm _ _ _

omit [DecidableEq F] in
/-- `append_sub_trees` uses up as many sub-trees as it appends. -/
theorem hasShape_appendSubTrees {r : F × ℕ} (hl : l ≠ [])
    (h : (appendSubTrees treeHash l true).run db = .ok r db')
    (hdb : HasShape db treeHeight subTreeHeight subTreeCount) :
    l.length % 2 ^ subTreeHeight = 0 ∧ subTreeCount ≤ 2 ^ treeHeight ∧
      HasShape db' treeHeight subTreeHeight (subTreeCount + l.length / 2 ^ subTreeHeight) := by
  obtain ⟨old, hold⟩ := hdb
  obtain ⟨metadata, db₁, hget, h⟩ := run_bind_eq_ok.1 h
  obtain ⟨hmetadata, rfl⟩ := run_getMetadata_eq_ok.1 hget
  obtain rfl := Option.some_inj.1 (hold.symm.trans hmetadata)
  dsimp only at h
  split_ifs at h with hlen hempty hfull
  · exact absurd h run_throwErr_ne_ok
  · exact absurd (List.isEmpty_iff.1 hempty) hl
  · exact absurd h run_throwErr_ne_ok
  · obtain ⟨appended, db₂, hfold, h⟩ := run_bind_eq_ok.1 h
    rw [not_not] at hlen
    refine ⟨hlen, not_lt.1 hfull, ?_⟩
    have hcount := count_foldlM_appendSubTree hfold
    rw [(chunks_spec (Nat.two_pow_pos _) hlen).1] at hcount
    cases h
    rw [← hcount]
    exact ⟨_, rfl⟩
  · exact absurd rfl ‹¬ true = true›

omit [DecidableEq F] in
theorem hasShape_updateSubTree {i : ℕ} {root : F}
    (h : (updateSubTree treeHash i l true).run db = .ok root db')
    (hdb : HasShape db treeHeight subTreeHeight subTreeCount) :
    HasShape db' treeHeight subTreeHeight subTreeCount := by
  obtain ⟨old, hold⟩ := hdb
  obtain ⟨metadata, db₁, hget, h⟩ := run_bind_eq_ok.1 h
  obtain ⟨hmetadata, rfl⟩ := run_getMetadata_eq_ok.1 hget
  obtain rfl := Option.some_inj.1 (hold.symm.trans hmetadata)
  dsimp only at h
  split_ifs at h
  · exact absurd h run_throwErr_ne_ok
  · exact absurd h run_throwErr_ne_ok
  · exact absurd h run_throwErr_ne_ok
  · exact absurd h run_throwErr_ne_ok
  · obtain ⟨_, _, ⟨⟩, h⟩ := run_bind_eq_ok.1 h
    exact absurd h run_throw_ne_ok
  · obtain ⟨_, _, ⟨⟩, h⟩ := run_bind_eq_ok.1 h
    cases h
    exact ⟨_, rfl⟩
  · exact absurd rfl ‹¬ true = true›

omit [DecidableEq F] in
theorem keepsShape_updateSubTree (i : ℕ) (l : List F) :
    Keeps shape (updateSubTree treeHash i l true) := by
  intro db root db' h
  cases hdb : shape db with
  | none =>
    obtain ⟨metadata, db₁, hget, -⟩ := run_bind_eq_ok.1 h
    obtain ⟨hmetadata, rfl⟩ := run_getMetadata_eq_ok.1 hget
    rw [shape, hmetadata] at hdb
    cases hdb
  | some triple =>
    obtain ⟨treeHeight, subTreeHeight, subTreeCount⟩ := triple
    exact hasShape_iff.1 (hasShape_updateSubTree h (hasShape_iff.2 hdb))

theorem hasShape_insertForCircuit {info : CircuitInsertionInfo F}
    (h : (insertForCircuit treeHash l).run db = .ok info db')
    (hdb : HasShape db treeHeight subTreeHeight subTreeCount) :
    l.length = 2 ^ subTreeHeight ∧ subTreeCount < 2 ^ treeHeight ∧
      HasShape db' treeHeight subTreeHeight (subTreeCount + 1) := by
  obtain ⟨old, hold⟩ := hdb
  obtain ⟨metadata, db₁, hget, h⟩ := run_bind_eq_ok.1 h
  obtain ⟨hmetadata, rfl⟩ := run_getMetadata_eq_ok.1 hget
  obtain rfl := Option.some_inj.1 (hold.symm.trans hmetadata)
  dsimp only at h
  split_ifs at h with hlen
  · exact absurd h run_throwErr_ne_ok
  · rw [not_not] at hlen
    have hpos := Nat.two_pow_pos subTreeHeight
    have hne : l ≠ [] := by
      rintro rfl
      exact hpos.ne hlen
    obtain ⟨proof, db₂, hproof, h⟩ := run_bind_eq_ok.1 h
    obtain ⟨appended, db₃, happend, h⟩ := run_bind_eq_ok.1 h
    cases h
    -- the proof that the place is empty is for a leaf of the tree
    have hrange : subTreeCount < 2 ^ treeHeight ∧ db₂ = db₁ := by
      obtain ⟨metadata', db₄, hget', hproof⟩ := run_bind_eq_ok.1 hproof
      obtain ⟨hmetadata', rfl⟩ := run_getMetadata_eq_ok.1 hget'
      obtain rfl := Option.some_inj.1 (hold.symm.trans hmetadata')
      obtain ⟨_, _, ⟨⟩, hproof⟩ := run_bind_eq_ok.1 hproof
      dsimp only [leafNodeIndex] at hproof
      split_ifs at hproof with hin
      · exact absurd hproof run_throwErr_ne_ok
      · obtain ⟨-, rfl⟩ := run_pure_eq_ok.1 hproof
        refine ⟨?_, rfl⟩
        by_contra hfull
        have hmul : 2 ^ treeHeight * 2 ^ subTreeHeight ≤ subTreeCount * 2 ^ subTreeHeight :=
          Nat.mul_le_mul_right _ (not_lt.1 hfull)
        have hheight := Nat.two_pow_pos (treeHeight + subTreeHeight)
        rw [← pow_add] at hmul
        rw [pow_succ] at hin
        omega
    obtain ⟨hroom, rfl⟩ := hrange
    obtain ⟨-, -, hshape⟩ := hasShape_appendSubTrees hne happend ⟨old, hold⟩
    rw [hlen, Nat.div_self hpos] at hshape
    exact ⟨hlen, hroom, hshape⟩

end Trees

end Nightfall
