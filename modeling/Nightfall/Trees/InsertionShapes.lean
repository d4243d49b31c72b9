import Nightfall.Trees.ExactProofs
import Nightfall.Trees.Witnesses

/-!
# The shapes of witnesses

The circuits read proofs and insertions from lists of field elements.  That needs lists of one length,
and indices that fit into machine words.  Both hold of whatever the trees return: the lengths are those
of the tree, and the indices are those of its leaves and of its records (`SmallIds`).
-/

namespace Nightfall

namespace Trees

open Merkle Stateful

/-! ### Shapes -/

section Shapes

variable {F : Type}

/-- A proof for a tree of the height `height`, with a 64-bit index. -/
structure MembershipProof.Fits (height : ℕ) (proof : MembershipProof F) : Prop where
  length : proof.siblingPath.length = height
  leafIndex : proof.leafIndex < 2 ^ 64

/-- The insertion of a sub-tree with `leaves` leaves. -/
structure CircuitInsertionInfo.Fits (treeHeight leaves : ℕ) (info : CircuitInsertionInfo F) : Prop where
  proof : info.proof.Fits treeHeight
  length : info.leaves.length = leaves
  leafCount : info.leafCount < 2 ^ 64

/-- The insertion of a sub-tree with `leaves` nullifiers into a tree of the height `height`; indices of
records have 32 bits. -/
structure IMTCircuitInsertionInfo.Fits (treeHeight height leaves : ℕ)
    (info : IMTCircuitInsertionInfo F) : Prop where
  circuitInfo : info.circuitInfo.Fits treeHeight leaves
  firstIndex : info.firstIndex < 2 ^ 32
  lowLength : info.lowNullifiers.length = leaves
  lowNullifiers : ∀ low ∈ info.lowNullifiers, low.1.index < 2 ^ 32 ∧ low.2.Fits height
  pendingLength : info.pendingInserts.length = leaves
  pendingInserts : ∀ entry ∈ info.pendingInserts, entry.index < 2 ^ 32

end Shapes

/-! ### Proofs -/

section Proofs

variable {F : Type} [Zero F] [DecidableEq F] {treeHash : F → F → F} {db db' : TreeDb F}
  {metadata : TreeMetadata F} {treeHeight subTreeHeight n : ℕ} {l : List F}

theorem run_getMembershipProof_eq_ok {leaf : Option F} {leafIndex : Option ℕ}
    {proof : MembershipProof F} (hmetadata : db.metadata = some metadata)
    (h : (getMembershipProof leaf leafIndex).run db = .ok proof db') :
    db' = db ∧ ∃ index, leafNodeIndex db metadata.height leaf leafIndex = .ok index ∧
      2 ^ metadata.height - 1 ≤ index ∧ index ≤ 2 ^ (metadata.height + 1) - 2 ∧
      proof = ⟨siblings db.getNode metadata.height index, index + 1 - 2 ^ metadata.height,
        leaf.getD (db.getNode index)⟩ := by
  obtain ⟨metadata', db₁, hget, h⟩ := run_bind_eq_ok.1 h
  obtain ⟨hmetadata', rfl⟩ := run_getMetadata_eq_ok.1 hget
  obtain rfl := Option.some_inj.1 (hmetadata.symm.trans hmetadata')
  obtain ⟨_, _, ⟨⟩, h⟩ := run_bind_eq_ok.1 h
  dsimp only at h
  have hheight : metadata.treeHeight + metadata.subTreeHeight = metadata.height := rfl
  rw [hheight] at h
  cases hindex : leafNodeIndex db₁ metadata.height leaf leafIndex with
  | error e =>
    rw [hindex] at h
    exact absurd h run_throwErr_ne_ok
  | ok index =>
    rw [hindex] at h
    dsimp only at h
    split_ifs at h with hrange
    · exact absurd h run_throwErr_ne_ok
    · obtain ⟨rfl, rfl⟩ := run_pure_eq_ok.1 h
      rw [not_or, not_lt, not_lt] at hrange
      exact ⟨rfl, index, rfl, hrange.1, hrange.2, rfl⟩

theorem fits_getMembershipProof {leaf : Option F} {leafIndex : Option ℕ} {proof : MembershipProof F}
    (hmetadata : db.metadata = some metadata) (hheight : metadata.height ≤ 64)
    (h : (getMembershipProof leaf leafIndex).run db = .ok proof db') :
    proof.Fits metadata.height := by
  obtain ⟨-, index, -, -, hle, rfl⟩ := run_getMembershipProof_eq_ok hmetadata h
  refine ⟨length_siblings _ _ _, ?_⟩
  have hpow : 2 ^ metadata.height ≤ 2 ^ 64 := Nat.pow_le_pow_right (by omega) hheight
  have hpos := Nat.two_pow_pos metadata.height
  rw [pow_succ] at hle
  dsimp only
  omega

theorem fits_insertForCircuit {info : CircuitInsertionInfo F}
    (hdb : HasShape db treeHeight subTreeHeight n) (hheight : treeHeight + subTreeHeight < 64)
    (h : (insertForCircuit treeHash l).run db = .ok info db') :
    info.Fits treeHeight (2 ^ subTreeHeight) := by
  obtain ⟨hlen, hroom, -⟩ := hasShape_insertForCircuit h hdb
  obtain ⟨root, hroot⟩ := hdb
  obtain ⟨metadata, db₁, hget, h⟩ := run_bind_eq_ok.1 h
  obtain ⟨hmetadata, rfl⟩ := run_getMetadata_eq_ok.1 hget
  obtain rfl := Option.some_inj.1 (hroot.symm.trans hmetadata)
  dsimp only at h
  rw [if_neg (not_not.2 hlen)] at h
  obtain ⟨proof, db₂, hproof, h⟩ := run_bind_eq_ok.1 h
  obtain ⟨appended, db₃, happend, h⟩ := run_bind_eq_ok.1 h
  obtain ⟨rfl, -⟩ := run_pure_eq_ok.1 h
  obtain ⟨-, index, -, -, -, rfl⟩ := run_getMembershipProof_eq_ok hmetadata hproof
  have hpow : 2 ^ (treeHeight + subTreeHeight) < 2 ^ 64 :=
    Nat.pow_lt_pow_right (by omega) hheight
  have hsub : 1 ≤ 2 ^ subTreeHeight := Nat.one_le_two_pow
  refine ⟨⟨?_, ?_⟩, hlen, ?_⟩
  · rw [List.length_drop, length_siblings]
    exact Nat.add_sub_cancel _ _
  · have hle : 2 ^ treeHeight ≤ 2 ^ (treeHeight + subTreeHeight) :=
      Nat.pow_le_pow_right (by omega) (Nat.le_add_right _ _)
    exact (hroom.trans_le hle).trans hpow
  · have hle : (n + 1) * 2 ^ subTreeHeight ≤ 2 ^ treeHeight * 2 ^ subTreeHeight :=
      Nat.mul_le_mul_right _ hroom
    rw [← pow_add, Nat.add_mul, Nat.one_mul] at hle
    dsimp only
    omega

end Proofs

/-! ### Nullifiers -/

section Nullifiers

variable {treeHash : Fr254 → Fr254 → Fr254} {hash : Fr254 → Fr254 → Fr254 → Fr254}
  {db db' : TreeDb Fr254} {metadata : TreeMetadata Fr254} {firstIndex initialIndex n : ℕ}
  {treeHeight subTreeHeight : ℕ} {l : List Fr254}

/-- All records have 32-bit indices. -/
def SmallIds (c : Leaves) : Prop := ∀ i ∈ c.docs.map IndexedLeaf.id, i < 2 ^ 32

theorem SmallIds.id_lt {c : Leaves} (h : SmallIds c) {r : IndexedLeaf Fr254} (hr : r ∈ c.docs) :
    r.id < 2 ^ 32 := h _ (List.mem_map_of_mem hr)

theorem SmallIds.storedAll {c d : Leaves} (h : SmallIds c) {ps : List (Fr254 × ℕ)}
    (hstored : StoredAll c ps d) (hps : ∀ p ∈ ps, p.2 < 2 ^ 32) : SmallIds d := by
  induction hstored with
  | nil => exact h
  | @cons c d e v i ps hone hrest ih =>
    rw [List.forall_mem_cons] at hps
    refine ih ?_ hps.2
    obtain ⟨low, -, hdocs⟩ := hone.docs
    have hids : d.docs.map IndexedLeaf.id = (c.docs ++ [low.after v i]).map IndexedLeaf.id := by
      rw [hdocs]
      exact @Collection.map_key_updateDocs _ _ IndexedLeaf.id _ (fun x => x.relink v i)
        (fun _ => rfl) _
    intro j hj
    rw [hids, List.map_append, List.mem_append, List.map_singleton, List.mem_singleton] at hj
    rcases hj with hj | rfl
    · exact h j hj
    · exact hps.1

theorem slots_lt {start : ℕ} (hstart : start < 2 ^ 32) : ∀ p ∈ slots start l, p.2 < 2 ^ 32 := by
  induction l generalizing start with
  | nil => exact List.forall_mem_nil _
  | cons v l ih =>
    have hrest := @ih ((start + 1) % 2 ^ 32) (Nat.mod_lt _ (by omega))
    rw [slots]
    split_ifs
    · exact List.forall_mem_cons.2 ⟨hstart, hrest⟩
    · exact hrest

theorem fits_dummyProof {leafIndex : ℕ} (h : leafIndex < 2 ^ 64) (nodeValue : Fr254) :
    (dummyProof metadata leafIndex nodeValue).Fits metadata.height :=
  ⟨List.length_replicate, h⟩

theorem fits_getNonMembershipProof {v : Fr254} {proof : MembershipProof Fr254}
    (hmetadata : db.metadata = some metadata) (hsmall : SmallIds db.indexedLeaves)
    (h : (getNonMembershipProof hash v).run db = .ok proof db') : proof.Fits metadata.height := by
  rw [getNonMembershipProof] at h
  split_ifs at h
  · exact absurd h run_throwErr_ne_ok
  · obtain ⟨existing, db₁, hexisting, hrest⟩ := run_bind_eq_ok.1 h
    rw [run_getLeaf] at hexisting
    cases hexisting
    split_ifs at hrest
    · exact absurd hrest run_throwErr_ne_ok
    · obtain ⟨metadata', db₂, hfind, hlowLeaf⟩ := run_bind_eq_ok.1 hrest
      obtain ⟨hmetadata', rfl⟩ := run_findMetadata_eq_ok.1 hfind
      obtain rfl := Option.some_inj.1 (hmetadata.symm.trans hmetadata')
      obtain ⟨low, db₃, hlow, hsome⟩ := run_bind_eq_ok.1 hlowLeaf
      rw [run_getLowLeaf] at hlow
      cases hlow
      obtain ⟨low', db₄, hok, hreturn⟩ := run_bind_eq_ok.1 hsome
      obtain ⟨hlow, rfl⟩ := run_okOr_eq_ok.1 hok
      obtain ⟨_, _, ⟨⟩, hpure⟩ := run_bind_eq_ok.1 hreturn
      obtain ⟨rfl, -⟩ := run_pure_eq_ok.1 hpure
      have hid := hsmall.id_lt (low_some hlow).1
      exact ⟨length_siblings _ _ _, by dsimp only; omega⟩

theorem fits_insertNullifier {v : Fr254} {low : LeafDBEntry Fr254 × MembershipProof Fr254}
    (hmetadata : db.metadata = some metadata) (hsmall : SmallIds db.indexedLeaves)
    (h : (insertNullifier treeHash hash metadata firstIndex initialIndex v).run db = .ok low db') :
    low.1.index < 2 ^ 32 ∧ low.2.Fits metadata.height := by
  obtain ⟨existing, db₁, hexisting, hrest⟩ := run_bind_eq_ok.1 h
  rw [run_getLeaf] at hexisting
  cases hexisting
  split_ifs at hrest
  · exact absurd hrest run_throwErr_ne_ok
  · obtain ⟨lowLeaf, db₂, hlow, hsome⟩ := run_bind_eq_ok.1 hrest
    rw [run_getLowLeaf] at hlow
    cases hlow
    obtain ⟨r, db₃, hok, hinsert⟩ := run_bind_eq_ok.1 hsome
    obtain ⟨hlow, rfl⟩ := run_okOr_eq_ok.1 hok
    have hid := hsmall.id_lt (low_some hlow).1
    split_ifs at hinsert
    · obtain ⟨proof, db₄, hproof, hstore⟩ := run_bind_eq_ok.1 hinsert
      obtain ⟨stored, db₅, -, hstored⟩ := run_bind_eq_ok.1 hstore
      obtain ⟨_, db₆, -, hget⟩ := run_bind_eq_ok.1 hstored
      obtain ⟨updated, db₇, -, hupdated⟩ := run_bind_eq_ok.1 hget
      obtain ⟨updated', db₈, -, hupdate⟩ := run_bind_eq_ok.1 hupdated
      obtain ⟨_, db₉, -, hreturn⟩ := run_bind_eq_ok.1 hupdate
      obtain ⟨rfl, -⟩ := run_pure_eq_ok.1 hreturn
      exact ⟨hid, fits_getNonMembershipProof hmetadata hsmall hproof⟩
    · obtain ⟨stored, db₄, -, hstored⟩ := run_bind_eq_ok.1 hinsert
      obtain ⟨_, db₅, -, hreturn⟩ := run_bind_eq_ok.1 hstored
      obtain ⟨rfl, -⟩ := run_pure_eq_ok.1 hreturn
      exact ⟨hid, fits_dummyProof (Nat.mod_lt _ (by omega)) _⟩
  · obtain ⟨rfl, -⟩ := run_pure_eq_ok.1 hrest
    exact ⟨Nat.two_pow_pos 32, fits_dummyProof (Nat.two_pow_pos 64) _⟩

theorem fits_insertEach {lows : List (LeafDBEntry Fr254 × MembershipProof Fr254)}
    (hdb : HasShape db metadata.treeHeight metadata.subTreeHeight n)
    (hsmall : SmallIds db.indexedLeaves) (hindex : initialIndex < 2 ^ 32)
    (h : (insertEach treeHash hash metadata firstIndex initialIndex l).run db = .ok lows db') :
    lows.length = l.length ∧ ∀ low ∈ lows, low.1.index < 2 ^ 32 ∧ low.2.Fits metadata.height := by
  induction l generalizing initialIndex db db' lows with
  | nil =>
    obtain ⟨rfl, -⟩ := run_pure_eq_ok.1 h
    exact ⟨rfl, List.forall_mem_nil _⟩
  | cons v l ih =>
    obtain ⟨low, db₁, hone, h⟩ := run_bind_eq_ok.1 h
    obtain ⟨rest, db₂, hrest, h⟩ := run_bind_eq_ok.1 h
    obtain ⟨rfl, -⟩ := run_pure_eq_ok.1 h
    have hshape₁ : shape db₁ = shape db := keepsShape_insertNullifier _ _ _ _ _ _ _ hone
    have hdb₁ : HasShape db₁ metadata.treeHeight metadata.subTreeHeight n := by
      rw [hasShape_iff] at hdb ⊢
      rw [hshape₁, hdb]
    have hsmall₁ : SmallIds db₁.indexedLeaves :=
      hsmall.storedAll (stores_insertNullifier treeHash hash _ _ _ _ _ _ _ hone) (slots_lt hindex)
    obtain ⟨hlength, hlows⟩ := ih hdb₁ hsmall₁ (Nat.mod_lt _ (by omega)) hrest
    obtain ⟨root, hroot⟩ := hdb
    have hfits := @fits_insertNullifier _ _ _ _ ⟨_, _, n, root⟩ _ _ _ _ hroot hsmall hone
    exact ⟨by rw [List.length_cons, List.length_cons, hlength],
      List.forall_mem_cons.2 ⟨hfits, hlows⟩⟩

theorem index_getPendingInsert {v : Fr254} {entry : LeafDBEntry Fr254}
    (hsmall : SmallIds db.indexedLeaves) (h : (getPendingInsert v).run db = .ok entry db') :
    entry.index < 2 ^ 32 := by
  rw [getPendingInsert] at h
  split_ifs at h
  · obtain ⟨leaf, db₁, hleaf, hsome⟩ := run_bind_eq_ok.1 h
    rw [run_getLeaf] at hleaf
    cases hleaf
    obtain ⟨r, db₂, hok, hreturn⟩ := run_bind_eq_ok.1 hsome
    obtain ⟨hfound, rfl⟩ := run_okOr_eq_ok.1 hok
    obtain ⟨rfl, -⟩ := run_pure_eq_ok.1 hreturn
    exact hsmall.id_lt (withValue_some hfound).1
  · obtain ⟨rfl, -⟩ := run_pure_eq_ok.1 h
    exact Nat.two_pow_pos 32

theorem index_getPendingInserts {entries : List (LeafDBEntry Fr254)}
    (hsmall : SmallIds db.indexedLeaves)
    (h : (l.mapM getPendingInsert).run db = .ok entries db') :
    ∀ entry ∈ entries, entry.index < 2 ^ 32 := by
  induction l generalizing db db' entries with
  | nil =>
    cases h
    exact List.forall_mem_nil _
  | cons v l ih =>
    rw [List.mapM_cons] at h
    obtain ⟨entry, db₁, hone, hmore⟩ := run_bind_eq_ok.1 h
    obtain ⟨entries', db₂, hrest, hreturn⟩ := run_bind_eq_ok.1 hmore
    obtain ⟨rfl, -⟩ := run_pure_eq_ok.1 hreturn
    have hkeeps : db₁.indexedLeaves = db.indexedLeaves := keeps_getPendingInsert v _ _ _ hone
    exact List.forall_mem_cons.2
      ⟨index_getPendingInsert hsmall hone, ih (hkeeps ▸ hsmall) hrest⟩

theorem fits_insertNullifiersForCircuit {info : IMTCircuitInsertionInfo Fr254}
    (hdb : HasShape db treeHeight subTreeHeight n) (hsmall : SmallIds db.indexedLeaves)
    (hheight : treeHeight + subTreeHeight < 64)
    (h : (insertNullifiersForCircuit treeHash hash l).run db = .ok info db') :
    info.Fits treeHeight (treeHeight + subTreeHeight) (2 ^ subTreeHeight) ∧
      SmallIds db'.indexedLeaves := by
  obtain ⟨hlen, -, -⟩ := hasShape_insertNullifiersForCircuit h hdb
  obtain ⟨metadata, db₁, hfind, hinsert⟩ := run_bind_eq_ok.1 h
  obtain ⟨hmetadata, rfl⟩ := run_findMetadata_eq_ok.1 hfind
  obtain ⟨root, hroot⟩ := id hdb
  obtain rfl := Option.some_inj.1 (hroot.symm.trans hmetadata)
  dsimp only at hinsert
  rw [if_neg (not_not.2 hlen.symm)] at hinsert
  obtain ⟨lows, db₂, heach, hrest⟩ := run_bind_eq_ok.1 hinsert
  obtain ⟨pending, db₃, hpending, hsubTree⟩ := run_bind_eq_ok.1 hrest
  obtain ⟨circuitInfo, db₄, hcircuit, hreturn⟩ := run_bind_eq_ok.1 hsubTree
  obtain ⟨rfl, rfl⟩ := run_pure_eq_ok.1 hreturn
  have hindex : TreeMetadata.insertIndex ⟨treeHeight, subTreeHeight, n, root⟩ < 2 ^ 32 :=
    Nat.mod_lt _ (by omega)
  obtain ⟨hlows, hlowsFit⟩ := @fits_insertEach _ _ _ _ ⟨treeHeight, subTreeHeight, n, root⟩ _ _ _ _ _
    hdb hsmall hindex heach
  have hsmall₂ : SmallIds db₂.indexedLeaves :=
    hsmall.storedAll (stores_insertEach treeHash hash _ _ _ _ _ _ _ heach) (slots_lt hindex)
  have hdb₃ : HasShape db₃ treeHeight subTreeHeight n := by
    have hshape₂ : shape db₂ = shape db₁ := keepsShape_insertEach _ _ _ l _ _ _ heach
    have hshape₃ : shape db₃ = shape db₂ := Keeps.mapM keeps_getPendingInsert l _ _ _ hpending
    rw [hasShape_iff] at hdb ⊢
    rw [hshape₃, hshape₂, hdb]
  have hleaves₃ : db₃.indexedLeaves = db₂.indexedLeaves :=
    Keeps.mapM keeps_getPendingInsert l _ _ _ hpending
  have hleaves₄ : db₄.indexedLeaves = db₃.indexedLeaves :=
    keeps_insertForCircuit treeHash _ _ _ _ hcircuit
  refine ⟨⟨fits_insertForCircuit hdb₃ hheight hcircuit, hindex, hlows.trans hlen, hlowsFit, ?_,
    index_getPendingInserts hsmall₂ hpending⟩, ?_⟩
  · rw [length_of_mapM hpending, hlen]
  · rw [hleaves₄, hleaves₃]
    exact hsmall₂

end Nullifiers

/-! ### Batches -/

section Batches

variable {treeHeight subTreeHeight : ℕ}

theorem forall_mem_of_mapM {F ι : Type} {insert : List F → TreeM F ι} {I : TreeDb F → Prop}
    {P : ι → Prop}
    (hstep : ∀ db l info db', I db → (insert l).run db = .ok info db' → P info ∧ I db')
    {db db' : TreeDb F} {ls : List (List F)} {infos : List ι} (hdb : I db)
    (hrun : (ls.mapM insert).run db = .ok infos db') : ∀ info ∈ infos, P info := by
  induction ls generalizing db db' infos with
  | nil =>
    cases hrun
    exact List.forall_mem_nil _
  | cons l ls ih =>
    rw [List.mapM_cons] at hrun
    obtain ⟨info, db₁, hone, hmore⟩ := run_bind_eq_ok.1 hrun
    obtain ⟨infos', db₂, hrest, hreturn⟩ := run_bind_eq_ok.1 hmore
    obtain ⟨rfl, -⟩ := run_pure_eq_ok.1 hreturn
    obtain ⟨hinfo, hdb₁⟩ := hstep _ _ _ _ hdb hone
    exact List.forall_mem_cons.2 ⟨hinfo, ih hdb₁ hrest⟩

theorem AppendState.hasShape {F : Type} [Zero F] [DecidableEq F] {treeHash : F → F → F}
    {db : TreeDb F} (h : AppendState treeHash treeHeight subTreeHeight db) :
    ∃ n, HasShape db treeHeight subTreeHeight n := by
  rcases h with ⟨t, ht, rfl, rfl, -⟩ | ⟨n, -, hshape⟩
  · exact ⟨t.subTreeCount, _, ht.metadata⟩
  · exact ⟨n, hshape⟩

/-- **The insertions of commitments have one shape.** -/
theorem fits_batchInsertWithCircuitInfo {F : Type} [Zero F] [DecidableEq F] {treeHash : F → F → F}
    {db db' : TreeDb F} {l : List F} {infos : List (CircuitInsertionInfo F)} {n : ℕ}
    (hdb : HasShape db treeHeight subTreeHeight n) (hheight : treeHeight + subTreeHeight < 64)
    (hrun : (batchInsertWithCircuitInfo treeHash l).run db = .ok infos db') :
    ∀ info ∈ infos, info.Fits treeHeight (2 ^ subTreeHeight) := by
  obtain ⟨metadata, db₁, hget, hbatch⟩ := run_bind_eq_ok.1 hrun
  obtain ⟨-, rfl⟩ := run_getMetadata_eq_ok.1 hget
  dsimp only at hbatch
  split_ifs at hbatch
  · exact absurd hbatch run_throwErr_ne_ok
  · have hstep : ∀ db l info db', (∃ n, HasShape db treeHeight subTreeHeight n) →
        (insertForCircuit treeHash l).run db = .ok info db' →
          info.Fits treeHeight (2 ^ subTreeHeight) ∧
            ∃ n, HasShape db' treeHeight subTreeHeight n := by
      rintro db l info db' ⟨n, hdb⟩ hone
      exact ⟨fits_insertForCircuit hdb hheight hone, _, (hasShape_insertForCircuit hone hdb).2.2⟩
    exact forall_mem_of_mapM hstep ⟨n, hdb⟩ (run_mapM_of_expect hbatch)

/-- **The insertions of nullifiers have one shape.** -/
theorem fits_batchInsertNullifiers {treeHash : Fr254 → Fr254 → Fr254}
    {hash : Fr254 → Fr254 → Fr254 → Fr254} {db db' : TreeDb Fr254} {l : List Fr254}
    {infos : List (IMTCircuitInsertionInfo Fr254)} {n : ℕ}
    (hdb : HasShape db treeHeight subTreeHeight n) (hsmall : SmallIds db.indexedLeaves)
    (hheight : treeHeight + subTreeHeight < 64)
    (hrun : (batchInsertNullifiersWithCircuitInfo treeHash hash l).run db = .ok infos db') :
    ∀ info ∈ infos, info.Fits treeHeight (treeHeight + subTreeHeight) (2 ^ subTreeHeight) := by
  rw [batchInsertNullifiersWithCircuitInfo] at hrun
  split_ifs at hrun
  · obtain ⟨rfl, -⟩ := run_pure_eq_ok.1 hrun
    exact List.forall_mem_nil _
  · have hstep : ∀ db l info db',
        (SmallIds db.indexedLeaves ∧ ∃ n, HasShape db treeHeight subTreeHeight n) →
          (insertNullifiersForCircuit treeHash hash l).run db = .ok info db' →
            info.Fits treeHeight (treeHeight + subTreeHeight) (2 ^ subTreeHeight) ∧
              SmallIds db'.indexedLeaves ∧ ∃ n, HasShape db' treeHeight subTreeHeight n := by
      rintro db l info db' ⟨hsmall, n, hdb⟩ hone
      obtain ⟨hfits, hsmall'⟩ := fits_insertNullifiersForCircuit hdb hsmall hheight hone
      exact ⟨hfits, hsmall', _, (hasShape_insertNullifiersForCircuit hone hdb).2.2⟩
    exact forall_mem_of_mapM hstep ⟨hsmall, n, hdb⟩ hrun

theorem AtRest.smallIds {treeHash : Fr254 → Fr254 → Fr254} {hash : Fr254 → Fr254 → Fr254 → Fr254}
    {db : TreeDb Fr254} {t : NaiveTree Fr254} (h : AtRest treeHash hash db t)
    (hheight : t.height ≤ 32) : SmallIds db.indexedLeaves := by
  intro i hi
  obtain ⟨r, hr, rfl⟩ := List.mem_map.1 hi
  have hlt := h.below r hr
  have hle := h.first_le
  have hpow : 2 ^ t.height ≤ 2 ^ 32 := Nat.pow_le_pow_right (by omega) hheight
  omega

end Batches

/-! ### The next leaf -/

section NextLeaf

variable {F : Type} [Zero F] [DecidableEq F] {treeHash : F → F → F} {db db' : TreeDb F}
  {metadata : TreeMetadata F}

omit [DecidableEq F] in
/-- A dry run with one leaf writes the nodes on the path of the leaf to the cache. -/
theorem run_appendSubTrees_dry_eq_ok {r : F} {result : F × ℕ} (hmetadata : db.metadata = some metadata)
    (hsub : metadata.subTreeHeight = 0)
    (h : (appendSubTrees treeHash [r] false).run db = .ok result db') :
    ∃ subTree, db' = { db with cache := db.cache.upserts (hookSubTree treeHash db.getNode
      metadata.treeHeight 0 (nodeIndex metadata.treeHeight metadata.subTreeCount) subTree).2 } := by
  obtain ⟨metadata', db₁, hget, hrest⟩ := run_bind_eq_ok.1 h
  obtain ⟨hmetadata', rfl⟩ := run_getMetadata_eq_ok.1 hget
  obtain rfl := Option.some_inj.1 (hmetadata.symm.trans hmetadata')
  have hchunks : chunks 1 [r] = [[r]] :=
    (chunks_append (a := [r]) Nat.one_pos rfl []).trans (congrArg _ (chunks_nil Nat.one_pos))
  simp only [hsub, pow_zero, Nat.mod_one, ne_eq, not_true_eq_false, if_false, List.isEmpty_cons,
    Bool.false_eq_true, hchunks, List.foldlM_cons, List.foldlM_nil] at hrest
  split_ifs at hrest
  · exact absurd hrest run_throwErr_ne_ok
  · obtain ⟨appended, db₂, hstep, hreturn⟩ := run_bind_eq_ok.1 hrest
    obtain ⟨-, rfl⟩ := run_pure_eq_ok.1 hreturn
    rw [bind_pure] at hstep
    cases hstep
    rw [hsub]
    exact ⟨_, rfl⟩

omit [DecidableEq F] in
theorem metadata_of_dryRun {r : F} {result : F × ℕ} (hmetadata : db.metadata = some metadata)
    (hsub : metadata.subTreeHeight = 0)
    (hdry : (appendSubTrees treeHash [r] false).run db = .ok result db') :
    db'.metadata = some metadata := by
  obtain ⟨subTree, rfl⟩ := run_appendSubTrees_dry_eq_ok hmetadata hsub hdry
  exact hmetadata

theorem fits_of_dryRun {r : F} {result : F × ℕ} {historic' : TreeDb F} {proof : MembershipProof F}
    {leafIndex : Option ℕ} (hmetadata : db.metadata = some metadata)
    (hsub : metadata.subTreeHeight = 0) (hheight : metadata.height ≤ 64)
    (hdry : (appendSubTrees treeHash [r] false).run db = .ok result db')
    (hpath : (getMembershipProof none leafIndex).run db' = .ok proof historic') :
    proof.Fits metadata.height :=
  fits_getMembershipProof (metadata_of_dryRun hmetadata hsub hdry) hheight hpath

/-- **The path of the next leaf.**  It is the same before and after a dry run with the leaf. -/
theorem path_of_dryRun {r : F} {result : F × ℕ} {historic' : TreeDb F} {proof : MembershipProof F}
    (hmetadata : db.metadata = some metadata) (hsub : metadata.subTreeHeight = 0)
    (hdry : (appendSubTrees treeHash [r] false).run db = .ok result db')
    (hpath : (getMembershipProof none (some metadata.subTreeCount)).run db' = .ok proof historic') :
    proof.leafIndex = metadata.subTreeCount ∧ proof.siblingPath =
      siblings db.getNode metadata.height (nodeIndex metadata.height metadata.subTreeCount) := by
  have hheight : metadata.height = metadata.treeHeight := by
    rw [TreeMetadata.height, hsub, Nat.add_zero]
  obtain ⟨subTree, hdb'⟩ := run_appendSubTrees_dry_eq_ok hmetadata hsub hdry
  obtain ⟨-, index, hindex, -, hle, rfl⟩ :=
    run_getMembershipProof_eq_ok (metadata_of_dryRun hmetadata hsub hdry) hpath
  rw [leafNodeIndex] at hindex
  obtain rfl := Except.ok.inj hindex
  have hpos := Nat.two_pow_pos metadata.height
  have hlt : metadata.subTreeCount < 2 ^ metadata.height := by
    rw [pow_succ] at hle
    omega
  have hnode : metadata.subTreeCount + 2 ^ metadata.height - 1 =
      nodeIndex metadata.height metadata.subTreeCount := by
    unfold nodeIndex
    omega
  refine ⟨by dsimp only; omega, ?_⟩
  dsimp only
  rw [hnode]
  refine siblings_congr hlt (fun i hi h => CoversAll.parent h hi) (fun i hi h => ?_)
    (coversAll_root (m := 0) (Nat.add_zero metadata.height))
  -- the siblings are not on the path
  have hsame : ∀ j, Clear metadata.height (leavesBelow 0 metadata.subTreeCount ∪ ∅) j →
      db'.getNode j = db.getNode j := by
    intro j hj
    have hkey : j ∉ (hookSubTree treeHash db.getNode metadata.treeHeight 0
        (nodeIndex metadata.treeHeight metadata.subTreeCount) subTree).2.map Node.id := by
      rw [← hheight, mem_map_id_hookSubTree _ _ (Nat.add_zero metadata.height) hlt]
      rintro ⟨l, hl, hmem, hcovers⟩
      exact hj l hl (.inl hmem) hcovers
    rw [TreeDb.getNode, TreeDb.getNode, hdb']
    dsimp only
    rw [Collection.find_upserts_of_notMem hkey]
  obtain ⟨hleft, hright⟩ := CoversAll.clear_sibling h hi
    (fun _ _ hmem => absurd hmem (Set.notMem_empty _))
  exact ⟨fun h => hsame _ (hleft h), fun h => hsame _ (hright h)⟩

end NextLeaf

/-! ### The roots -/

section Roots

variable {F ι : Type} {insert : List F → TreeM F ι} {oldRoot newRoot : ι → F}
  {Law : TreeMetadata F → List F → ι → TreeDb F → Prop}

/-- Insertions that lead from `root` to `last`: each one starts from the root at which the one before
ended. -/
def RootsChain (oldRoot newRoot : ι → F) : F → List ι → F → Prop
  | root, [], last => root = last
  | root, info :: infos, last => oldRoot info = root ∧ RootsChain oldRoot newRoot (newRoot info) infos last

theorem InsertionChain.rootsChain {ls : List (List F)} {infos : List ι} {root last : F}
    {db db' : TreeDb F} (hlength : infos.length = ls.length)
    (h : InsertionChain insert oldRoot newRoot Law root db (ls.zip infos) last db') :
    RootsChain oldRoot newRoot root infos last := by
  induction infos generalizing ls root db with
  | nil =>
    rw [List.zip_nil_right] at h
    exact h.1
  | cons info infos ih =>
    cases ls with
    | nil => cases hlength
    | cons l ls =>
      obtain ⟨metadata, db₁, -, -, hold, -, hrest⟩ := h
      exact ⟨hold, ih (Nat.succ.inj hlength) hrest⟩

end Roots

end Trees

end Nightfall
