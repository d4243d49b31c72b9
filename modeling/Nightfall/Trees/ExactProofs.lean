import Nightfall.Trees.DryRun
import Nightfall.Trees.InsertionPaths

/-!
# Exact proofs

When `get_membership_proof` and `get_non_membership_proof` succeed, and what their proofs prove.  An
index is checked before it is used, but the message for the rejection unwraps the leaf, which isn't
given; a value is looked up among all nodes, and the first node that has it may be one above the
leaves; and a leaf that is given together with an index is put into the proof unseen.  Apart from that
the proofs are exact (`proofs_exact`).
-/

namespace Nightfall

namespace Trees

open Merkle Stateful

section Membership

variable {F : Type} [Zero F] [DecidableEq F] {treeHash : F → F → F} {db : TreeDb F}
  {t : NaiveTree F} {metadata : TreeMetadata F} {debug : Bool} {leaf : Option F} {i : ℕ} {v : F}

/-! ### The call with its message -/

/-- `get_membership_proof` with the message before it rejects a node.  The arguments of the message,
and with them `leaf.unwrap()`, are evaluated if messages for debugging are logged. -/
def getMembershipProofLogging (debug : Bool) (leaf : Option F) (leafIndex : Option ℕ) :
    TreeM F (MembershipProof F) := do
  let metadata ← getMetadata
  let db ← get
  let height := metadata.treeHeight + metadata.subTreeHeight
  match leafNodeIndex db height leaf leafIndex with
  | .error e => throwErr e
  | .ok index =>
    if index < 2 ^ height - 1 ∨ 2 ^ (height + 1) - 2 < index then
      if debug ∧ leaf.isNone then throw (.panic "called `Option::unwrap()` on a `None` value")
      else throwErr .invalidProof
    else pure {
      siblingPath := siblings db.getNode height index
      leafIndex := index + 1 - 2 ^ height
      nodeValue := leaf.getD (db.getNode index) }

omit [Zero F] [DecidableEq F] in
/-- The message needs the leaf. -/
theorem rejects_eq (hquiet : debug = false ∨ leaf ≠ none) :
    (if debug ∧ leaf.isNone then throw (.panic "called `Option::unwrap()` on a `None` value")
      else throwErr .invalidProof : TreeM F (MembershipProof F)) = throwErr .invalidProof := by
  refine if_neg ?_
  rintro ⟨hdebug, hnone⟩
  rcases hquiet with hfalse | hsome
  · rw [hfalse] at hdebug
    cases hdebug
  · exact hsome (Option.isNone_iff_eq_none.1 hnone)

/-- Without the message it is the call of the other modules. -/
theorem getMembershipProofLogging_eq (hquiet : debug = false ∨ leaf ≠ none)
    (leafIndex : Option ℕ) :
    getMembershipProofLogging debug leaf leafIndex = getMembershipProof leaf leafIndex := by
  unfold getMembershipProofLogging getMembershipProof
  congr 1
  funext metadata
  congr 1
  funext db
  dsimp only
  cases leafNodeIndex db (metadata.treeHeight + metadata.subTreeHeight) leaf leafIndex with
  | error e => rfl
  | ok index =>
    dsimp only
    rw [rejects_eq hquiet]

/-- The metadata's height of the whole tree. -/
def TreeMetadata.height (metadata : TreeMetadata F) : ℕ :=
  metadata.treeHeight + metadata.subTreeHeight

/-- The value of the leaf with index `i`. -/
def TreeDb.leafValue (db : TreeDb F) (metadata : TreeMetadata F) (i : ℕ) : F :=
  db.getNode (nodeIndex metadata.height i)

/-! ### Exact calls -/

/-- A proof for the leaf with index `i`: it has the path of the leaf and its value, and leads to the
root. -/
structure ProofFor (treeHash : F → F → F) (db : TreeDb F) (metadata : TreeMetadata F) (i : ℕ)
    (proof : MembershipProof F) : Prop where
  lt : i < 2 ^ metadata.height
  startsAt : proof.StartsAt metadata.height i
  value : proof.nodeValue = db.leafValue metadata i
  verifies : proof.Verifies treeHash metadata.root

/-- A call with an index returns a proof for the leaf that has it, and `InvalidProof` if there is no
such leaf. -/
def IndexExact (treeHash : F → F → F) (debug : Bool) (db : TreeDb F) (metadata : TreeMetadata F)
    (leaf : Option F) (i : ℕ) : Prop :=
  if i < 2 ^ metadata.height then
    ∃ proof, (getMembershipProofLogging debug leaf (some i)).run db = .ok proof db ∧
      ProofFor treeHash db metadata i proof
  else (getMembershipProofLogging debug leaf (some i)).run db = .error (.err .invalidProof) db

/-- A call with a value returns a proof exactly if a leaf has the value and it isn't zero, and the
proof is for a leaf with the value. -/
def ValueExact (treeHash : F → F → F) (debug : Bool) (db : TreeDb F) (metadata : TreeMetadata F)
    (v : F) : Prop :=
  ((∃ proof, (getMembershipProofLogging debug (some v) none).run db = .ok proof db) ↔
      v ≠ 0 ∧ ∃ i < 2 ^ metadata.height, db.leafValue metadata i = v) ∧
    ∀ proof, (getMembershipProofLogging debug (some v) none).run db = .ok proof db →
      ProofFor treeHash db metadata proof.leafIndex proof ∧ proof.nodeValue = v

/-- When a call with an index is exact. -/
def IndexCondition (debug : Bool) (db : TreeDb F) (metadata : TreeMetadata F) (leaf : Option F)
    (i : ℕ) : Prop :=
  if i < 2 ^ metadata.height then ∀ v, leaf = some v → v = db.leafValue metadata i
  else debug = false ∨ leaf ≠ none

/-- The first node with the value is a leaf. -/
def FirstIsLeaf (db : TreeDb F) (metadata : TreeMetadata F) (v : F) : Prop :=
  ∃ node, (db.nodes.findOne fun node => decide (node.value = v)) = some node ∧
    2 ^ metadata.height - 1 ≤ node.id ∧ node.id ≤ 2 ^ (metadata.height + 1) - 2

/-- When a call with a value is exact. -/
def ValueCondition (db : TreeDb F) (metadata : TreeMetadata F) (v : F) : Prop :=
  v = 0 ∨ (∀ i < 2 ^ metadata.height, db.leafValue metadata i ≠ v) ∨ FirstIsLeaf db metadata v

omit [Zero F] in
/-- `is_leaf` tells whether the first node with the value is a leaf. -/
theorem run_isLeaf (hmetadata : db.metadata = some metadata) (v : F) :
    ∃ b, (isLeaf v).run db = .ok b db ∧ (b = true ↔ FirstIsLeaf db metadata v) := by
  rw [isLeaf, EStateM.run_bind, run_getMetadata hmetadata]
  dsimp only
  rw [EStateM.run_bind, EStateM.run_get]
  dsimp only
  unfold FirstIsLeaf
  cases db.nodes.findOne fun node => decide (node.value = v) with
  | none =>
    refine ⟨false, rfl, ?_⟩
    simp
  | some node =>
    refine ⟨_, rfl, ?_⟩
    rw [decide_eq_true_eq]
    constructor
    · intro h
      exact ⟨node, rfl, h⟩
    · rintro ⟨_, ⟨⟩, h⟩
      exact h

/-! ### A database that holds a tree -/

omit [DecidableEq F] in
theorem leafIndex_of_range {n index : ℕ} (hlow : 2 ^ n - 1 ≤ index)
    (hhigh : index ≤ 2 ^ (n + 1) - 2) : ∃ p < 2 ^ n, index = nodeIndex n p := by
  have hpos := Nat.two_pow_pos n
  rw [pow_succ] at hhigh
  exact ⟨index - (2 ^ n - 1), by omega, by unfold nodeIndex; omega⟩

omit [DecidableEq F] in
theorem proofFor_leaf (hdb : Refines treeHash db t) (hi : i < 2 ^ t.height) :
    ProofFor treeHash db (t.metadata treeHash) i
      ⟨siblings db.getNode t.height (nodeIndex t.height i), i,
        db.getNode (nodeIndex t.height i)⟩ where
  lt := hi
  startsAt := ⟨rfl, pathIndex_siblings _ hi⟩
  value := rfl
  verifies := by
    have hnode : db.getNode = t.node treeHash := funext hdb.getNode
    rw [hnode]
    exact foldPath_siblings_node hi

theorem run_getMembershipProofLogging_index (hmetadata : db.metadata = some metadata) (debug : Bool)
    (leaf : Option F) (i : ℕ) :
    (getMembershipProofLogging debug leaf (some i)).run db =
      if i < 2 ^ metadata.height then
        .ok ⟨siblings db.getNode metadata.height (nodeIndex metadata.height i), i,
          leaf.getD (db.leafValue metadata i)⟩ db
      else if debug ∧ leaf.isNone then
        .error (.panic "called `Option::unwrap()` on a `None` value") db
      else .error (.err .invalidProof) db := by
  have hpos := Nat.two_pow_pos metadata.height
  have hindex : i + 2 ^ metadata.height - 1 = nodeIndex metadata.height i := by
    unfold nodeIndex
    omega
  have hrange : (nodeIndex metadata.height i < 2 ^ metadata.height - 1 ∨
      2 ^ (metadata.height + 1) - 2 < nodeIndex metadata.height i) ↔ ¬ i < 2 ^ metadata.height := by
    have hadd := nodeIndex_add_one metadata.height i
    rw [pow_succ]
    omega
  have hback : nodeIndex metadata.height i + 1 - 2 ^ metadata.height = i := by
    rw [nodeIndex_add_one, Nat.add_sub_cancel_left]
  rw [getMembershipProofLogging, EStateM.run_bind, run_getMetadata hmetadata]
  dsimp only
  rw [EStateM.run_bind, EStateM.run_get]
  dsimp only [leafNodeIndex]
  rw [← TreeMetadata.height, hindex, hback]
  by_cases hi : i < 2 ^ metadata.height
  · rw [if_neg (fun h => hrange.1 h hi), if_pos hi]
    rfl
  · rw [if_pos (hrange.2 hi), if_neg hi]
    split_ifs
    · rfl
    · rfl

/-- **Calls with an index.** -/
theorem indexExact_iff (hdb : Refines treeHash db t) (debug : Bool) (leaf : Option F) (i : ℕ) :
    IndexExact treeHash debug db (t.metadata treeHash) leaf i ↔
      IndexCondition debug db (t.metadata treeHash) leaf i := by
  unfold IndexExact IndexCondition
  rw [run_getMembershipProofLogging_index hdb.metadata]
  by_cases hi : i < 2 ^ (t.metadata treeHash).height
  · rw [if_pos hi, if_pos hi, if_pos hi]
    constructor
    · rintro ⟨proof, ⟨⟩, hproof⟩ v rfl
      exact hproof.value
    · intro hcond
      have hvalue : leaf.getD (db.leafValue (t.metadata treeHash) i) =
          db.leafValue (t.metadata treeHash) i := by
        cases leaf with
        | none => rfl
        | some v => exact hcond v rfl
      rw [hvalue]
      exact ⟨_, rfl, proofFor_leaf hdb hi⟩
  · rw [if_neg hi, if_neg hi, if_neg hi]
    constructor
    · intro h
      by_contra hnot
      rw [not_or, not_not] at hnot
      rw [hnot.2, if_pos ⟨by simpa using hnot.1, rfl⟩] at h
      cases h
    · intro hquiet
      refine if_neg ?_
      rintro ⟨hdebug, hnone⟩
      rcases hquiet with hfalse | hsome
      · rw [hfalse] at hdebug
        cases hdebug
      · exact hsome (Option.isNone_iff_eq_none.1 hnone)

/-- A call with a value succeeds if the first node with the value is a leaf. -/
theorem run_getMembershipProofLogging_value (hmetadata : db.metadata = some metadata) (debug : Bool)
    (hv : v ≠ 0) {proof : MembershipProof F} :
    (getMembershipProofLogging debug (some v) none).run db = .ok proof db ↔
      ∃ i < 2 ^ metadata.height, (∃ node, (db.nodes.findOne fun node => decide (node.value = v)) =
        some node ∧ node.id = nodeIndex metadata.height i) ∧
        proof = ⟨siblings db.getNode metadata.height (nodeIndex metadata.height i), i, v⟩ := by
  rw [getMembershipProofLogging, EStateM.run_bind, run_getMetadata hmetadata]
  dsimp only
  rw [EStateM.run_bind, EStateM.run_get]
  dsimp only [leafNodeIndex]
  rw [if_neg hv, ← TreeMetadata.height]
  cases hfind : db.nodes.findOne fun node => decide (node.value = v) with
  | none =>
    constructor
    · intro h
      cases h
    · rintro ⟨i, -, ⟨node, ⟨⟩, -⟩, -⟩
  | some node =>
    dsimp only
    constructor
    · intro h
      split_ifs at h with hrange
      · exact absurd h run_throw_ne_ok
      · exact absurd h run_throwErr_ne_ok
      · rw [not_or, not_lt, not_lt] at hrange
        obtain ⟨i, hi, hid⟩ := leafIndex_of_range hrange.1 hrange.2
        cases h
        refine ⟨i, hi, ⟨node, rfl, hid⟩, ?_⟩
        rw [hid, nodeIndex_add_one, Nat.add_sub_cancel_left]
        rfl
    · rintro ⟨i, hi, ⟨node', hnode, hid⟩, rfl⟩
      obtain rfl := Option.some_inj.1 hnode
      have hadd := nodeIndex_add_one metadata.height i
      have hrange : ¬ (node.id < 2 ^ metadata.height - 1 ∨
          2 ^ (metadata.height + 1) - 2 < node.id) := by
        rw [hid, pow_succ]
        omega
      rw [if_neg hrange, hid, nodeIndex_add_one, Nat.add_sub_cancel_left]
      rfl

omit [DecidableEq F] in
theorem getNode_of_mem (hdb : Refines treeHash db t) {node : Node F} (hnode : node ∈ db.nodes.docs) :
    db.getNode node.id = node.value := by
  have hstored := hdb.nodes node.id
  rw [storedValue, Collection.find_eq_some.2 ⟨hnode, rfl⟩] at hstored
  rw [hdb.getNode, ← hstored]

/-- **Calls with a value.** -/
theorem valueExact_iff (hdb : Refines treeHash db t) (debug : Bool) (v : F) :
    ValueExact treeHash debug db (t.metadata treeHash) v ↔
      ValueCondition db (t.metadata treeHash) v := by
  by_cases hv : v = 0
  · refine iff_of_true ?_ (.inl hv)
    have hfails : ∀ proof, (getMembershipProofLogging debug (some v) none).run db ≠
        .ok proof db := by
      intro proof h
      rw [getMembershipProofLogging, EStateM.run_bind, run_getMetadata hdb.metadata] at h
      dsimp only at h
      rw [EStateM.run_bind, EStateM.run_get] at h
      dsimp only [leafNodeIndex] at h
      rw [if_pos hv] at h
      cases h
    refine ⟨⟨?_, ?_⟩, fun proof h => absurd h (hfails proof)⟩
    · rintro ⟨proof, h⟩
      exact absurd h (hfails proof)
    · rintro ⟨hne, -⟩
      exact absurd hv hne
  · have hok := fun proof => @run_getMembershipProofLogging_value F _ _ db (t.metadata treeHash) v
      hdb.metadata debug hv proof
    -- whatever is returned is a proof for a leaf with the value
    have hproof : ∀ proof, (getMembershipProofLogging debug (some v) none).run db = .ok proof db →
        ProofFor treeHash db (t.metadata treeHash) proof.leafIndex proof ∧ proof.nodeValue = v := by
      intro proof h
      obtain ⟨i, hi, ⟨node, hfind, hid⟩, rfl⟩ := (hok proof).1 h
      obtain ⟨hmem, hvalue⟩ := Collection.findOne_some hfind
      have hleaf : db.leafValue (t.metadata treeHash) i = v := by
        rw [TreeDb.leafValue, ← hid, getNode_of_mem hdb hmem]
        exact of_decide_eq_true hvalue
      have hfor := proofFor_leaf hdb hi
      rw [TreeDb.leafValue] at hleaf
      exact ⟨by rwa [← hleaf], rfl⟩
    have hsome : (∃ proof, (getMembershipProofLogging debug (some v) none).run db = .ok proof db) ↔
        FirstIsLeaf db (t.metadata treeHash) v := by
      constructor
      · rintro ⟨proof, h⟩
        obtain ⟨i, hi, ⟨node, hfind, hid⟩, -⟩ := (hok proof).1 h
        have hadd := nodeIndex_add_one (t.metadata treeHash).height i
        refine ⟨node, hfind, ?_, ?_⟩
        · rw [hid]
          omega
        · rw [hid, pow_succ]
          omega
      · rintro ⟨node, hfind, hlow, hhigh⟩
        obtain ⟨i, hi, hid⟩ := leafIndex_of_range hlow hhigh
        exact ⟨_, (hok _).2 ⟨i, hi, ⟨node, hfind, hid⟩, rfl⟩⟩
    have hfound : FirstIsLeaf db (t.metadata treeHash) v →
        ∃ i < 2 ^ (t.metadata treeHash).height, db.leafValue (t.metadata treeHash) i = v := by
      intro h
      obtain ⟨proof, hrun⟩ := hsome.2 h
      obtain ⟨hfor, hvalue⟩ := hproof proof hrun
      exact ⟨_, hfor.lt, hfor.value.symm.trans hvalue⟩
    constructor
    · rintro ⟨hexact, -⟩
      refine .inr ?_
      by_cases hstored : ∃ i < 2 ^ (t.metadata treeHash).height,
          db.leafValue (t.metadata treeHash) i = v
      · exact .inr (hsome.1 (hexact.2 ⟨hv, hstored⟩))
      · exact .inl fun i hi hleaf => hstored ⟨i, hi, hleaf⟩
    · intro hcond
      refine ⟨⟨fun h => ⟨hv, hfound (hsome.1 h)⟩, ?_⟩, hproof⟩
      rintro ⟨-, i, hi, hleaf⟩
      rcases hcond.resolve_left hv with hnone | hfirst
      · exact absurd hleaf (hnone i hi)
      · exact hsome.2 hfirst

/-! ### Runs -/

/-- The database after commands, executed one after the other whatever they return. -/
def after (treeHash : F → F → F) (db : TreeDb F) (ops : List (TreeOp F)) : TreeDb F :=
  ops.foldl (fun db op => (step treeHash op db).2) db

theorem sameBut_after {db₂ : TreeDb F} {ops : List (TreeOp F)} (h : SameBut treeHash db db₂ t)
    (hops : HarmlessAll treeHash db t ops) :
    ∃ db₂' t', SameBut treeHash (after treeHash db ops) db₂' t' := by
  induction ops generalizing db db₂ t with
  | nil => exact ⟨db₂, t, h⟩
  | cons op ops ih =>
    obtain ⟨hharm, hrest⟩ := hops
    cases hdry : op.dry with
    | true =>
      rw [next_of_dry hdry] at hrest
      exact ih (step_dry h hdry hharm) hrest
    | false => exact ih (step_sameBut h hdry hharm).2 hrest

/-- Without a pending dry run the database after harmless commands holds a tree. -/
theorem refines_after {treeHeight subTreeHeight : ℕ} {ops : List (TreeOp F)}
    (hzero : treeHash 0 0 = 0)
    (hnew : (newMutableTree treeHeight subTreeHeight).run TreeDb.empty = .ok () db)
    (hops : HarmlessAll treeHash db (.new treeHeight subTreeHeight) ops)
    (hcache : (after treeHash db ops).cache = .empty) :
    ∃ t, Refines treeHash (after treeHash db ops) t := by
  obtain ⟨db₀, hnew', hdb₀⟩ := @run_newMutableTree F _ treeHash hzero treeHeight subTreeHeight
  rw [hnew] at hnew'
  cases hnew'
  obtain ⟨db₂, t, hsame⟩ := sameBut_after ⟨rfl, hdb₀⟩ hops
  exact ⟨t, hsame.holds, hcache⟩

end Membership

/-! ### Proofs of non-membership -/

section NonMembership

variable {treeHash : Fr254 → Fr254 → Fr254} {hash : Fr254 → Fr254 → Fr254 → Fr254}
  {db : TreeDb Fr254} {t : NaiveTree Fr254}

/-- `get_non_membership_proof` returns a proof exactly if the value is not zero and not stored, and
the proof is for the record between whose value and next value it lies. -/
def NonMembershipExact (treeHash : Fr254 → Fr254 → Fr254) (hash : Fr254 → Fr254 → Fr254 → Fr254)
    (db : TreeDb Fr254) (metadata : TreeMetadata Fr254) (v : Fr254) : Prop :=
  ((∃ proof, (getNonMembershipProof hash v).run db = .ok proof db) ↔
      v ≠ 0 ∧ v ∉ db.indexedLeaves.docs.map IndexedLeaf.value) ∧
    ∀ proof, (getNonMembershipProof hash v).run db = .ok proof db →
      ∃ low ∈ db.indexedLeaves.docs, (∀ r ∈ db.indexedLeaves.docs, r = low ↔
          r.value.val < v.val ∧ (v.val < r.nextValue.val ∨ r.nextValue = 0)) ∧
        proof.nodeValue = low.leaf hash ∧ ProofFor treeHash db metadata low.id proof

/-- A proof is returned for new values only. -/
theorem new_of_nonMembershipProof {v : Fr254} {proof : MembershipProof Fr254}
    (h : (getNonMembershipProof hash v).run db = .ok proof db) :
    v ≠ 0 ∧ v ∉ db.indexedLeaves.docs.map IndexedLeaf.value := by
  rw [getNonMembershipProof] at h
  by_cases hv : v = 0
  · rw [if_pos hv] at h
    cases h
  · rw [if_neg hv, EStateM.run_bind, run_getLeaf] at h
    dsimp only at h
    split_ifs at h with hsome
    · cases h
    · refine ⟨hv, withValue_eq_none.1 ?_⟩
      simpa using hsome

theorem AtRest.nonMembershipExact (h : AtRest treeHash hash db t) (v : Fr254) :
    NonMembershipExact treeHash hash db (t.metadata treeHash) v := by
  obtain ⟨r, hr⟩ := h.linked
  constructor
  · constructor
    · rintro ⟨proof, hrun⟩
      exact new_of_nonMembershipProof hrun
    · rintro ⟨hv, hnew⟩
      obtain ⟨low, hlow, -⟩ := hr.low hv hnew
      exact ⟨_, run_getNonMembershipProof h.refines hv hnew hlow⟩
  · intro proof hrun
    obtain ⟨hv, hnew⟩ := new_of_nonMembershipProof hrun
    obtain ⟨low, hlow, huniq⟩ := hr.low hv hnew
    rw [run_getNonMembershipProof h.refines hv hnew hlow] at hrun
    cases hrun
    have hmem := (low_some hlow).1
    have hid := h.below low hmem
    have hlt := hid.trans_le h.first_le
    have hleaf := h.node_leaf hmem hid
    refine ⟨low, hmem, huniq, rfl, hlt, ⟨rfl, pathIndex_siblings _ hlt⟩, ?_, ?_⟩
    · have hvalue : db.leafValue (t.metadata treeHash) low.id = low.leaf hash := by
        rw [TreeDb.leafValue, h.refines.getNode]
        exact hleaf
      exact hvalue.symm
    · have hpath := @foldPath_siblings_node _ _ treeHash t low.id hlt
      rw [hleaf] at hpath
      exact hpath

end NonMembership

/-! ### All trees -/

/-- **The proofs are exact.**  On every tree without a pending dry run that harmless commands lead to,
a call with an index is exact if and only if the leaf isn't needed for the message and, where it is
given too, is the one at the index; and a call with a value if and only if the first node with the
value is a leaf or no leaf has it.  So they are on every nullifier tree within its capacity, where all
proofs of non-membership are exact.  The numbers of the code are natural numbers for heights of 62
together at most. -/
theorem proofs_exact {F : Type} [Zero F] [DecidableEq F] {treeHash : F → F → F}
    {nullifierHash : Fr254 → Fr254 → Fr254} {hash : Fr254 → Fr254 → Fr254 → Fr254}
    (hzero : treeHash 0 0 = 0) (hnullifier : nullifierHash 0 0 = 0) :
    (∀ treeHeight subTreeHeight db₀ ops metadata,
      (newMutableTree treeHeight subTreeHeight).run TreeDb.empty = .ok () db₀ →
      HarmlessAll treeHash db₀ (.new treeHeight subTreeHeight) ops →
      (after treeHash db₀ ops).cache = .empty →
      (after treeHash db₀ ops).metadata = some metadata →
      (∀ debug leaf i, IndexExact treeHash debug (after treeHash db₀ ops) metadata leaf i ↔
        IndexCondition debug (after treeHash db₀ ops) metadata leaf i) ∧
      ∀ debug v, ValueExact treeHash debug (after treeHash db₀ ops) metadata v ↔
        ValueCondition (after treeHash db₀ ops) metadata v) ∧
    ∀ treeHeight subTreeHeight db metadata, treeHeight + subTreeHeight ≤ 32 →
      ReachableIndexed nullifierHash hash treeHeight subTreeHeight db →
      db.metadata = some metadata → metadata.subTreeCount ≤ 2 ^ metadata.treeHeight →
      (∀ debug leaf i, IndexExact nullifierHash debug db metadata leaf i ↔
        IndexCondition debug db metadata leaf i) ∧
      (∀ debug v, ValueExact nullifierHash debug db metadata v ↔ ValueCondition db metadata v) ∧
      ∀ v, NonMembershipExact nullifierHash hash db metadata v := by
  constructor
  · intro treeHeight subTreeHeight db₀ ops metadata hnew hops hcache hmetadata
    obtain ⟨t, ht⟩ := refines_after hzero hnew hops hcache
    obtain rfl := Option.some_inj.1 (ht.metadata.symm.trans hmetadata)
    exact ⟨indexExact_iff ht, valueExact_iff ht⟩
  · intro treeHeight subTreeHeight db metadata hheight hdb hmetadata hcount
    rcases hdb.state hnullifier hheight with ⟨t, ht, -, -⟩ | ⟨n, hn, root, hbeyond⟩
    · obtain rfl := Option.some_inj.1 (ht.refines.metadata.symm.trans hmetadata)
      exact ⟨indexExact_iff ht.refines, valueExact_iff ht.refines, ht.nonMembershipExact⟩
    · rw [hbeyond] at hmetadata
      cases hmetadata
      exact absurd hcount hn.not_ge

/-- Two leaves in two sub-trees, the second of which is the node above the first. -/
def sampleLeaves : List (TreeOp Fr254) := [.insertLeaf (7 : ℕ) true, .insertLeaf (21 : ℕ) true]

/-- The metadata after them. -/
def sampleMetadata : TreeMetadata Fr254 := ⟨1, 1, 2, (378 : ℕ)⟩

theorem metadata_sampleLeaves :
    (after sampleHash (newDb 1 1) sampleLeaves).metadata = some sampleMetadata := by
  decide +kernel

theorem proofs_exact_sample :
    IndexExact sampleHash true (after sampleHash (newDb 1 1) sampleLeaves) sampleMetadata none 2 ∧
      ∃ metadata, (sampleIndexedTree 1).metadata = some metadata ∧
        NonMembershipExact sampleHash sampleLeafHash (sampleIndexedTree 1) metadata (7 : ℕ) := by
  have hzero : sampleHash 0 0 = 0 := by decide +kernel
  obtain ⟨hmutable, hindexed⟩ := @proofs_exact Fr254 _ _ sampleHash sampleHash sampleLeafHash
    hzero hzero
  constructor
  · have hdocs : (after sampleHash (newDb 1 1) sampleLeaves).cache.docs = [] := by decide +kernel
    refine ((hmutable 1 1 (newDb 1 1) sampleLeaves _ rfl (by decide +kernel)
      (Collection.ext hdocs) metadata_sampleLeaves).1 true none 2).2 ?_
    rw [IndexCondition, if_pos (by decide)]
    intro v hv
    cases hv
  · have hshape : shape (sampleIndexedTree 1) = some (1, 3, 1) := by decide +kernel
    obtain ⟨root, hroot⟩ := hasShape_iff.2 hshape
    exact ⟨_, hroot, (hindexed 1 3 _ _ (by omega) (reachable_sampleIndexedTree (by decide +kernel))
      hroot (Nat.le_succ 1)).2.2 _⟩

/-- An index beyond the tree makes the message panic; the leaf 21 isn't found, since the node above
another leaf has its value; and 9 is put into the proof for the leaf 7. -/
theorem proofs_not_exact :
    HarmlessAll sampleHash (newDb 1 1) (.new 1 1) sampleLeaves ∧
      (after sampleHash (newDb 1 1) sampleLeaves).cache.docs = [] ∧
      ¬ IndexExact sampleHash true (after sampleHash (newDb 1 1) sampleLeaves) sampleMetadata none 4 ∧
      ¬ ValueExact sampleHash false (after sampleHash (newDb 1 1) sampleLeaves) sampleMetadata
        (21 : ℕ) ∧
      ¬ IndexExact sampleHash false (after sampleHash (newDb 1 1) sampleLeaves) sampleMetadata
        (some (9 : ℕ)) 0 := by
  refine ⟨by decide +kernel, by decide +kernel, fun h => ?_, fun h => ?_, fun h => ?_⟩
  · rw [IndexExact, if_neg (by decide), run_getMembershipProofLogging_index metadata_sampleLeaves,
      if_neg (by decide), if_pos (by decide)] at h
    cases h
  · have hfound : (after sampleHash (newDb 1 1) sampleLeaves).nodes.findOne
        (fun node => decide (node.value = (21 : ℕ))) = some ⟨1, (21 : ℕ)⟩ := by decide +kernel
    have hleaf : (after sampleHash (newDb 1 1) sampleLeaves).leafValue sampleMetadata 2 = (21 : ℕ) := by
      decide +kernel
    obtain ⟨proof, hrun⟩ := h.1.2 ⟨by decide +kernel, 2, by decide, hleaf⟩
    obtain ⟨i, -, ⟨node, hnode, hid⟩, -⟩ := (run_getMembershipProofLogging_value
      metadata_sampleLeaves false (by decide +kernel)).1 hrun
    rw [hfound] at hnode
    cases hnode
    have hadd := nodeIndex_add_one sampleMetadata.height i
    have hheight : 2 ^ sampleMetadata.height = 4 := by decide
    rw [← hid, hheight] at hadd
    dsimp only at hadd
    omega
  · rw [IndexExact, if_pos (by decide), run_getMembershipProofLogging_index metadata_sampleLeaves,
      if_pos (by decide)] at h
    obtain ⟨proof, ⟨⟩, hproof⟩ := h
    have hleaf : (after sampleHash (newDb 1 1) sampleLeaves).leafValue sampleMetadata 0 = (7 : ℕ) := by
      decide +kernel
    have hvalue := hproof.value
    rw [hleaf] at hvalue
    exact absurd hvalue (by decide +kernel)

end Trees

end Nightfall
