import Nightfall.Trees.Shape
import Nightfall.Wallet.Reservations
import Nightfall.Wallet.Selected

/-!
# What a client can spend

The unspent commitments of a client are leaves of its commitment tree (`Holdings`), so that there are
not more of them than leaves.  What a request spends is then different commitments of its token and of
the fee token, with values that cover the request (`spends`).
-/

namespace Nightfall

namespace Wallet

open Plonk (Point)
open Node Stateful

/-! ### Leaves -/

/-- The proof that `get_membership_proof` returns for a leaf leads to the root. -/
def ProvesLeaf (treeHash : Fr254 → Fr254 → Fr254) (db : Trees.TreeDb Fr254) (leaf : Fr254) : Prop :=
  ∃ proof db' root db'', (Trees.getMembershipProof (some leaf) none).run db = .ok proof db' ∧
    (Trees.getRoot (F := Fr254)).run db' = .ok root db'' ∧ proof.Verifies treeHash root

/-- Whether the proof leads to the root. -/
def provesLeaf (treeHash : Fr254 → Fr254 → Fr254) (db : Trees.TreeDb Fr254) (leaf : Fr254) : Bool :=
  match (Trees.getMembershipProof (some leaf) none).run db with
  | .error _ _ => false
  | .ok proof db' =>
    match (Trees.getRoot (F := Fr254)).run db' with
    | .error _ _ => false
    | .ok root _ => decide (Merkle.foldPath treeHash proof.siblingPath proof.nodeValue = root)

section Leaves

variable {treeHash : Fr254 → Fr254 → Fr254} {db db' : Trees.TreeDb Fr254} {leaf : Fr254}
  {metadata : Trees.TreeMetadata Fr254}

theorem provesLeaf_iff : provesLeaf treeHash db leaf = true ↔ ProvesLeaf treeHash db leaf := by
  constructor
  · intro h
    rw [provesLeaf] at h
    split at h
    · cases h
    · next proof db' hproof =>
      split at h
      · cases h
      · next root db'' hroot =>
        have hverifies := of_decide_eq_true h
        exact ⟨proof, db', root, db'', hproof, hroot, hverifies⟩
  · rintro ⟨proof, db', root, db'', hproof, hroot, hverifies⟩
    rw [Trees.MembershipProof.Verifies] at hverifies
    simp only [provesLeaf, hproof, hroot]
    exact decide_eq_true hverifies

instance decidableProvesLeaf : Decidable (ProvesLeaf treeHash db leaf) :=
  decidable_of_iff _ provesLeaf_iff

theorem run_getMembershipProof_leaf {proof : Trees.MembershipProof Fr254}
    (hmetadata : db.metadata = some metadata)
    (h : (Trees.getMembershipProof (some leaf) none).run db = .ok proof db') :
    db' = db ∧ proof.nodeValue = leaf ∧
      proof.siblingPath.length = metadata.treeHeight + metadata.subTreeHeight ∧
      ∃ node ∈ db.nodes.docs, node.value = leaf ∧
        2 ^ (metadata.treeHeight + metadata.subTreeHeight) - 1 ≤ node.id ∧
          node.id ≤ 2 ^ (metadata.treeHeight + metadata.subTreeHeight + 1) - 2 := by
  obtain ⟨m, db₁, hread, h⟩ := run_bind_eq_ok.1 h
  obtain ⟨hm, rfl⟩ := Trees.run_getMetadata_eq_ok.1 hread
  obtain rfl := Option.some.inj (hmetadata.symm.trans hm)
  obtain ⟨_, _, ⟨⟩, h⟩ := run_bind_eq_ok.1 h
  dsimp only at h
  rw [Trees.leafNodeIndex] at h
  by_cases hzero : leaf = 0
  · simp only [hzero, if_true] at h
    cases h
  · simp only [hzero, if_false] at h
    cases hfind : db₁.nodes.findOne fun node => decide (node.value = leaf) with
    | none =>
      simp only [hfind] at h
      cases h
    | some node =>
      simp only [hfind] at h
      obtain ⟨hmem, hvalue⟩ := Collection.findOne_some hfind
      split_ifs at h with hrange
      · cases h
      · cases h
        exact ⟨rfl, rfl, Trees.length_siblings _ _ _, node, hmem, of_decide_eq_true hvalue, by omega,
          by omega⟩

end Leaves

/-! ### Holdings -/

/-- The commitment is the client's, and a leaf of the tree. -/
structure CommitmentEntry.Spendable (cfg : ClientConfig) (db : Trees.TreeDb Fr254)
    (e : CommitmentEntry) : Prop where
  key_eq : e.key = e.preimage.hash cfg.poseidon
  nullifier_eq : e.nullifier = e.preimage.nullifierHash cfg.poseidon cfg.nullifierKey
  value_lt : e.preimage.value.val < 2 ^ 96
  /-- A token id is a hash, which isn't zero. -/
  token_ne : e.preimage.nfTokenId ≠ 0
  /-- The client has its key, or deposited it. -/
  owned : e.preimage.publicKey = cfg.zkpPublicKey ∨
    e.preimage.publicKey = .neutral ∧ ∃ secret, e.preimage.salt = .deposit secret
  proved : ProvesLeaf cfg.treeHash db e.key

/-- The unspent commitments of a client. -/
structure Holdings (cfg : ClientConfig) (s : ClientState) : Prop where
  spendable : ∀ e ∈ s.commitments.docs, e.status = .unspent →
    e.Spendable cfg s.commitmentTree
  /-- A token id has one slot id. -/
  slots : ∀ e ∈ s.commitments.docs, ∀ e' ∈ s.commitments.docs, e.status = .unspent →
    e'.status = .unspent → e.preimage.nfTokenId = e'.preimage.nfTokenId →
      e.preimage.nfSlotId = e'.preimage.nfSlotId
  /-- That of the fee token is its token id. -/
  feeSlot : ∀ e ∈ s.commitments.docs, e.status = .unspent →
    e.preimage.nfTokenId = cfg.feeTokenId → e.preimage.nfSlotId = cfg.feeTokenId
  /-- `new_commitment_tree(29, 3)`. -/
  height : ∃ metadata, s.commitmentTree.metadata = some metadata ∧ metadata.treeHeight = 29 ∧
    metadata.subTreeHeight = 3

section Entries

variable {cfg : ClientConfig} {s : ClientState} {token : Fr254} {e : CommitmentEntry}

theorem Holdings.spendable_of_mem (h : Holdings cfg s)
    (he : e ∈ availableEntries s.commitments token) : e.Spendable cfg s.commitmentTree := by
  obtain ⟨hmem, -, hunspent⟩ := mem_availableEntries.1 he
  exact h.spendable e hmem hunspent

/-- There are not more unspent commitments than leaves. -/
theorem Holdings.length_le (h : Holdings cfg s) :
    (availableEntries s.commitments token).length ≤ 2 ^ 32 := by
  obtain ⟨metadata, hmetadata, htree, hsub⟩ := h.height
  have hnode : ∀ e ∈ availableEntries s.commitments token, ∃ node ∈ s.commitmentTree.nodes.docs,
      node.value = e.key ∧ 2 ^ 32 - 1 ≤ node.id ∧ node.id ≤ 2 ^ 33 - 2 := by
    intro e he
    obtain ⟨proof, db', root, db'', hrun, -⟩ := (h.spendable_of_mem he).proved
    obtain ⟨-, -, -, hexists⟩ := run_getMembershipProof_leaf hmetadata hrun
    rw [htree, hsub] at hexists
    exact hexists
  have : Nonempty (Trees.Node Fr254) := ⟨⟨0, 0⟩⟩
  choose! node hmem hvalue hlow hhigh using hnode
  have hnodup : ((availableEntries s.commitments token).map fun e => (node e).id).Nodup := by
    refine List.Nodup.map_on (fun e he e' he' hid => ?_)
      (List.Nodup.of_map _ s.commitments.nodup |>.sublist List.filter_sublist)
    have hsame := Collection.eq_of_key_eq (hmem e he) (hmem e' he') hid
    refine Collection.eq_of_key_eq (mem_availableEntries.1 he).1 (mem_availableEntries.1 he').1 ?_
    rw [← hvalue e he, ← hvalue e' he', hsame]
  have hsubset : ((availableEntries s.commitments token).map fun e => (node e).id) ⊆
      List.range' (2 ^ 32 - 1) (2 ^ 32) := by
    intro i hi
    obtain ⟨e, he, rfl⟩ := List.mem_map.1 hi
    have h₁ := hlow e he
    have h₂ := hhigh e he
    exact List.mem_range'_1.2 ⟨h₁, by omega⟩
  have hle := (List.subperm_of_subset hnodup hsubset).length_le
  rwa [List.length_map, List.length_range'] at hle

theorem mem_availableEntries_marked {keys : List Fr254}
    (he : e ∈ availableEntries (s.commitments.markCommitmentsPendingSpend keys) token) :
    e ∈ availableEntries s.commitments token ∧ e.key ∉ keys := by
  obtain ⟨hmem, htoken, hunspent⟩ := mem_availableEntries.1 he
  obtain ⟨old, hold, rfl⟩ := List.mem_map.1 hmem
  by_cases hkey : old.key ∈ keys
  · rw [if_pos (decide_eq_true hkey)] at hunspent
    cases hunspent
  · rw [if_neg (by simpa using hkey)] at htoken hunspent ⊢
    exact ⟨mem_availableEntries.2 ⟨hold, htoken, hunspent⟩, hkey⟩

end Entries

/-! ### What a request spends -/

/-- The token of the commitments in a slot. -/
def SpendRequest.tokenId (cfg : ClientConfig) (r : SpendRequest) (i : Fin 4) : Fr254 :=
  if i < 2 then r.nfTokenId else cfg.feeTokenId

/-- Two commitments cover a value, and leave a change below `2 ^ 96`. -/
def Covers (p q : Preimage) (target : Fr254) : Prop :=
  target.val ≤ p.value.val + q.value.val ∧ p.value.val + q.value.val < target.val + 2 ^ 96

/-- What a request spends: commitments of its token and of the fee token, all different. -/
structure Spends (cfg : ClientConfig) (c : Commitments) (r : SpendRequest)
    (spend : Fin 4 → Preimage) : Prop where
  entry : ∀ i, spend i = .default ∨ ∃ e ∈ availableEntries c (r.tokenId cfg i), e.preimage = spend i
  first : ∃ e ∈ availableEntries c r.nfTokenId, e.preimage = spend 0
  /-- Only the first one may have no value. -/
  positive : ∀ i ≠ 0, spend i ≠ .default → (spend i).value ≠ 0
  distinct : ∀ i j, i < j → spend i ≠ .default → spend j ≠ .default →
    (spend i).hash cfg.poseidon ≠ (spend j).hash cfg.poseidon
  covers : Covers (spend 0) (spend 1) r.value
  coversFee : Covers (spend 2) (spend (Fin.last 3)) r.fee

section Selections

variable {cfg : ClientConfig} {s : ClientState} {r : SpendRequest} {spend : Fin 4 → Preimage}
  {token target : Fr254} {selected : Fin 2 → Preimage}

/-- What is selected for a token. -/
structure Selection (cfg : ClientConfig) (c : Commitments) (token target : Fr254)
    (selected : Fin 2 → Preimage) : Prop where
  first : ∃ e ∈ availableEntries c token, e.preimage = selected 0
  second : selected 1 = .default ∨ ∃ e ∈ availableEntries c token, e.preimage = selected 1
  second_positive : selected 1 ≠ .default → (selected 1).value ≠ 0
  first_positive : target ≠ 0 → (selected 0).value ≠ 0
  distinct : selected 1 ≠ .default →
    (selected 0).hash cfg.poseidon ≠ (selected 1).hash cfg.poseidon
  covers : Covers (selected 0) (selected 1) target

theorem Selects.selection {c : Commitments} (h : Selects c token target selected)
    (hc : ∀ e ∈ availableEntries c token,
      e.key = e.preimage.hash cfg.poseidon ∧ e.preimage.value.val < 2 ^ 96) :
    Selection cfg c token target selected := by
  cases h with
  | one e he hfirst hsecond hcovers =>
    have hlt := (hc e he).2
    refine ⟨⟨e, he, hfirst.symm⟩, .inl hsecond, fun hne => absurd hsecond hne, fun htarget hzero => ?_,
      fun hne => absurd hsecond hne, ?_⟩
    · rw [hfirst] at hzero
      rw [hzero, ZMod.val_zero] at hcovers
      exact htarget ((ZMod.val_eq_zero _).1 (Nat.le_zero.1 hcovers))
    · have hzero : Preimage.default.value.val = 0 := ZMod.val_zero
      rw [Covers, hfirst, hsecond, hzero]
      omega
  | two e e' he he' hne hfirst hsecond hless hless' hcovers =>
    have hlt := (hc e' he').2
    refine ⟨⟨e, he, hfirst.symm⟩, .inr ⟨e', he', hsecond.symm⟩, fun _ hzero => ?_,
      fun _ hzero => ?_, fun _ => ?_, ?_⟩
    · rw [hsecond] at hzero
      rw [hzero, ZMod.val_zero] at hcovers
      omega
    · rw [hfirst] at hzero
      rw [hzero, ZMod.val_zero] at hcovers
      omega
    · rw [hfirst, hsecond, ← (hc e he).1, ← (hc e' he').1]
      exact hne
    · rw [Covers, hfirst, hsecond]
      omega

theorem Holdings.selection (h : Holdings cfg s) {keys : List Fr254}
    (hselected : usableCommitments (s.commitments.markCommitmentsPendingSpend keys) token target =
      .ok selected) :
    Selection cfg (s.commitments.markCommitmentsPendingSpend keys) token target selected := by
  have hspendable : ∀ e ∈ availableEntries (s.commitments.markCommitmentsPendingSpend keys) token,
      e.Spendable cfg s.commitmentTree := fun e he =>
    h.spendable_of_mem (mem_availableEntries_marked he).1
  have hcount : (availableEntries (s.commitments.markCommitmentsPendingSpend keys) token).length ≤
      2 ^ 32 := by
    have hnodup : (availableEntries (s.commitments.markCommitmentsPendingSpend keys) token).Nodup :=
      (List.Nodup.of_map _ (s.commitments.markCommitmentsPendingSpend keys).nodup).sublist
        List.filter_sublist
    have hsubset : availableEntries (s.commitments.markCommitmentsPendingSpend keys) token ⊆
        availableEntries s.commitments token := fun e he => (mem_availableEntries_marked he).1
    exact (List.subperm_of_subset hnodup hsubset).length_le.trans h.length_le
  have hselects := usableCommitments_selects (fun e he => (hspendable e he).key_eq)
    (fun e he => (hspendable e he).value_lt) hcount hselected
  exact hselects.selection fun e he => ⟨(hspendable e he).key_eq, (hspendable e he).value_lt⟩

/-- The two selections of a request. -/
theorem spendCommitments_eq_some {c : Commitments} (h : spendCommitments cfg c r = some spend) :
    ∃ value fee, usableCommitments c r.nfTokenId r.value = .ok value ∧
      usableFeeCommitments cfg (c.markCommitmentsPendingSpend (pendingKeys cfg.poseidon value)) r =
        .ok fee ∧ spend = ![value 0, value 1, fee 0, fee 1] := by
  rw [spendCommitments] at h
  cases hvalue : usableCommitments c r.nfTokenId r.value with
  | error message =>
    rw [hvalue] at h
    cases h
  | ok value =>
    rw [hvalue] at h
    cases hfee : usableFeeCommitments cfg
      (c.markCommitmentsPendingSpend (pendingKeys cfg.poseidon value)) r with
    | error message =>
      simp only [hfee] at h
      cases h
    | ok fee =>
      simp only [hfee] at h
      cases h
      exact ⟨value, fee, rfl, hfee, rfl⟩

theorem Holdings.feeSelection (h : Holdings cfg s) {keys : List Fr254} {fee : Fin 2 → Preimage}
    (hfee : usableFeeCommitments cfg (s.commitments.markCommitmentsPendingSpend keys) r = .ok fee) :
    (r.fee = 0 ∧ fee = fun _ => .default) ∨ r.fee ≠ 0 ∧
      Selection cfg (s.commitments.markCommitmentsPendingSpend keys) cfg.feeTokenId r.fee fee := by
  rw [usableFeeCommitments] at hfee
  split_ifs at hfee with hzero
  · cases hfee
    exact .inl ⟨hzero, rfl⟩
  · exact .inr ⟨hzero, h.selection hfee⟩

theorem hash_ne_of_marked (h : Holdings cfg s) {p : Preimage}
    (hp : ∃ e ∈ availableEntries
      (s.commitments.markCommitmentsPendingSpend (pendingKeys cfg.poseidon selected)) token,
        e.preimage = p) (i : Fin 2) :
    (selected i).hash cfg.poseidon ≠ p.hash cfg.poseidon := by
  obtain ⟨e, he, rfl⟩ := hp
  obtain ⟨hold, hkey⟩ := mem_availableEntries_marked he
  rw [(h.spendable_of_mem hold).key_eq] at hkey
  exact fun heq => hkey (List.mem_ofFn.2 ⟨i, heq⟩)

/-- **What a request spends.** -/
theorem Holdings.spends (h : Holdings cfg s)
    (hspend : spendCommitments cfg s.commitments r = some spend) :
    Spends cfg s.commitments r spend := by
  obtain ⟨value, fee, hvalue, hfee, rfl⟩ := spendCommitments_eq_some hspend
  have hfirst := @Holdings.selection cfg s r.nfTokenId r.value value h [] (by
    rw [markCommitmentsPendingSpend_nil]
    exact hvalue)
  rw [markCommitmentsPendingSpend_nil] at hfirst
  have hunmarked : ∀ (token : Fr254) (p : Preimage),
      (∃ e ∈ availableEntries
        (s.commitments.markCommitmentsPendingSpend (pendingKeys cfg.poseidon value)) token,
          e.preimage = p) → ∃ e ∈ availableEntries s.commitments token, e.preimage = p := by
    rintro token p ⟨e, he, hp⟩
    exact ⟨e, (mem_availableEntries_marked he).1, hp⟩
  -- the slots of the fee: default ones, or those of the second selection
  have hfees : (∀ j, fee j = .default ∨ ∃ e ∈ availableEntries
        (s.commitments.markCommitmentsPendingSpend (pendingKeys cfg.poseidon value)) cfg.feeTokenId,
          e.preimage = fee j) ∧
      (∀ j, fee j ≠ .default → (fee j).value ≠ 0) ∧
      (fee 0 ≠ .default → fee 1 ≠ .default →
        (fee 0).hash cfg.poseidon ≠ (fee 1).hash cfg.poseidon) ∧ Covers (fee 0) (fee 1) r.fee := by
    rcases h.feeSelection hfee with ⟨hzero, rfl⟩ | ⟨hne, hselection⟩
    · refine ⟨fun _ => .inl rfl, fun _ hne => absurd rfl hne, fun hne => absurd rfl hne, ?_⟩
      have hval : Preimage.default.value.val = 0 := ZMod.val_zero
      rw [Covers, hzero, hval, ZMod.val_zero]
      omega
    · exact ⟨Fin.forall_fin_two.2 ⟨.inr hselection.first, hselection.second⟩,
        Fin.forall_fin_two.2 ⟨fun _ => hselection.first_positive hne, hselection.second_positive⟩,
        fun _ => hselection.distinct, hselection.covers⟩
  obtain ⟨hentries, hpositive, hdistinct, hcovers⟩ := hfees
  have hcross : ∀ i j, fee j ≠ .default →
      (value i).hash cfg.poseidon ≠ (fee j).hash cfg.poseidon := fun i j hne =>
    hash_ne_of_marked h ((hentries j).resolve_left hne) i
  constructor
  · intro i
    fin_cases i
    · exact .inr hfirst.first
    · exact hfirst.second
    · exact (hentries 0).imp_right (hunmarked _ _)
    · exact (hentries 1).imp_right (hunmarked _ _)
  · exact hfirst.first
  · intro i hi hne
    fin_cases i
    · exact absurd rfl hi
    · exact hfirst.second_positive hne
    · exact hpositive 0 hne
    · exact hpositive 1 hne
  · intro i j hij hi hj
    fin_cases i <;> fin_cases j <;> first | exact absurd hij (by decide) | skip
    · exact hfirst.distinct hj
    · exact hcross 0 0 hj
    · exact hcross 0 1 hj
    · exact hcross 1 0 hj
    · exact hcross 1 1 hj
    · exact hdistinct hi hj
  · exact hfirst.covers
  · exact hcovers

end Selections

end Wallet

end Nightfall
