import Nightfall.Trees.Mutable

/-!
# Hooking a sub-tree into a tree

What `hookSubTree` computes, for the node at depth `d` and position `p` of a tree of height `n` and
a sub-tree of height `n - d` below it.  The nodes that it sets are the ones that cover a leaf of the
sub-tree (`mem_map_id_hookSubTree`).

Their values are stated against a target, the nodes of the tree over leaves `f` that hold the leaves
of the sub-tree.  A node gets its target value as soon as every node off the path that it depends on
has been read with its target value; `Good` selects such nodes, so that the result also covers a
sequence of sub-trees whose later members are still missing (`run_foldlM_appendSubTree`).  Nodes that
an earlier operation left in the cache do no harm as long as they have their target values.
-/

namespace Nightfall

namespace Trees

open Merkle

variable {F : Type} {treeHash : F → F → F}

/-! ### The path -/

/-- The numbers of the nodes above a node. -/
def pathAbove : ℕ → ℕ → List ℕ
  | 0, _ => []
  | n + 1, index => (index - 1) / 2 :: pathAbove n ((index - 1) / 2)

theorem map_id_hashPath (getNode : ℕ → F) (n index : ℕ) (hash : F) :
    (hashPath treeHash getNode n index hash).2.map Node.id = pathAbove n index := by
  induction n generalizing index hash with
  | zero => rfl
  | succ n ih => simp only [hashPath, pathAbove, List.map_cons, ih]

theorem mem_pathAbove {n p i : ℕ} :
    i ∈ pathAbove n (nodeIndex n p) ↔ ∃ d < n, i = nodeIndex d (p / 2 ^ (n - d)) := by
  induction n generalizing p with
  | zero => simp [pathAbove]
  | succ n ih =>
    rw [pathAbove, parent_nodeIndex, List.mem_cons, ih]
    constructor
    · rintro (rfl | ⟨d, hd, rfl⟩)
      · exact ⟨n, by omega, by rw [Nat.add_sub_cancel_left, pow_one]⟩
      · refine ⟨d, by omega, ?_⟩
        rw [Nat.div_div_eq_div_mul, ← pow_succ', show n - d + 1 = n + 1 - d by omega]
    · rintro ⟨d, hd, rfl⟩
      rcases Nat.eq_or_lt_of_le (Nat.le_of_lt_succ hd) with rfl | hd
      · exact .inl (by rw [Nat.add_sub_cancel_left, pow_one])
      · refine .inr ⟨d, hd, ?_⟩
        rw [Nat.div_div_eq_div_mul, ← pow_succ', show n - d + 1 = n + 1 - d by omega]

/-- **The path gets the target values.**  The nodes on the path that are good are set to the values
of `N`, if their siblings are read with the values of `N`. -/
theorem hashPath_value {N getNode : ℕ → F} {Good Above : ℕ → Prop} {m n p : ℕ} {hash : F}
    (hn : n ≤ m) (hp : p < 2 ^ n)
    (hN : ∀ i < 2 ^ m - 1, N i = treeHash (N (2 * i + 1)) (N (2 * i + 2)))
    (hgood : ∀ i, i ≠ 0 → Good ((i - 1) / 2) → Good i)
    (habove : ∀ i, i ≠ 0 → Above i → Above ((i - 1) / 2))
    (hread : ∀ i, i ≠ 0 → Above i → Good ((i - 1) / 2) →
      (i % 2 = 0 → getNode (i - 1) = N (i - 1)) ∧ (i % 2 = 1 → getNode (i + 1) = N (i + 1)))
    (hstart : Above (nodeIndex n p)) (hhash : Good (nodeIndex n p) → hash = N (nodeIndex n p)) :
    (∀ node ∈ (hashPath treeHash getNode n (nodeIndex n p) hash).2,
        Good node.id → node.value = N node.id) ∧
      (Good 0 → (hashPath treeHash getNode n (nodeIndex n p) hash).1 = N 0) := by
  induction n generalizing p hash with
  | zero =>
    obtain rfl : p = 0 := by simpa using hp
    exact ⟨by simp [hashPath], hhash⟩
  | succ n ih =>
    have hpow : 2 ^ (n + 1) = 2 * 2 ^ n := pow_succ' 2 n
    have hle : 2 ^ (n + 1) ≤ 2 ^ m := Nat.pow_le_pow_right two_pos hn
    have hi : nodeIndex (n + 1) p ≠ 0 := by
      have := nodeIndex_add_one (n + 1) p
      have := Nat.two_pow_pos n
      omega
    have hlt : (nodeIndex (n + 1) p - 1) / 2 < 2 ^ m - 1 := by
      have := nodeIndex_add_one (n + 1) p
      omega
    -- the value of the parent
    have hparent : Good ((nodeIndex (n + 1) p - 1) / 2) →
        (if nodeIndex (n + 1) p % 2 = 0 then treeHash (getNode (nodeIndex (n + 1) p - 1)) hash
          else treeHash hash (getNode (nodeIndex (n + 1) p + 1))) =
          N ((nodeIndex (n + 1) p - 1) / 2) := by
      intro hG
      obtain ⟨heven, hodd⟩ := hread _ hi hstart hG
      rw [hN _ hlt, hhash (hgood _ hi hG)]
      split_ifs with h
      · rw [heven h]
        congr 2 <;> omega
      · rw [hodd (by omega)]
        congr 2 <;> omega
    have hp' : p / 2 < 2 ^ n := by omega
    rw [parent_nodeIndex] at hparent
    have hstart' := habove _ hi hstart
    rw [parent_nodeIndex] at hstart'
    obtain ⟨ih₁, ih₂⟩ := ih (by omega) hp' hstart' hparent
    simp only [hashPath, parent_nodeIndex, List.forall_mem_cons]
    exact ⟨⟨hparent, ih₁⟩, ih₂⟩

/-- The path of `siblings` and the path of `hashPath` have the same root. -/
theorem foldPath_siblings (getNode : ℕ → F) (n index : ℕ) (hash : F) :
    foldPath treeHash (siblings getNode n index) hash =
      (hashPath treeHash getNode n index hash).1 := by
  induction n generalizing index hash with
  | zero => rfl
  | succ n ih =>
    rw [siblings, foldPath, hashPath, ih]
    split_ifs <;> rfl

theorem drop_siblings (getNode : ℕ → F) (n k p : ℕ) :
    (siblings getNode (n + k) (nodeIndex (n + k) p)).drop k =
      siblings getNode n (nodeIndex n (p / 2 ^ k)) := by
  induction k generalizing p with
  | zero => simp
  | succ k ih =>
    rw [← Nat.add_assoc, siblings, List.drop_succ_cons, parent_nodeIndex, ih,
      Nat.div_div_eq_div_mul, ← pow_succ']

theorem siblings_congr {getNode getNode' : ℕ → F} {Above : ℕ → Prop} {n p : ℕ} (hp : p < 2 ^ n)
    (habove : ∀ i, i ≠ 0 → Above i → Above ((i - 1) / 2))
    (hread : ∀ i, i ≠ 0 → Above i → (i % 2 = 0 → getNode (i - 1) = getNode' (i - 1)) ∧
      (i % 2 = 1 → getNode (i + 1) = getNode' (i + 1)))
    (hstart : Above (nodeIndex n p)) :
    siblings getNode n (nodeIndex n p) = siblings getNode' n (nodeIndex n p) := by
  induction n generalizing p with
  | zero => rfl
  | succ n ih =>
    have hpow : 2 ^ (n + 1) = 2 * 2 ^ n := pow_succ' 2 n
    have hi : nodeIndex (n + 1) p ≠ 0 := by
      have := nodeIndex_add_one (n + 1) p
      have := Nat.two_pow_pos n
      omega
    obtain ⟨heven, hodd⟩ := hread _ hi hstart
    have hstart' := habove _ hi hstart
    rw [parent_nodeIndex] at hstart'
    rw [siblings, siblings, parent_nodeIndex, ih (by omega) hstart']
    split_ifs with h
    · rw [heven h]
    · rw [hodd (by omega)]

/-! ### The rows below -/

variable [Zero F]

/-- The numbers of the nodes in the rows below a node, `span` of them in its own row. -/
def rowsBelow : ℕ → ℕ → ℕ → List ℕ
  | 0, _, _ => []
  | n + 1, index, span =>
    (List.range (span * 2)).map (fun j => index * 2 + 1 + j) ++
      rowsBelow n (index * 2 + 1) (span * 2)

theorem map_id_rowUpdates (subTree : List F) (n index subIndex span : ℕ) :
    (rowUpdates subTree n index subIndex span).map Node.id = rowsBelow n index span := by
  induction n generalizing index subIndex span with
  | zero => rfl
  | succ n ih => simp [rowUpdates, rowsBelow, ih, Function.comp_def]

theorem mem_rowUpdates {subTree : List F} {n d p r : ℕ} {node : Node F} :
    node ∈ rowUpdates subTree n (nodeIndex (d + r) (p * 2 ^ r)) (2 ^ (r + 1) - 2) (2 ^ r) ↔
      ∃ s, r < s ∧ s ≤ r + n ∧ ∃ t < 2 ^ s,
        node = ⟨nodeIndex (d + s) (p * 2 ^ s + t), subTree.getD (nodeIndex s t) 0⟩ := by
  induction n generalizing r with
  | zero =>
    refine iff_of_false (by simp [rowUpdates]) ?_
    rintro ⟨s, hr, hs, -⟩
    omega
  | succ n ih =>
    -- the first node of the next row, and its number in the sub-tree
    have hindex : nodeIndex (d + r) (p * 2 ^ r) * 2 + 1 =
        nodeIndex (d + (r + 1)) (p * 2 ^ (r + 1)) := by
      rw [two_mul_nodeIndex, pow_succ]
      congr 1
      ring
    have hpow : 2 ^ (r + 1) = 2 * 2 ^ r := pow_succ' 2 r
    have hpow' : 2 ^ (r + 2) = 2 * 2 ^ (r + 1) := pow_succ' 2 (r + 1)
    have hpos := Nat.two_pow_pos r
    have hspan : 2 ^ r * 2 = 2 ^ (r + 1) := (pow_succ 2 r).symm
    have hsub : 2 ^ (r + 1) - 2 + 2 ^ (r + 1) = 2 ^ (r + 1 + 1) - 2 := by omega
    have hnum : ∀ t, 2 ^ (r + 1) - 2 + 1 + t = nodeIndex (r + 1) t := by
      intro t
      unfold nodeIndex
      omega
    have hmem := ih (r := r + 1)
    rw [rowUpdates, hindex, hspan, hsub, List.mem_append, List.mem_map, hmem]
    constructor
    · rintro (⟨t, ht, rfl⟩ | ⟨s, hr, hs, hnode⟩)
      · refine ⟨r + 1, by omega, by omega, t, List.mem_range.1 ht, ?_⟩
        rw [nodeIndex_add, hnum]
      · exact ⟨s, by omega, by omega, hnode⟩
    · rintro ⟨s, hr, hs, t, ht, rfl⟩
      rcases Nat.eq_or_lt_of_le (Nat.succ_le_of_lt hr) with rfl | hlt
      · refine .inl ⟨t, List.mem_range.2 ht, ?_⟩
        rw [nodeIndex_add, hnum]
      · exact .inr ⟨s, by omega, by omega, t, ht, rfl⟩

theorem mem_rowUpdates_root {subTree : List F} {n d p : ℕ} {node : Node F} :
    node ∈ rowUpdates subTree n (nodeIndex d p) 0 1 ↔
      ∃ s, 0 < s ∧ s ≤ n ∧ ∃ t < 2 ^ s,
        node = ⟨nodeIndex (d + s) (p * 2 ^ s + t), subTree.getD (nodeIndex s t) 0⟩ := by
  simpa using @mem_rowUpdates F _ subTree n d p 0 node

/-! ### The sub-tree -/

section Hook

variable {n d m p : ℕ} {f : ℕ → F} {leaves : List F}

theorem makeCompleteTree_eq_completeNode (hn : d + m = n) (hp : p < 2 ^ d)
    (hlen : leaves.length ≤ 2 ^ m) (hf : ∀ j < 2 ^ m, f (2 ^ m * p + j) = leaves.getD j 0)
    {s t : ℕ} (hs : s ≤ m) (ht : t < 2 ^ s) :
    (makeCompleteTree treeHash m leaves).getD (nodeIndex s t) 0 =
      completeNode treeHash 0 n f (nodeIndex (d + s) (p * 2 ^ s + t)) := by
  have hpos : p * 2 ^ s + t < 2 ^ (d + s) := by
    rw [pow_add]
    calc p * 2 ^ s + t < p * 2 ^ s + 2 ^ s := by omega
      _ = (p + 1) * 2 ^ s := by ring
      _ ≤ 2 ^ d * 2 ^ s := Nat.mul_le_mul_right _ hp
  rw [makeCompleteTree_getD hlen, completeNode_nodeIndex hs ht,
    completeNode_nodeIndex (by omega) hpos, iterate_layer_apply, iterate_layer_apply,
    show n - (d + s) = m - s by omega]
  refine treeRoot_congr fun j hj => ?_
  have hm : 2 ^ m = 2 ^ (m - s) * 2 ^ s := by rw [← pow_add, Nat.sub_add_cancel hs]
  have hlt : 2 ^ (m - s) * t + j < 2 ^ m := by
    rw [hm]
    calc 2 ^ (m - s) * t + j < 2 ^ (m - s) * t + 2 ^ (m - s) := by omega
      _ = 2 ^ (m - s) * (t + 1) := by ring
      _ ≤ 2 ^ (m - s) * 2 ^ s := Nat.mul_le_mul_left _ ht
  rw [← hf _ hlt, hm]
  congr 1
  ring

/-- The numbers of the nodes that `hookSubTree` sets. -/
def hookKeys (height rows index : ℕ) : List ℕ :=
  index :: pathAbove height index ++ rowsBelow rows index 1

/-- Which nodes are set does not depend on what is read. -/
theorem map_id_hookSubTree (getNode : ℕ → F) (height rows index : ℕ) (subTree : List F) :
    (hookSubTree treeHash getNode height rows index subTree).2.map Node.id =
      hookKeys height rows index := by
  simp only [hookSubTree, hookKeys, List.map_append, List.map_cons, map_id_hashPath,
    map_id_rowUpdates]

/-- **The nodes that are set** cover a leaf of the sub-tree. -/
theorem mem_map_id_hookSubTree (getNode : ℕ → F) (subTree : List F) (hn : d + m = n)
    (hp : p < 2 ^ d) {i : ℕ} :
    i ∈ (hookSubTree treeHash getNode d m (nodeIndex d p) subTree).2.map Node.id ↔
      ∃ l < 2 ^ n, l / 2 ^ m = p ∧ Covers n i l := by
  subst hn
  have hlt : ∀ q s, q < 2 ^ (d + s) → s ≤ m → q * 2 ^ (m - s) < 2 ^ (d + m) := by
    intro q s hq hs
    rw [show d + m = d + s + (m - s) by omega, pow_add]
    exact Nat.mul_lt_mul_of_pos_right hq (Nat.two_pow_pos _)
  simp only [hookSubTree, List.map_append, List.map_cons, List.mem_append, List.mem_cons,
    map_id_hashPath, mem_pathAbove, List.mem_map, mem_rowUpdates_root]
  constructor
  · rintro ((rfl | ⟨e, he, rfl⟩) | ⟨_, ⟨s, hs, hsm, t, ht, rfl⟩, rfl⟩)
    · refine ⟨p * 2 ^ m, by simpa using hlt p 0 (by simpa using hp) m.zero_le,
        Nat.mul_div_cancel _ (Nat.two_pow_pos m), d, by omega, ?_⟩
      rw [Nat.add_sub_cancel_left, Nat.mul_div_cancel _ (Nat.two_pow_pos m)]
    · refine ⟨p * 2 ^ m, by simpa using hlt p 0 (by simpa using hp) m.zero_le,
        Nat.mul_div_cancel _ (Nat.two_pow_pos m), e, by omega, ?_⟩
      rw [show d + m - e = m + (d - e) by omega, pow_add, ← Nat.div_div_eq_div_mul,
        Nat.mul_div_cancel _ (Nat.two_pow_pos m)]
    · have hq : p * 2 ^ s + t < 2 ^ (d + s) := by
        rw [pow_add]
        calc p * 2 ^ s + t < p * 2 ^ s + 2 ^ s := by omega
          _ = (p + 1) * 2 ^ s := by ring
          _ ≤ 2 ^ d * 2 ^ s := Nat.mul_le_mul_right _ hp
      have hcancel := Nat.mul_div_cancel (p * 2 ^ s + t) (Nat.two_pow_pos (m - s))
      refine ⟨(p * 2 ^ s + t) * 2 ^ (m - s), hlt _ s hq hsm, ?_, d + s, by omega, ?_⟩
      · rw [show (2 : ℕ) ^ m = 2 ^ (m - s) * 2 ^ s by rw [← pow_add, Nat.sub_add_cancel hsm],
          ← Nat.div_div_eq_div_mul, hcancel, Nat.mul_comm, Nat.mul_add_div (Nat.two_pow_pos s),
          Nat.div_eq_of_lt ht, Nat.add_zero]
      · rw [show d + m - (d + s) = m - s by omega, hcancel]
  · rintro ⟨l, hl, rfl, e, he, rfl⟩
    rcases lt_trichotomy e d with hed | rfl | hed
    · refine .inl (.inr ⟨e, hed, ?_⟩)
      rw [show d + m - e = m + (d - e) by omega, pow_add, Nat.div_div_eq_div_mul]
    · exact .inl (.inl (by rw [Nat.add_sub_cancel_left]))
    · obtain ⟨s, rfl⟩ := Nat.exists_eq_add_of_le hed.le
      have hdiv : l / 2 ^ m = l / 2 ^ (m - s) / 2 ^ s := by
        rw [Nat.div_div_eq_div_mul, ← pow_add, Nat.sub_add_cancel (by omega)]
      refine .inr ⟨_, ⟨s, by omega, by omega, l / 2 ^ (m - s) % 2 ^ s,
        Nat.mod_lt _ (Nat.two_pow_pos s), rfl⟩, ?_⟩
      rw [hdiv, Nat.div_add_mod', show d + m - (d + s) = m - s by omega]

/-- The nodes that no leaf in `S` is below. -/
def Clear (n : ℕ) (S : Set ℕ) (i : ℕ) : Prop := ∀ l < 2 ^ n, l ∈ S → ¬ Covers n i l

/-- The leaves of the sub-tree at position `p`, `m` rows above the leaves. -/
def leavesBelow (m p : ℕ) : Set ℕ := {l | l / 2 ^ m = p}

/-- The nodes that all leaves in `S` are below. -/
def CoversAll (n : ℕ) (S : Set ℕ) (i : ℕ) : Prop := ∀ l < 2 ^ n, l ∈ S → Covers n i l

theorem CoversAll.parent {S : Set ℕ} {i : ℕ} (h : CoversAll n S i) (hi : i ≠ 0) :
    CoversAll n S ((i - 1) / 2) := fun l hl hmem => (h l hl hmem).parent hi hl

theorem coversAll_root (hn : d + m = n) : CoversAll n (leavesBelow m p) (nodeIndex d p) := by
  rintro l - rfl
  exact ⟨d, by omega, by rw [← hn, Nat.add_sub_cancel_left]⟩

/-- A sibling of a node above the sub-tree covers neither the sub-tree nor what the parent does not
cover. -/
theorem CoversAll.clear_sibling {S later : Set ℕ} {i : ℕ} (h : CoversAll n S i) (hi : i ≠ 0)
    (hlater : Clear n later ((i - 1) / 2)) :
    (i % 2 = 0 → Clear n (S ∪ later) (i - 1)) ∧ (i % 2 = 1 → Clear n (S ∪ later) (i + 1)) := by
  constructor
  · rintro heven l hl (hmem | hmem) hcov
    · exact ((h l hl hmem).not_sibling hl).1 heven hi hcov
    · refine hlater l hl hmem ?_
      have hpar := hcov.parent (by omega) hl
      rwa [show (i - 1 - 1) / 2 = (i - 1) / 2 by omega] at hpar
  · rintro hodd l hl (hmem | hmem) hcov
    · exact ((h l hl hmem).not_sibling hl).2 hodd hcov
    · refine hlater l hl hmem ?_
      have hpar := hcov.parent (by omega) hl
      rwa [show (i + 1 - 1) / 2 = (i - 1) / 2 by omega] at hpar

/-- **The nodes that are set get the target values**, apart from those above the leaves in `later`,
if the nodes that the sub-tree does not touch are read with theirs. -/
theorem hookSubTree_value {getNode : ℕ → F} {later : Set ℕ} (hn : d + m = n) (hp : p < 2 ^ d)
    (hlen : leaves.length ≤ 2 ^ m) (hf : ∀ j < 2 ^ m, f (2 ^ m * p + j) = leaves.getD j 0)
    (hread : ∀ i, Clear n (leavesBelow m p ∪ later) i →
      getNode i = completeNode treeHash 0 n f i) :
    (∀ node ∈ (hookSubTree treeHash getNode d m (nodeIndex d p)
        (makeCompleteTree treeHash m leaves)).2,
        Clear n later node.id → node.value = completeNode treeHash 0 n f node.id) ∧
      (Clear n later 0 → (hookSubTree treeHash getNode d m (nodeIndex d p)
        (makeCompleteTree treeHash m leaves)).1 = completeNode treeHash 0 n f 0) := by
  have hroot := @makeCompleteTree_eq_completeNode F treeHash _ n d m p f leaves hn hp hlen hf 0 0
    m.zero_le (by simp)
  rw [nodeIndex_zero, Nat.add_zero, pow_zero, Nat.mul_one, Nat.add_zero] at hroot
  have hstart : CoversAll n (leavesBelow m p) (nodeIndex d p) := coversAll_root hn
  have hsibling : ∀ i, i ≠ 0 → CoversAll n (leavesBelow m p) i → Clear n later ((i - 1) / 2) →
      (i % 2 = 0 → getNode (i - 1) = completeNode treeHash 0 n f (i - 1)) ∧
        (i % 2 = 1 → getNode (i + 1) = completeNode treeHash 0 n f (i + 1)) := by
    intro i hi habove hlater
    obtain ⟨hleft, hright⟩ := habove.clear_sibling hi hlater
    exact ⟨fun h => hread _ (hleft h), fun h => hread _ (hright h)⟩
  have hclear : ∀ i, i ≠ 0 → Clear n later ((i - 1) / 2) → Clear n later i :=
    fun i hi hG l hl hmem hcov => hG l hl hmem (hcov.parent hi hl)
  have hpath := hashPath_value (by omega) hp (fun i hi => completeNode_child hi f) hclear
    (fun i hi habove => habove.parent hi) hsibling hstart fun _ => hroot
  constructor
  · intro node hnode hclear
    rw [hookSubTree, List.mem_append, List.mem_cons] at hnode
    rcases hnode with (rfl | hnode) | hnode
    · exact hroot
    · exact hpath.1 node hnode hclear
    · obtain ⟨s, -, hs, t, ht, rfl⟩ := mem_rowUpdates_root.1 hnode
      exact makeCompleteTree_eq_completeNode hn hp hlen hf hs ht
  · exact hpath.2

end Hook

/-! ### Reads after writes -/

section Reads

variable {nodes : Collection (Node.id (F := F))} {updates : List (Node F)} {N : ℕ → F} {i : ℕ}

theorem storedValue_upserts_of_notMem (h : i ∉ updates.map Node.id) :
    storedValue (nodes.upserts updates) i = storedValue nodes i := by
  rw [storedValue, storedValue, Collection.find_upserts_of_notMem h]

theorem storedValue_upserts_of_mem (hi : i ∈ updates.map Node.id)
    (h : ∀ node ∈ updates, node.id = i → node.value = N i) :
    storedValue (nodes.upserts updates) i = N i := by
  have hnode : ∀ node ∈ updates, node.id = i → node = ⟨i, N i⟩ := by
    rintro ⟨_, _⟩ hmem rfl
    exact congrArg _ (h _ hmem rfl)
  rw [storedValue, Collection.find_upserts_of_mem hi hnode]

theorem storedValue_upserts (hnodes : storedValue nodes i = N i)
    (h : ∀ node ∈ updates, node.value = N node.id) :
    storedValue (nodes.upserts updates) i = N i := by
  by_cases hi : i ∈ updates.map Node.id
  · exact storedValue_upserts_of_mem hi fun node hmem hid => hid ▸ h node hmem
  · rw [storedValue_upserts_of_notMem hi, hnodes]

/-- The nodes in the cache have the values of `N`. -/
def CacheAgrees (db : TreeDb F) (N : ℕ → F) : Prop := ∀ node ∈ db.cache.docs, node.value = N node.id

theorem getNode_eq {db : TreeDb F} (hcache : CacheAgrees db N)
    (hnodes : storedValue db.nodes i = N i) : db.getNode i = N i := by
  unfold TreeDb.getNode
  cases h : db.cache.find i with
  | none => exact hnodes
  | some node =>
    obtain ⟨hmem, rfl⟩ := Collection.find_eq_some.1 h
    exact hcache node hmem

end Reads

/-! ### Sub-trees hooked in one after the other -/

section Hooked

variable {n d m p : ℕ} {f : ℕ → F} {db : TreeDb F}

/-- The leaves of the sub-trees from position `a` to position `b`. -/
def leavesBetween (m a b : ℕ) : Set ℕ := {l | a ≤ l / 2 ^ m ∧ l / 2 ^ m < b}

theorem leavesBelow_union {a b : ℕ} (hab : a < b) :
    leavesBelow m a ∪ leavesBetween m (a + 1) b = leavesBetween m a b := by
  ext l
  simp only [leavesBelow, leavesBetween, Set.mem_union, Set.mem_ofPred_eq]
  omega

/-- The step: the nodes above the later leaves are still missing, the others are there. -/
theorem storedValue_hooked {leaves : List F} {later : Set ℕ} (hn : d + m = n) (hp : p < 2 ^ d)
    (hlen : leaves.length ≤ 2 ^ m) (hf : ∀ j < 2 ^ m, f (2 ^ m * p + j) = leaves.getD j 0)
    (hcache : CacheAgrees db (completeNode treeHash 0 n f))
    (hnodes : ∀ i, Clear n (leavesBelow m p ∪ later) i →
      storedValue db.nodes i = completeNode treeHash 0 n f i) :
    (∀ i, Clear n later i →
      storedValue (db.nodes.upserts (hookSubTree treeHash db.getNode d m (nodeIndex d p)
        (makeCompleteTree treeHash m leaves)).2) i = completeNode treeHash 0 n f i) ∧
      (Clear n later 0 → (hookSubTree treeHash db.getNode d m (nodeIndex d p)
        (makeCompleteTree treeHash m leaves)).1 = completeNode treeHash 0 n f 0) := by
  have hvalue := @hookSubTree_value F treeHash _ n d m p f leaves _ later hn hp hlen hf
    fun i hi => getNode_eq hcache (hnodes i hi)
  refine ⟨fun i hi => ?_, hvalue.2⟩
  by_cases hmem : i ∈ (hookSubTree treeHash db.getNode d m (nodeIndex d p)
      (makeCompleteTree treeHash m leaves)).2.map Node.id
  · refine storedValue_upserts_of_mem hmem fun node hnode hid => ?_
    rw [← hid]
    exact hvalue.1 node hnode (hid ▸ hi)
  · rw [storedValue_upserts_of_notMem hmem]
    rw [mem_map_id_hookSubTree _ _ hn hp] at hmem
    refine hnodes i fun l hl hunion hcov => ?_
    rcases hunion with hbelow | hlater
    · exact hmem ⟨l, hl, hbelow, hcov⟩
    · exact hi l hl hlater hcov

/-- The numbers of the nodes that the rounds of `append_sub_trees` set. -/
def appendKeys (metadata : TreeMetadata F) : ℕ → ℕ → List ℕ
  | _, 0 => []
  | count, k + 1 =>
    hookKeys metadata.treeHeight metadata.subTreeHeight (nodeIndex metadata.treeHeight count) ++
      appendKeys metadata (count + 1) k

/-- **The rounds of `append_sub_trees`.**  After the last of them all nodes have the values of the
tree over `f`, which holds the leaves of the chunks. -/
theorem run_foldlM_appendSubTree {metadata : TreeMetadata F} {cs : List (List F)} {acc : F × ℕ}
    (hn : metadata.treeHeight + metadata.subTreeHeight = n)
    (hcs : ∀ c ∈ cs, c.length = 2 ^ metadata.subTreeHeight)
    (hfit : acc.2 + cs.length ≤ 2 ^ metadata.treeHeight)
    (hf : ∀ k (hk : k < cs.length), ∀ j < 2 ^ metadata.subTreeHeight,
      f (2 ^ metadata.subTreeHeight * (acc.2 + k) + j) = cs[k].getD j 0)
    (hcache : CacheAgrees db (completeNode treeHash 0 n f))
    (hnodes : ∀ i, Clear n (leavesBetween metadata.subTreeHeight acc.2 (acc.2 + cs.length)) i →
      storedValue db.nodes i = completeNode treeHash 0 n f i) :
    ∃ hash updates,
      (cs.foldlM (appendSubTree treeHash metadata true) acc).run db =
        .ok (hash, acc.2 + cs.length) { db with nodes := db.nodes.upserts updates } ∧
      updates.map Node.id = appendKeys metadata acc.2 cs.length ∧
      (∀ i, storedValue (db.nodes.upserts updates) i = completeNode treeHash 0 n f i) ∧
      (cs ≠ [] → hash = completeNode treeHash 0 n f 0) := by
  induction cs generalizing acc db with
  | nil =>
    refine ⟨acc.1, [], rfl, rfl, fun i => hnodes i ?_, fun h => absurd rfl h⟩
    rintro l - ⟨h1, h2⟩
    exact absurd h2 (by simpa using h1)
  | cons c cs ih =>
    rw [List.length_cons] at hfit hnodes
    rw [List.forall_mem_cons] at hcs
    have hlater : acc.2 + (cs.length + 1) = acc.2 + 1 + cs.length := by omega
    have hprev : ∀ i, Clear n (leavesBelow metadata.subTreeHeight acc.2 ∪
        leavesBetween metadata.subTreeHeight (acc.2 + 1) (acc.2 + 1 + cs.length)) i →
        storedValue db.nodes i = completeNode treeHash 0 n f i := by
      rw [leavesBelow_union (by omega), ← hlater]
      exact hnodes
    have hfirst : ∀ j < 2 ^ metadata.subTreeHeight,
        f (2 ^ metadata.subTreeHeight * acc.2 + j) = c.getD j 0 := fun j hj => hf 0 (by simp) j hj
    have hrest : ∀ k (hk : k < cs.length), ∀ j < 2 ^ metadata.subTreeHeight,
        f (2 ^ metadata.subTreeHeight * (acc.2 + 1 + k) + j) = cs[k].getD j 0 := by
      intro k hk j hj
      have := hf (k + 1) (by simpa using hk) j hj
      rwa [List.getElem_cons_succ, show acc.2 + (k + 1) = acc.2 + 1 + k by omega] at this
    obtain ⟨hstored, hroot⟩ := storedValue_hooked hn (by omega) hcs.1.le hfirst hcache hprev
    let hooked := hookSubTree treeHash db.getNode metadata.treeHeight metadata.subTreeHeight
      (nodeIndex metadata.treeHeight acc.2) (makeCompleteTree treeHash metadata.subTreeHeight c)
    have hstep : (appendSubTree treeHash metadata true acc c).run db =
        .ok (hooked.1, acc.2 + 1) { db with nodes := db.nodes.upserts hooked.2 } := rfl
    obtain ⟨hash, updates, hrun, hkeys, hvalues, hhash⟩ :=
      @ih { db with nodes := db.nodes.upserts hooked.2 } (hooked.1, acc.2 + 1) hcs.2
        (by rw [← hlater]; exact hfit) hrest hcache hstored
    refine ⟨hash, hooked.2 ++ updates, ?_, ?_, ?_, fun _ => ?_⟩
    · rw [List.foldlM_cons, EStateM.run_bind, hstep, List.length_cons, hlater,
        Collection.upserts_append]
      exact hrun
    · rw [List.map_append, map_id_hookSubTree, hkeys]
      rfl
    · intro i
      rw [Collection.upserts_append]
      exact hvalues i
    · by_cases hempty : cs = []
      · subst hempty
        obtain ⟨rfl, -⟩ : hooked.1 = hash ∧ _ := by
          simpa [EStateM.run_pure] using hrun
        refine hroot ?_
        rintro l - ⟨h1, h2⟩
        exact absurd h2 (by simpa using h1)
      · exact hhash hempty

end Hooked

end Trees

end Nightfall
