import Mathlib.Data.Nat.Log
import Nightfall.Merkle.Tree

/-!
# The nodes of a complete tree, numbered row by row

The nodes of a complete binary tree are numbered from the root downwards, every row from the left:
the node at depth `d` and position `p` has the number `2 ^ d - 1 + p`, its children
`2 * i + 1` and `2 * i + 2` and its parent `(i - 1) / 2`.

`completeNode h z n f i` is the node with number `i` of the tree over the first `2 ^ n` values of
`f`, and `z` where the tree has no node.  It depends on the leaves below the node only
(`iterate_layer_congr`).
-/

namespace Nightfall

namespace Merkle

/-- The number of the node at depth `d` and position `p`. -/
def nodeIndex (d p : ℕ) : ℕ := 2 ^ d - 1 + p

section Index

variable {d e n p q i : ℕ}

theorem nodeIndex_add_one (d p : ℕ) : nodeIndex d p + 1 = 2 ^ d + p := by
  have := Nat.two_pow_pos d
  unfold nodeIndex
  omega

@[simp] theorem nodeIndex_zero (p : ℕ) : nodeIndex 0 p = p := by simp [nodeIndex]

theorem nodeIndex_add (d p k : ℕ) : nodeIndex d p + k = nodeIndex d (p + k) := Nat.add_assoc _ _ _

theorem nodeIndex_lt (hp : p < 2 ^ d) (hd : d ≤ n) : nodeIndex d p < 2 ^ (n + 1) - 1 := by
  have h1 := nodeIndex_add_one d p
  have h2 : 2 ^ d ≤ 2 ^ n := Nat.pow_le_pow_right two_pos hd
  rw [pow_succ]
  omega

theorem log_nodeIndex (hp : p < 2 ^ d) : Nat.log 2 (nodeIndex d p + 1) = d := by
  rw [nodeIndex_add_one]
  refine Nat.log_eq_of_pow_le_of_lt_pow (Nat.le_add_right _ _) ?_
  rw [pow_succ]
  omega

theorem nodeIndex_inj (hp : p < 2 ^ d) (hq : q < 2 ^ e) (h : nodeIndex d p = nodeIndex e q) :
    d = e ∧ p = q := by
  have hd : d = e := by rw [← log_nodeIndex hp, h, log_nodeIndex hq]
  subst hd
  exact ⟨rfl, Nat.add_left_cancel h⟩

/-- Every number belongs to one row. -/
theorem exists_nodeIndex (i : ℕ) : ∃ d p, p < 2 ^ d ∧ i = nodeIndex d p := by
  have hle : 2 ^ Nat.log 2 (i + 1) ≤ i + 1 := Nat.pow_log_le_self 2 (Nat.succ_ne_zero i)
  have hlt : i + 1 < 2 ^ (Nat.log 2 (i + 1) + 1) := Nat.lt_pow_succ_log_self one_lt_two _
  refine ⟨Nat.log 2 (i + 1), i + 1 - 2 ^ Nat.log 2 (i + 1), ?_, ?_⟩
  · rw [pow_succ] at hlt
    omega
  · have := nodeIndex_add_one (Nat.log 2 (i + 1)) (i + 1 - 2 ^ Nat.log 2 (i + 1))
    omega

theorem exists_nodeIndex_of_lt (hi : i < 2 ^ (n + 1) - 1) :
    ∃ d p, d ≤ n ∧ p < 2 ^ d ∧ i = nodeIndex d p := by
  obtain ⟨d, p, hp, rfl⟩ := exists_nodeIndex i
  refine ⟨d, p, ?_, hp, rfl⟩
  by_contra hd
  have h1 := nodeIndex_add_one d p
  have h2 : 2 ^ (n + 1) ≤ 2 ^ d := Nat.pow_le_pow_right two_pos (by omega)
  omega

/-! ### Parents, children and siblings -/

theorem two_mul_nodeIndex (d p : ℕ) : nodeIndex d p * 2 + 1 = nodeIndex (d + 1) (2 * p) := by
  have h1 := nodeIndex_add_one d p
  have h2 := nodeIndex_add_one (d + 1) (2 * p)
  rw [pow_succ] at h2
  omega

theorem parent_nodeIndex (d p : ℕ) : (nodeIndex (d + 1) p - 1) / 2 = nodeIndex d (p / 2) := by
  have h1 := nodeIndex_add_one d (p / 2)
  have h2 := nodeIndex_add_one (d + 1) p
  rw [pow_succ] at h2
  have := Nat.two_pow_pos d
  omega

/-- The right children have the even numbers. -/
theorem nodeIndex_mod_two (d p : ℕ) : nodeIndex (d + 1) p % 2 = 0 ↔ p % 2 = 1 := by
  have h := nodeIndex_add_one (d + 1) p
  rw [pow_succ] at h
  omega

theorem nodeIndex_sub_one (h : p % 2 = 1) :
    nodeIndex (d + 1) p - 1 = nodeIndex (d + 1) (2 * (p / 2)) := by
  have h1 := nodeIndex_add_one (d + 1) p
  have h2 := nodeIndex_add_one (d + 1) (2 * (p / 2))
  have := Nat.two_pow_pos (d + 1)
  omega

theorem nodeIndex_succ (h : p % 2 = 0) :
    nodeIndex (d + 1) p + 1 = nodeIndex (d + 1) (2 * (p / 2) + 1) := by
  have h1 := nodeIndex_add_one (d + 1) p
  have h2 := nodeIndex_add_one (d + 1) (2 * (p / 2) + 1)
  omega

end Index

/-! ### The nodes above a leaf -/

/-- Node `i` is the leaf `l` of the tree over `2 ^ n` leaves or lies above it. -/
def Covers (n i l : ℕ) : Prop := ∃ d ≤ n, i = nodeIndex d (l / 2 ^ (n - d))

section Covers

variable {n d p i l : ℕ}

theorem div_pow_lt (hl : l < 2 ^ n) (hd : d ≤ n) : l / 2 ^ (n - d) < 2 ^ d := by
  rw [Nat.div_lt_iff_lt_mul (Nat.two_pow_pos _), ← pow_add, Nat.add_sub_cancel' hd]
  exact hl

theorem covers_nodeIndex (hd : d ≤ n) (hp : p < 2 ^ d) (hl : l < 2 ^ n) :
    Covers n (nodeIndex d p) l ↔ l / 2 ^ (n - d) = p := by
  constructor
  · rintro ⟨e, he, h⟩
    obtain ⟨rfl, rfl⟩ := nodeIndex_inj hp (div_pow_lt hl he) h
    rfl
  · rintro rfl
    exact ⟨d, hd, rfl⟩

theorem Covers.lt (hl : l < 2 ^ n) (h : Covers n i l) : i < 2 ^ (n + 1) - 1 := by
  obtain ⟨d, hd, rfl⟩ := h
  exact nodeIndex_lt (div_pow_lt hl hd) hd

theorem Covers.parent (h : Covers n i l) (hi : i ≠ 0) (hl : l < 2 ^ n) :
    Covers n ((i - 1) / 2) l := by
  obtain ⟨d, hd, rfl⟩ := h
  cases d with
  | zero =>
    rw [nodeIndex_zero, Nat.sub_zero, Nat.div_eq_of_lt hl] at hi
    exact absurd rfl hi
  | succ d =>
    refine ⟨d, by omega, ?_⟩
    rw [parent_nodeIndex, Nat.div_div_eq_div_mul, ← pow_succ]
    congr 3
    omega

/-- The siblings of a node above a leaf are not above it. -/
theorem Covers.not_sibling (h : Covers n i l) (hl : l < 2 ^ n) :
    (i % 2 = 0 → i ≠ 0 → ¬ Covers n (i - 1) l) ∧ (i % 2 = 1 → ¬ Covers n (i + 1) l) := by
  obtain ⟨d, hd, rfl⟩ := h
  have hlt := div_pow_lt hl hd
  cases d with
  | zero =>
    simp only [Nat.sub_zero, Nat.div_eq_of_lt hl]
    exact ⟨fun _ h => absurd rfl h, nofun⟩
  | succ d =>
    have hpow : 2 ^ (d + 1) = 2 * 2 ^ d := pow_succ' 2 d
    constructor
    · intro heven _ hsib
      rw [nodeIndex_mod_two] at heven
      rw [nodeIndex_sub_one heven, covers_nodeIndex hd (by omega) hl] at hsib
      omega
    · intro hodd hsib
      have heven := (not_congr (nodeIndex_mod_two d (l / 2 ^ (n - (d + 1))))).1 (by omega)
      rw [nodeIndex_succ (by omega), covers_nodeIndex hd (by omega) hl] at hsib
      omega

end Covers

/-! ### The nodes -/

section Nodes

variable {α : Type*} (h : α → α → α) (z : α)

/-- The node with number `i` of the tree over `2 ^ n` leaves. -/
def completeNode (n : ℕ) (f : ℕ → α) (i : ℕ) : α :=
  if i < 2 ^ (n + 1) - 1 then
    (layer h)^[n - Nat.log 2 (i + 1)] f (i + 1 - 2 ^ Nat.log 2 (i + 1))
  else z

variable {h z}

theorem completeNode_nodeIndex {n d p : ℕ} (hd : d ≤ n) (hp : p < 2 ^ d) (f : ℕ → α) :
    completeNode h z n f (nodeIndex d p) = (layer h)^[n - d] f p := by
  rw [completeNode, if_pos (nodeIndex_lt hp hd), log_nodeIndex hp, nodeIndex_add_one,
    Nat.add_sub_cancel_left]

theorem completeNode_of_le {n i : ℕ} (hi : 2 ^ (n + 1) - 1 ≤ i) (f : ℕ → α) :
    completeNode h z n f i = z := if_neg (by omega)

theorem completeNode_zero (n : ℕ) (f : ℕ → α) :
    completeNode h z n f 0 = treeRoot h n f := by
  have := completeNode_nodeIndex (h := h) (z := z) (Nat.zero_le n) (p := 0) (by simp) f
  rw [nodeIndex_zero, Nat.sub_zero, iterate_layer_apply] at this
  simpa using this

/-- A node is the hash of its children. -/
theorem iterate_layer_succ (m : ℕ) (f : ℕ → α) (p : ℕ) :
    (layer h)^[m + 1] f p = h ((layer h)^[m] f (2 * p)) ((layer h)^[m] f (2 * p + 1)) := by
  rw [Function.iterate_succ_apply']
  rfl

/-- A node depends on the leaves below it. -/
theorem iterate_layer_congr {m : ℕ} {f g : ℕ → α} {p : ℕ}
    (hfg : ∀ i, i / 2 ^ m = p → f i = g i) : (layer h)^[m] f p = (layer h)^[m] g p := by
  rw [iterate_layer_apply, iterate_layer_apply]
  refine treeRoot_congr fun i hi => hfg _ ?_
  rw [Nat.mul_add_div (Nat.two_pow_pos m), Nat.div_eq_of_lt hi, Nat.add_zero]

theorem iterate_layer_const (hz : h z z = z) (m p : ℕ) : (layer h)^[m] (fun _ => z) p = z := by
  induction m generalizing p with
  | zero => rfl
  | succ m ih => rw [iterate_layer_succ, ih, ih, hz]

theorem completeNode_const (hz : h z z = z) (n i : ℕ) :
    completeNode h z n (fun _ => z) i = z := by
  rw [completeNode]
  split_ifs
  · exact iterate_layer_const hz _ _
  · rfl

/-- A node depends on the leaves that it covers. -/
theorem completeNode_congr {n i : ℕ} {f g : ℕ → α} (hfg : ∀ l < 2 ^ n, Covers n i l → f l = g l) :
    completeNode h z n f i = completeNode h z n g i := by
  by_cases hi : i < 2 ^ (n + 1) - 1
  · obtain ⟨d, p, hd, hp, rfl⟩ := exists_nodeIndex_of_lt hi
    rw [completeNode_nodeIndex hd hp, completeNode_nodeIndex hd hp]
    refine iterate_layer_congr fun l hl => hfg l ?_ ?_
    · have hlt : l / 2 ^ (n - d) < 2 ^ d := hl ▸ hp
      rwa [Nat.div_lt_iff_lt_mul (Nat.two_pow_pos _), ← pow_add, Nat.add_sub_cancel' hd] at hlt
    · exact ⟨d, hd, by rw [hl]⟩
  · rw [completeNode_of_le (by omega), completeNode_of_le (by omega)]

theorem completeNode_child {n i : ℕ} (hi : i < 2 ^ n - 1) (f : ℕ → α) :
    completeNode h z n f i =
      h (completeNode h z n f (2 * i + 1)) (completeNode h z n f (2 * i + 2)) := by
  cases n with
  | zero => simp at hi
  | succ n =>
    obtain ⟨d, p, hd, hp, rfl⟩ := exists_nodeIndex_of_lt hi
    have hl : 2 * nodeIndex d p + 1 = nodeIndex (d + 1) (2 * p) := by
      rw [← two_mul_nodeIndex, Nat.mul_comm]
    have hr : 2 * nodeIndex d p + 2 = nodeIndex (d + 1) (2 * p + 1) := by
      rw [show 2 * nodeIndex d p + 2 = 2 * nodeIndex d p + 1 + 1 from rfl, hl]
      rfl
    have hpow : 2 ^ (d + 1) = 2 * 2 ^ d := pow_succ' 2 d
    rw [hl, hr, completeNode_nodeIndex (by omega) hp, completeNode_nodeIndex (by omega) (by omega),
      completeNode_nodeIndex (by omega) (by omega),
      show n + 1 - d = n + 1 - (d + 1) + 1 by omega, iterate_layer_succ]

end Nodes

end Merkle

end Nightfall
