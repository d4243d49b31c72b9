import Mathlib.Data.Set.Function
import Mathlib.Logic.Function.Iterate
import Mathlib.Tactic.Ring

/-!
# Binary hash trees

Trees over an arbitrary compression function `h : α → α → α`.  The leaves are a function
`f : ℕ → α`; `layer h f` is the row above them and `treeRoot h n f` the root over the first
`2 ^ n` leaves, computed row by row as the programs that build such trees do.

A compression function with a finite codomain has collisions, so every result that needs there
to be none takes a set `D` on which `h` is injective (`CollisionFree`) and asks that the pairs it
hashes lie in `D`:

* `treeRoot_inj` : equal roots have equal leaves;
* `eq_of_foldPath` : a path that leads from `x` to the root starts at the leaf with its index;
* `foldPath_update` : the same path then leads from `y` to the root of the tree with `y` there.
-/

namespace Nightfall

namespace Merkle

variable {α : Type*} (h : α → α → α)

/-- The row above `f`. -/
def layer (f : ℕ → α) (i : ℕ) : α := h (f (2 * i)) (f (2 * i + 1))

/-- The root over the first `2 ^ n` leaves. -/
def treeRoot : ℕ → (ℕ → α) → α
  | 0, f => f 0
  | n + 1, f => treeRoot n (layer h f)

/-- The pairs hashed for the root over the first `2 ^ n` leaves. -/
def treePairs : ℕ → (ℕ → α) → Set (α × α)
  | 0, _ => ∅
  | n + 1, f => {q | ∃ i < 2 ^ n, q = (f (2 * i), f (2 * i + 1))} ∪ treePairs n (layer h f)

/-- `h` has no collision among the pairs in `D`. -/
def CollisionFree (D : Set (α × α)) : Prop := Set.InjOn (fun q => h q.1 q.2) D

variable {h}

theorem CollisionFree.eq {D : Set (α × α)} (hD : CollisionFree h D) {a b c d : α}
    (hab : (a, b) ∈ D) (hcd : (c, d) ∈ D) (he : h a b = h c d) : a = c ∧ b = d :=
  Prod.mk.inj (hD hab hcd he)

/-! ### Roots -/

theorem layer_congr {f g : ℕ → α} {n : ℕ} (hfg : ∀ i < 2 ^ (n + 1), f i = g i) :
    ∀ i < 2 ^ n, layer h f i = layer h g i := by
  intro i hi
  rw [pow_succ] at hfg
  rw [layer, layer, hfg _ (by omega), hfg _ (by omega)]

theorem treeRoot_congr {f g : ℕ → α} {n : ℕ} (hfg : ∀ i < 2 ^ n, f i = g i) :
    treeRoot h n f = treeRoot h n g := by
  induction n generalizing f g with
  | zero => exact hfg 0 (by simp)
  | succ n ih => exact ih (layer_congr hfg)

theorem layer_shift (f : ℕ → α) (k : ℕ) :
    layer h (fun i => f (2 * k + i)) = fun i => layer h f (k + i) := by
  funext i
  simp only [layer]
  congr 2 <;> ring

/-- The two halves of a tree. -/
theorem treeRoot_succ (n : ℕ) (f : ℕ → α) :
    treeRoot h (n + 1) f = h (treeRoot h n f) (treeRoot h n fun i => f (2 ^ n + i)) := by
  induction n generalizing f with
  | zero => rfl
  | succ n ih =>
    rw [treeRoot, ih]
    simp only [treeRoot]
    rw [pow_succ', layer_shift]

theorem treeRoot_add (m n : ℕ) (f : ℕ → α) :
    treeRoot h (m + n) f = treeRoot h n ((layer h)^[m] f) := by
  induction m generalizing f with
  | zero => rw [Nat.zero_add]; rfl
  | succ m ih => rw [show m + 1 + n = m + n + 1 by omega, treeRoot, ih]; rfl

theorem iterate_layer_apply (m : ℕ) (f : ℕ → α) (i : ℕ) :
    (layer h)^[m] f i = treeRoot h m fun j => f (2 ^ m * i + j) := by
  induction m generalizing f with
  | zero => simp [treeRoot]
  | succ m ih =>
    rw [Function.iterate_succ_apply, ih, treeRoot]
    congr 1
    funext j
    simp only [layer, pow_succ']
    congr 2 <;> ring

theorem treeRoot_inj {D : Set (α × α)} (hD : CollisionFree h D) {n : ℕ} {f g : ℕ → α}
    (hf : treePairs h n f ⊆ D) (hg : treePairs h n g ⊆ D)
    (he : treeRoot h n f = treeRoot h n g) : ∀ i < 2 ^ n, f i = g i := by
  induction n generalizing f g with
  | zero =>
    intro i hi
    obtain rfl : i = 0 := by simpa using hi
    exact he
  | succ n ih =>
    obtain ⟨hf₁, hf₂⟩ := Set.union_subset_iff.1 hf
    obtain ⟨hg₁, hg₂⟩ := Set.union_subset_iff.1 hg
    intro i hi
    have hi' : i / 2 < 2 ^ n := by rw [pow_succ] at hi; omega
    obtain ⟨h0, h1⟩ := hD.eq (hf₁ ⟨_, hi', rfl⟩) (hg₁ ⟨_, hi', rfl⟩) (ih hf₂ hg₂ he _ hi')
    rcases Nat.even_or_odd' i with ⟨j, rfl | rfl⟩
    · rwa [Nat.mul_div_cancel_left j two_pos] at h0
    · rwa [show (2 * j + 1) / 2 = j by omega] at h1

/-! ### Paths -/

/-- One step of a path to the root: the sibling, and whether it is the left child. -/
structure PathElement (α : Type*) where
  /-- The sibling is the left child. -/
  left : Bool
  /-- The sibling. -/
  value : α
  deriving DecidableEq, Repr

/-- The children of the node above `x`. -/
def PathElement.pair (e : PathElement α) (x : α) : α × α :=
  if e.left then (e.value, x) else (x, e.value)

variable (h) in
/-- The node that a path, listed from the leaf upwards, leads to from `x`. -/
def foldPath : List (PathElement α) → α → α
  | [], x => x
  | e :: p, x => foldPath p (h (e.pair x).1 (e.pair x).2)

variable (h) in
/-- The pairs hashed along a path. -/
def pathPairs : List (PathElement α) → α → Set (α × α)
  | [], _ => ∅
  | e :: p, x => insert (e.pair x) (pathPairs p (h (e.pair x).1 (e.pair x).2))

/-- The index of the leaf at which a path starts. -/
def pathIndex : List (PathElement α) → ℕ
  | [] => 0
  | e :: p => 2 * pathIndex p + if e.left then 1 else 0

theorem pathIndex_lt (p : List (PathElement α)) : pathIndex p < 2 ^ p.length := by
  induction p with
  | nil => simp [pathIndex]
  | cons e p ih =>
    rw [pathIndex, List.length_cons, pow_succ]
    split_ifs <;> omega

/-- At the node above it, a path with the siblings of the tree sees the children of the tree. -/
theorem pair_eq_iff {e : PathElement α} {x : α} {f : ℕ → α} {i : ℕ} :
    e.pair x = (f (2 * i), f (2 * i + 1)) ↔
      x = f (2 * i + if e.left then 1 else 0) ∧ e.value = f (2 * i + if e.left then 0 else 1) := by
  unfold PathElement.pair
  cases e.left <;> simp [Prod.ext_iff, and_comm]

/-- The children of a node after the replacement of one of them. -/
theorem pair_update {e : PathElement α} {f : ℕ → α} {i : ℕ}
    (hsib : e.value = f (2 * i + if e.left then 0 else 1)) (y : α) :
    e.pair y = (Function.update f (2 * i + if e.left then 1 else 0) y (2 * i),
      Function.update f (2 * i + if e.left then 1 else 0) y (2 * i + 1)) := by
  refine pair_eq_iff.2 ⟨by rw [Function.update_self], ?_⟩
  rw [Function.update_of_ne, hsib]
  split_ifs <;> omega

/-- The children of the other nodes are unchanged. -/
theorem children_update {e : PathElement α} {f : ℕ → α} {i j : ℕ} (hj : j ≠ i) (y : α) :
    (Function.update f (2 * i + if e.left then 1 else 0) y (2 * j),
      Function.update f (2 * i + if e.left then 1 else 0) y (2 * j + 1)) =
        (f (2 * j), f (2 * j + 1)) := by
  rw [Function.update_of_ne, Function.update_of_ne] <;> split_ifs <;> omega

theorem layer_update {e : PathElement α} {f : ℕ → α} {i : ℕ} {y : α}
    (hy : e.pair y = (Function.update f (2 * i + if e.left then 1 else 0) y (2 * i),
      Function.update f (2 * i + if e.left then 1 else 0) y (2 * i + 1))) :
    layer h (Function.update f (2 * i + if e.left then 1 else 0) y) =
      Function.update (layer h f) i (h (e.pair y).1 (e.pair y).2) := by
  funext j
  by_cases hj : j = i
  · subst hj
    rw [Function.update_self, hy]
    rfl
  · obtain ⟨h0, h1⟩ := Prod.mk.inj (children_update (e := e) (f := f) hj y)
    rw [Function.update_of_ne hj, layer, layer, h0, h1]

section CollisionFree

variable {D : Set (α × α)} (hD : CollisionFree h D)

include hD

/-- The step of the results on paths: the last pair that the path hashes is the pair of the tree
at its index. -/
theorem pair_eq_of_foldPath {e : PathElement α} {p : List (PathElement α)} {x : α} {f : ℕ → α}
    (hf : treePairs h (p.length + 1) f ⊆ D) (hp : e.pair x ∈ D)
    (he : h (e.pair x).1 (e.pair x).2 = layer h f (pathIndex p)) :
    e.pair x = (f (2 * pathIndex p), f (2 * pathIndex p + 1)) :=
  hD hp (hf (Or.inl ⟨_, pathIndex_lt p, rfl⟩)) he

/-- **A path to the root starts at the leaf with its index.** -/
theorem eq_of_foldPath {p : List (PathElement α)} {x : α} {f : ℕ → α}
    (hf : treePairs h p.length f ⊆ D) (hp : pathPairs h p x ⊆ D)
    (he : foldPath h p x = treeRoot h p.length f) : x = f (pathIndex p) := by
  induction p generalizing x f with
  | nil => exact he
  | cons e p ih =>
    obtain ⟨hpx, hp'⟩ := Set.insert_subset_iff.1 hp
    have := ih (Set.union_subset_iff.1 hf).2 hp' he
    exact (pair_eq_iff.1 (pair_eq_of_foldPath hD hf hpx this)).1

/-- **Replacing the leaf at the start of a path.** -/
theorem foldPath_update {p : List (PathElement α)} {x : α} {f : ℕ → α}
    (hf : treePairs h p.length f ⊆ D) (hp : pathPairs h p x ⊆ D)
    (he : foldPath h p x = treeRoot h p.length f) (y : α) :
    foldPath h p y = treeRoot h p.length (Function.update f (pathIndex p) y) ∧
      treePairs h p.length (Function.update f (pathIndex p) y) ⊆
        treePairs h p.length f ∪ pathPairs h p y := by
  induction p generalizing x y f with
  | nil => exact ⟨by simp [foldPath, treeRoot, pathIndex], Set.empty_subset _⟩
  | cons e p ih =>
    obtain ⟨hpx, hp'⟩ := Set.insert_subset_iff.1 hp
    have hx := eq_of_foldPath hD (Set.union_subset_iff.1 hf).2 hp' he
    have hsib := (pair_eq_iff.1 (pair_eq_of_foldPath hD hf hpx hx)).2
    have hnew := pair_update (e := e) (i := pathIndex p) hsib y
    obtain ⟨ih₁, ih₂⟩ := ih (Set.union_subset_iff.1 hf).2 hp' he (h (e.pair y).1 (e.pair y).2)
    rw [← layer_update hnew] at ih₁ ih₂
    refine ⟨ih₁, Set.union_subset ?_ (ih₂.trans ?_)⟩
    · rintro q ⟨i, hi, rfl⟩
      by_cases hip : i = pathIndex p
      · subst hip
        exact Or.inr (Or.inl hnew.symm)
      · exact Or.inl (Or.inl ⟨i, hi, children_update hip y⟩)
    · exact Set.union_subset_union Set.subset_union_right (Set.subset_insert _ _)

end CollisionFree

end Merkle

end Nightfall
