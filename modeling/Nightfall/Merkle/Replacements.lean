import Nightfall.Merkle.Tree

/-!
# Replacing leaves one after the other

Who holds the root of a tree only can follow changes of its leaves by paths: a path along which the
old leaf leads to the old root leads from the new leaf to the new root.  A chain of such replacements
turns the root of a tree into the root of the tree with the leaves replaced
(`ReplacementChain.treeRoot_eq`), and each replacement names the leaf that was there.

Where every leaf that is replaced is empty, nothing is ever lost: the other leaves stay, and so do the
new ones (`Replaces.keep`, `Replaces.hold`).
-/

namespace Nightfall

namespace Merkle

variable {α : Type*}

/-- The replacement of the leaf at the start of a path. -/
structure Replacement (α : Type*) where
  path : List (PathElement α)
  old : α
  new : α
  deriving DecidableEq

namespace Replacement

variable (h : α → α → α)

/-- The root before the replacement. -/
def oldRoot (r : Replacement α) : α := foldPath h r.path r.old

/-- The root after the replacement. -/
def newRoot (r : Replacement α) : α := foldPath h r.path r.new

/-- The pairs hashed along the path. -/
def pairs (r : Replacement α) : Set (α × α) := pathPairs h r.path r.old ∪ pathPairs h r.path r.new

/-- The index of the leaf. -/
def index (r : Replacement α) : ℕ := pathIndex r.path

end Replacement

variable (h : α → α → α)

/-- Replacements in trees of height `n` that lead from `root` to `last`. -/
def ReplacementChain (n : ℕ) : α → List (Replacement α) → α → Prop
  | root, [], last => root = last
  | root, r :: rs, last =>
    r.path.length = n ∧ r.oldRoot h = root ∧ ReplacementChain n (r.newRoot h) rs last

/-- The leaves after the replacements. -/
def replaced (f : ℕ → α) (rs : List (Replacement α)) : ℕ → α :=
  rs.foldl (fun g r => Function.update g r.index r.new) f

/-- Each replacement finds its old leaf. -/
def Replaces : (ℕ → α) → List (Replacement α) → Prop
  | _, [] => True
  | f, r :: rs => f r.index = r.old ∧ Replaces (Function.update f r.index r.new) rs

variable {h} {n : ℕ} {f : ℕ → α} {rs rs' : List (Replacement α)} {root mid last : α}

@[simp] theorem replaced_nil : replaced f [] = f := rfl

@[simp] theorem replaced_cons (r : Replacement α) :
    replaced f (r :: rs) = replaced (Function.update f r.index r.new) rs := rfl

theorem ReplacementChain.append (hrs : ReplacementChain h n root rs mid)
    (hrs' : ReplacementChain h n mid rs' last) : ReplacementChain h n root (rs ++ rs') last := by
  induction rs generalizing root with
  | nil =>
    cases hrs
    exact hrs'
  | cons r rs ih => exact ⟨hrs.1, hrs.2.1, ih hrs.2.2⟩

/-! ### Roots -/

/-- **A chain of replacements leads to the root of the tree with the leaves replaced.** -/
theorem ReplacementChain.treeRoot_eq {D : Set (α × α)} (hD : CollisionFree h D)
    (hf : treePairs h n f ⊆ D) (hrs : ∀ r ∈ rs, r.pairs h ⊆ D)
    (hchain : ReplacementChain h n (treeRoot h n f) rs last) :
    last = treeRoot h n (replaced f rs) ∧ Replaces f rs ∧ treePairs h n (replaced f rs) ⊆ D := by
  induction rs generalizing f with
  | nil => exact ⟨hchain.symm, trivial, hf⟩
  | cons r rs ih =>
    obtain ⟨rfl, hold, hchain⟩ := hchain
    obtain ⟨hr, hrs⟩ := List.forall_mem_cons.1 hrs
    obtain ⟨hpold, hpnew⟩ := Set.union_subset_iff.1 hr
    -- the path starts at the old leaf, and leads from the new one to the new root
    have hleaf : r.old = f r.index := eq_of_foldPath hD hf hpold hold
    obtain ⟨hnew, hpairs⟩ := foldPath_update hD hf hpold hold r.new
    have hf' := hpairs.trans (Set.union_subset hf hpnew)
    rw [Replacement.newRoot, hnew] at hchain
    obtain ⟨hlast, hreplaces, hD'⟩ := ih hf' hrs hchain
    exact ⟨hlast, ⟨hleaf.symm, hreplaces⟩, hD'⟩

/-! ### Empty leaves -/

section Empty

variable {e : α}

/-- **A leaf that is not empty stays.** -/
theorem Replaces.keep (hrs : Replaces f rs) (hempty : ∀ r ∈ rs, r.old = e) {i : ℕ} (hi : f i ≠ e) :
    replaced f rs i = f i := by
  induction rs generalizing f with
  | nil => rfl
  | cons r rs ih =>
    obtain ⟨hr, hempty⟩ := List.forall_mem_cons.1 hempty
    have hne : i ≠ r.index := by
      rintro rfl
      exact hi (hrs.1.trans hr)
    have hsame : Function.update f r.index r.new i = f i := Function.update_of_ne hne _ _
    rw [replaced_cons, ih hrs.2 hempty (hsame ▸ hi), hsame]

/-- **A new leaf that is not empty stays.** -/
theorem Replaces.hold (hrs : Replaces f rs) (hempty : ∀ r ∈ rs, r.old = e) {r : Replacement α}
    (hr : r ∈ rs) (hnew : r.new ≠ e) : replaced f rs r.index = r.new := by
  induction rs generalizing f with
  | nil => cases hr
  | cons r' rs ih =>
    have hrest := (List.forall_mem_cons.1 hempty).2
    rw [replaced_cons]
    rcases List.mem_cons.1 hr with rfl | hr
    · have hself : Function.update f r.index r.new r.index = r.new := Function.update_self ..
      rw [hrs.2.keep hrest (hself.symm ▸ hnew), hself]
    · exact ih hrs.2 hrest hr

end Empty

end Merkle

end Nightfall
