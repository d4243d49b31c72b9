import Nightfall.Merkle.Tree
import Mathlib.Data.Nat.Log

/-!
# Folding an array in place

A program can compute the root of a tree in the array that holds the leaves: round after round it
stores the hash of entries `2 i` and `2 i + 1` in entry `i`, for `i` below half the current
length, and then halves the length.

* `foldRounds_zero` : what is left in entry 0 is the root over the first `2 ^ log₂ n` entries.
  A round over an odd length leaves its last entry out, so for other lengths than powers of two
  the root does not depend on all entries;
* `foldPairs` : the pairs that the rounds hash, those of the tree among them.
-/

namespace Nightfall

namespace Merkle

variable {α : Type*} (h : α → α → α)

/-- One round: entry `i` becomes the hash of entries `2 i` and `2 i + 1`, for `i < half`. -/
def foldRound (half : ℕ) (f : ℕ → α) : ℕ → α :=
  (List.range half).foldl (fun g i => Function.update g i (h (g (2 * i)) (g (2 * i + 1)))) f

/-- All rounds for an array of length `n`. -/
def foldRounds (n : ℕ) (f : ℕ → α) : ℕ → α :=
  if 1 < n then foldRounds (n / 2) (foldRound h (n / 2) f) else f
termination_by n

/-- The pairs hashed in all rounds. -/
def foldPairs (n : ℕ) (f : ℕ → α) : Set (α × α) :=
  if 1 < n then {q | ∃ i < n / 2, q = (f (2 * i), f (2 * i + 1))} ∪ foldPairs (n / 2) (layer h f)
  else ∅
termination_by n

variable {h}

/-- The entries below `half` become those of the row above; the entry written in a step is not
read again in the round. -/
theorem foldRound_apply (half : ℕ) (f : ℕ → α) (i : ℕ) :
    foldRound h half f i = if i < half then layer h f i else f i := by
  induction half generalizing i with
  | zero => simp [foldRound]
  | succ half ih =>
    have hstep : foldRound h (half + 1) f = Function.update (foldRound h half f) half
        (h (foldRound h half f (2 * half)) (foldRound h half f (2 * half + 1))) := by
      rw [foldRound, List.range_succ, List.foldl_append]
      rfl
    rw [hstep]
    by_cases hi : i = half
    · subst hi
      rw [Function.update_self, if_pos (Nat.lt_succ_self i), layer, ih, ih]
      rcases Nat.eq_zero_or_pos i with rfl | hpos
      · simp
      · rw [if_neg (by omega), if_neg (by omega)]
    · rw [Function.update_of_ne hi, ih]
      simp only [Nat.lt_succ_iff_lt_or_eq, hi, or_false]

theorem foldRounds_of_le {n : ℕ} (hn : n ≤ 1) (f : ℕ → α) : foldRounds h n f = f := by
  rw [foldRounds, if_neg (by omega)]

theorem foldRounds_of_lt {n : ℕ} (hn : 1 < n) (f : ℕ → α) :
    foldRounds h n f = foldRounds h (n / 2) (foldRound h (n / 2) f) := by
  rw [foldRounds, if_pos hn]

theorem foldPairs_of_lt {n : ℕ} (hn : 1 < n) (f : ℕ → α) :
    foldPairs h n f =
      {q | ∃ i < n / 2, q = (f (2 * i), f (2 * i + 1))} ∪ foldPairs h (n / 2) (layer h f) := by
  rw [foldPairs, if_pos hn]

theorem foldPairs_of_le {n : ℕ} (hn : n ≤ 1) (f : ℕ → α) : foldPairs h n f = ∅ := by
  rw [foldPairs, if_neg (by omega)]

/-- The length is halved once for each layer of the tree. -/
theorem log_of_one_lt {n : ℕ} (hn : 1 < n) : Nat.log 2 n = Nat.log 2 (n / 2) + 1 :=
  Nat.log_of_one_lt_of_le one_lt_two hn

theorem pow_log_le {n : ℕ} (hn : 0 < n) : 2 ^ Nat.log 2 n ≤ n := Nat.pow_log_le_self 2 hn.ne'

/-- **What the rounds compute**: the root over the first `2 ^ log₂ n` entries. -/
theorem foldRounds_zero {n : ℕ} (hn : 0 < n) (f : ℕ → α) :
    foldRounds h n f 0 = treeRoot h (Nat.log 2 n) f := by
  induction n using Nat.strong_induction_on generalizing f with
  | _ n ih =>
    by_cases h1 : 1 < n
    · have hhalf : 0 < n / 2 := Nat.div_pos h1 two_pos
      rw [foldRounds_of_lt h1, ih (n / 2) (Nat.div_lt_self hn one_lt_two) hhalf, log_of_one_lt h1,
        treeRoot]
      refine treeRoot_congr fun i hi => ?_
      rw [foldRound_apply, if_pos (hi.trans_le (pow_log_le hhalf))]
    · obtain rfl : n = 1 := by omega
      rw [foldRounds_of_le le_rfl, Nat.log_one_right, treeRoot]

theorem treePairs_subset_foldPairs {n : ℕ} (hn : 0 < n) (f : ℕ → α) :
    treePairs h (Nat.log 2 n) f ⊆ foldPairs h n f := by
  induction n using Nat.strong_induction_on generalizing f with
  | _ n ih =>
    by_cases h1 : 1 < n
    · have hhalf : 0 < n / 2 := Nat.div_pos h1 two_pos
      rw [log_of_one_lt h1, treePairs, foldPairs_of_lt h1]
      refine Set.union_subset_union ?_ (ih (n / 2) (Nat.div_lt_self hn one_lt_two) hhalf _)
      rintro q ⟨i, hi, rfl⟩
      exact ⟨i, hi.trans_le (pow_log_le hhalf), rfl⟩
    · obtain rfl : n = 1 := by omega
      exact Set.empty_subset _

/-- Entries that the tree does not reach do not matter. -/
theorem foldRounds_congr {n : ℕ} (hn : 0 < n) {f g : ℕ → α}
    (hfg : ∀ i < 2 ^ Nat.log 2 n, f i = g i) : foldRounds h n f 0 = foldRounds h n g 0 := by
  rw [foldRounds_zero hn, foldRounds_zero hn, treeRoot_congr hfg]

end Merkle

end Nightfall
