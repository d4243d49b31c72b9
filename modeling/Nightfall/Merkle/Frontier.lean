import Mathlib.Data.Nat.Log
import Nightfall.Merkle.NodeIndex

/-!
# Frontiers of hash trees

A tree that only grows is determined by a few of its nodes: on every level the last complete
sub-tree that is a left child (`lastLeft`).  Going up from leaf `n`, the sub-tree on the left of the
path is that of the frontier, and what is on the right is empty (`iterate_layer_path`).  Leaf `n`
changes the frontier on one level only, that of the trailing one bits of `n` (`lastLeft_succ`).
-/

namespace Nightfall

namespace Merkle

variable {α : Type*} (h : α → α → α) (z : α)

/-- The first `n` leaves, and `z` for the others. -/
def firstLeaves (f : ℕ → α) (n i : ℕ) : α := if i < n then f i else z

/-- The root of the last complete sub-tree of level `l` over the first `n` leaves that is a left
child, `z` if there is none. -/
def lastLeft (f : ℕ → α) (n l : ℕ) : α :=
  if 2 ^ l ≤ n then (layer h)^[l] f (2 * ((n / 2 ^ l - 1) / 2)) else z

variable {h z} {f g : ℕ → α} {n l p e : ℕ}

/-! ### Complete and empty sub-trees -/

theorem iterate_layer_firstLeaves (hp : (p + 1) * 2 ^ l ≤ n) :
    (layer h)^[l] (firstLeaves z f n) p = (layer h)^[l] f p := by
  refine iterate_layer_congr fun i hi => if_pos ?_
  have hlt : i / 2 ^ l < p + 1 := by omega
  exact ((Nat.div_lt_iff_lt_mul (Nat.two_pow_pos l)).1 hlt).trans_le hp

theorem iterate_layer_firstLeaves_of_le (hz : h z z = z) (hp : n ≤ p * 2 ^ l) :
    (layer h)^[l] (firstLeaves z f n) p = z := by
  have hconst : (layer h)^[l] (firstLeaves z f n) p = (layer h)^[l] (fun _ => z) p := by
    refine iterate_layer_congr fun i hi => if_neg ?_
    have hle := (Nat.le_div_iff_mul_le (Nat.two_pow_pos l)).1 hi.ge
    omega
  rw [hconst, iterate_layer_const hz]

/-- The frontier depends on the leaves that are there. -/
theorem lastLeft_congr (hfg : ∀ i < n, f i = g i) : lastLeft h z f n l = lastLeft h z g n l := by
  unfold lastLeft
  split_ifs with hl
  · have hpos := Nat.div_pos hl (Nat.two_pow_pos l)
    refine iterate_layer_congr fun i hi => hfg i ?_
    have hlt : i / 2 ^ l < n / 2 ^ l := by omega
    exact ((Nat.div_lt_iff_lt_mul (Nat.two_pow_pos l)).1 hlt).trans_le (Nat.div_mul_le_self n _)
  · rfl

/-! ### The path of a new leaf -/

/-- One step up from leaf `n`, the last one. -/
theorem iterate_layer_path (hz : h z z = z) (f : ℕ → α) (n l : ℕ) :
    (layer h)^[l + 1] (firstLeaves z f (n + 1)) (n / 2 ^ (l + 1)) =
      if n / 2 ^ l % 2 = 1 then
        h (lastLeft h z f n l) ((layer h)^[l] (firstLeaves z f (n + 1)) (n / 2 ^ l))
      else h ((layer h)^[l] (firstLeaves z f (n + 1)) (n / 2 ^ l)) z := by
  have hdiv : n / 2 ^ (l + 1) = n / 2 ^ l / 2 := by rw [Nat.div_div_eq_div_mul, pow_succ]
  have hle := Nat.div_mul_le_self n (2 ^ l)
  rw [iterate_layer_succ, hdiv]
  split_ifs with hodd
  · -- the sub-tree on the left is complete
    have hleft : 2 * (n / 2 ^ l / 2) = n / 2 ^ l - 1 := by omega
    have hright : 2 * (n / 2 ^ l / 2) + 1 = n / 2 ^ l := by omega
    have hpow : 2 ^ l ≤ n := by
      by_contra hlt
      rw [Nat.div_eq_of_lt (by omega)] at hodd
      omega
    have hpos : 2 * ((n / 2 ^ l - 1) / 2) = n / 2 ^ l - 1 := by omega
    rw [hright, hleft, lastLeft, if_pos hpow, hpos, iterate_layer_firstLeaves]
    rw [Nat.sub_add_cancel (by omega)]
    omega
  · -- the sub-tree on the right is empty
    have hleft : 2 * (n / 2 ^ l / 2) = n / 2 ^ l := by omega
    have hlt := Nat.lt_mul_div_succ n (Nat.two_pow_pos l)
    rw [hleft, iterate_layer_firstLeaves_of_le (p := n / 2 ^ l + 1) hz]
    rw [Nat.mul_comm]
    exact hlt

/-- **A new leaf** completes the sub-tree of level `e` that ends with it, a left child; on the other
levels the last left sub-tree stays. -/
theorem lastLeft_succ (he : 2 ^ e ∣ n + 1) (he' : ¬2 ^ (e + 1) ∣ n + 1) (f : ℕ → α) (l : ℕ) :
    lastLeft h z f (n + 1) l =
      if l = e then (layer h)^[e] f (n / 2 ^ e) else lastLeft h z f n l := by
  by_cases hdvd : 2 ^ l ∣ n + 1
  · have hdiv : (n + 1) / 2 ^ l = n / 2 ^ l + 1 := Nat.succ_div_of_dvd hdvd
    have hle : 2 ^ l ≤ n + 1 := Nat.le_of_dvd (Nat.succ_pos n) hdvd
    have heven : 2 ^ (l + 1) ∣ n + 1 ↔ (n / 2 ^ l + 1) % 2 = 0 := by
      rw [← hdiv, pow_succ, ← Nat.dvd_iff_mod_eq_zero, Nat.dvd_div_iff_mul_dvd hdvd]
    by_cases hl : l = e
    · subst hl
      have hpos : 2 * ((n / 2 ^ l + 1 - 1) / 2) = n / 2 ^ l := by
        have hodd := mt heven.2 he'
        generalize n / 2 ^ l = m at hodd ⊢
        omega
      rw [if_pos rfl, lastLeft, if_pos hle, hdiv, hpos]
    · -- a right child: its sibling is still the last left one
      have hlt : l < e := by
        by_contra hge
        exact he' ((pow_dvd_pow 2 (by omega)).trans hdvd)
      have hmod := heven.1 ((pow_dvd_pow 2 hlt).trans he)
      have hn : 2 ^ l ≤ n := by
        by_contra hgt
        have hnone : n / 2 ^ l = 0 := Nat.div_eq_of_lt (not_le.1 hgt)
        rw [hnone] at hmod
        omega
      have hpos : (n / 2 ^ l + 1 - 1) / 2 = (n / 2 ^ l - 1) / 2 := by omega
      rw [if_neg hl, lastLeft, lastLeft, if_pos hle, if_pos hn, hdiv, hpos]
  · have hdiv : (n + 1) / 2 ^ l = n / 2 ^ l := Nat.succ_div_of_not_dvd hdvd
    have hl : l ≠ e := by
      rintro rfl
      exact hdvd he
    have hle : 2 ^ l ≤ n + 1 ↔ 2 ^ l ≤ n := by
      constructor
      · intro hle
        by_contra hgt
        exact hdvd (by rw [show n + 1 = 2 ^ l by omega])
      · omega
    simp only [if_neg hl, lastLeft, hle, hdiv]

theorem lastLeft_zero : lastLeft h z f 0 l = z := if_neg (Nat.two_pow_pos l).not_ge

end Merkle

end Nightfall
