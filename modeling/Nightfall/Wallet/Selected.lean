import Nightfall.Client.Conservation
import Nightfall.Evm.Revert
import Nightfall.Wallet.Requests

/-!
# What is selected

The selection takes one unspent commitment or two of the token (`usableCommitments_sublist`).  If the
values are below `2 ^ 96` and there are not more commitments than leaves in a tree, what it takes is
enough: one commitment that covers the value, or two that only cover it together
(`usableCommitments_covers`).
-/

namespace Nightfall

namespace Wallet

open Node Stateful
open Client (val_add_of_lt)
open Evm (bind_eq_ok)

/-! ### Enough commitments -/

/-- One commitment that covers the value, or two that cover it together but not alone. -/
def Enough (target : ℕ) (subset : List Preimage) : Prop :=
  (∃ p, subset = [p] ∧ target ≤ p.value.val) ∨
    ∃ p q, subset = [p, q] ∧ p.value.val < target ∧ q.value.val < target ∧
      target ≤ p.value.val + q.value.val

/-- The values are those of commitments that can be spent. -/
def ValuesBelow (commitments : List Preimage) : Prop := ∀ p ∈ commitments, p.value.val < 2 ^ 96

/-- Two values add up to less than half the modulus. -/
def PairsBelow (values : List Preimage) : Prop :=
  values.Pairwise fun p q => 2 * (p.value.val + q.value.val) < frModulus

theorem ValuesBelow.pairsBelow {values : List Preimage} (h : ValuesBelow values) :
    PairsBelow values := by
  refine List.pairwise_iff_forall_sublist.2 fun {p q} hsub => ?_
  have hp := h p (hsub.subset List.mem_cons_self)
  have hq := h q (hsub.subset (List.mem_cons_of_mem _ List.mem_cons_self))
  have hmod : 2 * (2 ^ 96 + 2 ^ 96) < frModulus := by norm_num [frModulus]
  omega

section TwoPointers

variable {target change : Fr254} {values acc : List Preimage} {gap lhs : ℕ}

theorem pair_sublist {i j : ℕ} (hij : i < j) (hj : j < values.length) :
    [values.getD i .default, values.getD j .default].Sublist values := by
  have hi : i < values.length := hij.trans hj
  rw [List.getD_eq_getElem _ _ hi, List.getD_eq_getElem _ _ hj]
  have hmem : values[i] ∈ values.take j := List.mem_take_iff_getElem.2 ⟨i, by omega, rfl⟩
  have hleft : [values[i]].Sublist (values.take j) := List.singleton_sublist.2 hmem
  have hright : [values[j]].Sublist (values.drop j) := by
    rw [List.drop_eq_getElem_cons hj]
    exact List.singleton_sublist.2 List.mem_cons_self
  have happend := hleft.append hright
  rwa [List.take_append_drop] at happend

theorem twoPointers_sublist (hlt : lhs + gap < values.length) (hacc : acc.Sublist values) :
    (twoPointers target values gap lhs change acc).Sublist values := by
  induction gap generalizing lhs change acc with
  | zero => exact hacc
  | succ gap ih =>
    have hpair := pair_sublist (show lhs < lhs + (gap + 1) by omega) hlt
    rw [twoPointers]
    split_ifs
    · exact hpair
    · exact ih (by omega) hpair
    · exact ih (by omega) hacc
    · exact ih (by omega) hacc

/-- The pairs of which one is left of the left pointer or right of the right one have been tried. -/
structure Tried (target : Fr254) (values : List Preimage) (lhs rhs : ℕ) (change : Fr254)
    (acc : List Preimage) : Prop where
  outside : ∀ i j, i < j → j < values.length → i < lhs ∨ rhs < j →
    target.val ≤ (values.getD i .default).value.val + (values.getD j .default).value.val →
      target.val + change.val ≤
        (values.getD i .default).value.val + (values.getD j .default).value.val
  found : (acc = [] ∧ change = (((frModulus - 1) / 2 : ℕ) : Fr254)) ∨
    ∃ i j, i < j ∧ j < values.length ∧ acc = [values.getD i .default, values.getD j .default] ∧
      (values.getD i .default).value.val + (values.getD j .default).value.val =
        target.val + change.val

/-- The best of all pairs, or none if none is enough. -/
def BestPair (target : ℕ) (values subset : List Preimage) : Prop :=
  (subset = [] ∧ values.Pairwise fun p q => p.value.val + q.value.val < target) ∨
    ∃ p q, subset = [p, q] ∧ [p, q].Sublist values ∧ target ≤ p.value.val + q.value.val ∧
      values.Pairwise fun p' q' => target ≤ p'.value.val + q'.value.val →
        p.value.val + q.value.val ≤ p'.value.val + q'.value.val

theorem pairwise_of_getD {R : Preimage → Preimage → Prop}
    (h : ∀ i j, i < j → j < values.length →
      R (values.getD i .default) (values.getD j .default)) : values.Pairwise R := by
  rw [List.pairwise_iff_getElem]
  intro i j hi hj hij
  have hR := h i j hij hj
  rwa [List.getD_eq_getElem _ _ hi, List.getD_eq_getElem _ _ hj] at hR

theorem getD_of_pairwise {R : Preimage → Preimage → Prop} (h : values.Pairwise R) {i j : ℕ}
    (hij : i < j) (hj : j < values.length) :
    R (values.getD i .default) (values.getD j .default) := by
  rw [List.getD_eq_getElem _ _ (hij.trans hj), List.getD_eq_getElem _ _ hj]
  exact List.pairwise_iff_getElem.1 h i j (hij.trans hj) hj hij

theorem val_half : ((((frModulus - 1) / 2 : ℕ) : Fr254)).val = (frModulus - 1) / 2 := by
  rw [ZMod.val_natCast, Nat.mod_eq_of_lt (by norm_num [frModulus])]

theorem PairsBelow.val_add (h : PairsBelow values) {i j : ℕ} (hij : i < j)
    (hj : j < values.length) :
    ((values.getD i .default).value + (values.getD j .default).value).val =
      (values.getD i .default).value.val + (values.getD j .default).value.val := by
  have hpair := getD_of_pairwise h hij hj
  exact ZMod.val_add_of_lt (by omega)

/-- When the pointers meet, all pairs have been tried. -/
theorem Tried.bestPair (h : Tried target values lhs lhs change acc) (hpairs : PairsBelow values)
    (htarget : 0 < target.val) : BestPair target.val values acc := by
  rcases h.found with ⟨rfl, hchange⟩ | ⟨i, j, hij, hj, rfl, hsum⟩
  · refine .inl ⟨rfl, pairwise_of_getD fun i j hij hj => ?_⟩
    have hpair := getD_of_pairwise hpairs hij hj
    have htried := h.outside i j hij hj (by omega)
    rw [hchange, val_half] at htried
    by_contra hge
    have := htried (not_lt.1 hge)
    omega
  · refine .inr ⟨_, _, rfl, pair_sublist hij hj, by omega, pairwise_of_getD ?_⟩
    intro i' j' hij' hj' henough
    have htried := h.outside i' j' hij' hj' (by omega) henough
    omega

/-- **The loop finds the best pair**: in a sorted list a pair of which one pointer is moved away can't
be better than what is kept. -/
theorem twoPointers_bestPair (hpairs : PairsBelow values)
    (hsorted : values.Pairwise fun a b => a.value.val ≤ b.value.val) (htarget : 0 < target.val)
    (hlt : lhs + gap < values.length) (h : Tried target values lhs (lhs + gap) change acc) :
    BestPair target.val values (twoPointers target values gap lhs change acc) := by
  induction gap generalizing lhs change acc with
  | zero => exact h.bestPair hpairs htarget
  | succ gap ih =>
    have hlr : lhs < lhs + (gap + 1) := by omega
    have hsum := hpairs.val_add hlr hlt
    -- the values that lie between the two pointers
    have hleft : ∀ i, lhs < i → i < values.length →
        (values.getD lhs .default).value.val ≤ (values.getD i .default).value.val :=
      fun i hi hi' => getD_of_pairwise hsorted hi hi'
    have hright : ∀ j, j < lhs + (gap + 1) → (values.getD j .default).value.val ≤
        (values.getD (lhs + (gap + 1)) .default).value.val :=
      fun j hj => getD_of_pairwise hsorted hj hlt
    rw [twoPointers]
    split_ifs with heq hgt hless
    · rw [heq] at hsum
      refine .inr ⟨_, _, rfl, pair_sublist hlr hlt, hsum.le, pairwise_of_getD ?_⟩
      intro i j _ _ henough
      omega
    · -- the right value is too great for all that are left, and this pair is the best of them
      have hchange := ZMod.val_sub hgt.le
      refine ih (by omega) ⟨fun i j hij hj hout henough => ?_, ?_⟩
      · by_cases hold : i < lhs ∨ lhs + (gap + 1) < j
        · have := h.outside i j hij hj hold henough
          omega
        · have hj' : j = lhs + (gap + 1) := by omega
          subst hj'
          rcases Nat.lt_or_ge lhs i with hi | hi
          · have := hleft i hi (by omega)
            omega
          · obtain rfl : i = lhs := by omega
            omega
      · exact .inr ⟨_, _, hlr, hlt, rfl, by omega⟩
    · have hchange := ZMod.val_sub hgt.le
      refine ih (by omega) ⟨fun i j hij hj hout henough => ?_, h.found⟩
      by_cases hold : i < lhs ∨ lhs + (gap + 1) < j
      · exact h.outside i j hij hj hold henough
      · have hj' : j = lhs + (gap + 1) := by omega
        subst hj'
        rcases Nat.lt_or_ge lhs i with hi | hi
        · have := hleft i hi (by omega)
          omega
        · obtain rfl : i = lhs := by omega
          omega
    · -- the left value is too small for all that are left
      have hne : (values.getD lhs .default).value.val +
          (values.getD (lhs + (gap + 1)) .default).value.val ≠ target.val := fun hval =>
        heq (ZMod.val_injective _ (hsum.trans hval))
      have hends : lhs + 1 + gap = lhs + (gap + 1) := by omega
      refine ih (by omega) ⟨fun i j hij hj hout henough => ?_, h.found⟩
      by_cases hold : i < lhs ∨ lhs + (gap + 1) < j
      · exact h.outside i j hij hj hold henough
      · have hi : i = lhs := by omega
        rw [hi] at henough
        rcases Nat.lt_or_ge j (lhs + (gap + 1)) with hj' | hj'
        · have := hright j hj'
          omega
        · have hj'' : j = lhs + (gap + 1) := by omega
          rw [hj''] at henough
          omega

theorem BestPair.enough (h : BestPair target.val values acc)
    (hbelow : ∀ p ∈ values, p.value.val < target.val) : acc = [] ∨ Enough target.val acc := by
  rcases h with ⟨hnil, -⟩ | ⟨p, q, rfl, hsub, hcovers, -⟩
  · exact .inl hnil
  · exact .inr (.inr ⟨p, q, rfl, hbelow p (hsub.subset List.mem_cons_self),
      hbelow q (hsub.subset (List.mem_cons_of_mem _ List.mem_cons_self)), hcovers⟩)

end TwoPointers

/-! ### Subsets -/

section Subsets

variable {commitments subset : List Preimage} {target : Fr254} {n min max : ℕ}

theorem findSubsetTwoCommitments_sublist (hlen : 1 < commitments.length) :
    (findSubsetTwoCommitments target commitments).Sublist commitments :=
  twoPointers_sublist (by omega) (List.nil_sublist _)

theorem findSubsetCommitments_sublist
    (h : findSubsetCommitments commitments target n [] = .ok subset) :
    subset.Sublist commitments := by
  rw [findSubsetCommitments] at h
  split_ifs at h with hsingle htwo
  · cases hfind : commitments.find? fun a => decide (target.val ≤ a.value.val) with
    | none =>
      rw [hfind] at h
      cases h
    | some p =>
      rw [hfind] at h
      cases h
      exact List.singleton_sublist.2 (List.mem_of_find?_eq_some hfind)
  · cases h
    exact (findSubsetTwoCommitments_sublist htwo.2.1).trans List.filter_sublist
  · cases h
    exact List.nil_sublist _

theorem findSubsetTwoCommitments_bestPair (hpairs : PairsBelow commitments)
    (hsorted : commitments.Pairwise fun a b => a.value.val ≤ b.value.val)
    (hbelow : ∀ p ∈ commitments, p.value.val < target.val) (hlen : 1 < commitments.length) :
    BestPair target.val commitments (findSubsetTwoCommitments target commitments) := by
  have htarget : 0 < target.val :=
    (Nat.zero_le _).trans_lt (hbelow _ (List.getElem_mem (show 0 < commitments.length by omega)))
  refine twoPointers_bestPair hpairs hsorted htarget (by omega) ⟨fun i j _ hj hout => ?_, ?_⟩
  · omega
  · exact .inl ⟨rfl, rfl⟩

theorem findSubsetCommitments_enough (hpairs : PairsBelow commitments)
    (hsorted : commitments.Pairwise fun a b => a.value.val ≤ b.value.val)
    (h : findSubsetCommitments commitments target n [] = .ok subset) :
    subset = [] ∨ Enough target.val subset := by
  rw [findSubsetCommitments] at h
  split_ifs at h with hsingle htwo
  · cases hfind : commitments.find? fun a => decide (target.val ≤ a.value.val) with
    | none =>
      rw [hfind] at h
      cases h
    | some p =>
      rw [hfind] at h
      cases h
      have hcovers := List.find?_some hfind
      exact .inr (.inl ⟨p, rfl, of_decide_eq_true hcovers⟩)
  · cases h
    have hbelow : ∀ p ∈ commitments.filter (fun a => decide (a.value.val < target.val)),
        p.value.val < target.val := fun p hp => of_decide_eq_true (List.mem_filter.1 hp).2
    exact (findSubsetTwoCommitments_bestPair (hpairs.filter _) (hsorted.filter _) hbelow
      htwo.2.1).enough hbelow
  · cases h
    exact .inl rfl

theorem findSubsetCommitments_one_ne_nil
    (h : findSubsetCommitments commitments target 1 [] = .ok subset) : subset ≠ [] := by
  rw [findSubsetCommitments, if_pos (.inr rfl)] at h
  cases hfind : commitments.find? fun a => decide (target.val ≤ a.value.val) with
  | none =>
    rw [hfind] at h
    cases h
  | some p =>
    rw [hfind] at h
    cases h
    exact List.cons_ne_nil _ _

theorem val_totalValue (h : (commitments.map fun p => p.value.val).sum < frModulus) :
    (totalValue commitments).val = (commitments.map fun p => p.value.val).sum := by
  have hcast : totalValue commitments =
      (((commitments.map fun p => p.value.val).sum : ℕ) : Fr254) := by
    have hfold : ∀ (l : List Preimage) (acc : Fr254), l.foldl (fun acc c => acc + c.value) acc =
        acc + (((l.map fun p => p.value.val).sum : ℕ) : Fr254) := by
      intro l
      induction l with
      | nil =>
        intro acc
        rw [List.foldl_nil, List.map_nil, List.sum_nil, Nat.cast_zero, add_zero]
      | cons p l ih =>
        intro acc
        rw [List.foldl_cons, ih, List.map_cons, List.sum_cons, Nat.cast_add, ZMod.natCast_zmod_val,
          add_assoc]
    rw [totalValue, hfold, zero_add]
  rw [hcast, ZMod.val_natCast, Nat.mod_eq_of_lt h]

/-- The values of as many commitments as a tree has leaves don't add up to the modulus. -/
theorem sum_lt_frModulus (hvalues : ValuesBelow commitments)
    (hcount : commitments.length ≤ 2 ^ 32) :
    (commitments.map fun p => p.value.val).sum < frModulus := by
  have hsum := List.sum_le_card_nsmul (commitments.map fun p => p.value.val) (2 ^ 96) fun v hv => by
    obtain ⟨p, hp, rfl⟩ := List.mem_map.1 hv
    exact (hvalues p hp).le
  rw [List.length_map, smul_eq_mul] at hsum
  have hmul : commitments.length * 2 ^ 96 ≤ 2 ^ 32 * 2 ^ 96 := Nat.mul_le_mul_right _ hcount
  have hmod : 2 ^ 32 * 2 ^ 96 < frModulus := by norm_num [frModulus]
  omega

/-- The two greatest values, the second of which is needed. -/
structure NeedsTwo (target : Fr254) (commitments : List Preimage) (q p : Preimage) : Prop where
  last : ∃ rest, commitments = rest ++ [q, p]
  less : p.value.val < target.val
  covers : target.val ≤ (p.value + q.value).val

theorem NeedsTwo.all_less {p q : Preimage} (h : NeedsTwo target commitments q p)
    (hsorted : commitments.Pairwise fun a b => a.value.val ≤ b.value.val) :
    ∀ a ∈ commitments, a.value.val < target.val := by
  obtain ⟨rest, rfl⟩ := h.last
  intro a ha
  have hsplit : rest ++ [q, p] = (rest ++ [q]) ++ [p] := by simp
  have hle : a.value.val ≤ p.value.val := by
    rw [hsplit] at ha hsorted
    rcases List.mem_append.1 ha with hrest | hself
    · exact (List.pairwise_append.1 hsorted).2.2 a hrest p (List.mem_singleton_self p)
    · rw [List.mem_singleton.1 hself]
  exact hle.trans_lt h.less

theorem findSubsetCommitments_two_ne_nil (hpairs : PairsBelow commitments)
    (htotal : (commitments.map fun p => p.value.val).sum < frModulus)
    (hsorted : commitments.Pairwise fun a b => a.value.val ≤ b.value.val) {p q : Preimage}
    (hneeds : NeedsTwo target commitments q p)
    (h : findSubsetCommitments commitments target 2 [] = .ok subset) : subset ≠ [] := by
  have hbelow := hneeds.all_less hsorted
  obtain ⟨rest, rfl⟩ := hneeds.last
  have hlast : [q, p].Sublist (rest ++ [q, p]) := List.sublist_append_right _ _
  have hsum : (p.value + q.value).val ≤ q.value.val + p.value.val :=
    (ZMod.val_add_le _ _).trans_eq (Nat.add_comm _ _)
  have hcovers := hneeds.covers
  have hall : (rest ++ [q, p]).filter (fun a => decide (a.value.val < target.val)) =
      rest ++ [q, p] := List.filter_eq_self.2 fun a ha => decide_eq_true (hbelow a ha)
  have hlen : (rest ++ [q, p]).length = rest.length + 2 := by simp
  have hcoversAll : target.val ≤ (totalValue (rest ++ [q, p])).val := by
    rw [val_totalValue htotal, List.map_append, List.sum_append]
    simp only [List.map_cons, List.map_nil, List.sum_cons, List.sum_nil]
    omega
  rw [findSubsetCommitments] at h
  simp only [hall] at h
  rw [if_neg (by omega), if_pos ⟨trivial, by omega, hcoversAll⟩] at h
  cases h
  rcases findSubsetTwoCommitments_bestPair hpairs hsorted hbelow (by omega) with
    ⟨-, hnone⟩ | ⟨p', q', hpair, -⟩
  · have hless := List.pairwise_iff_forall_sublist.1 hnone hlast
    omega
  · rw [List.nil_append, hpair]
    exact List.cons_ne_nil _ _

/-! ### The choice -/

theorem sorted_sortByValue (l : List Preimage) :
    (sortByValue l).Pairwise fun a b => a.value.val ≤ b.value.val := by
  have htotal : Std.Total fun a b : Preimage => a.value.val ≤ b.value.val :=
    ⟨fun a b => le_total _ _⟩
  have htrans : IsTrans Preimage fun a b => a.value.val ≤ b.value.val :=
    ⟨fun a b c => le_trans⟩
  exact List.pairwise_insertionSort _ _

/-- How many commitments are needed: one, or the two with the greatest values. -/
theorem calculateMinimumCommitments_cases
    (hsorted : commitments.Pairwise fun a b => a.value.val ≤ b.value.val)
    (h : calculateMinimumCommitments commitments target = .ok min) :
    (min = 1 ∧ ∃ p ∈ commitments, target.val ≤ p.value.val) ∨
      min = 2 ∧ ∃ q p, NeedsTwo target commitments q p := by
  have hsort : sortByValue commitments = commitments := List.Pairwise.insertionSort_eq hsorted
  rw [calculateMinimumCommitments, hsort, maxPossibleCommitments] at h
  cases hrev : commitments.reverse with
  | nil =>
    rw [hrev] at h
    cases h
  | cons p rest =>
    rw [hrev] at h
    cases rest with
    | nil =>
      simp only [List.take, countCommitments, zero_add] at h
      split_ifs at h with hone
      cases h
      exact .inl ⟨rfl, p, List.mem_reverse.1 (hrev ▸ List.mem_cons_self), hone⟩
    | cons q rest =>
      simp only [List.take, countCommitments, zero_add] at h
      split_ifs at h with hone htwo
      · cases h
        exact .inl ⟨rfl, p, List.mem_reverse.1 (hrev ▸ List.mem_cons_self), hone⟩
      · cases h
        have hlast : commitments = rest.reverse ++ [q, p] := by
          rw [← List.reverse_reverse commitments, hrev]
          simp
        exact .inr ⟨rfl, q, p, ⟨rest.reverse, hlast⟩, not_le.1 hone, htwo⟩

theorem mem_of_foldlM {sizes : List ℕ} {acc subsets : List (List Preimage)}
    (h : sizes.foldlM (fun subsets i => do
      let subset ← findSubsetCommitments commitments target i []
      pure (if subset.isEmpty then subsets else subsets ++ [subset])) acc = .ok subsets) :
    ∀ subset ∈ subsets, subset ∈ acc ∨
      ∃ n, findSubsetCommitments commitments target n [] = .ok subset ∧ subset ≠ [] := by
  induction sizes generalizing acc with
  | nil =>
    cases h
    exact fun subset hmem => .inl hmem
  | cons n sizes ih =>
    rw [List.foldlM_cons] at h
    cases hfind : findSubsetCommitments commitments target n [] with
    | error message =>
      rw [hfind] at h
      cases h
    | ok found =>
      rw [hfind] at h
      intro subset hmem
      rcases ih h subset hmem with hacc | hlater
      · by_cases hempty : found.isEmpty = true
        · rw [if_pos hempty] at hacc
          exact .inl hacc
        · rw [if_neg hempty] at hacc
          rcases List.mem_append.1 hacc with hold | hnew
          · exact .inl hold
          · obtain rfl := List.mem_singleton.1 hnew
            exact .inr ⟨n, hfind, fun hnil => hempty (List.isEmpty_iff.2 hnil)⟩
      · exact .inr hlater

/-- A subset is one that was found, and may be empty only if a single size was tried. -/
theorem mem_candidateSubsets {subsets : List (List Preimage)}
    (h : candidateSubsets commitments target min max = .ok subsets) :
    ∀ subset ∈ subsets, ∃ n, findSubsetCommitments commitments target n [] = .ok subset ∧
      (subset ≠ [] ∨ n = min) := by
  rw [candidateSubsets] at h
  intro subset hmem
  split_ifs at h
  · cases hfind : findSubsetCommitments commitments target min [] with
    | error message =>
      rw [hfind] at h
      cases h
    | ok found =>
      rw [hfind] at h
      cases h
      obtain rfl := List.mem_singleton.1 hmem
      exact ⟨min, hfind, .inr rfl⟩
  · rcases mem_of_foldlM h subset hmem with hnil | ⟨n, hfind, hne⟩
    · cases hnil
    · exact ⟨n, hfind, .inl hne⟩

/-- What is selected is one of the subsets, filled up with default preimages. -/
theorem selectCommitment_eq_ok {selected : Fin 2 → Preimage}
    (h : selectCommitment commitments target min max = .ok selected) :
    ∃ subset n, findSubsetCommitments commitments target n [] = .ok subset ∧
      (subset ≠ [] ∨ n = min) ∧ ∀ i, selected i = subset.getD i .default := by
  obtain ⟨subsets, hsubsets, h⟩ := bind_eq_ok.1 h
  cases hhead : (subsets.insertionSort (Preferred target)).head? with
  | none =>
    rw [hhead] at h
    cases h
  | some subset =>
    rw [hhead] at h
    cases h
    have hmem : subset ∈ subsets :=
      (List.perm_insertionSort _ _).mem_iff.1 (List.mem_of_mem_head? hhead)
    obtain ⟨n, hfind, hne⟩ := mem_candidateSubsets hsubsets subset hmem
    exact ⟨subset, n, hfind, hne, fun _ => rfl⟩

end Subsets

/-! ### The commitments of a client -/

section Usable

variable {c : Commitments} {token target : Fr254} {selected : Fin 2 → Preimage}

/-- The unspent commitments of a token. -/
def availableEntries (c : Commitments) (token : Fr254) : List CommitmentEntry :=
  c.docs.filter fun e => decide (e.preimage.nfTokenId = token) && decide (e.status = .unspent)

theorem mem_availableEntries {e : CommitmentEntry} :
    e ∈ availableEntries c token ↔
      e ∈ c.docs ∧ e.preimage.nfTokenId = token ∧ e.status = .unspent := by
  rw [availableEntries, List.mem_filter, Bool.and_eq_true, decide_eq_true_iff, decide_eq_true_iff]

/-- What `find_usable_commitments` chooses from: the preimages of a permutation of the unspent
commitments. -/
theorem usableCommitments_eq_ok (h : usableCommitments c token target = .ok selected) :
    ∃ commitments min max, commitments.Perm
        ((availableEntries c token).map CommitmentEntry.preimage) ∧
      commitments.Pairwise (fun a b => a.value.val ≤ b.value.val) ∧
      calculateMinimumCommitments commitments target = .ok min ∧
        selectCommitment commitments target min max = .ok selected := by
  obtain ⟨available, hverify, hselect⟩ := bind_eq_ok.1 h
  obtain ⟨fetched, hfetch, hverify⟩ := bind_eq_ok.1 hverify
  obtain ⟨min, hmin, hverify⟩ := bind_eq_ok.1 hverify
  split_ifs at hverify
  cases hverify
  have hfetched : fetched = (availableEntries c token).map CommitmentEntry.preimage := by
    rw [fetchOnChainCommitments, Commitments.getAvailableCommitments] at hfetch
    by_cases hempty : (availableEntries c token).isEmpty = true
    · rw [availableEntries] at hempty
      simp only [hempty, if_true] at hfetch
      cases hfetch
    · rw [availableEntries] at hempty
      simp only [hempty, if_false, Bool.false_eq_true] at hfetch
      cases hfetch
      rfl
  subst hfetched
  exact ⟨_, min, _, List.perm_insertionSort _ _, sorted_sortByValue _, hmin, hselect⟩

/-- **What is selected is there**: each of the two is an unspent commitment of the token, or the
default. -/
theorem usableCommitments_mem (h : usableCommitments c token target = .ok selected) (i : Fin 2) :
    selected i = .default ∨ ∃ e ∈ availableEntries c token, e.preimage = selected i := by
  obtain ⟨commitments, min, max, hperm, -, -, hselect⟩ := usableCommitments_eq_ok h
  obtain ⟨subset, n, hfind, -, hselected⟩ := selectCommitment_eq_ok hselect
  rw [hselected]
  by_cases hi : (i : ℕ) < subset.length
  · right
    rw [List.getD_eq_getElem _ _ hi]
    have hmem := (findSubsetCommitments_sublist hfind).subset (List.getElem_mem hi)
    exact List.mem_map.1 (hperm.mem_iff.1 hmem)
  · left
    exact List.getD_eq_default _ _ (not_lt.1 hi)

/-- One or two different commitments, and whether they are enough. -/
inductive Selects (c : Commitments) (token target : Fr254) (selected : Fin 2 → Preimage) : Prop
  | one (e : CommitmentEntry) (he : e ∈ availableEntries c token) (hfirst : selected 0 = e.preimage)
      (hsecond : selected 1 = .default) (hcovers : target.val ≤ e.preimage.value.val)
  | two (e e' : CommitmentEntry) (he : e ∈ availableEntries c token)
      (he' : e' ∈ availableEntries c token) (hne : e.key ≠ e'.key)
      (hfirst : selected 0 = e.preimage) (hsecond : selected 1 = e'.preimage)
      (hless : e.preimage.value.val < target.val) (hless' : e'.preimage.value.val < target.val)
      (hcovers : target.val ≤ e.preimage.value.val + e'.preimage.value.val)

/-- **What is selected is enough**, and just so. -/
theorem usableCommitments_selects {poseidon : List Fr254 → Fr254}
    (hkey : ∀ e ∈ availableEntries c token, e.key = e.preimage.hash poseidon)
    (hvalues : ∀ e ∈ availableEntries c token, e.preimage.value.val < 2 ^ 96)
    (hcount : (availableEntries c token).length ≤ 2 ^ 32)
    (h : usableCommitments c token target = .ok selected) : Selects c token target selected := by
  obtain ⟨commitments, min, max, hperm, hsorted, hmin, hselect⟩ := usableCommitments_eq_ok h
  obtain ⟨subset, n, hfind, hne, hselected⟩ := selectCommitment_eq_ok hselect
  have hentry : ∀ p ∈ commitments, ∃ e ∈ availableEntries c token, e.preimage = p := fun p hp =>
    List.mem_map.1 (hperm.mem_iff.1 hp)
  have hbelow : ValuesBelow commitments := by
    intro p hp
    obtain ⟨e, he, rfl⟩ := hentry p hp
    exact hvalues e he
  have hlen : commitments.length ≤ 2 ^ 32 := by
    rw [hperm.length_eq, List.length_map]
    exact hcount
  have hsubset : subset ≠ [] := by
    rcases hne with hne | rfl
    · exact hne
    · rcases calculateMinimumCommitments_cases hsorted hmin with ⟨rfl, -⟩ | ⟨rfl, q, p, hneeds⟩
      · exact findSubsetCommitments_one_ne_nil hfind
      · exact findSubsetCommitments_two_ne_nil hbelow.pairsBelow (sum_lt_frModulus hbelow hlen)
          hsorted hneeds hfind
  have hsub := findSubsetCommitments_sublist hfind
  rcases (findSubsetCommitments_enough hbelow.pairsBelow hsorted hfind).resolve_left hsubset with
    ⟨p, rfl, hcovers⟩ | ⟨p, q, rfl, hp, hq, hcovers⟩
  · obtain ⟨e, he, rfl⟩ := hentry p (hsub.subset List.mem_cons_self)
    exact .one e he (hselected 0) (hselected 1) hcovers
  · obtain ⟨e, he, rfl⟩ := hentry p (hsub.subset List.mem_cons_self)
    obtain ⟨e', he', rfl⟩ :=
      hentry q (hsub.subset (List.mem_cons_of_mem _ List.mem_cons_self))
    refine .two e e' he he' ?_ (hselected 0) (hselected 1) hp hq hcovers
    -- the keys are the hashes, and no two commitments have the same key
    have hkeys : (commitments.map (Preimage.hash poseidon)).Nodup := by
      have hhashes : (availableEntries c token).map CommitmentEntry.key =
          ((availableEntries c token).map CommitmentEntry.preimage).map (Preimage.hash poseidon) := by
        rw [List.map_map]
        exact List.map_congr_left hkey
      rw [(hperm.map _).nodup_iff, ← hhashes]
      exact c.nodup.sublist (List.filter_sublist.map _)
    have hpair := (hsub.map (Preimage.hash poseidon)).nodup hkeys
    rw [hkey e he, hkey e' he']
    simpa using hpair

end Usable

end Wallet

end Nightfall
