import Nightfall.Wallet.Selected
import Mathlib.Data.List.Perm.Subperm

/-!
# The best selection

The selection, with the places where an index or a difference could leave its range
(`usableCommitmentsOrStop`).  If the values of the available commitments add up to less than half the
modulus, none of them does, a selection is found whenever one commitment or two different ones reach
the value, and no other one or two leave less change (`selection_optimal`).
-/

namespace Nightfall

namespace Wallet

open Node Stateful
open Evm (bind_eq_ok ok_bind)

/-! ### The selection with its stops -/

/-- Why no commitments are selected. -/
inductive Stop
  /-- An index beyond the end of a list, or a difference below zero. -/
  | underflow
  /-- An error that is returned. -/
  | failed (message : String)
  deriving DecidableEq

/-- `commitments[i]`. -/
def getAt (commitments : List Preimage) (i : ℕ) : Except Stop Preimage :=
  match commitments[i]? with
  | some p => .ok p
  | none => .error .underflow

/-- `a - b`, which is meant to be the difference of the numbers. -/
def difference (a b : Fr254) : Except Stop Fr254 :=
  if b.val ≤ a.val then .ok (a - b) else .error .underflow

/-- `i - 1`. -/
def pred (i : ℕ) : Except Stop ℕ := if i = 0 then .error .underflow else .ok (i - 1)

/-- The loop of `find_subset_two_commitments`, with both pointers. -/
def pointersOrStop (targetVal : Fr254) (valuesBelow : List Preimage) (lhs rhs : ℕ) (change : Fr254)
    (commitmentsToUse : List Preimage) : Except Stop (List Preimage) :=
  if lhs < rhs then do
    let left ← getAt valuesBelow lhs
    let right ← getAt valuesBelow rhs
    let twoSum := left.value + right.value
    if twoSum = targetVal then .ok [left, right]
    else if targetVal.val < twoSum.val then do
      let tempChange ← difference twoSum targetVal
      let _ ← pred rhs
      if tempChange.val < change.val then
        pointersOrStop targetVal valuesBelow lhs (rhs - 1) tempChange [left, right]
      else pointersOrStop targetVal valuesBelow lhs (rhs - 1) change commitmentsToUse
    else pointersOrStop targetVal valuesBelow (lhs + 1) rhs change commitmentsToUse
  else .ok commitmentsToUse
termination_by rhs - lhs

/-- `find_subset_two_commitments`. -/
def findSubsetTwoCommitmentsOrStop (targetVal : Fr254) (valuesBelow : List Preimage) :
    Except Stop (List Preimage) := do
  let rhs ← pred valuesBelow.length
  pointersOrStop targetVal valuesBelow 0 rhs (((frModulus - 1) / 2 : ℕ) : Fr254) []

/-- `find_subset_commitments`. -/
def findSubsetCommitmentsOrStop (commitments : List Preimage) (targetVal : Fr254) (n : ℕ)
    (acc : List Preimage) : Except Stop (List Preimage) :=
  let valuesBelow := commitments.filter fun a => decide (a.value.val < targetVal.val)
  if valuesBelow.length ≤ 1 ∨ n = 1 then
    match commitments.find? fun a => decide (targetVal.val ≤ a.value.val) with
    | some c => .ok (acc ++ [c])
    | none => .error (.failed "Failed to find a matching commitment")
  else if n = 2 ∧ 1 < valuesBelow.length ∧ targetVal.val ≤ (totalValue valuesBelow).val then do
    let result ← findSubsetTwoCommitmentsOrStop targetVal valuesBelow
    .ok (acc ++ result)
  else .ok acc

/-- The subsets of the sizes that are tried. -/
def candidateSubsetsOrStop (commitments : List Preimage) (targetVal : Fr254) (min max : ℕ) :
    Except Stop (List (List Preimage)) :=
  if min = maxPossibleCommitments ∨ max = 1 then do
    let subset ← findSubsetCommitmentsOrStop commitments targetVal min []
    pure [subset]
  else (List.range' min (maxPossibleCommitments + 1 - min)).foldlM (fun subsets i => do
    let subset ← findSubsetCommitmentsOrStop commitments targetVal i []
    pure (if subset.isEmpty then subsets else subsets ++ [subset])) []

/-- `select_commitment`; the sort compares the changes of the subsets. -/
def selectCommitmentOrStop (commitments : List Preimage) (targetVal : Fr254) (min max : ℕ) :
    Except Stop (Fin 2 → Preimage) := do
  let subsets ← candidateSubsetsOrStop commitments targetVal min max
  let _ ← subsets.mapM fun subset => difference (totalValue subset) targetVal
  match (subsets.insertionSort (Preferred targetVal)).head? with
  | none => .error (.failed "No valid subsets found")
  | some res => .ok fun i => res.getD i .default

/-- `verify_enough_commitments`, and `select_commitment` on what it returns. -/
def usableCommitmentsOrStop (c : Commitments) (targetTokenId targetValue : Fr254) :
    Except Stop (Fin 2 → Preimage) := do
  let available ← (verifyEnoughCommitments c targetTokenId targetValue).mapError .failed
  selectCommitmentOrStop available.1 targetValue available.2
    (if available.1.length < maxPossibleCommitments then available.1.length
      else maxPossibleCommitments)

/-! ### Nothing stops -/

section Stops

variable {target change : Fr254} {values acc commitments : List Preimage} {lhs gap n min max : ℕ}

theorem getAt_of_lt {i : ℕ} (h : i < values.length) :
    getAt values i = .ok (values.getD i .default) := by
  rw [getAt, List.getElem?_eq_getElem h, List.getD_eq_getElem _ _ h]

theorem pointersOrStop_eq (h : lhs + gap < values.length) :
    pointersOrStop target values lhs (lhs + gap) change acc =
      .ok (twoPointers target values gap lhs change acc) := by
  induction gap generalizing lhs change acc with
  | zero =>
    rw [pointersOrStop, Nat.add_zero, if_neg (lt_irrefl _)]
    rfl
  | succ gap ih =>
    have hsucc : lhs + (gap + 1) = lhs + 1 + gap := by omega
    have hpred : lhs + (gap + 1) - 1 = lhs + gap := by omega
    have hright : pred (lhs + (gap + 1)) = .ok (lhs + gap) := if_neg (Nat.succ_ne_zero _)
    rw [pointersOrStop, if_pos (by omega), getAt_of_lt (by omega), getAt_of_lt h, hright, hpred,
      twoPointers]
    simp only [ok_bind]
    split_ifs with heq hgt hless
    · rfl
    · rw [difference, if_pos hgt.le, ok_bind, if_pos hless]
      exact ih (by omega)
    · rw [difference, if_pos hgt.le, ok_bind, if_neg hless]
      exact ih (by omega)
    · rw [hsucc]
      exact ih (by omega)

theorem findSubsetCommitmentsOrStop_eq : findSubsetCommitmentsOrStop commitments target n acc =
    (findSubsetCommitments commitments target n acc).mapError .failed := by
  rw [findSubsetCommitmentsOrStop, findSubsetCommitments]
  split_ifs with hsingle htwo
  · cases commitments.find? fun a => decide (target.val ≤ a.value.val) <;> rfl
  · have hpred : ∀ l : List Preimage, 1 < l.length → pred l.length = .ok (l.length - 1) :=
      fun l hl => if_neg (by omega)
    have hrun := @pointersOrStop_eq target (((frModulus - 1) / 2 : ℕ) : Fr254) _ [] 0 _
      (show 0 + ((commitments.filter fun a => decide (a.value.val < target.val)).length - 1) <
        (commitments.filter fun a => decide (a.value.val < target.val)).length by omega)
    rw [Nat.zero_add] at hrun
    rw [findSubsetTwoCommitmentsOrStop, hpred _ htwo.2.1, ok_bind, hrun]
    rfl
  · rfl

theorem candidateSubsetsOrStop_eq : candidateSubsetsOrStop commitments target min max =
    (candidateSubsets commitments target min max).mapError .failed := by
  have hfold : ∀ (sizes : List ℕ) (acc : List (List Preimage)),
      sizes.foldlM (fun subsets i => do
        let subset ← findSubsetCommitmentsOrStop commitments target i []
        pure (if subset.isEmpty then subsets else subsets ++ [subset])) acc =
      (sizes.foldlM (fun subsets i => do
        let subset ← findSubsetCommitments commitments target i []
        pure (if subset.isEmpty then subsets else subsets ++ [subset])) acc :
          Except String (List (List Preimage))).mapError .failed := by
    intro sizes
    induction sizes with
    | nil => exact fun acc => rfl
    | cons n sizes ih =>
      intro acc
      rw [List.foldlM_cons, List.foldlM_cons, findSubsetCommitmentsOrStop_eq]
      cases findSubsetCommitments commitments target n [] with
      | error message => rfl
      | ok subset => exact ih _
  rw [candidateSubsetsOrStop, candidateSubsets]
  split_ifs
  · rw [findSubsetCommitmentsOrStop_eq]
    cases findSubsetCommitments commitments target min [] <;> rfl
  · exact hfold _ _

end Stops

/-! ### What can be reached -/

/-- The sum of the values, as a number. -/
def sumOf (subset : List Preimage) : ℕ := (subset.map fun p => p.value.val).sum

/-- One of the available commitments, or two different ones, that reach the value. -/
structure Reaches (available : List Preimage) (target : ℕ) (subset : List Preimage) : Prop where
  subperm : subset.Subperm available
  length : subset.length = 1 ∨ subset.length = 2
  covers : target ≤ sumOf subset

section Reach

variable {commitments subset other : List Preimage} {target : Fr254} {t n min max : ℕ}

theorem sumOf_pair (p q : Preimage) : sumOf [p, q] = p.value.val + q.value.val := by
  simp [sumOf]

theorem sumOf_perm (h : subset.Perm commitments) : sumOf subset = sumOf commitments :=
  (h.map fun p : Preimage => p.value.val).sum_eq

theorem sumOf_le (h : subset.Subperm commitments) : sumOf subset ≤ sumOf commitments := by
  obtain ⟨l, hperm, hsub⟩ := h
  rw [← sumOf_perm hperm]
  exact (hsub.map fun p : Preimage => p.value.val).sum_le_sum fun _ _ => Nat.zero_le _

theorem pairsBelow_of_sumOf (h : 2 * sumOf commitments < frModulus) : PairsBelow commitments := by
  refine List.pairwise_iff_forall_sublist.2 fun {p q} hsub => ?_
  have hle := sumOf_le hsub.subperm
  rw [sumOf_pair] at hle
  omega

/-- One commitment, or two in the order of the list. -/
theorem Reaches.cases (h : Reaches commitments t subset) :
    (∃ p ∈ commitments, t ≤ p.value.val ∧ sumOf subset = p.value.val) ∨
      ∃ p q, [p, q].Sublist commitments ∧ t ≤ p.value.val + q.value.val ∧
        sumOf subset = p.value.val + q.value.val := by
  obtain ⟨l, hperm, hsub⟩ := h.subperm
  have hsum : sumOf l = sumOf subset := sumOf_perm hperm
  have hcovers := h.covers
  have hlen := hperm.length_eq
  rw [← hsum] at hcovers ⊢
  rcases h.length with hone | htwo
  · obtain ⟨p, rfl⟩ := List.length_eq_one_iff.1 (hlen.trans hone)
    have hp : sumOf [p] = p.value.val := by simp [sumOf]
    exact .inl ⟨p, hsub.subset (List.mem_singleton_self p), hp ▸ hcovers, hp⟩
  · obtain ⟨p, q, rfl⟩ := List.length_eq_two.1 (hlen.trans htwo)
    rw [sumOf_pair] at hcovers ⊢
    exact .inr ⟨p, q, hsub, hcovers, rfl⟩

theorem Enough.reaches (h : Enough t subset) (hsub : subset.Sublist commitments) :
    Reaches commitments t subset := by
  rcases h with ⟨p, rfl, hcovers⟩ | ⟨p, q, rfl, -, -, hcovers⟩
  · exact ⟨hsub.subperm, .inl rfl, by simpa [sumOf] using hcovers⟩
  · exact ⟨hsub.subperm, .inr rfl, by rwa [sumOf_pair]⟩

theorem findSubsetCommitments_one (hsorted : commitments.Pairwise fun a b => a.value.val ≤ b.value.val)
    {p : Preimage} (hp : p ∈ commitments) (hcovers : target.val ≤ p.value.val) :
    ∃ q, findSubsetCommitments commitments target 1 [] = .ok [q] ∧
      ∀ p ∈ commitments, target.val ≤ p.value.val → q.value.val ≤ p.value.val := by
  have hsome : (commitments.find? fun a => decide (target.val ≤ a.value.val)).isSome :=
    List.find?_isSome.2 ⟨p, hp, decide_eq_true hcovers⟩
  obtain ⟨q, hq⟩ := Option.isSome_iff_exists.1 hsome
  refine ⟨q, by rw [findSubsetCommitments, if_pos (.inr rfl), hq]; rfl, ?_⟩
  obtain ⟨-, before, after, rfl, hbefore⟩ := List.find?_eq_some_iff_append.1 hq
  intro p' hp' hcovers'
  rcases List.mem_append.1 hp' with hearly | hlate
  · have hnot := hbefore p' hearly
    rw [decide_eq_true hcovers'] at hnot
    cases hnot
  · rcases List.mem_cons.1 hlate with rfl | hafter
    · exact le_rfl
    · exact List.rel_of_pairwise_cons (List.pairwise_append.1 hsorted).2.1 hafter

theorem findSubsetCommitments_two (hsum : 2 * sumOf commitments < frModulus)
    (hsorted : commitments.Pairwise fun a b => a.value.val ≤ b.value.val)
    (hsome : (∃ p ∈ commitments, target.val ≤ p.value.val) ∨
      ∃ p q, [p, q].Sublist commitments ∧ p.value.val < target.val ∧ q.value.val < target.val) :
    ∃ subset, findSubsetCommitments commitments target 2 [] = .ok subset ∧
      ∀ p q, [p, q].Sublist commitments → p.value.val < target.val → q.value.val < target.val →
        target.val ≤ p.value.val + q.value.val →
          subset ≠ [] ∧ sumOf subset ≤ p.value.val + q.value.val := by
  have hpair : ∀ p q, [p, q].Sublist commitments → p.value.val < target.val →
      q.value.val < target.val →
        [p, q].Sublist (commitments.filter fun a => decide (a.value.val < target.val)) := by
    intro p q hsub hp hq
    have hfilter := hsub.filter fun a => decide (a.value.val < target.val)
    have hkept : [p, q].filter (fun a => decide (a.value.val < target.val)) = [p, q] := by
      simp [hp, hq]
    rwa [hkept] at hfilter
  have hbelow : ∀ p ∈ commitments.filter (fun a => decide (a.value.val < target.val)),
      p.value.val < target.val := fun p hp => of_decide_eq_true (List.mem_filter.1 hp).2
  have hsub : (commitments.filter fun a => decide (a.value.val < target.val)).Sublist
    commitments := List.filter_sublist
  rw [findSubsetCommitments]
  split_ifs with hsingle htwo
  · have hfew := hsingle.resolve_right (by decide)
    -- no two of them are less than the value
    have hnone : ∀ p q, [p, q].Sublist commitments → p.value.val < target.val →
        ¬q.value.val < target.val := fun p q hsub hp hq =>
      absurd ((hpair p q hsub hp hq).length_le.trans hfew) (Nat.lt_irrefl 1)
    rcases hsome with ⟨p, hp, hcovers⟩ | ⟨p, q, hsub, hp, hq⟩
    · have hfind : (commitments.find? fun a => decide (target.val ≤ a.value.val)).isSome :=
        List.find?_isSome.2 ⟨p, hp, decide_eq_true hcovers⟩
      obtain ⟨r, hr⟩ := Option.isSome_iff_exists.1 hfind
      exact ⟨[r], by rw [hr]; rfl, fun p q hsub hp hq => absurd hq (hnone p q hsub hp)⟩
    · exact absurd hq (hnone p q hsub hp)
  · refine ⟨_, rfl, fun p q hsub' hp hq hcovers => ?_⟩
    rw [List.nil_append]
    rcases findSubsetTwoCommitments_bestPair ((pairsBelow_of_sumOf hsum).filter _)
      (hsorted.filter _) hbelow htwo.2.1 with ⟨-, hnone⟩ | ⟨p', q', hfound, -, -, hbest⟩
    · have hless := List.pairwise_iff_forall_sublist.1 hnone (hpair p q hsub' hp hq)
      omega
    · rw [hfound, sumOf_pair]
      exact ⟨List.cons_ne_nil _ _,
        List.pairwise_iff_forall_sublist.1 hbest (hpair p q hsub' hp hq) hcovers⟩
  · refine ⟨_, rfl, fun p q hsub' hp hq hcovers => ?_⟩
    -- all of them together don't reach the value
    have hlong := (hpair p q hsub' hp hq).length_le
    have htotal := @val_totalValue
      (commitments.filter fun a => decide (a.value.val < target.val))
      ((sumOf_le hsub.subperm).trans_lt (by omega))
    have hle := sumOf_le (hpair p q hsub' hp hq).subperm
    rw [sumOf_pair, sumOf, ← htotal] at hle
    have hlen : ([p, q] : List Preimage).length = 2 := rfl
    rw [hlen] at hlong
    rw [not_or] at hsingle
    exact absurd ⟨rfl, by omega, by omega⟩ htwo

/-- What the two greatest values don't reach, no pair does. -/
theorem pair_le_last {rest : List Preimage} {p q : Preimage}
    (hsorted : (rest ++ [q, p]).Pairwise fun a b => a.value.val ≤ b.value.val) :
    (rest ++ [q, p]).Pairwise fun a b =>
      a.value.val + b.value.val ≤ q.value.val + p.value.val := by
  obtain ⟨-, hlast, hrest⟩ := List.pairwise_append.1 hsorted
  have hqp := List.rel_of_pairwise_cons hlast (List.mem_singleton_self p)
  have hq : ∀ a ∈ rest, a.value.val ≤ q.value.val := fun a ha => hrest a ha q List.mem_cons_self
  refine List.pairwise_append.2 ⟨?_, ?_, ?_⟩
  · refine List.pairwise_iff_forall_sublist.2 fun {a b} hsub => ?_
    have ha := hq a (hsub.subset List.mem_cons_self)
    have hb := hq b (hsub.subset (List.mem_cons_of_mem _ List.mem_cons_self))
    omega
  · exact List.pairwise_pair.2 le_rfl
  · intro a ha b hb
    have ha' := hq a ha
    rcases List.mem_cons.1 hb with rfl | hb
    · omega
    · rw [List.mem_singleton.1 hb]
      omega

/-- If the value can be reached, so many commitments are needed. -/
theorem exists_minimum (hsum : 2 * sumOf commitments < frModulus)
    (hsorted : commitments.Pairwise fun a b => a.value.val ≤ b.value.val)
    (h : Reaches commitments target.val subset) :
    ∃ min, calculateMinimumCommitments commitments target = .ok min := by
  have hsort : sortByValue commitments = commitments := List.Pairwise.insertionSort_eq hsorted
  obtain ⟨reversed, rfl⟩ : ∃ l : List Preimage, commitments = l.reverse :=
    ⟨commitments.reverse, (List.reverse_reverse _).symm⟩
  rw [calculateMinimumCommitments, hsort, List.reverse_reverse, maxPossibleCommitments]
  have hcases := h.cases
  have hgreatest := List.pairwise_reverse.1 hsorted
  cases reversed with
  | nil =>
    rcases hcases with ⟨p, hp, -⟩ | ⟨p, q, hsub, -⟩
    · cases hp
    · cases hsub
  | cons p rest =>
    simp only [List.take, countCommitments, zero_add]
    by_cases hone : target.val ≤ p.value.val
    · exact ⟨1, if_pos hone⟩
    · have hall : ∀ a ∈ (p :: rest).reverse, a.value.val < target.val := by
        intro a ha
        rcases List.mem_cons.1 (List.mem_reverse.1 ha) with rfl | hrest
        · exact not_le.1 hone
        · exact (List.rel_of_pairwise_cons hgreatest hrest).trans_lt (not_le.1 hone)
      rcases hcases with ⟨a, ha, hcovers, -⟩ | ⟨a, b, hsub, hcovers, -⟩
      · exact absurd hcovers (hall a ha).not_ge
      · cases rest with
        | nil => exact absurd hsub.length_le (Nat.lt_irrefl 1)
        | cons q rest =>
          have hsplit : (p :: q :: rest).reverse = rest.reverse ++ [q, p] := by simp
          rw [hsplit] at hsorted hsub hsum
          have hle := List.pairwise_iff_forall_sublist.1 (pair_le_last hsorted) hsub
          have hpair := sumOf_le (List.sublist_append_right rest.reverse [q, p]).subperm
          rw [sumOf_pair] at hpair
          have hval : (p.value + q.value).val = p.value.val + q.value.val :=
            ZMod.val_add_of_lt (by omega)
          refine ⟨2, ?_⟩
          rw [if_neg hone]
          simp only [List.take, countCommitments]
          rw [if_pos (by omega)]

/-- The subsets that are compared, one of which is as good as any other one or two commitments. -/
theorem exists_candidateSubsets (hsum : 2 * sumOf commitments < frModulus)
    (hsorted : commitments.Pairwise fun a b => a.value.val ≤ b.value.val)
    (hmin : calculateMinimumCommitments commitments target = .ok min) :
    ∃ subsets, candidateSubsets commitments target min
        (if commitments.length < maxPossibleCommitments then commitments.length
          else maxPossibleCommitments) = .ok subsets ∧ subsets ≠ [] ∧
      ∀ other, Reaches commitments target.val other →
        ∃ subset ∈ subsets, sumOf subset ≤ sumOf other := by
  have hsingle : ∀ p : Preimage, sumOf [p] = p.value.val := fun p => by simp [sumOf]
  rcases calculateMinimumCommitments_cases hsorted hmin with ⟨rfl, p, hp, hcovers⟩ |
    ⟨rfl, q, p, hneeds⟩
  · obtain ⟨c, hone, hleast⟩ := findSubsetCommitments_one hsorted hp hcovers
    by_cases hlen : commitments.length < maxPossibleCommitments
    · -- the only commitment
      have hlen' : commitments.length = 1 := by
        have := List.length_pos_of_mem hp
        rw [maxPossibleCommitments] at hlen
        omega
      refine ⟨[[c]], ?_, List.cons_ne_nil _ _, fun other hother => ?_⟩
      · rw [if_pos hlen, candidateSubsets, if_pos (.inr hlen'), hone]
        rfl
      · refine ⟨[c], List.mem_singleton_self _, ?_⟩
        rw [hsingle]
        rcases hother.cases with ⟨r, hr, hrcovers, hrsum⟩ | ⟨a, b, hsub, -, -⟩
        · exact (hleast r hr hrcovers).trans_eq hrsum.symm
        · exact absurd (hsub.length_le.trans_eq hlen') (Nat.lt_irrefl 1)
    · obtain ⟨two, htwo, hbest⟩ := findSubsetCommitments_two hsum hsorted (.inl ⟨p, hp, hcovers⟩)
      have hsizes : List.range' 1 (maxPossibleCommitments + 1 - 1) = [1, 2] := rfl
      refine ⟨if two.isEmpty then [[c]] else [[c], two], ?_, ?_, fun other hother => ?_⟩
      · rw [if_neg hlen, candidateSubsets, if_neg (by decide), hsizes, List.foldlM_cons, hone]
        simp only [ok_bind, pure_bind, List.foldlM_cons, List.foldlM_nil, htwo]
        rfl
      · split_ifs
        · exact List.cons_ne_nil _ _
        · exact List.cons_ne_nil _ _
      · have hfirst : [c] ∈ (if two.isEmpty then [[c]] else [[c], two]) := by
          split_ifs
          · exact List.mem_cons_self
          · exact List.mem_cons_self
        rcases hother.cases with ⟨r, hr, hrcovers, hrsum⟩ | ⟨a, b, hsub, hab, habsum⟩
        · exact ⟨[c], hfirst, by rw [hsingle, hrsum]; exact hleast r hr hrcovers⟩
        · by_cases ha : target.val ≤ a.value.val
          · have hle := hleast a (hsub.subset List.mem_cons_self) ha
            exact ⟨[c], hfirst, by rw [hsingle, habsum]; omega⟩
          by_cases hb : target.val ≤ b.value.val
          · have hle := hleast b (hsub.subset (List.mem_cons_of_mem _ List.mem_cons_self)) hb
            exact ⟨[c], hfirst, by rw [hsingle, habsum]; omega⟩
          obtain ⟨hne, hle⟩ := hbest a b hsub (not_le.1 ha) (not_le.1 hb) hab
          refine ⟨two, ?_, habsum ▸ hle⟩
          rw [if_neg (by rwa [List.isEmpty_iff])]
          exact List.mem_cons_of_mem _ List.mem_cons_self
  · have hless := hneeds.all_less hsorted
    obtain ⟨rest, hlast⟩ := hneeds.last
    have hsub : [q, p].Sublist commitments := hlast ▸ List.sublist_append_right rest [q, p]
    obtain ⟨two, htwo, hbest⟩ := findSubsetCommitments_two hsum hsorted (.inr ⟨q, p, hsub,
      hless q (hsub.subset List.mem_cons_self), hneeds.less⟩)
    refine ⟨[two], ?_, List.cons_ne_nil _ _, fun other hother => ?_⟩
    · rw [candidateSubsets, if_pos (.inl rfl), htwo]
      rfl
    · refine ⟨two, List.mem_singleton_self _, ?_⟩
      rcases hother.cases with ⟨r, hr, hrcovers, -⟩ | ⟨a, b, hsub', hab, habsum⟩
      · exact absurd hrcovers (hless r hr).not_ge
      · rw [habsum]
        exact (hbest a b hsub' (hless a (hsub'.subset List.mem_cons_self))
          (hless b (hsub'.subset (List.mem_cons_of_mem _ List.mem_cons_self))) hab).2

theorem reaches_of_candidateSubsets (hsum : 2 * sumOf commitments < frModulus)
    (hsorted : commitments.Pairwise fun a b => a.value.val ≤ b.value.val)
    (hmin : calculateMinimumCommitments commitments target = .ok min)
    {subsets : List (List Preimage)}
    (h : candidateSubsets commitments target min max = .ok subsets) :
    ∀ subset ∈ subsets, Reaches commitments target.val subset := by
  have hpairs := pairsBelow_of_sumOf hsum
  have hle : sumOf commitments ≤ 2 * sumOf commitments := by omega
  intro subset hsubset
  obtain ⟨n, hfind, hne⟩ := mem_candidateSubsets h subset hsubset
  have hnil : subset ≠ [] := by
    rcases hne with hne | rfl
    · exact hne
    · rcases calculateMinimumCommitments_cases hsorted hmin with ⟨rfl, -⟩ | ⟨rfl, q, p, hneeds⟩
      · exact findSubsetCommitments_one_ne_nil hfind
      · exact findSubsetCommitments_two_ne_nil hpairs (lt_of_le_of_lt hle hsum) hsorted hneeds hfind
  exact ((findSubsetCommitments_enough hpairs hsorted hfind).resolve_left hnil).reaches
    (findSubsetCommitments_sublist hfind)

theorem Reaches.val_totalValue (h : Reaches commitments t subset)
    (hsum : 2 * sumOf commitments < frModulus) : (totalValue subset).val = sumOf subset := by
  have hle := sumOf_le h.subperm
  exact Wallet.val_totalValue (lt_of_le_of_lt (show sumOf subset ≤ 2 * sumOf commitments by omega)
    hsum)

theorem Reaches.val_changeOf (h : Reaches commitments target.val subset)
    (hsum : 2 * sumOf commitments < frModulus) :
    (changeOf target subset).val = sumOf subset - target.val := by
  have htotal := h.val_totalValue hsum
  rw [changeOf, ZMod.val_sub (by rw [htotal]; exact h.covers), htotal]

theorem mapM_difference {subsets : List (List Preimage)}
    (h : ∀ subset ∈ subsets, target.val ≤ (totalValue subset).val) :
    subsets.mapM (fun subset => difference (totalValue subset) target) =
      .ok (subsets.map (changeOf target)) := by
  induction subsets with
  | nil => rfl
  | cons subset subsets ih =>
    rw [List.mapM_cons, difference, if_pos (h subset List.mem_cons_self), ok_bind,
      ih fun s hs => h s (List.mem_cons_of_mem _ hs)]
    rfl

theorem selectCommitmentOrStop_eq (hsum : 2 * sumOf commitments < frModulus)
    (hsorted : commitments.Pairwise fun a b => a.value.val ≤ b.value.val)
    (hmin : calculateMinimumCommitments commitments target = .ok min) :
    selectCommitmentOrStop commitments target min max =
      (selectCommitment commitments target min max).mapError .failed := by
  rw [selectCommitmentOrStop, selectCommitment, candidateSubsetsOrStop_eq]
  cases hsubsets : candidateSubsets commitments target min max with
  | error message => rfl
  | ok subsets =>
    have hreaches := reaches_of_candidateSubsets hsum hsorted hmin hsubsets
    have hkeys := @mapM_difference target subsets fun subset hsubset => by
      rw [(hreaches subset hsubset).val_totalValue hsum]
      exact (hreaches subset hsubset).covers
    change (subsets.mapM (fun subset => difference (totalValue subset) target) >>= _) = _
    rw [hkeys, ok_bind, ok_bind]
    cases (subsets.insertionSort (Preferred target)).head? <;> rfl

theorem pairwise_preferred (target : Fr254) (subsets : List (List Preimage)) :
    (subsets.insertionSort (Preferred target)).Pairwise (Preferred target) := by
  have htotal : Std.Total (Preferred target) := by
    refine ⟨fun a b => ?_⟩
    rcases lt_trichotomy (changeOf target a).val (changeOf target b).val with hlt | heq | hgt
    · exact .inl (.inl hlt)
    · have heq' := ZMod.val_injective _ heq
      rcases le_total a.length b.length with hle | hle
      · exact .inr (.inr ⟨heq'.symm, hle⟩)
      · exact .inl (.inr ⟨heq', hle⟩)
    · exact .inr (.inl hgt)
  have htrans : IsTrans (List Preimage) (Preferred target) := by
    refine ⟨fun a b c hab hbc => ?_⟩
    rcases hab with hab | ⟨hab, hlen⟩
    · rcases hbc with hbc | ⟨hbc, -⟩
      · exact .inl (hab.trans hbc)
      · exact .inl (hbc ▸ hab)
    · rcases hbc with hbc | ⟨hbc, hlen'⟩
      · exact .inl (hab ▸ hbc)
      · exact .inr ⟨hab.trans hbc, hlen'.trans hlen⟩
  exact List.pairwise_insertionSort _ _

theorem selectCommitment_optimal (hsum : 2 * sumOf commitments < frModulus)
    (hsorted : commitments.Pairwise fun a b => a.value.val ≤ b.value.val)
    (hmin : calculateMinimumCommitments commitments target = .ok min) :
    ∃ subset, selectCommitment commitments target min
        (if commitments.length < maxPossibleCommitments then commitments.length
          else maxPossibleCommitments) = .ok (fun i => subset.getD i .default) ∧
      Reaches commitments target.val subset ∧
      ∀ other, Reaches commitments target.val other → sumOf subset ≤ sumOf other := by
  obtain ⟨subsets, hsubsets, hne, hbest⟩ := exists_candidateSubsets hsum hsorted hmin
  have hreaches := reaches_of_candidateSubsets hsum hsorted hmin hsubsets
  have hsort := pairwise_preferred target subsets
  have hperm := List.perm_insertionSort (Preferred target) subsets
  cases hsorted' : subsets.insertionSort (Preferred target) with
  | nil =>
    rw [hsorted'] at hperm
    exact absurd hperm.nil_eq.symm hne
  | cons best rest =>
    rw [hsorted'] at hperm hsort
    have hmem := hperm.mem_iff.1 List.mem_cons_self
    refine ⟨best, ?_, hreaches best hmem, fun other hother => ?_⟩
    · rw [selectCommitment, hsubsets, ok_bind, hsorted']
      rfl
    · obtain ⟨subset, hsubset, hle⟩ := hbest other hother
      refine le_trans ?_ hle
      rcases List.mem_cons.1 (hperm.mem_iff.2 hsubset) with rfl | hrest
      · exact le_rfl
      · have hval := (hreaches best hmem).val_changeOf hsum
        have hval' := (hreaches subset hsubset).val_changeOf hsum
        have hcovers := (hreaches best hmem).covers
        have hcovers' := (hreaches subset hsubset).covers
        rcases List.rel_of_pairwise_cons hsort hrest with hless | ⟨heq, -⟩
        · omega
        · rw [heq] at hval
          omega

end Reach

/-! ### The available commitments -/

section Available

variable {c : Commitments} {token target : Fr254}

/-- The preimages of the unspent commitments of a token. -/
def availablePreimages (c : Commitments) (token : Fr254) : List Preimage :=
  (availableEntries c token).map CommitmentEntry.preimage

theorem Reaches.of_perm {available available' subset : List Preimage} {t : ℕ}
    (h : Reaches available t subset) (hperm : available.Perm available') :
    Reaches available' t subset :=
  ⟨h.subperm.trans hperm.subperm, h.length, h.covers⟩

theorem fetchOnChainCommitments_eq : fetchOnChainCommitments c token =
    if availablePreimages c token = [] then .error "No commmitments found in the db"
    else .ok (availablePreimages c token) := by
  have hget : c.getAvailableCommitments token =
      if (availableEntries c token).isEmpty then none else some (availableEntries c token) := rfl
  rw [fetchOnChainCommitments, hget, availablePreimages]
  cases availableEntries c token with
  | nil => rfl
  | cons e es => rfl

theorem min_le_max {commitments : List Preimage} {min : ℕ}
    (hsorted : commitments.Pairwise fun a b => a.value.val ≤ b.value.val)
    (h : calculateMinimumCommitments commitments target = .ok min) :
    ¬maxPossibleCommitments < min := by
  rcases calculateMinimumCommitments_cases hsorted h with ⟨rfl, -⟩ | ⟨rfl, -⟩ <;> decide

theorem verifyEnoughCommitments_eq : verifyEnoughCommitments c token target =
    if availablePreimages c token = [] then .error "No commmitments found in the db"
    else (calculateMinimumCommitments (sortByValue (availablePreimages c token)) target).map
      fun min => (sortByValue (availablePreimages c token), min) := by
  rw [verifyEnoughCommitments, fetchOnChainCommitments_eq]
  split_ifs
  · rfl
  · rw [ok_bind]
    dsimp only
    cases hmin : calculateMinimumCommitments (sortByValue (availablePreimages c token)) target with
    | error message => rfl
    | ok min =>
      rw [ok_bind, if_neg (min_le_max (sorted_sortByValue _) hmin)]
      rfl

/-- **Nothing stops on the way**: the selection is the one without the checks. -/
theorem usableCommitmentsOrStop_eq (hsum : 2 * sumOf (availablePreimages c token) < frModulus) :
    usableCommitmentsOrStop c token target =
      (usableCommitments c token target).mapError .failed := by
  have hperm : (sortByValue (availablePreimages c token)).Perm (availablePreimages c token) :=
    List.perm_insertionSort _ _
  rw [← sumOf_perm hperm] at hsum
  rw [usableCommitmentsOrStop, usableCommitments, verifyEnoughCommitments_eq]
  split_ifs
  · rfl
  · cases hmin : calculateMinimumCommitments (sortByValue (availablePreimages c token)) target with
    | error message => rfl
    | ok min => exact selectCommitmentOrStop_eq hsum (sorted_sortByValue _) hmin

theorem usableCommitments_cases (hsum : 2 * sumOf (availablePreimages c token) < frModulus) :
    (∃ message, usableCommitments c token target = .error message ∧
      ∀ subset, ¬Reaches (availablePreimages c token) target.val subset) ∨
    ∃ subset, usableCommitments c token target = .ok (fun i => subset.getD i .default) ∧
      Reaches (availablePreimages c token) target.val subset ∧
      ∀ other, Reaches (availablePreimages c token) target.val other →
        sumOf subset ≤ sumOf other := by
  have hperm : (sortByValue (availablePreimages c token)).Perm (availablePreimages c token) :=
    List.perm_insertionSort _ _
  have hsum' := hsum
  rw [← sumOf_perm hperm] at hsum'
  have hsorted := sorted_sortByValue (availablePreimages c token)
  rw [usableCommitments, verifyEnoughCommitments_eq]
  split_ifs with hempty
  · refine .inl ⟨_, rfl, fun subset hsubset => ?_⟩
    rw [hempty] at hsubset
    have hlen := hsubset.subperm.length_le
    have hsize := hsubset.length
    rw [List.length_nil] at hlen
    omega
  · cases hmin : calculateMinimumCommitments (sortByValue (availablePreimages c token)) target with
    | error message =>
      refine .inl ⟨message, rfl, fun subset hsubset => ?_⟩
      obtain ⟨min, hmin'⟩ := exists_minimum hsum' hsorted (hsubset.of_perm hperm.symm)
      rw [hmin] at hmin'
      cases hmin'
    | ok min =>
      obtain ⟨subset, hselect, hreaches, hbest⟩ := selectCommitment_optimal hsum' hsorted hmin
      exact .inr ⟨subset, hselect, hreaches.of_perm hperm,
        fun other hother => hbest other (hother.of_perm hperm.symm)⟩

/-- **The selection is complete and optimal**: it succeeds if and only if one commitment or two
different ones reach the value, nothing leaves its range on the way, and what it takes leaves no more
change than any other one or two. -/
theorem selection_optimal (hsum : 2 * sumOf (availablePreimages c token) < frModulus) :
    ((∃ selected, usableCommitmentsOrStop c token target = .ok selected) ↔
      ∃ subset, Reaches (availablePreimages c token) target.val subset) ∧
    usableCommitmentsOrStop c token target ≠ .error .underflow ∧
    ∀ selected, usableCommitmentsOrStop c token target = .ok selected →
      ∃ subset, Reaches (availablePreimages c token) target.val subset ∧
        (∀ i, selected i = subset.getD i .default) ∧
        ∀ other, Reaches (availablePreimages c token) target.val other →
          sumOf subset - target.val ≤ sumOf other - target.val := by
  rw [usableCommitmentsOrStop_eq hsum]
  rcases @usableCommitments_cases c token target hsum with
    ⟨message, herror, hnone⟩ | ⟨subset, hok, hreaches, hbest⟩
  · rw [herror]
    refine ⟨⟨?_, ?_⟩, ?_, ?_⟩
    · rintro ⟨selected, h⟩
      cases h
    · rintro ⟨subset, h⟩
      exact absurd h (hnone subset)
    · intro h
      cases h
    · intro selected h
      cases h
  · rw [hok]
    refine ⟨⟨fun _ => ⟨subset, hreaches⟩, fun _ => ⟨_, rfl⟩⟩, ?_, ?_⟩
    · intro h
      cases h
    · intro selected h
      cases h
      exact ⟨subset, hreaches, fun i => rfl,
        fun other hother => Nat.sub_le_sub_right (hbest other hother) _⟩

/-- An unspent commitment. -/
def unspentOf (value : ℕ) : CommitmentEntry :=
  ⟨⟨value, 0, 0, .neutral, .transfer 0⟩, .unspent, value, 0, none, none⟩

/-- Three unspent commitments. -/
def threeUnspent : Commitments := ⟨[unspentOf 4, unspentOf 1, unspentOf 2], by decide +kernel⟩

theorem selection_optimal_sample : ∃ selected subset,
    usableCommitmentsOrStop threeUnspent 0 ((3 : ℕ) : Fr254) = .ok selected ∧
      Reaches (availablePreimages threeUnspent 0) 3 subset ∧
      (∀ i, selected i = subset.getD i .default) ∧
      ∀ other, Reaches (availablePreimages threeUnspent 0) 3 other →
        sumOf subset - 3 ≤ sumOf other - 3 := by
  have hsum : 2 * sumOf (availablePreimages threeUnspent 0) < frModulus := by decide +kernel
  have htarget : (((3 : ℕ) : Fr254)).val = 3 := by decide +kernel
  have hreaches : Reaches (availablePreimages threeUnspent 0) (((3 : ℕ) : Fr254)).val
      [(unspentOf 4).preimage] := by
    refine ⟨List.Sublist.subperm ?_, .inl rfl, ?_⟩
    · exact List.singleton_sublist.2 List.mem_cons_self
    · decide +kernel
  obtain ⟨hiff, -, hbest⟩ := @selection_optimal threeUnspent 0 ((3 : ℕ) : Fr254) hsum
  obtain ⟨selected, hselected⟩ := hiff.2 ⟨_, hreaches⟩
  obtain ⟨subset, hsubset⟩ := hbest selected hselected
  rw [htarget] at hsubset
  exact ⟨selected, subset, hselected, hsubset⟩

end Available

end Wallet

end Nightfall
