import Mathlib.Algebra.Module.Basic
import Nightfall.Data.Merging
import Nightfall.Verifier.Bn254Crypto

/-!
# `accumulate_scalar_with_same_base`

The commitments that are summed up in the opening check have repeated bases.  A nested loop adds up
the scalars of each base: it looks for the base among the first `uniqueCount` entries of two arrays
with room for all bases, and writes either the sum or a new entry.

The arrays hold the merged entries and zeros behind them (`foldl_accumulateScalar`), so the sum over
the merged entries is the one over all entries (`accumulateScalarWithSameBase_spec`).
-/

namespace Nightfall

namespace Verifier

open Evm Merging
open Node (element)

/-- `tempBases`, `tempScalars` and `uniqueCount`. -/
structure TempArrays where
  tempBases : List G1Point
  tempScalars : List U256
  uniqueCount : ℕ

/-- A step of the inner loop, which ends when the base is found: the scalars, and `found`. -/
def addScalar (tempBases : List G1Point) (base : G1Point) (scalar : U256)
    (acc : List U256 × Bool) (j : ℕ) : List U256 × Bool :=
  if acc.2 then acc
  else
    let tempBase := tempBases.getD j .zero
    if base.x = tempBase.x ∧ base.y = tempBase.y then
      (acc.1.set j (addmod (acc.1.getD j 0) scalar rMod), true)
    else acc

/-- A step of the outer loop. -/
def accumulateScalar (temp : TempArrays) (term : G1Point × U256) : TempArrays :=
  let inner := (List.range temp.uniqueCount).foldl (addScalar temp.tempBases term.1 term.2)
    (temp.tempScalars, false)
  if inner.2 then { temp with tempScalars := inner.1 }
  else {
    tempBases := temp.tempBases.set temp.uniqueCount term.1
    tempScalars := inner.1.set temp.uniqueCount term.2
    uniqueCount := temp.uniqueCount + 1 }

/-- `accumulate_scalar_with_same_base`. -/
def accumulateScalarWithSameBase (bases : List G1Point) (scalars : List U256) :
    Except Revert (List G1Point × List U256) := do
  require (bases.length = scalars.length) "Length mismatch"
  let temp := (bases.zip scalars).foldl accumulateScalar
    ⟨List.replicate bases.length .zero, List.replicate bases.length 0, 0⟩
  -- the arrays are cut to the entries that are used
  return ((List.range temp.uniqueCount).map fun i => temp.tempBases.getD i .zero,
    (List.range temp.uniqueCount).map fun i => temp.tempScalars.getD i 0)

/-! ### The inner loop -/

variable {base : G1Point} {scalar : U256} {entries : List (G1Point × U256)} {n : ℕ}

theorem foldl_addScalar (base : G1Point) (scalar : U256) (tempBases : List G1Point)
    (tempScalars : List U256) {m : ℕ} (hm : m ≤ tempBases.length) :
    (List.range m).foldl (addScalar tempBases base scalar) (tempScalars, false) =
      if base ∈ tempBases.take m then
        (tempScalars.set (tempBases.idxOf base)
          (addmod (tempScalars.getD (tempBases.idxOf base) 0) scalar rMod), true)
      else (tempScalars, false) := by
  induction m with
  | zero => simp
  | succ m ih =>
    have htake : base ∈ tempBases.take (m + 1) ↔ base ∈ tempBases.take m ∨ base = tempBases[m] := by
      rw [List.take_add_one, List.getElem?_eq_getElem (by omega), List.mem_append,
        Option.toList_some, List.mem_singleton]
    rw [List.range_succ, List.foldl_append, ih (by omega)]
    by_cases hbase : base ∈ tempBases.take m
    · -- nothing happens after the base was found
      simp [hbase, htake, addScalar]
    · have hget : tempBases.getD m .zero = tempBases[m] := List.getD_eq_getElem _ _ (by omega)
      simp only [hbase, htake, List.foldl_cons, List.foldl_nil, addScalar, hget, false_or, if_false,
        Bool.false_eq_true]
      have hpoint : (base.x = tempBases[m].x ∧ base.y = tempBases[m].y) ↔ base = tempBases[m] := by
        cases base
        cases tempBases[m]
        simp
      by_cases heq : base = tempBases[m]
      · -- the entry is the first one with this base
        have hidx : tempBases.idxOf base = m := by
          rw [← List.take_append_drop m tempBases, List.idxOf_append_of_notMem hbase,
            List.drop_eq_getElem_cons (by omega), ← heq, List.idxOf_cons_self, List.length_take]
          omega
        rw [if_pos (hpoint.2 heq), if_pos heq, hidx]
      · rw [if_neg (mt hpoint.1 heq), if_neg heq]

/-! ### The arrays -/

/-- The arrays with room for `n` entries, of which `entries` are used. -/
def TempArrays.holding (n : ℕ) (entries : List (G1Point × U256)) : TempArrays where
  tempBases := keys entries ++ List.replicate (n - entries.length) .zero
  tempScalars := entries.map Prod.snd ++ List.replicate (n - entries.length) 0
  uniqueCount := entries.length

/-- The sum modulo `r_mod`, for scalars of the same base. -/
abbrev addScalars (a b : U256) : U256 := addmod a b rMod

/-- A step merges one entry into those that the arrays hold. -/
theorem accumulateScalar_holding (hlen : entries.length < n) :
    accumulateScalar (.holding n entries) (base, scalar) =
      .holding n (addTo addScalars base scalar entries) := by
  have htake : (keys entries ++ List.replicate (n - entries.length) G1Point.zero).take
      entries.length = keys entries := List.take_left' (List.length_map _)
  have hinner := foldl_addScalar base scalar
    (keys entries ++ List.replicate (n - entries.length) .zero)
    (entries.map Prod.snd ++ List.replicate (n - entries.length) 0)
    (show entries.length ≤ _ by simp [keys])
  rw [htake] at hinner
  simp only [accumulateScalar, TempArrays.holding, hinner]
  by_cases hbase : base ∈ keys entries
  · -- the place of the base lies in the part that is used
    have hidx : (keys entries ++ List.replicate (n - entries.length) G1Point.zero).idxOf base =
        (keys entries).idxOf base := List.idxOf_append_of_mem hbase
    have hlt : (keys entries).idxOf base < (entries.map Prod.snd).length := by
      simpa [keys] using List.idxOf_lt_length_of_mem hbase
    have hkeys := keys_addTo addScalars base scalar entries
    rw [if_pos hbase] at hkeys
    have hvalues := congrArg (List.map Prod.snd) (addTo_of_mem addScalars scalar 0 hbase)
    rw [List.map_set] at hvalues
    have hlength := congrArg List.length hkeys
    rw [List.length_map, List.length_map] at hlength
    rw [if_pos hbase, if_pos rfl, hidx, hkeys, hvalues, hlength,
      List.set_append_left _ _ hlt, List.getD_append _ _ _ _ hlt]
  · -- a new entry takes the place of a zero
    have hroom : n - entries.length = n - (entries.length + 1) + 1 := by omega
    rw [if_neg hbase, if_neg Bool.false_ne_true, addTo_of_notMem hbase]
    have hset {α : Type} (l : List α) (a z : α) (hl : l.length = entries.length) :
        (l ++ List.replicate (n - entries.length) z).set entries.length a =
          l ++ [a] ++ List.replicate (n - (entries.length + 1)) z := by
      rw [hroom, List.replicate_succ, ← hl, List.set_append_right _ _ le_rfl, Nat.sub_self,
        List.set_cons_zero, List.append_assoc, List.singleton_append]
    simp only [hset _ base _ (List.length_map _), hset _ scalar _ (List.length_map _), keys,
      List.map_append, List.map_singleton, List.length_append, List.length_singleton]

/-- **The loops merge the entries.** -/
theorem foldl_accumulateScalar (hlen : entries.length ≤ n) :
    entries.foldl accumulateScalar (.holding n []) = .holding n (merge addScalars entries) := by
  induction entries using List.reverseRecOn with
  | nil => rfl
  | append_singleton entries e ih =>
    rw [List.length_append, List.length_singleton] at hlen
    rw [List.foldl_append, ih (by omega), merge_append_singleton]
    exact accumulateScalar_holding (lt_of_le_of_lt length_merge_le (by omega))

theorem accumulateScalarWithSameBase_eq {bases : List G1Point} {scalars : List U256}
    (hlen : bases.length = scalars.length) :
    accumulateScalarWithSameBase bases scalars =
      .ok (keys (merge addScalars (bases.zip scalars)),
        (merge addScalars (bases.zip scalars)).map Prod.snd) := by
  have hzip : (bases.zip scalars).length = bases.length := by simp [hlen]
  have hstart : (⟨List.replicate bases.length .zero, List.replicate bases.length 0, 0⟩ :
      TempArrays) = .holding bases.length [] := rfl
  -- the entries that are used are copied
  have hcopy {α : Type} (l zeros : List α) (d : α) {m : ℕ} (hm : l.length = m) :
      ((List.range m).map fun i => (l ++ zeros).getD i d) = l := by
    apply List.ext_getElem
    · simp [hm]
    · intro i hi hi'
      simp [List.getD_eq_getElem?_getD, List.getElem?_append_left hi',
        List.getElem?_eq_getElem hi']
  rw [accumulateScalarWithSameBase, require, if_pos hlen, ok_bind, hstart,
    foldl_accumulateScalar hzip.le]
  simp only [TempArrays.holding]
  rw [hcopy _ _ _ (List.length_map _), hcopy _ _ _ (List.length_map _)]
  rfl

/-! ### The sum -/

/-- The sum of the multiples of the points. -/
def scalarSum {A : Type} [AddCommGroup A] (point : G1Point → A) (bases : List G1Point)
    (scalars : List U256) : A :=
  total (fun base scalar => scalar.toNat • point base) (bases.zip scalars)

/-- In a group whose order divides the modulus, multiples are added like scalars. -/
theorem addScalars_nsmul {A : Type} [AddCommGroup A] (horder : ∀ a : A, frModulus • a = 0)
    (s t : U256) (a : A) : (addScalars s t).toNat • a = s.toNat • a + t.toNat • a := by
  have hmod (m : ℕ) : (m % frModulus) • a = m • a := by
    nth_rewrite 2 [← Nat.mod_add_div m frModulus]
    rw [add_smul, mul_comm, mul_smul, horder, smul_zero, add_zero]
  rw [addScalars, addmod_rMod, toNat_ofNat_mod, hmod, add_smul]

/-- **Merging equal bases keeps the sum.**  For any group whose order divides `r_mod`, and any
reading of bases as its elements. -/
theorem accumulateScalarWithSameBase_spec {A : Type} [AddCommGroup A] (point : G1Point → A)
    (horder : ∀ a : A, frModulus • a = 0) (bases : List G1Point) (scalars : List U256)
    (hlen : bases.length = scalars.length) :
    ∃ bases' scalars', accumulateScalarWithSameBase bases scalars = .ok (bases', scalars') ∧
      bases'.length = scalars'.length ∧ bases'.Nodup ∧ (∀ base ∈ bases', base ∈ bases) ∧
      (∀ base ∈ bases, bases'.count base = 1) ∧
      scalarSum point bases' scalars' = scalarSum point bases scalars := by
  have hkeys : keys (bases.zip scalars) = bases := List.map_fst_zip hlen.le
  have hmem (base : G1Point) :
      base ∈ keys (merge addScalars (bases.zip scalars)) ↔ base ∈ bases := by
    rw [mem_keys_merge, hkeys]
  refine ⟨_, _, accumulateScalarWithSameBase_eq hlen, ?_, nodup_keys_merge,
    fun base => (hmem base).1, fun base hbase => ?_, ?_⟩
  · rw [keys, List.length_map, List.length_map]
  · exact List.count_eq_one_of_mem nodup_keys_merge ((hmem base).2 hbase)
  · have hzip : (keys (merge addScalars (bases.zip scalars))).zip
        ((merge addScalars (bases.zip scalars)).map Prod.snd) =
          merge addScalars (bases.zip scalars) := by
      rw [keys, List.zip_map']
      exact List.map_id _
    rw [scalarSum, hzip, total_merge fun base s t => addScalars_nsmul horder s t (point base)]
    rfl

/-- A repeated base with a scalar that is not reduced, and the point at infinity. -/
theorem accumulateScalarWithSameBase_repeated :
    let bases : List G1Point := [⟨1, 2⟩, .zero, ⟨1, 2⟩]
    let scalars : List U256 := [rMod + 4, 0, 5]
    accumulateScalarWithSameBase bases scalars = .ok ([⟨1, 2⟩, .zero], [9, 0]) ∧
      (∀ a : Fr254, frModulus • a = 0) ∧ bases.length = scalars.length ∧
      ∃ bases' scalars', accumulateScalarWithSameBase bases scalars = .ok (bases', scalars') ∧
        scalarSum (fun base => element base.x) bases' scalars' =
          scalarSum (fun base => element base.x) bases scalars := by
  have horder (a : Fr254) : frModulus • a = 0 := by rw [nsmul_eq_mul, ZMod.natCast_self, zero_mul]
  refine ⟨by decide +kernel, horder, rfl, ?_⟩
  obtain ⟨bases', scalars', heq, -, -, -, -, hsum⟩ := accumulateScalarWithSameBase_spec
    (fun base => element base.x) horder [⟨1, 2⟩, .zero, ⟨1, 2⟩] [rMod + 4, 0, 5] rfl
  exact ⟨bases', scalars', heq, hsum⟩

end Verifier

end Nightfall
