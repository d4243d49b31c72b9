import Mathlib.Data.List.FinRange
import Mathlib.Data.List.Range

/-!
# Chunks of a list

`chunks k l` cuts a list into parts of length `k`.  If `k` divides the length of the list, all parts
have it, and there are `l.length / k` of them.
-/

namespace Nightfall

variable {α : Type} {k : ℕ} {l : List α}

/-- The parts of length `k`, in order; the last one has what remains. -/
def chunks (k : ℕ) (l : List α) : List (List α) :=
  (List.range ((l.length + k - 1) / k)).map fun i => (l.drop (i * k)).take k

theorem chunks_nil (hk : 0 < k) : chunks k ([] : List α) = [] := by
  rw [chunks, List.length_nil, Nat.zero_add, Nat.div_eq_of_lt (by omega)]
  rfl

theorem chunks_append {a : List α} (hk : 0 < k) (ha : a.length = k) (l : List α) :
    chunks k (a ++ l) = a :: chunks k l := by
  have hlen : (a ++ l).length + k - 1 = l.length + k - 1 + k := by
    rw [List.length_append]
    omega
  rw [chunks, chunks, hlen, Nat.add_div_right _ hk, List.range_succ_eq_map, List.map_cons,
    List.map_map]
  congr 1
  · rw [Nat.zero_mul, List.drop_zero, ← ha, List.take_left']
    rfl
  · refine List.map_congr_left fun i _ => ?_
    rw [Function.comp_apply, Nat.succ_eq_add_one, Nat.add_mul, Nat.one_mul, Nat.add_comm,
      ← List.drop_drop, ← ha, List.drop_left']
    rfl

theorem chunks_of_ne_nil (hk : 0 < k) (hl : l ≠ []) :
    chunks k l = l.take k :: chunks k (l.drop k) := by
  have hpos := List.length_pos_iff.2 hl
  rcases Nat.le_total k l.length with hle | hle
  · have htake : (l.take k).length = k := by rw [List.length_take, min_eq_left hle]
    conv_lhs => rw [← List.take_append_drop k l]
    exact chunks_append hk htake _
  · have hone : (l.length + k - 1) / k = 1 :=
      Nat.div_eq_of_lt_le (by omega) (by omega)
    rw [List.drop_of_length_le hle, chunks_nil hk, chunks, hone]
    simp

theorem flatten_chunks (hk : 0 < k) (l : List α) : (chunks k l).flatten = l := by
  induction hn : l.length using Nat.strong_induction_on generalizing l with
  | _ n ih =>
    by_cases hl : l = []
    · rw [hl, chunks_nil hk]
      rfl
    · have hpos := List.length_pos_iff.2 hl
      have hlt : (l.drop k).length < n := by
        rw [List.length_drop]
        omega
      rw [chunks_of_ne_nil hk hl, List.flatten_cons, ih _ hlt _ rfl, List.take_append_drop]

theorem take_chunks (hk : 0 < k) {n : ℕ} (h : n * k ≤ l.length) :
    (chunks k l).take n = List.ofFn fun i : Fin n => (l.drop (i * k)).take k := by
  have hn : n ≤ (l.length + k - 1) / k := (Nat.le_div_iff_mul_le hk).2 (by omega)
  rw [chunks, ← List.map_take, List.take_range, min_eq_left hn, List.ofFn_eq_map,
    ← List.map_coe_finRange_eq_range, List.map_map]
  rfl

/-- Parts of the length `k` are chunks. -/
theorem chunks_flatten_append (hk : 0 < k) {parts : List (List α)}
    (hparts : ∀ part ∈ parts, part.length = k) (rest : List α) :
    chunks k (parts.flatten ++ rest) = parts ++ chunks k rest := by
  induction parts with
  | nil => rfl
  | cons part parts ih =>
    rw [List.forall_mem_cons] at hparts
    rw [List.flatten_cons, List.append_assoc, chunks_append hk hparts.1, ih hparts.2,
      List.cons_append]

/-- What the chunks of a list whose length is a multiple of `k` are. -/
theorem chunks_spec (hk : 0 < k) (h : l.length % k = 0) :
    (chunks k l).length = l.length / k ∧ (∀ c ∈ chunks k l, c.length = k) ∧
      (chunks k l).flatten = l := by
  obtain ⟨n, hn⟩ := Nat.dvd_of_mod_eq_zero h
  induction n generalizing l with
  | zero =>
    obtain rfl := List.eq_nil_of_length_eq_zero (by simpa using hn)
    simp [chunks_nil hk]
  | succ n ih =>
    have hlen : l.length = k + k * n := by rw [hn, Nat.mul_succ, Nat.add_comm]
    have htake : (l.take k).length = k := by rw [List.length_take, hlen]; omega
    have hdrop : (l.drop k).length = k * n := by rw [List.length_drop, hlen]; omega
    obtain ⟨ih₁, ih₂, ih₃⟩ := ih (by rw [hdrop, Nat.mul_mod_right]) hdrop
    rw [← List.take_append_drop k l, chunks_append hk htake]
    refine ⟨?_, ?_, ?_⟩
    · rw [List.length_cons, ih₁, hdrop, List.take_append_drop, hlen,
        Nat.mul_div_cancel_left _ hk, Nat.add_mul_div_left _ _ hk, Nat.div_self hk, Nat.add_comm]
    · rw [List.forall_mem_cons]
      exact ⟨htake, ih₂⟩
    · rw [List.flatten_cons, ih₃]

/-- All chunks but the last one have the length `k`. -/
theorem length_of_mem_dropLast_chunks (hk : 0 < k) {c : List α} (hc : c ∈ (chunks k l).dropLast) :
    c.length = k := by
  induction hn : l.length using Nat.strong_induction_on generalizing l with
  | _ n ih =>
    by_cases hl : l = []
    · rw [hl, chunks_nil hk] at hc
      cases hc
    · have hpos := List.length_pos_iff.2 hl
      rw [chunks_of_ne_nil hk hl] at hc
      by_cases hdrop : l.drop k = []
      · rw [hdrop, chunks_nil hk] at hc
        cases hc
      · rw [List.dropLast_cons_of_ne_nil (by rw [chunks_of_ne_nil hk hdrop]; exact List.cons_ne_nil _ _)]
          at hc
        have hlt := List.length_pos_iff.2 hdrop
        rw [List.length_drop] at hlt
        rcases List.mem_cons.1 hc with rfl | hrest
        · rw [List.length_take]
          omega
        · exact ih _ (by rw [List.length_drop]; omega) hrest rfl

theorem ne_nil_of_mem_chunks {c : List α} (hk : 0 < k) (hc : c ∈ chunks k l) : c ≠ [] := by
  obtain ⟨i, hi, rfl⟩ := List.mem_map.1 hc
  have hlt : i + 1 ≤ (l.length + k - 1) / k := List.mem_range.1 hi
  have hmul := (Nat.le_div_iff_mul_le hk).1 hlt
  rw [Nat.add_mul, Nat.one_mul] at hmul
  rw [← List.length_pos_iff, List.length_take, List.length_drop]
  omega

theorem length_le_of_mem_chunks {c : List α} (hc : c ∈ chunks k l) : c.length ≤ k := by
  obtain ⟨i, -, rfl⟩ := List.mem_map.1 hc
  exact List.length_take_le k _

/-- The entries of a chunk are those of the list. -/
theorem getD_chunks {i j : ℕ} (hi : i < (chunks k l).length) (hj : j < k) (z : α) :
    (chunks k l)[i].getD j z = l.getD (k * i + j) z := by
  simp only [chunks, List.getElem_map, List.getElem_range]
  rw [List.getD_eq_getElem?_getD, List.getElem?_take_of_lt hj, List.getElem?_drop,
    ← List.getD_eq_getElem?_getD, Nat.mul_comm]

end Nightfall
