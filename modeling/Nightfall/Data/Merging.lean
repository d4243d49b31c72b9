import Mathlib.Algebra.BigOperators.Group.List.Basic
import Mathlib.Data.List.Induction
import Mathlib.Data.List.Nodup

/-!
# Merging entries with equal keys

`merge add entries` goes through a list of keys and values and adds the value of an entry to the
entry with its key that was found before, or appends it.  The keys of the result are distinct and
those of the list (`nodup_keys_merge`, `mem_keys_merge`); every sum of weights in which `add` is a
sum is the same for both (`total_merge`).
-/

namespace Nightfall

namespace Merging

variable {K V A : Type} [DecidableEq K] (add : V → V → V)

/-- Add `v` to the entry of `k`. -/
def addTo (k : K) (v : V) : List (K × V) → List (K × V)
  | [] => [(k, v)]
  | e :: entries => if e.1 = k then (k, add e.2 v) :: entries else e :: addTo k v entries

/-- All entries, one after the other. -/
def merge (entries : List (K × V)) : List (K × V) :=
  entries.foldl (fun merged e => addTo add e.1 e.2 merged) []

/-- The keys of a list of entries. -/
abbrev keys (entries : List (K × V)) : List K := entries.map Prod.fst

/-- The sum of the weights of the entries. -/
def total [AddCommMonoid A] (weight : K → V → A) (entries : List (K × V)) : A :=
  (entries.map fun e => weight e.1 e.2).sum

variable {add} {k : K} {v : V} {entries : List (K × V)}

/-! ### One entry -/

theorem addTo_of_notMem (h : k ∉ keys entries) : addTo add k v entries = entries ++ [(k, v)] := by
  induction entries with
  | nil => rfl
  | cons e entries ih =>
    have hne : e.1 ≠ k := fun he => h (by simp [he])
    rw [addTo, if_neg hne, ih fun hk => h (by simp [hk]), List.cons_append]

/-- The value is added in the place of the key. -/
theorem addTo_of_mem (add : V → V → V) (v d : V) (h : k ∈ keys entries) :
    addTo add k v entries = entries.set ((keys entries).idxOf k)
      (k, add ((entries.map Prod.snd).getD ((keys entries).idxOf k) d) v) := by
  induction entries with
  | nil => exact absurd h List.not_mem_nil
  | cons e entries ih =>
    by_cases he : e.1 = k
    · simp [addTo, he]
    · have hk : k ∈ keys entries := by simpa [Ne.symm he] using h
      have hidx : (keys (e :: entries)).idxOf k = (keys entries).idxOf k + 1 :=
        List.idxOf_cons_ne _ he
      rw [addTo, if_neg he, hidx, List.set_cons_succ, List.map_cons, List.getD_cons_succ, ih hk]

theorem keys_addTo (add : V → V → V) (k : K) (v : V) (entries : List (K × V)) :
    keys (addTo add k v entries) = if k ∈ keys entries then keys entries
      else keys entries ++ [k] := by
  split_ifs with h
  · induction entries with
    | nil => exact absurd h List.not_mem_nil
    | cons e entries ih =>
      by_cases he : e.1 = k
      · simp [addTo, he, keys]
      · have hk : k ∈ keys entries := by simpa [Ne.symm he] using h
        rw [addTo, if_neg he]
        exact congrArg (List.cons e.1) (ih hk)
  · rw [addTo_of_notMem h]
    simp [keys]

/-- The weight of the new value comes on top. -/
theorem total_addTo [AddCommMonoid A] {weight : K → V → A}
    (hadd : ∀ k v w, weight k (add v w) = weight k v + weight k w) :
    total weight (addTo add k v entries) = total weight entries + weight k v := by
  induction entries with
  | nil => simp [addTo, total]
  | cons e entries ih =>
    by_cases he : e.1 = k
    · subst he
      simp [addTo, total, hadd, add_assoc, add_comm]
    · have htotal (l : List (K × V)) : total weight (e :: l) = weight e.1 e.2 + total weight l := by
        simp [total]
      rw [addTo, if_neg he, htotal, htotal, ih, add_assoc]

/-! ### All entries -/

theorem merge_append_singleton (e : K × V) :
    merge add (entries ++ [e]) = addTo add e.1 e.2 (merge add entries) := by
  rw [merge, List.foldl_append]
  rfl

theorem mem_keys_merge : k ∈ keys (merge add entries) ↔ k ∈ keys entries := by
  induction entries using List.reverseRecOn with
  | nil => rfl
  | append_singleton entries e ih =>
    rw [merge_append_singleton, keys_addTo]
    split_ifs with h
    · -- the key of the last entry was there
      rw [ih, keys, keys, List.map_append, List.mem_append, or_iff_left_of_imp]
      intro hk
      rw [List.map_singleton, List.mem_singleton] at hk
      exact hk ▸ (by simpa [hk] using ih.1 (hk ▸ h))
    · simp only [keys] at ih
      simp [keys, ih]

theorem nodup_keys_merge : (keys (merge add entries)).Nodup := by
  induction entries using List.reverseRecOn with
  | nil => exact List.nodup_nil
  | append_singleton entries e ih =>
    rw [merge_append_singleton, keys_addTo]
    split_ifs with h
    · exact ih
    · exact List.nodup_append.2 ⟨ih, List.nodup_singleton _, fun a ha b hb hab =>
        h (List.mem_singleton.1 hb ▸ hab ▸ ha)⟩

/-- **Merging keeps sums.** -/
theorem total_merge [AddCommMonoid A] {weight : K → V → A}
    (hadd : ∀ k v w, weight k (add v w) = weight k v + weight k w) :
    total weight (merge add entries) = total weight entries := by
  induction entries using List.reverseRecOn with
  | nil => rfl
  | append_singleton entries e ih =>
    rw [merge_append_singleton, total_addTo hadd, ih]
    simp [total]

theorem length_merge_le : (merge add entries).length ≤ entries.length := by
  induction entries using List.reverseRecOn with
  | nil => exact Nat.le_refl 0
  | append_singleton entries e ih =>
    have hlen := congrArg List.length (keys_addTo add e.1 e.2 (merge add entries))
    rw [List.length_map] at hlen
    rw [merge_append_singleton, hlen]
    split_ifs <;> simp only [List.length_append, List.length_map, List.length_singleton] <;> omega

end Merging

end Nightfall
