import Mathlib.Data.List.Sort
import Mathlib.Logic.Basic

/-!
# The best of a list

`ranked key l` is `l` in descending order of a key; elements with equal keys stay in their order.  The
first `k` elements are a choice of the best ones (`key_le_of_mem_drop`).
-/

namespace Nightfall

variable {α β : Type}

/-- The list in descending order of the key. -/
def ranked (key : α → ℕ) (l : List α) : List α := l.insertionSort fun a b => key b ≤ key a

theorem ranked_perm (key : α → ℕ) (l : List α) : (ranked key l).Perm l :=
  List.perm_insertionSort _ l

theorem mem_ranked {key : α → ℕ} {l : List α} {a : α} : a ∈ ranked key l ↔ a ∈ l :=
  (ranked_perm key l).mem_iff

theorem ranked_pairwise (key : α → ℕ) (l : List α) :
    (ranked key l).Pairwise fun a b => key b ≤ key a := by
  have htotal : Std.Total fun a b : α => key b ≤ key a := ⟨fun a b => Nat.le_total (key b) (key a)⟩
  have htrans : IsTrans α fun a b => key b ≤ key a := ⟨fun a b c hab hbc => hbc.trans hab⟩
  exact List.pairwise_insertionSort _ l

/-- No element that is left out has a larger key than one that is chosen. -/
theorem key_le_of_mem_drop (key : α → ℕ) {l : List α} {k : ℕ} {a b : α}
    (ha : a ∈ (ranked key l).take k) (hb : b ∈ (ranked key l).drop k) : key b ≤ key a := by
  have hpairwise := ranked_pairwise key l
  rw [← List.take_append_drop k (ranked key l), List.pairwise_append] at hpairwise
  exact hpairwise.2.2 a ha b hb

/-- The images of the elements in the order of the elements. -/
theorem map_ranked {key : α → ℕ} (key' : β → ℕ) {f : α → β} (h : ∀ a, key' (f a) = key a)
    (l : List α) : (ranked key l).map f = ranked key' (l.map f) :=
  List.map_insertionSort _ _ f l fun a _ b _ => by rw [h, h]

/-- What is kept of a list that consists of `a` and `b`, if nothing of `a` is kept. -/
theorem filter_perm_of_perm_append {l a b : List α} {p : α → Bool} (h : l.Perm (a ++ b))
    (ha : ∀ x ∈ a, p x = false) : (l.filter p).Perm (b.filter p) := by
  have hnil : a.filter p = [] := by
    rw [List.filter_eq_nil_iff]
    intro x hx hpx
    rw [ha x hx] at hpx
    cases hpx
  have hperm := h.filter p
  rwa [List.filter_append, hnil, List.nil_append] at hperm

/-- What is deleted from a list that consists of `a` and `b`, if all of `a` is deleted: nothing else,
if the rest of the list and `a` are still the whole list. -/
theorem perm_append_filter_iff {l a b : List α} {p : α → Bool} (h : l.Perm (a ++ b))
    (ha : ∀ x ∈ a, p x = false) : l.Perm (a ++ l.filter p) ↔ ∀ x ∈ b, p x = true := by
  have hfilter := filter_perm_of_perm_append h ha
  constructor
  · intro hperm
    have hlength := (h.symm.trans (hperm.trans (hfilter.append_left a))).length_eq
    rw [List.length_append, List.length_append, Nat.add_left_cancel_iff] at hlength
    rw [← List.filter_eq_self]
    exact (List.filter_sublist.eq_of_length hlength.symm)
  · intro hall
    rw [← List.filter_eq_self] at hall
    rw [hall] at hfilter
    exact h.trans (hfilter.symm.append_left a)

/-- Nothing that is deleted from a list stays in it. -/
theorem append_filter_subperm {l a b : List α} {p : α → Bool} (h : l.Perm (a ++ b))
    (ha : ∀ x ∈ a, p x = false) : (a ++ l.filter p).Subperm l :=
  ((filter_perm_of_perm_append h ha).append_left a).subperm.trans
    ((List.filter_sublist.append_left a).subperm.trans h.symm.subperm)

end Nightfall
