import Mathlib.Data.List.Nodup
import Mathlib.Order.Lattice

/-!
# Sorted linked lists

Records that are sorted by a value, each of which names the one with the next larger value
(`SortedLinks`).  Every record names the least of the larger ones (`SortedLinks.names`), and a new record is
inserted by a change of the record below it (`SortedLinks.insert`).
-/

namespace Nightfall

variable {α K : Type*} [LinearOrder K] {value : α → K} {Names : α → Option α → Prop}

/-- The records are in the order of their values, and each one names what follows it. -/
def SortedLinks (value : α → K) (Names : α → Option α → Prop) : List α → Prop
  | [] => True
  | r :: l => Names r l.head? ∧ (∀ s ∈ l.head?, value r < value s) ∧ SortedLinks value Names l

namespace SortedLinks

theorem sorted {l : List α} (h : SortedLinks value Names l) :
    l.Pairwise fun r s => value r < value s := by
  induction l with
  | nil => exact .nil
  | cons r l ih =>
    obtain ⟨-, hhead, hrest⟩ := h
    have hl := ih hrest
    refine List.pairwise_cons.2 ⟨fun s hs => ?_, hl⟩
    cases l with
    | nil => exact absurd hs List.not_mem_nil
    | cons t l =>
      have ht : value r < value t := hhead t rfl
      rcases List.mem_cons.1 hs with rfl | hs
      · exact ht
      · exact ht.trans ((List.pairwise_cons.1 hl).1 s hs)

theorem nodup_values {l : List α} (h : SortedLinks value Names l) : (l.map value).Nodup := by
  rw [List.Nodup, List.pairwise_map]
  exact h.sorted.imp ne_of_lt

/-- A record names the least of the larger ones, and the largest record names none. -/
theorem names {l : List α} (h : SortedLinks value Names l) {r : α} (hr : r ∈ l) :
    (∃ t ∈ l, Names r (some t) ∧ value r < value t ∧
        ∀ s ∈ l, value r < value s → value t ≤ value s) ∨
      Names r none ∧ ∀ s ∈ l, value s ≤ value r := by
  induction l with
  | nil => exact absurd hr List.not_mem_nil
  | cons a l ih =>
    have hsorted := List.pairwise_cons.1 h.sorted
    obtain ⟨hnames, hhead, hrest⟩ := h
    rcases List.mem_cons.1 hr with rfl | hr
    · cases l with
      | nil =>
        refine .inr ⟨hnames, fun s hs => ?_⟩
        rw [List.mem_singleton.1 hs]
      | cons t l =>
        refine .inl ⟨t, by simp, hnames, hhead t rfl, fun s hs hlt => ?_⟩
        rcases List.mem_cons.1 hs with rfl | hs
        · exact absurd hlt (lt_irrefl _)
        · rcases List.mem_cons.1 hs with rfl | hs
          · exact le_rfl
          · exact ((List.pairwise_cons.1 hsorted.2).1 s hs).le
    · have har := hsorted.1 r hr
      rcases ih hrest hr with ⟨t, ht, hname, hlt, hleast⟩ | ⟨hname, hlargest⟩
      · refine .inl ⟨t, List.mem_cons_of_mem _ ht, hname, hlt, fun s hs hrs => ?_⟩
        rcases List.mem_cons.1 hs with rfl | hs
        · exact absurd (hrs.trans har) (lt_irrefl _)
        · exact hleast s hs hrs
      · refine .inr ⟨hname, fun s hs => ?_⟩
        rcases List.mem_cons.1 hs with rfl | hs
        · exact har.le
        · exact hlargest s hs

/-- A record between `low`, which becomes `low'`, and the ones above it. -/
theorem insert {pre post : List α} {low low' new : α} (h : SortedLinks value Names (pre ++ low :: post))
    (hvalue : value low' = value low) (hname : ∀ r, Names r (some low) → Names r (some low'))
    (hlow : Names low' (some new)) (hnew : ∀ o, Names low o → Names new o)
    (hlt : value low < value new) (hpost : ∀ s ∈ post, value new < value s) :
    SortedLinks value Names (pre ++ low' :: new :: post) := by
  induction pre with
  | nil =>
    obtain ⟨hnames, -, hrest⟩ := h
    refine ⟨hlow, ?_, hnew _ hnames, fun s hs => hpost s (List.mem_of_mem_head? hs), hrest⟩
    rintro _ ⟨⟩
    rwa [hvalue]
  | cons p pre ih =>
    obtain ⟨hnames, hhead, hrest⟩ := h
    have htail := ih hrest
    cases pre with
    | nil =>
      refine ⟨hname p hnames, ?_, htail⟩
      rintro _ ⟨⟩
      rw [hvalue]
      exact hhead low rfl
    | cons q pre => exact ⟨hnames, hhead, htail⟩

end SortedLinks

end Nightfall
