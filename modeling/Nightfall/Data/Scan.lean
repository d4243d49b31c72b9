import Mathlib.Data.List.Basic
import Mathlib.Data.List.TakeWhile

/-!
# Words in a text

`scan p words` reads words one after the other, each behind any number of characters of a class `p`,
and returns what is left.  What it reads is not changed by text behind it (`scan_append`), nor by
one character there which cannot be a part of a word (`scan_append_cons`).
-/

namespace Nightfall

namespace Scan

/-- What is left behind the words of a list, with characters of a class before each. -/
def scan (p : Char → Bool) (words : List (List Char)) (l : List Char) : Option (List Char) :=
  words.foldlM (fun l word => (l.dropWhile p).dropPrefix? word) l

/-- A word that begins with a character which is not of the class. -/
def IsWord (p : Char → Bool) (w : List Char) : Prop := w.head?.any (!p ·) = true

variable {p q : Char → Bool} {w l r : List Char} {ws ws' : List (List Char)} {a : Char}

instance decidableIsWord (p : Char → Bool) (w : List Char) : Decidable (IsWord p w) :=
  inferInstanceAs (Decidable (_ = _))

theorem dropPrefix?_eq_some : l.dropPrefix? w = some r ↔ l = w ++ r := by
  rw [List.dropPrefix?_eq_some_iff]
  constructor
  · rintro ⟨w', rfl, hw⟩
    rw [eq_of_beq hw]
  · intro h
    exact ⟨w, h, beq_self_eq_true w⟩

theorem dropPrefix?_singleton (c a : Char) (l : List Char) :
    (c :: l).dropPrefix? [a] = if c = a then some l else none := by
  rw [List.dropPrefix?]
  split_ifs with hc <;> simp_all

theorem scan_nil : scan p [] l = some l := rfl

theorem scan_cons : scan p (w :: ws) l = ((l.dropWhile p).dropPrefix? w).bind (scan p ws) := rfl

theorem IsWord.exists_cons (h : IsWord p w) : ∃ c v, w = c :: v ∧ p c = false := by
  cases w with
  | nil => cases h
  | cons c v => exact ⟨c, v, rfl, by simpa [IsWord] using h⟩

/-- Where a word stands nothing is skipped. -/
theorem IsWord.dropWhile_append (h : IsWord p w) (r : List Char) :
    (w ++ r).dropWhile p = w ++ r := by
  obtain ⟨c, v, rfl, hc⟩ := h.exists_cons
  rw [List.cons_append, List.dropWhile_cons_of_neg (by simp [hc])]

/-- Words one behind the other. -/
theorem scan_flatten (hws : ∀ w ∈ ws, IsWord p w) (r : List Char) :
    scan p ws (ws.flatten ++ r) = some r := by
  induction ws with
  | nil => rfl
  | cons w ws ih =>
    rw [List.forall_mem_cons] at hws
    rw [List.flatten_cons, List.append_assoc, scan_cons, hws.1.dropWhile_append,
      dropPrefix?_eq_some.2 rfl, Option.bind_some, ih hws.2]

/-- Words are found in the same places with a larger class and with text behind them. -/
theorem scan_append (hpq : ∀ c, q c = true → p c = true) (hws : ∀ w ∈ ws, IsWord p w)
    (h : scan q ws l = some r) (t : List Char) : scan p ws (l ++ t) = some (r ++ t) := by
  induction ws generalizing l with
  | nil =>
    cases h
    rfl
  | cons w ws ih =>
    rw [List.forall_mem_cons] at hws
    rw [scan_cons, Option.bind_eq_some_iff] at h
    obtain ⟨m, hm, hr⟩ := h
    rw [dropPrefix?_eq_some] at hm
    have hskip : (l ++ t).dropWhile p = w ++ (m ++ t) := by
      conv_lhs => rw [← List.takeWhile_append_dropWhile (p := q) (l := l), hm, List.append_assoc,
        List.append_assoc]
      rw [List.dropWhile_append_of_pos fun c hc => hpq c (List.mem_takeWhile_imp hc)]
      exact hws.1.dropWhile_append _
    rw [scan_cons, hskip, dropPrefix?_eq_some.2 rfl, Option.bind_some]
    exact ih hws.2 hr

/-- What is left is the end of the text. -/
theorem suffix_of_scan (h : scan p ws l = some r) : r <:+ l := by
  induction ws generalizing l with
  | nil =>
    cases h
    exact List.suffix_refl _
  | cons w ws ih =>
    rw [scan_cons, Option.bind_eq_some_iff] at h
    obtain ⟨m, hm, hr⟩ := h
    rw [dropPrefix?_eq_some] at hm
    exact (ih hr).trans ((hm ▸ List.suffix_append w m).trans (List.dropWhile_suffix p))

/-- A prefix ends before a character that it does not have. -/
theorem dropPrefix?_append_cons (ha : a ∉ w) (u v : List Char) :
    (u ++ a :: v).dropPrefix? w = (u.dropPrefix? w).map (· ++ a :: v) := by
  induction w generalizing u with
  | nil => simp
  | cons c w ih =>
    rw [List.mem_cons, not_or] at ha
    cases u with
    | nil =>
      have hac : (a == c) = false := beq_eq_false_iff_ne.2 ha.1
      simp [List.dropPrefix?, hac]
    | cons d u =>
      rw [List.cons_append, List.dropPrefix?, List.dropPrefix?, ih ha.2]
      split_ifs <;> rfl

/-- Words end before a character that is not of the class and that they do not have. -/
theorem scan_append_cons (ha : p a = false) (hws : ∀ w ∈ ws, a ∉ w) (u v : List Char) :
    scan p ws (u ++ a :: v) = (scan p ws u).map (· ++ a :: v) := by
  induction ws generalizing u with
  | nil => rfl
  | cons w ws ih =>
    rw [List.forall_mem_cons] at hws
    have hskip : (u ++ a :: v).dropWhile p = u.dropWhile p ++ a :: v := by
      rw [List.dropWhile_append]
      split_ifs with hempty
      · rw [List.isEmpty_iff.1 hempty, List.dropWhile_cons_of_neg (by simp [ha])]
        rfl
      · rfl
    rw [scan_cons, scan_cons, hskip, dropPrefix?_append_cons hws.1, Option.bind_map, Option.map_bind]
    congr 1
    funext l
    exact ih hws.2 l

/-- Words are not found with the help of a last character that they do not have. -/
theorem isSome_scan_of_append_singleton (hws : ∀ w ∈ ws, IsWord p w ∧ a ∉ w) (u : List Char)
    (h : (scan p ws (u ++ [a])).isSome = true) : (scan p ws u).isSome = true := by
  induction ws generalizing u with
  | nil => rfl
  | cons w ws ih =>
    rw [List.forall_mem_cons] at hws
    rw [scan_cons, List.dropWhile_append] at h
    split_ifs at h with hempty
    · -- only `a` may be left, and no word begins with it
      obtain ⟨r, hr⟩ := Option.isSome_iff_exists.1 h
      obtain ⟨m, hm, -⟩ := Option.bind_eq_some_iff.1 hr
      rw [dropPrefix?_eq_some] at hm
      obtain ⟨c, v, rfl, -⟩ := hws.1.1.exists_cons
      have hc : c ∈ [a].dropWhile p := by
        rw [hm]
        exact List.mem_cons_self
      obtain rfl := List.mem_singleton.1 ((List.dropWhile_sublist p).subset hc)
      exact absurd List.mem_cons_self hws.1.2
    · rw [dropPrefix?_append_cons hws.1.2, Option.bind_map] at h
      rw [scan_cons]
      cases hm : (u.dropWhile p).dropPrefix? w with
      | none =>
        rw [hm] at h
        cases h
      | some m =>
        rw [hm] at h
        exact ih hws.2 m h

end Scan

end Nightfall
