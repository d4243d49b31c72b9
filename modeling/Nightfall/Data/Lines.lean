import Mathlib.Data.List.Basic

/-!
# The lines of a text

The lines of a text are what stands between its line ends; a text that ends with a line end has an
empty last line.  A text is put together from lines that end (`terminated`) and from its last lines
(`joined`); `lines_terminated_append` and `joined_append` split it in the same places.
-/

namespace Nightfall

namespace Lines

/-- The lines, without the line ends. -/
def lines (s : List Char) : List (List Char) := s.splitOn '\n'

/-- Lines with line ends between them. -/
def joined (ls : List (List Char)) : List Char := ['\n'].intercalate ls

/-- Lines with a line end behind each. -/
def terminated (ls : List (List Char)) : List Char := ls.flatMap (· ++ ['\n'])

/-- There is no line end in a line. -/
def OneLine (l : List Char) : Prop := '\n' ∉ l

variable {ls rs : List (List Char)} {l s : List Char}

@[simp] theorem joined_nil : joined [] = [] := rfl

@[simp] theorem joined_singleton : joined [l] = l := by simp [joined]

theorem joined_cons (h : rs ≠ []) : joined (l :: rs) = l ++ '\n' :: joined rs := by
  cases rs with
  | nil => exact absurd rfl h
  | cons r rs => simp [joined, List.intercalate]

/-- The text behind the first line depends on the other lines only. -/
theorem exists_joined_cons (ls : List (List Char)) : ∃ u, ∀ l, joined (l :: ls) = l ++ u := by
  by_cases hls : ls = []
  · exact ⟨[], fun l => by rw [hls, joined_singleton, List.append_nil]⟩
  · exact ⟨'\n' :: joined ls, fun l => joined_cons hls⟩

@[simp] theorem joined_lines (s : List Char) : joined (lines s) = s :=
  List.intercalate_splitOn '\n'

theorem lines_ne_nil (s : List Char) : lines s ≠ [] := List.splitOn_ne_nil '\n' s

theorem lines_joined (hls : ∀ l ∈ ls, OneLine l) (hne : ls ≠ []) : lines (joined ls) = ls :=
  List.splitOn_intercalate '\n' hls hne

theorem lines_cons_append (h : OneLine l) (s : List Char) : lines (l ++ '\n' :: s) = l :: lines s :=
  List.splitOn_append_cons_self_of_not_mem h s

@[simp] theorem terminated_nil : terminated [] = [] := rfl

theorem terminated_cons : terminated (l :: ls) = l ++ '\n' :: terminated ls := by
  simp [terminated]

theorem terminated_append : terminated (ls ++ rs) = terminated ls ++ terminated rs :=
  List.flatMap_append

/-- Lines that end, and what is behind them. -/
theorem lines_terminated_append (hls : ∀ l ∈ ls, OneLine l) (s : List Char) :
    lines (terminated ls ++ s) = ls ++ lines s := by
  induction ls with
  | nil => rfl
  | cons l ls ih =>
    rw [List.forall_mem_cons] at hls
    rw [terminated_cons, List.append_assoc, List.cons_append, lines_cons_append hls.1,
      ih hls.2, List.cons_append]

theorem joined_append (h : rs ≠ []) : joined (ls ++ rs) = terminated ls ++ joined rs := by
  induction ls with
  | nil => rfl
  | cons l ls ih =>
    have hne : ls ++ rs ≠ [] := fun hnil => h (List.append_eq_nil_iff.1 hnil).2
    rw [List.cons_append, joined_cons hne, ih, terminated_cons, List.append_assoc, List.cons_append]

/-- A text that ends with a line end. -/
theorem joined_append_nil : joined (ls ++ [[]]) = terminated ls := by
  rw [joined_append (List.cons_ne_nil _ _), joined_singleton, List.append_nil]

theorem oneLine_of_mem_lines (h : l ∈ lines s) : OneLine l := by
  intro hmem
  induction s generalizing l with
  | nil =>
    obtain rfl := List.mem_singleton.1 h
    exact List.not_mem_nil hmem
  | cons c s ih =>
    rw [lines, List.splitOn_cons_eq_if_modifyHead] at h
    split_ifs at h with hc
    · rcases List.mem_cons.1 h with rfl | h
      · exact List.not_mem_nil hmem
      · exact ih h hmem
    · -- the character belongs to the first line
      obtain ⟨l₀, ls, hls⟩ := List.exists_cons_of_ne_nil (lines_ne_nil s)
      rw [lines] at hls
      rw [hls, List.modifyHead_cons, List.mem_cons] at h
      rcases h with rfl | h
      · rcases List.mem_cons.1 hmem with rfl | hmem
        · exact hc (beq_self_eq_true _)
        · exact ih (l := l₀) (by rw [lines, hls]; exact List.mem_cons_self) hmem
      · exact ih (by rw [lines, hls]; exact List.mem_cons_of_mem _ h) hmem

/-- A text, cut before one of its lines. -/
theorem eq_of_lines_eq (h : lines s = ls ++ rs) (hne : rs ≠ []) : s = terminated ls ++ joined rs := by
  rw [← joined_append hne, ← h, joined_lines]

/-- One more line end behind the last line. -/
theorem terminated_eq (h : ls ≠ []) : terminated ls = joined ls ++ ['\n'] := by
  induction ls with
  | nil => exact absurd rfl h
  | cons l ls ih =>
    by_cases hls : ls = []
    · simp [hls, terminated]
    · rw [terminated_cons, ih hls, joined_cons hls, List.append_assoc, List.cons_append]

theorem terminated_lines (s : List Char) : terminated (lines s) = s ++ ['\n'] := by
  rw [terminated_eq (lines_ne_nil s), joined_lines]

end Lines

end Nightfall
