import Mathlib.Data.List.Basic

/-!
# Runs of a transition system

A transition system with labelled steps, its runs, and the rule by which an invariant of the steps
is an invariant of the runs.  An invariant may speak of the labels so far, the trace of the run,
and may be kept by the steps with certain labels only.

A system may be given by a function that executes commands (`ofExec`); `execAll` executes a list of
them, and yields a run.  Where only the first and the last state matter, `foldlM_flatMap` joins what
each command does.
-/

namespace Nightfall

/-- States `S` and steps labelled by `L`. -/
structure TransitionSystem (S L : Type*) where
  /-- The states that a run starts in. -/
  Init : S → Prop
  /-- `Step s l s'` : the system can move from `s` to `s'` with label `l`. -/
  Step : S → L → S → Prop

namespace TransitionSystem

variable {S L C : Type*} {A : TransitionSystem S L}

/-- `A.Run trace s` : a run with the given labels, the latest first, ends in `s`. -/
inductive Run (A : TransitionSystem S L) : List L → S → Prop
  | init {s : S} : A.Init s → Run A [] s
  | step {trace : List L} {s s' : S} {l : L} :
      Run A trace s → A.Step s l s' → Run A (l :: trace) s'

/-- What holds at the start and is kept by the steps whose labels satisfy `P` holds after every run
of such steps. -/
theorem Run.invariant {P : L → Prop} {I : List L → S → Prop} {trace : List L} {s : S}
    (h : A.Run trace s) (hP : ∀ l ∈ trace, P l) (hinit : ∀ s, A.Init s → I [] s)
    (hstep : ∀ trace s l s', P l → I trace s → A.Step s l s' → I (l :: trace) s') :
    I trace s := by
  induction h with
  | init h => exact hinit _ h
  | step _ hst ih =>
    rw [List.forall_mem_cons] at hP
    exact hstep _ _ _ _ hP.1 (ih hP.2) hst

/-- What holds after a run and is kept by the steps whose labels satisfy `P` holds after every
continuation of the run by such steps. -/
theorem Run.extend {P : L → Prop} {I : S → Prop} {later trace : List L} {s : S}
    (h : A.Run (later ++ trace) s) (hP : ∀ l ∈ later, P l) (hrun : ∀ s, A.Run trace s → I s)
    (hstep : ∀ s l s', P l → I s → A.Step s l s' → I s') : I s := by
  induction later generalizing s with
  | nil => exact hrun s h
  | cons l later ih =>
    rw [List.forall_mem_cons] at hP
    cases h with
    | step h hst => exact hstep _ _ _ hP.1 (ih h hP.2) hst

/-- The system whose steps execute commands. -/
def ofExec (Init : S → Prop) (exec : S → C → Option (L × S)) : TransitionSystem S L where
  Init := Init
  Step s l s' := ∃ c, exec s c = some (l, s')

/-- Execute commands one after the other; the labels, the latest first, and the last state. -/
def execAll (exec : S → C → Option (L × S)) (s : S) : List C → Option (List L × S) :=
  List.foldlM (fun r c => (exec r.2 c).map fun r' => (r'.1 :: r.1, r'.2)) ([], s)

theorem Run.execFrom {Init : S → Prop} {exec : S → C → Option (L × S)} {cs : List C}
    {r r' : List L × S} (h : (ofExec Init exec).Run r.1 r.2)
    (hexec : cs.foldlM (fun r c => (exec r.2 c).map fun r' => (r'.1 :: r.1, r'.2)) r = some r') :
    (ofExec Init exec).Run r'.1 r'.2 := by
  induction cs generalizing r with
  | nil => cases hexec; exact h
  | cons c cs ih =>
    simp only [List.foldlM_cons, Option.bind_eq_bind, Option.bind_eq_some_iff,
      Option.map_eq_some_iff] at hexec
    obtain ⟨_, ⟨⟨l, s⟩, hstep, rfl⟩, hrest⟩ := hexec
    exact ih (h.step ⟨c, hstep⟩) hrest

/-- Executing commands yields a run. -/
theorem run_execAll {Init : S → Prop} {exec : S → C → Option (L × S)} {cs : List C} {s : S}
    {r : List L × S} (h : Init s) (hexec : execAll exec s cs = some r) :
    (ofExec Init exec).Run r.1 r.2 :=
  Run.execFrom (r := ([], s)) (.init h) hexec

end TransitionSystem

/-- A fold whose steps relate states by some labels, and that fails if a step fails, relates the first
state to the last by all labels. -/
theorem foldlM_flatMap {S A L : Type*} {f : S → A → Option S} {labels : A → List L}
    {R : List L → S → S → Prop} (hnil : ∀ s, R [] s s)
    (happend : ∀ {ls ls' s s' s''}, R ls s s' → R ls' s' s'' → R (ls ++ ls') s s'')
    (hstep : ∀ s a s', f s a = some s' → R (labels a) s s') {as : List A} {s s' : S}
    (h : as.foldlM f s = some s') : R (as.flatMap labels) s s' := by
  induction as generalizing s with
  | nil =>
    cases h
    exact hnil _
  | cons a as ih =>
    rw [List.foldlM_cons, Option.bind_eq_bind, Option.bind_eq_some_iff] at h
    obtain ⟨s₁, h₁, h₂⟩ := h
    exact happend (hstep _ _ _ h₁) (ih h₂)

end Nightfall
