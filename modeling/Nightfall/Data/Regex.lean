import Mathlib.Data.List.Basic
import Nightfall.Data.Lines

/-!
# Patterns

Regular expressions that are sequences of characters, classes with a star and the start of a line.
A star takes as many characters as it can and gives them back one by one; `places` are the ends of
the matches in this order, and `find` takes the first one at the first place that has one.

Behind a star whose next character is not of its class there is only one way to go on
(`rests_star_char`).  A pattern for the start of a line is found line by line (`find_eq`).
-/

namespace Nightfall

namespace Regex

open Lines

/-- What a pattern is made of. -/
inductive Atom
  /-- `^`, with the flag for many lines. -/
  | lineStart
  | char (c : Char)
  /-- `*` behind a class of characters. -/
  | star (p : Char → Bool)

/-- A place in a text: the character before it, and the text from there on. -/
structure Place where
  prev : Option Char
  rest : List Char

/-- The start of a text or of a line. -/
def LineStart (prev : Option Char) : Prop := prev = none ∨ prev = some '\n'

instance decidableLineStart (prev : Option Char) : Decidable (LineStart prev) :=
  inferInstanceAs (Decidable (_ ∨ _))

/-- Where a star can end, the longest match first. -/
def starPlaces (p : Char → Bool) : Option Char → List Char → List Place
  | prev, [] => [⟨prev, []⟩]
  | prev, c :: s => if p c then starPlaces p (some c) s ++ [⟨prev, c :: s⟩] else [⟨prev, c :: s⟩]

/-- Where a part of a pattern can end. -/
def Atom.places : Atom → Place → List Place
  | lineStart, q => if LineStart q.prev then [q] else []
  | char c, ⟨_, d :: s⟩ => if d = c then [⟨some d, s⟩] else []
  | char _, ⟨_, []⟩ => []
  | star p, q => starPlaces p q.prev q.rest

/-- Where a pattern can end, in the order of preference. -/
def places : List Atom → Place → List Place
  | [], q => [q]
  | a :: as, q => (a.places q).flatMap (places as)

/-- A match: the text before it, the text from its start on, and the text behind it. -/
structure Match where
  before : List Char
  tail : List Char
  after : List Char

/-- The first match in a text that stands behind `prev`. -/
def find (pattern : List Atom) : Option Char → List Char → Option Match
  | prev, [] => (places pattern ⟨prev, []⟩).head?.map fun q => ⟨[], [], q.rest⟩
  | prev, c :: s =>
    match (places pattern ⟨prev, c :: s⟩).head? with
    | some q => some ⟨[], c :: s, q.rest⟩
    | none => (find pattern (some c) s).map fun m => { m with before := c :: m.before }

/-- `\s`: the characters with the property White_Space. -/
def isSpace (c : Char) : Bool :=
  (0x9 ≤ c.toNat && c.toNat ≤ 0xD) || (0x2000 ≤ c.toNat && c.toNat ≤ 0x200A) ||
    [0x20, 0x85, 0xA0, 0x1680, 0x2028, 0x2029, 0x202F, 0x205F, 0x3000].contains c.toNat

/-! ### Patterns without a start of a line -/

variable {as : List Atom} {p : Char → Bool} {c : Char} {s : List Char} {prev : Option Char}

/-- The pattern does not look back. -/
def Forward (as : List Atom) : Prop := ∀ a ∈ as, a ≠ .lineStart

theorem forward_nil : Forward [] := fun _ h => absurd h List.not_mem_nil

theorem forward_char (h : Forward as) : Forward (.char c :: as) :=
  List.forall_mem_cons.2 ⟨by simp, h⟩

theorem forward_star (h : Forward as) : Forward (.star p :: as) :=
  List.forall_mem_cons.2 ⟨by simp, h⟩

/-- What is behind the matches at the start of a text. -/
def rests (as : List Atom) (s : List Char) : List (List Char) := (places as ⟨none, s⟩).map Place.rest

theorem map_rest_starPlaces (p : Char → Bool) (prev prev' : Option Char) (s : List Char) :
    (starPlaces p prev s).map Place.rest = (starPlaces p prev' s).map Place.rest := by
  cases s with
  | nil => rfl
  | cons c s =>
    rw [starPlaces, starPlaces]
    split_ifs <;> simp

/-- What is before the text does not matter. -/
theorem map_rest_places (h : Forward as) (prev : Option Char) (s : List Char) :
    (places as ⟨prev, s⟩).map Place.rest = rests as s := by
  induction as generalizing prev s with
  | nil => rfl
  | cons a as ih =>
    rw [Forward, List.forall_mem_cons] at h
    have hflat (qs : List Place) : (qs.flatMap (places as)).map Place.rest =
        (qs.map Place.rest).flatMap (rests as) := by
      rw [List.map_flatMap, List.flatMap_map]
      exact List.flatMap_congr fun q _ => ih h.2 q.prev q.rest
    rw [rests, places, places, hflat, hflat]
    congr 1
    cases a with
    | lineStart => exact absurd rfl h.1
    | char d => cases s <;> rfl
    | star p => exact map_rest_starPlaces p _ _ s

theorem rests_nil (s : List Char) : rests [] s = [s] := rfl

theorem rests_char_cons (h : Forward as) (d : Char) :
    rests (.char c :: as) (d :: s) = if d = c then rests as s else [] := by
  rw [rests, places, Atom.places]
  split_ifs
  · rw [List.flatMap_singleton, map_rest_places h]
  · rfl

theorem rests_star (h : Forward as) :
    rests (.star p :: as) s = ((starPlaces p none s).map Place.rest).flatMap (rests as) := by
  rw [rests, places, Atom.places, List.map_flatMap, List.flatMap_map]
  exact List.flatMap_congr fun q _ => map_rest_places h q.prev q.rest

/-- A star goes as far as it can if the next character is not of its class. -/
theorem rests_star_char (h : Forward as) (hc : p c = false) :
    rests (.star p :: .char c :: as) s = rests (.char c :: as) (s.dropWhile p) := by
  have hforward : Forward (.char c :: as) := forward_char h
  rw [rests_star hforward]
  induction s with
  | nil => simp [starPlaces]
  | cons d s ih =>
    rw [starPlaces]
    split_ifs with hd
    · -- here the next character is one of the class
      have hne : d ≠ c := fun he => by rw [he, hc] at hd; exact Bool.false_ne_true hd
      rw [List.map_append, List.flatMap_append, map_rest_starPlaces p (some d) none, ih,
        List.dropWhile_cons_of_pos hd]
      simp [rests_char_cons h, hne]
    · rw [List.dropWhile_cons_of_neg hd]
      simp

/-- A star at the end takes all that it can. -/
theorem head?_rests_star (p : Char → Bool) (s : List Char) :
    (rests [.star p] s).head? = some (s.dropWhile p) := by
  have hid : rests [] = fun s => [s] := rfl
  rw [rests_star forward_nil, hid, List.flatMap_singleton']
  induction s with
  | nil => rfl
  | cons d s ih =>
    rw [starPlaces]
    split_ifs with hd
    · rw [List.map_append, List.head?_append, map_rest_starPlaces p (some d) none, ih,
        List.dropWhile_cons_of_pos hd]
      rfl
    · rw [List.dropWhile_cons_of_neg hd]
      rfl

theorem forward_chars (h : Forward as) (l : List Char) : Forward (l.map .char ++ as) := by
  induction l with
  | nil => exact h
  | cons c l ih => exact forward_char ih

/-- A text in a pattern. -/
theorem rests_chars (h : Forward as) (l s : List Char) :
    rests (l.map .char ++ as) s = ((s.dropPrefix? l).map (rests as)).getD [] := by
  induction l generalizing s with
  | nil => rw [List.dropPrefix?_nil]; rfl
  | cons c l ih =>
    cases s with
    | nil => rfl
    | cons d s =>
      rw [List.map_cons, List.cons_append, rests_char_cons (forward_chars h l), ih,
        List.dropPrefix?]
      by_cases hd : d = c <;> simp [hd]

/-- A text behind a star whose class its first character does not belong to. -/
theorem head?_rests_star_chars (h : Forward as) {l : List Char} (hl : l.head?.any (!p ·) = true)
    (s : List Char) : (rests (.star p :: (l.map .char ++ as)) s).head? =
      ((s.dropWhile p).dropPrefix? l).bind fun s => (rests as s).head? := by
  cases l with
  | nil => cases hl
  | cons c l =>
    have hc : p c = false := by simpa using hl
    rw [List.map_cons, List.cons_append, rests_star_char (forward_chars h l) hc,
      ← List.cons_append, ← List.map_cons, rests_chars h]
    cases (s.dropWhile p).dropPrefix? (c :: l) <;> rfl

/-! ### The start of a line -/

/-- The lines before the first line where the pattern matches, the lines from there on, and what is
behind the match. -/
def findLines (as : List Atom) :
    List (List Char) → Option (List (List Char) × List (List Char) × List Char)
  | [] => none
  | l :: ls =>
    match (rests as (joined (l :: ls))).head? with
    | some r => some ([], l :: ls, r)
    | none => (findLines as ls).map fun m => (l :: m.1, m.2)

theorem head?_places_lineStart (h : Forward as) (hprev : LineStart prev) (s : List Char) :
    (places (.lineStart :: as) ⟨prev, s⟩).head?.map Place.rest = (rests as s).head? := by
  rw [places, Atom.places, if_pos hprev, List.flatMap_singleton, ← map_rest_places h prev,
    List.head?_map]

theorem places_lineStart_of_not (hprev : ¬LineStart prev) (s : List Char) :
    places (.lineStart :: as) ⟨prev, s⟩ = [] := by
  rw [places, Atom.places, if_neg hprev, List.flatMap_nil]

theorem find_of_head? {pattern : List Atom} {q : Place}
    (h : (places pattern ⟨prev, s⟩).head? = some q) :
    find pattern prev s = some ⟨[], s, q.rest⟩ := by
  cases s with
  | nil => rw [find, h]; rfl
  | cons c s => rw [find, h]

/-- A match behind a line. -/
def Match.behind (l : List Char) (m : Match) : Match := { m with before := l ++ '\n' :: m.before }

/-- Within a line there is no match. -/
theorem find_of_not_lineStart {l : List Char} (hl : OneLine l) (hprev : ¬LineStart prev)
    (s : List Char) :
    find (.lineStart :: as) prev l = none ∧ find (.lineStart :: as) prev (l ++ '\n' :: s) =
      (find (.lineStart :: as) (some '\n') s).map (.behind l) := by
  induction l generalizing prev with
  | nil =>
    simp only [List.nil_append, find, places_lineStart_of_not hprev, List.head?_nil]
    exact ⟨rfl, rfl⟩
  | cons c l ih =>
    rw [OneLine, List.mem_cons, not_or] at hl
    have hc : ¬LineStart (some c) := by simpa [LineStart] using Ne.symm hl.1
    obtain ⟨hnone, hsome⟩ := ih hl.2 hc
    simp only [find, List.cons_append, places_lineStart_of_not hprev, List.head?_nil, hnone, hsome,
      Option.map_none, Option.map_map]
    exact ⟨trivial, rfl⟩

/-- The last line, where there is no match at its start. -/
theorem find_line {l : List Char} (hl : OneLine l)
    (h : (places (.lineStart :: as) ⟨prev, l⟩).head? = none) :
    find (.lineStart :: as) prev l = none := by
  cases l with
  | nil => rw [find, h]; rfl
  | cons c l =>
    rw [OneLine, List.mem_cons, not_or] at hl
    have hc : ¬LineStart (some c) := by simpa [LineStart] using Ne.symm hl.1
    simp only [find, h, (find_of_not_lineStart hl.2 hc []).1, Option.map_none]

/-- A line, where there is no match at its start. -/
theorem find_line_append {l : List Char} (hl : OneLine l)
    (h : (places (.lineStart :: as) ⟨prev, l ++ '\n' :: s⟩).head? = none) :
    find (.lineStart :: as) prev (l ++ '\n' :: s) =
      (find (.lineStart :: as) (some '\n') s).map (.behind l) := by
  cases l with
  | nil =>
    rw [List.nil_append] at h ⊢
    rw [find, h]
    rfl
  | cons c l =>
    rw [OneLine, List.mem_cons, not_or] at hl
    have hc : ¬LineStart (some c) := by simpa [LineStart] using Ne.symm hl.1
    rw [List.cons_append] at h ⊢
    simp only [find, h, (find_of_not_lineStart hl.2 hc s).2, Option.map_map]
    rfl

/-- **A pattern for the start of a line is found line by line.** -/
theorem find_eq (h : Forward as) (hprev : LineStart prev) {ls : List (List Char)}
    (hls : ∀ l ∈ ls, OneLine l) (hne : ls ≠ []) :
    find (.lineStart :: as) prev (joined ls) = (findLines as ls).map
      fun m => ⟨terminated m.1, joined m.2.1, m.2.2⟩ := by
  induction ls generalizing prev with
  | nil => exact absurd rfl hne
  | cons l ls ih =>
    rw [List.forall_mem_cons] at hls
    have hhead := head?_places_lineStart h hprev (joined (l :: ls))
    rw [findLines]
    cases hrest : (rests as (joined (l :: ls))).head? with
    | some r =>
      rw [hrest, Option.map_eq_some_iff] at hhead
      obtain ⟨q, hq, rfl⟩ := hhead
      rw [find_of_head? hq]
      rfl
    | none =>
      rw [hrest, Option.map_eq_none_iff] at hhead
      by_cases hlast : ls = []
      · subst hlast
        rw [joined_singleton] at hhead ⊢
        rw [find_line hls.1 hhead]
        rfl
      · rw [joined_cons hlast] at hhead ⊢
        rw [find_line_append hls.1 hhead, ih (Or.inr rfl) hls.2 hlast, Option.map_map,
          Option.map_map]
        congr 1
        funext m
        simp [Match.behind, terminated_cons]

/-- The pattern matches at none of the lines `ls`, behind which are the lines `tail`. -/
def NoMatch (as : List Atom) : List (List Char) → List (List Char) → Prop
  | [], _ => True
  | l :: ls, tail => rests as (joined (l :: ls ++ tail)) = [] ∧ NoMatch as ls tail

variable {ls before tail : List (List Char)} {r : List Char}

theorem noMatch_iff : NoMatch as ls tail ↔
    ∀ ls₁ l ls₂, ls = ls₁ ++ l :: ls₂ → rests as (joined (l :: ls₂ ++ tail)) = [] := by
  induction ls with
  | nil => exact iff_of_true trivial fun ls₁ l ls₂ h => absurd h (by simp)
  | cons l ls ih =>
    rw [NoMatch, ih]
    constructor
    · rintro ⟨hl, hls⟩ ls₁ l' ls₂ h
      cases ls₁ with
      | nil =>
        obtain ⟨rfl, rfl⟩ := List.cons.inj h
        exact hl
      | cons l₁ ls₁ =>
        obtain ⟨-, h⟩ := List.cons.inj h
        exact hls ls₁ l' ls₂ h
    · intro h
      exact ⟨h [] l ls rfl, fun ls₁ l' ls₂ he => h (l :: ls₁) l' ls₂ (by rw [he, List.cons_append])⟩

theorem noMatch_append {ls' : List (List Char)} :
    NoMatch as (ls ++ ls') tail ↔ NoMatch as ls (ls' ++ tail) ∧ NoMatch as ls' tail := by
  induction ls with
  | nil => exact (and_iff_right trivial).symm
  | cons l ls ih =>
    rw [List.cons_append, NoMatch, NoMatch, ih, and_assoc, ← List.cons_append, List.append_assoc]

/-- Other lines behind. -/
theorem NoMatch.imp {tail' : List (List Char)}
    (h : ∀ l ls, rests as (joined (l :: ls ++ tail)) = [] → rests as (joined (l :: ls ++ tail')) = [])
    (hls : NoMatch as ls tail) : NoMatch as ls tail' := by
  induction ls with
  | nil => trivial
  | cons l ls ih => exact ⟨h l ls hls.1, ih hls.2⟩

/-- What is found is the first line where the pattern matches. -/
theorem findLines_eq_some : findLines as ls = some (before, tail, r) ↔
    ls = before ++ tail ∧ tail ≠ [] ∧ (rests as (joined tail)).head? = some r ∧
      NoMatch as before tail := by
  induction ls generalizing before with
  | nil =>
    refine iff_of_false (by simp [findLines]) ?_
    rintro ⟨h, hne, -⟩
    exact hne (List.append_eq_nil_iff.1 h.symm).2
  | cons l ls ih =>
    rw [findLines]
    cases hrest : (rests as (joined (l :: ls))).head? with
    | some r' =>
      constructor
      · rintro ⟨⟩
        exact ⟨rfl, List.cons_ne_nil _ _, hrest, trivial⟩
      · rintro ⟨h, -, hr, hnone⟩
        cases before with
        | nil =>
          rw [List.nil_append] at h
          rw [← h, hrest, Option.some.injEq] at hr
          rw [h, hr]
        | cons b before =>
          rw [h, List.cons_append, ← List.cons_append, hnone.1] at hrest
          cases hrest
    | none =>
      simp only [Option.map_eq_some_iff, Prod.mk.injEq, Prod.exists]
      constructor
      · rintro ⟨before, tail, r, h, rfl, rfl, rfl⟩
        obtain ⟨rfl, hne, hr, hnone⟩ := ih.1 h
        exact ⟨rfl, hne, hr, List.head?_eq_none_iff.1 hrest, hnone⟩
      · rintro ⟨h, hne, hr, hnone⟩
        cases before with
        | nil =>
          rw [List.nil_append] at h
          rw [← h, hrest] at hr
          cases hr
        | cons b before =>
          obtain ⟨rfl, rfl⟩ := List.cons.inj h
          exact ⟨before, tail, r, ih.2 ⟨rfl, hne, hr, hnone.2⟩, rfl, rfl, rfl⟩

theorem findLines_eq_none : findLines as ls = none ↔ NoMatch as ls [] := by
  induction ls with
  | nil => exact iff_of_true rfl trivial
  | cons l ls ih =>
    rw [findLines, NoMatch, List.append_nil]
    cases hrest : (rests as (joined (l :: ls))).head? with
    | some r =>
      refine iff_of_false (by simp) fun h => ?_
      rw [h.1] at hrest
      cases hrest
    | none =>
      rw [Option.map_eq_none_iff, ih, List.head?_eq_none_iff.1 hrest]
      exact (and_iff_right rfl).symm

end Regex

end Nightfall
