import Mathlib.Data.List.Nodup
import Mathlib.Data.List.Sort
import Mathlib.Logic.Basic
import Mathlib.Tactic.SplitIfs

/-!
# Collections of documents

A collection of a document store: a list of documents, in the order in which they were inserted,
no two of which have the same key.  A query returns the first document that satisfies it.

What a collection holds under each key is `find`.  Two collections with the same keys in the same
order and the same documents under them are equal (`ext_find`), so a result on the contents of a
collection is one on the collection.
-/

namespace Nightfall

/-- A list of documents with distinct keys. -/
structure Collection {α K : Type*} (key : α → K) where
  /-- The documents, the oldest first. -/
  docs : List α
  nodup : (docs.map key).Nodup

namespace Collection

variable {α K : Type*} {key : α → K}

@[ext] theorem ext {c d : Collection key} (h : c.docs = d.docs) : c = d := by
  cases c
  cases d
  congr

/-- No documents. -/
def empty : Collection key := ⟨[], List.nodup_nil⟩

/-- The keys, in the order of the documents. -/
def keys (c : Collection key) : List K := c.docs.map key

/-- The first document that satisfies `p`. -/
def findOne (c : Collection key) (p : α → Bool) : Option α := c.docs.find? p

/-! ### Queries -/

theorem findOne_some {c : Collection key} {p : α → Bool} {x : α} (h : c.findOne p = some x) :
    x ∈ c.docs ∧ p x = true :=
  ⟨List.mem_of_find?_eq_some h, List.find?_some h⟩

theorem findOne_eq_none {c : Collection key} {p : α → Bool} :
    c.findOne p = none ↔ ∀ x ∈ c.docs, p x = false := by
  simp [findOne, List.find?_eq_none]

/-- What a query that names one document by its contents finds. -/
theorem findOne_eq_some_of_unique {c : Collection key} {p : α → Bool} {x : α} (hx : x ∈ c.docs)
    (hp : p x = true) (huniq : ∀ y ∈ c.docs, p y = true → y = x) : c.findOne p = some x := by
  cases h : c.findOne p with
  | none => simp [findOne_eq_none.1 h x hx] at hp
  | some y => rw [huniq y (findOne_some h).1 (findOne_some h).2]

theorem eq_of_key_eq {c : Collection key} {x y : α} (hx : x ∈ c.docs) (hy : y ∈ c.docs)
    (h : key x = key y) : x = y :=
  List.inj_on_of_nodup_map c.nodup hx hy h

/-- The first document, in the order `r`, of those that satisfy `p`. -/
def findFirst (c : Collection key) (p : α → Bool) (r : α → α → Prop) [DecidableRel r] : Option α :=
  ((c.docs.filter p).insertionSort r).head?

theorem findFirst_some {c : Collection key} {p : α → Bool} {r : α → α → Prop} [DecidableRel r]
    [Std.Total r] [IsTrans α r] {x : α} (h : c.findFirst p r = some x) :
    x ∈ c.docs ∧ p x = true ∧ ∀ y ∈ c.docs, p y = true → y = x ∨ r x y := by
  have hsorted := (c.docs.filter p).pairwise_insertionSort r
  have hmem := fun y => List.mem_insertionSort r (l := c.docs.filter p) (x := y)
  rw [findFirst] at h
  cases hl : (c.docs.filter p).insertionSort r with
  | nil => simp [hl] at h
  | cons a l =>
    rw [hl] at h hsorted hmem
    obtain rfl : a = x := by simpa using h
    obtain ⟨hdocs, hp⟩ := List.mem_filter.1 ((hmem a).1 List.mem_cons_self)
    refine ⟨hdocs, hp, fun y hy hpy => ?_⟩
    rcases List.mem_cons.1 ((hmem y).2 (List.mem_filter.2 ⟨hy, hpy⟩)) with heq | htail
    · exact .inl heq
    · exact .inr ((List.pairwise_cons.1 hsorted).1 y htail)

theorem findFirst_eq_none {c : Collection key} {p : α → Bool} {r : α → α → Prop} [DecidableRel r] :
    c.findFirst p r = none ↔ ∀ x ∈ c.docs, p x = false := by
  rw [findFirst, List.head?_eq_none_iff, ← List.length_eq_zero_iff, List.length_insertionSort,
    List.length_eq_zero_iff, List.filter_eq_nil_iff]
  simp

/-! ### Updates of one document -/

/-- The first document that satisfies `p`, and only that one, becomes its image under `f`. -/
def updateDocs (p : α → Bool) (f : α → α) : List α → List α
  | [] => []
  | y :: ys => if p y then f y :: ys else y :: updateDocs p f ys

theorem map_key_updateDocs {p : α → Bool} {f : α → α} (hf : ∀ x, key (f x) = key x)
    (l : List α) : (updateDocs p f l).map key = l.map key := by
  induction l with
  | nil => rfl
  | cons y ys ih =>
    rw [updateDocs]
    split_ifs
    · simp [hf]
    · simp [ih]

/-- Update the first document that satisfies `p`, if there is one. -/
def updateOne (c : Collection key) (p : α → Bool) (f : α → α) (hf : ∀ x, key (f x) = key x) :
    Collection key :=
  ⟨updateDocs p f c.docs, by rw [map_key_updateDocs hf]; exact c.nodup⟩

theorem updateDocs_eq_map {p : α → Bool} {f : α → α} {l : List α}
    (h : l.Pairwise fun x y => ¬ (p x = true ∧ p y = true)) :
    updateDocs p f l = l.map fun x => if p x then f x else x := by
  induction l with
  | nil => rfl
  | cons y ys ih =>
    rw [List.pairwise_cons] at h
    rw [updateDocs, List.map_cons]
    split_ifs with hy
    · have htail : ys.map (fun x => if p x then f x else x) = ys :=
        (List.map_congr_left fun x hx => if_neg fun hx' => h.1 x hx ⟨hy, hx'⟩).trans
          (List.map_id' ys)
      rw [htail]
    · rw [ih h.2]

/-! ### Documents by their key -/

variable [DecidableEq K]

/-- The document with key `k`. -/
def find (c : Collection key) (k : K) : Option α := c.findOne fun x => decide (key x = k)

theorem find_eq_some {c : Collection key} {k : K} {x : α} :
    c.find k = some x ↔ x ∈ c.docs ∧ key x = k := by
  constructor
  · intro h
    exact (findOne_some h).imp_right of_decide_eq_true
  · rintro ⟨hx, rfl⟩
    cases h : c.find (key x) with
    | none => simpa using findOne_eq_none.1 h x hx
    | some y =>
      obtain ⟨hy, hkey⟩ := findOne_some h
      rw [eq_of_key_eq hy hx (of_decide_eq_true hkey)]

theorem find_eq_none {c : Collection key} {k : K} : c.find k = none ↔ k ∉ c.keys := by
  rw [find, findOne_eq_none]
  simp [keys]

theorem mem_keys {c : Collection key} {k : K} : k ∈ c.keys ↔ ∃ x, c.find k = some x := by
  simp only [keys, List.mem_map, find_eq_some]

@[simp] theorem find_empty (k : K) : (empty : Collection key).find k = none := rfl

/-- Two collections with the same keys and the same documents under them are equal. -/
theorem ext_find {c d : Collection key} (hkeys : c.keys = d.keys)
    (hfind : ∀ k, c.find k = d.find k) : c = d := by
  refine Collection.ext (List.ext_getElem ?_ fun i hc hd => ?_)
  · simpa [keys] using congrArg List.length hkeys
  · have hkey : key c.docs[i] = key d.docs[i] := by
      have := List.getElem_of_eq hkeys (by simpa [keys] using hc)
      simpa [keys] using this
    have hmem : c.find (key c.docs[i]) = some c.docs[i] :=
      find_eq_some.2 ⟨List.getElem_mem hc, rfl⟩
    rw [hfind] at hmem
    exact eq_of_key_eq (find_eq_some.1 hmem).1 (List.getElem_mem hd) hkey

/-! ### Insertion -/

/-- Add a document with a new key. -/
def insertOne (c : Collection key) (x : α) : Option (Collection key) :=
  if h : key x ∈ c.docs.map key then none
  else some ⟨c.docs ++ [x], by
    rw [List.map_append, List.map_singleton, List.nodup_append]
    exact ⟨c.nodup, List.nodup_singleton _, fun a ha b hb hab => h (by simp_all)⟩⟩

theorem insertOne_eq_some {c d : Collection key} {x : α} :
    c.insertOne x = some d ↔ key x ∉ c.keys ∧ d.docs = c.docs ++ [x] := by
  unfold insertOne keys
  split_ifs with h
  · exact iff_of_false nofun fun hand => hand.1 h
  · simp [Collection.ext_iff, h, eq_comm]

theorem insertOne_eq_none {c : Collection key} {x : α} :
    c.insertOne x = none ↔ key x ∈ c.keys := by
  unfold insertOne keys
  split_ifs with h
  · exact iff_of_true rfl h
  · refine iff_of_false ?_ h
    rintro ⟨⟩

/-- Add documents in their order, until one has the key of a document that is there; whether all of
them were added. -/
def insertMany (c : Collection key) : List α → Collection key × Bool
  | [] => (c, true)
  | x :: xs =>
    match c.insertOne x with
    | none => (c, false)
    | some d => d.insertMany xs

theorem find_insertOne {c d : Collection key} {x : α} (h : c.insertOne x = some d) (k : K) :
    d.find k = if key x = k then some x else c.find k := by
  obtain ⟨hnew, hdocs⟩ := insertOne_eq_some.1 h
  have hmem : ∀ y, y ∈ d.docs ↔ y ∈ c.docs ∨ y = x := by
    intro y
    rw [hdocs, List.mem_append, List.mem_singleton]
  split_ifs with hk
  · exact find_eq_some.2 ⟨(hmem x).2 (.inr rfl), hk⟩
  · ext y
    rw [find_eq_some, find_eq_some, hmem]
    constructor
    · rintro ⟨hy | rfl, hyk⟩
      · exact ⟨hy, hyk⟩
      · exact absurd hyk hk
    · rintro ⟨hy, hyk⟩
      exact ⟨.inl hy, hyk⟩

/-- What is there stays as it is. -/
theorem find_insertMany_of_some {c : Collection key} {xs : List α} {k : K} {y : α}
    (h : c.find k = some y) : (c.insertMany xs).1.find k = some y := by
  induction xs generalizing c with
  | nil => exact h
  | cons x xs ih =>
    rw [insertMany]
    cases hx : c.insertOne x with
    | none => exact h
    | some d =>
      refine ih ?_
      rw [find_insertOne hx, if_neg, h]
      rintro rfl
      exact (insertOne_eq_some.1 hx).1 (mem_keys.2 ⟨y, h⟩)

/-- What is found was there or is one of the new documents. -/
theorem find_insertMany_cases {c : Collection key} {xs : List α} {k : K} {y : α}
    (h : (c.insertMany xs).1.find k = some y) : c.find k = some y ∨ y ∈ xs := by
  induction xs generalizing c with
  | nil => exact .inl h
  | cons x xs ih =>
    rw [insertMany] at h
    cases hx : c.insertOne x with
    | none =>
      rw [hx] at h
      exact .inl h
    | some d =>
      rw [hx] at h
      rcases ih h with hd | hmem
      · rw [find_insertOne hx] at hd
        split_ifs at hd with hk
        · cases hd
          exact .inr List.mem_cons_self
        · exact .inl hd
      · exact .inr (List.mem_cons_of_mem x hmem)

/-- All documents are added if and only if their keys are new. -/
theorem insertMany_snd {c : Collection key} {xs : List α} :
    (c.insertMany xs).2 = true ↔ (xs.map key).Nodup ∧ ∀ x ∈ xs, key x ∉ c.keys := by
  induction xs generalizing c with
  | nil => simp [insertMany]
  | cons x xs ih =>
    rw [insertMany, List.map_cons, List.nodup_cons, List.forall_mem_cons]
    cases hx : c.insertOne x with
    | none =>
      have hmem := insertOne_eq_none.1 hx
      refine iff_of_false (Bool.false_ne_true) fun h => h.2.1 hmem
    | some d =>
      obtain ⟨hnew, hdocs⟩ := insertOne_eq_some.1 hx
      have hkeys : ∀ k, k ∈ d.keys ↔ k ∈ c.keys ∨ k = key x := by
        intro k
        rw [keys, hdocs, List.map_append, List.mem_append, List.map_singleton, List.mem_singleton,
          keys]
      rw [ih]
      simp only [hkeys, not_or, List.mem_map, not_exists, not_and]
      constructor
      · rintro ⟨hnodup, hall⟩
        exact ⟨⟨fun y hy => (hall y hy).2, hnodup⟩, hnew, fun y hy => (hall y hy).1⟩
      · rintro ⟨⟨hne, hnodup⟩, -, hall⟩
        exact ⟨hnodup, fun y hy => ⟨hall y hy, hne y hy⟩⟩

/-! ### Updates of many documents -/

/-- Update every document that satisfies `p`. -/
def updateMany (c : Collection key) (p : α → Bool) (f : α → α) (hf : ∀ x, key (f x) = key x) :
    Collection key :=
  ⟨c.docs.map fun x => if p x then f x else x, by
    have hkeys : (c.docs.map fun x => if p x then f x else x).map key = c.docs.map key := by
      rw [List.map_map]
      refine List.map_congr_left fun x _ => ?_
      rw [Function.comp_apply, apply_ite key, hf, ite_self]
    rw [hkeys]
    exact c.nodup⟩

theorem find_updateMany {c : Collection key} {p : α → Bool} {f : α → α}
    {hf : ∀ x, key (f x) = key x} (k : K) :
    (c.updateMany p f hf).find k = (c.find k).map fun x => if p x then f x else x := by
  ext y
  rw [find_eq_some, Option.map_eq_some_iff, updateMany]
  simp only [List.mem_map]
  constructor
  · rintro ⟨⟨x, hx, rfl⟩, hkey⟩
    rw [apply_ite key, hf, ite_self] at hkey
    exact ⟨x, find_eq_some.2 ⟨hx, hkey⟩, rfl⟩
  · rintro ⟨x, hx, rfl⟩
    obtain ⟨hmem, hkey⟩ := find_eq_some.1 hx
    refine ⟨⟨x, hmem, rfl⟩, ?_⟩
    rw [apply_ite key, hf, ite_self, hkey]

/-! ### Upserts -/

/-- Replace the document with the key of `x`, or append `x`. -/
def upsertDocs (key : α → K) (x : α) : List α → List α
  | [] => [x]
  | y :: ys => if key y = key x then x :: ys else y :: upsertDocs key x ys

theorem map_key_upsertDocs (x : α) (l : List α) :
    (upsertDocs key x l).map key =
      if key x ∈ l.map key then l.map key else l.map key ++ [key x] := by
  induction l with
  | nil => rfl
  | cons y ys ih =>
    rw [upsertDocs]
    by_cases hy : key y = key x
    · simp [hy]
    · rw [if_neg hy, List.map_cons, ih, List.map_cons]
      by_cases hx : key x ∈ ys.map key
      · rw [if_pos hx, if_pos (List.mem_cons_of_mem _ hx)]
      · rw [if_neg hx, if_neg fun hmem => hx ((List.mem_cons.1 hmem).resolve_left (Ne.symm hy)), List.cons_append]

/-- Replace the document with the key of `x`, or append `x`. -/
def upsert (c : Collection key) (x : α) : Collection key :=
  ⟨upsertDocs key x c.docs, by
    rw [map_key_upsertDocs]
    split_ifs with h
    · exact c.nodup
    · rw [List.nodup_append]
      exact ⟨c.nodup, List.nodup_singleton _, fun a ha b hb hab => h (by simp_all)⟩⟩

/-- One upsert after the other. -/
def upserts (c : Collection key) (xs : List α) : Collection key := xs.foldl upsert c

@[simp] theorem upserts_nil (c : Collection key) : c.upserts [] = c := rfl

@[simp] theorem upserts_cons (c : Collection key) (x : α) (xs : List α) :
    c.upserts (x :: xs) = (c.upsert x).upserts xs := rfl

theorem upserts_append (c : Collection key) (xs ys : List α) :
    c.upserts (xs ++ ys) = (c.upserts xs).upserts ys := List.foldl_append

theorem keys_upsert (c : Collection key) (x : α) :
    (c.upsert x).keys = if key x ∈ c.keys then c.keys else c.keys ++ [key x] :=
  map_key_upsertDocs x c.docs

theorem mem_upsertDocs {x y : α} {l : List α} (hl : (l.map key).Nodup) :
    y ∈ upsertDocs key x l ↔ y = x ∨ (y ∈ l ∧ key y ≠ key x) := by
  induction l with
  | nil => simp [upsertDocs]
  | cons z zs ih =>
    rw [List.map_cons, List.nodup_cons] at hl
    rw [upsertDocs]
    by_cases hz : key z = key x
    · have hne : ∀ w ∈ zs, key w ≠ key x := by
        intro w hw hwx
        exact hl.1 (List.mem_map.2 ⟨w, hw, hwx.trans hz.symm⟩)
      rw [if_pos hz, List.mem_cons, List.mem_cons]
      constructor
      · rintro (rfl | hy)
        · exact .inl rfl
        · exact .inr ⟨.inr hy, hne y hy⟩
      · rintro (rfl | ⟨rfl | hy, hyx⟩)
        · exact .inl rfl
        · exact absurd hz hyx
        · exact .inr hy
    · rw [if_neg hz, List.mem_cons, List.mem_cons, ih hl.2]
      constructor
      · rintro (rfl | rfl | ⟨hy, hyx⟩)
        · exact .inr ⟨.inl rfl, hz⟩
        · exact .inl rfl
        · exact .inr ⟨.inr hy, hyx⟩
      · rintro (rfl | ⟨rfl | hy, hyx⟩)
        · exact .inr (.inl rfl)
        · exact .inl rfl
        · exact .inr (.inr ⟨hy, hyx⟩)

theorem find_upsert (c : Collection key) (x : α) (k : K) :
    (c.upsert x).find k = if key x = k then some x else c.find k := by
  ext y
  have hmem : y ∈ (c.upsert x).docs ↔ y = x ∨ (y ∈ c.docs ∧ key y ≠ key x) :=
    mem_upsertDocs c.nodup
  rw [find_eq_some, hmem]
  split_ifs with hk
  · subst hk
    rw [Option.some.injEq]
    constructor
    · rintro ⟨rfl | ⟨-, hne⟩, hy⟩
      · rfl
      · exact absurd hy hne
    · rintro rfl
      exact ⟨.inl rfl, rfl⟩
  · rw [find_eq_some]
    constructor
    · rintro ⟨rfl | ⟨hy, -⟩, rfl⟩
      · exact absurd rfl hk
      · exact ⟨hy, rfl⟩
    · rintro ⟨hy, rfl⟩
      exact ⟨.inr ⟨hy, fun h => hk h.symm⟩, rfl⟩

theorem find_upserts_of_notMem {c : Collection key} {xs : List α} {k : K}
    (h : k ∉ xs.map key) : (c.upserts xs).find k = c.find k := by
  induction xs generalizing c with
  | nil => rfl
  | cons x xs ih =>
    rw [List.map_cons, List.mem_cons, not_or] at h
    rw [upserts_cons, ih h.2, find_upsert, if_neg fun he => h.1 he.symm]

/-- What the upserts that agree on the document with key `k` leave there. -/
theorem find_upserts_of_mem {c : Collection key} {xs : List α} {k : K} {v : α}
    (hk : k ∈ xs.map key) (h : ∀ x ∈ xs, key x = k → x = v) : (c.upserts xs).find k = some v := by
  induction xs generalizing c with
  | nil => simp at hk
  | cons x xs ih =>
    rw [List.forall_mem_cons] at h
    rw [upserts_cons]
    by_cases hxs : k ∈ xs.map key
    · exact ih hxs h.2
    · have hx : key x = k := by simpa [hxs, eq_comm] using hk
      rw [find_upserts_of_notMem hxs, find_upsert, if_pos hx, h.1 hx]

theorem keys_upserts_congr {c d : Collection key} {xs ys : List α} (hkeys : c.keys = d.keys)
    (hxs : xs.map key = ys.map key) : (c.upserts xs).keys = (d.upserts ys).keys := by
  induction xs generalizing c d ys with
  | nil =>
    obtain rfl : ys = [] := by simpa [eq_comm] using hxs
    exact hkeys
  | cons x xs ih =>
    cases ys with
    | nil => simp at hxs
    | cons y ys =>
      rw [List.map_cons, List.map_cons, List.cons.injEq] at hxs
      have hstep : (c.upsert x).keys = (d.upsert y).keys := by
        rw [keys_upsert, keys_upsert, hkeys, hxs.1]
      rw [upserts_cons, upserts_cons]
      exact ih hstep hxs.2

theorem mem_keys_upserts {c : Collection key} {xs : List α} {k : K} :
    k ∈ (c.upserts xs).keys ↔ k ∈ c.keys ∨ k ∈ xs.map key := by
  induction xs generalizing c with
  | nil => simp
  | cons x xs ih =>
    rw [upserts_cons, ih, keys_upsert, List.map_cons, List.mem_cons]
    split_ifs with hx
    · constructor
      · rintro (h | h)
        · exact .inl h
        · exact .inr (.inr h)
      · rintro (h | rfl | h)
        · exact .inl h
        · exact .inl hx
        · exact .inr h
    · rw [List.mem_append, List.mem_singleton, or_assoc]

/-- Upserting what is there already changes nothing. -/
theorem upserts_eq_self {c : Collection key} {xs : List α}
    (h : ∀ x ∈ xs, c.find (key x) = some x) : c.upserts xs = c := by
  induction xs with
  | nil => rfl
  | cons x xs ih =>
    rw [List.forall_mem_cons] at h
    have hx : c.upsert x = c := by
      refine ext_find ?_ fun k => ?_
      · rw [keys_upsert, if_pos (mem_keys.2 ⟨x, h.1⟩)]
      · rw [find_upsert]
        split_ifs with hk
        · rw [← hk, h.1]
        · rfl
    rw [upserts_cons, hx, ih h.2]

end Collection

end Nightfall
