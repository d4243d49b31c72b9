import Nightfall.X509.DerElements

/-!
# The walk of the DER parser

The loop of `walkDerTree` and `computeNumberOfTlvs` reads one element after the other (`Reads`) until
the end of the octets.  An element is read at a larger offset than the one before, so that the loop
ends, and what the two functions return is determined by the elements that are read
(`walkDerTree_eq_ok`, `computeNumberOfTlvs_eq_ok`).
-/

namespace Nightfall

namespace X509

namespace Der

open Evm Tlv

/-- One round of the loop reads an element. -/
def ReadsOne (derBytes : Bytes) (c : Cursor) (t : DecodedTlv) (c' : Cursor) : Prop :=
  getNextTlv derBytes c.pointer c.depth = .ok (t, t.next) ∧ (enter t t.next c >>= leave) = .ok c'

/-- Rounds of the loop read elements. -/
inductive Reads (derBytes : Bytes) : Cursor → List DecodedTlv → Cursor → Prop
  | nil (c : Cursor) : Reads derBytes c [] c
  | cons {c c' c'' : Cursor} {t : DecodedTlv} {ts : List DecodedTlv} :
      ReadsOne derBytes c t c' → Reads derBytes c' ts c'' → Reads derBytes c (t :: ts) c''

section

variable {derBytes : Bytes} {c c' c'' d d' : Cursor} {t u : DecodedTlv} {ts us : List DecodedTlv}

/-! ### One element -/

theorem ReadsOne.element_eq (h : ReadsOne derBytes c t c') :
    ∃ tag length content rest n, derBytes.drop c.pointer = tag :: (length ++ (content ++ rest)) ∧
      Allowed tag ∧ contentLength length = some n ∧ content.length = n % 2 ^ 256 ∧
      t = element c.pointer c.depth tag length content := by
  obtain ⟨tag, length, content, rest, n, hdrop, hallowed, hn, hcontent, heq⟩ :=
    getNextTlv_eq_ok.1 h.1
  exact ⟨tag, length, content, rest, n, hdrop, hallowed, hn, hcontent, congrArg Prod.fst heq⟩

theorem enter_pointer {pointer : ℕ} (h : enter t pointer c = .ok c') : c'.pointer = pointer := by
  unfold enter at h
  split_ifs at h
  · rw [← Except.ok.inj h]
  · rw [← Except.ok.inj h]

theorem leave_eq_ok : leave c = .ok c' ↔
    c.depthChangesAt.foldlM (fun depth change =>
      if c.pointer = change then checkedSub depth 1 else .ok depth) c.depth = .ok c'.depth ∧
    c'.pointer = c.pointer ∧ c'.depthChangesAt = c.depthChangesAt := by
  rw [leave, bind_eq_ok]
  constructor
  · rintro ⟨depth, hdepth, hc⟩
    rw [← pure_eq_ok.1 hc]
    exact ⟨hdepth, rfl, rfl⟩
  · rintro ⟨hdepth, hpointer, hchanges⟩
    refine ⟨c'.depth, hdepth, ?_⟩
    rw [pure_eq_ok, ← hpointer, ← hchanges]

theorem ReadsOne.pointer_eq (h : ReadsOne derBytes c t c') : c'.pointer = t.next := by
  obtain ⟨e, henter, hleave⟩ := bind_eq_ok.1 h.2
  rw [(leave_eq_ok.1 hleave).2.1, enter_pointer henter]

theorem ReadsOne.pointer_lt (h : ReadsOne derBytes c t c') : c.pointer < c'.pointer := by
  obtain ⟨tag, length, content, rest, n, -, -, -, -, rfl⟩ := h.element_eq
  rw [h.pointer_eq, DecodedTlv.next]
  split_ifs
  · simp only [element]
    omega
  · simp only [element]
    omega

theorem ReadsOne.pointer_le (h : ReadsOne derBytes c t c') : c'.pointer ≤ derBytes.length := by
  obtain ⟨tag, length, content, rest, n, hdrop, -, -, -, rfl⟩ := h.element_eq
  have hlen := congrArg List.length hdrop
  rw [List.length_drop, List.length_cons, List.length_append, List.length_append] at hlen
  rw [h.pointer_eq, DecodedTlv.next]
  split_ifs
  · simp only [element]
    omega
  · simp only [element]
    omega

/-- Each entry that equals the offset takes the depth down by one. -/
theorem foldlM_changes_eq_ok {pointer depth depth' : ℕ} {changes : List ℕ} :
    changes.foldlM (fun depth change =>
      if pointer = change then checkedSub depth 1 else .ok depth) depth = .ok depth' ↔
    depth' + changes.count pointer = depth := by
  induction changes generalizing depth with
  | nil =>
    rw [List.foldlM_nil, pure_eq_ok, List.count_nil, Nat.add_zero]
    exact eq_comm
  | cons change changes ih =>
    rw [List.foldlM_cons, bind_eq_ok]
    by_cases heq : pointer = change
    · subst heq
      simp only [if_pos, checkedSub_eq_ok, ih, List.count_cons_self]
      constructor
      · rintro ⟨_, ⟨hle, rfl⟩, hrest⟩
        omega
      · intro hrest
        exact ⟨depth - 1, ⟨by omega, rfl⟩, by omega⟩
    · simp only [if_neg heq, ih, List.count_cons_of_ne (Ne.symm heq)]
      constructor
      · rintro ⟨_, hone, hrest⟩
        rw [hrest, Except.ok.inj hone]
      · intro hrest
        exact ⟨depth, rfl, hrest⟩

/-- Behind an element the depth is at most one larger, and only inside a constructed element. -/
theorem ReadsOne.depth_le (h : ReadsOne derBytes c t c') :
    c'.depth ≤ (if t.tag.isConstructed then c.depth + 1 else c.depth) ∧
      (t.tag.isConstructed = true → c.depth < c.depthChangesAt.length) ∧
      c'.depthChangesAt.length = c.depthChangesAt.length := by
  obtain ⟨e, henter, hleave⟩ := bind_eq_ok.1 h.2
  obtain ⟨hfold, -, hchanges⟩ := leave_eq_ok.1 hleave
  have hle : c'.depth ≤ e.depth := Nat.le.intro (foldlM_changes_eq_ok.1 hfold)
  rw [hchanges]
  unfold enter at henter
  split_ifs at henter ⊢ with hconstructed hroom
  · rw [← Except.ok.inj henter] at hle ⊢
    exact ⟨hle, fun _ => hroom, List.length_set⟩
  · rw [← Except.ok.inj henter] at hle ⊢
    exact ⟨hle, fun habsurd => absurd habsurd hconstructed, rfl⟩

theorem ReadsOne.depth_eq (h : ReadsOne derBytes c t c') : t.depth = c.depth := by
  obtain ⟨_, _, _, _, _, -, -, -, -, rfl⟩ := h.element_eq
  rfl

theorem ReadsOne.unique (h : ReadsOne derBytes c t c') (h' : ReadsOne derBytes c u d) :
    t = u ∧ c' = d := by
  have htlv : t = u := congrArg Prod.fst (Except.ok.inj (h.1.symm.trans h'.1))
  subst htlv
  exact ⟨rfl, Except.ok.inj (h.2.symm.trans h'.2)⟩

/-! ### Several elements -/

theorem Reads.append (h : Reads derBytes c ts c') (h' : Reads derBytes c' us c'') :
    Reads derBytes c (ts ++ us) c'' := by
  induction h with
  | nil c => exact h'
  | cons hone _ ih => exact .cons hone (ih h')

theorem Reads.length_le (h : Reads derBytes c ts c') : c.pointer + ts.length ≤ c'.pointer := by
  induction h with
  | nil c => exact le_refl _
  | cons hone _ ih =>
    have hlt := hone.pointer_lt
    rw [List.length_cons]
    omega

theorem Reads.length_changes (h : Reads derBytes c ts c') :
    c'.depthChangesAt.length = c.depthChangesAt.length := by
  induction h with
  | nil c => rfl
  | cons hone _ ih => rw [ih, hone.depth_le.2.2]

/-- Two walks that end at the same offset have read the same elements. -/
theorem Reads.unique (h : Reads derBytes c ts c') (h' : Reads derBytes c us d)
    (hend : c'.pointer = d.pointer) : ts = us ∧ c' = d := by
  induction h generalizing us with
  | nil c =>
    cases h' with
    | nil => exact ⟨rfl, rfl⟩
    | cons hone hrest =>
      have hlt := hone.pointer_lt
      have hle := hrest.length_le
      omega
  | cons hone hrest ih =>
    cases h' with
    | nil =>
      have hlt := hone.pointer_lt
      have hle := hrest.length_le
      omega
    | cons hone' hrest' =>
      obtain ⟨rfl, rfl⟩ := hone.unique hone'
      obtain ⟨rfl, hlast⟩ := ih hrest' hend
      exact ⟨rfl, hlast⟩

theorem Reads.after (h : Reads derBytes c ts d) (h' : Reads derBytes c us c')
    (hle : d.pointer ≤ c'.pointer) : ∃ vs, us = ts ++ vs ∧ Reads derBytes d vs c' := by
  induction h generalizing us with
  | nil c => exact ⟨us, rfl, h'⟩
  | cons hone hrest ih =>
    cases h' with
    | nil =>
      have hlt := hone.pointer_lt
      have hrestle := hrest.length_le
      omega
    | cons hone' hrest' =>
      obtain ⟨rfl, rfl⟩ := hone.unique hone'
      obtain ⟨vs, rfl, hreads⟩ := ih hrest' hle
      exact ⟨vs, rfl, hreads⟩

end

/-! ### The loop -/

section

variable {α : Type} {store : α → DecodedTlv → Except Revert α} {derBytes : Bytes} {c : Cursor}
  {a r : α} {fuel : ℕ}

theorem walkLoop_succ_eq_ok : walkLoop store derBytes (fuel + 1) c a = .ok r ↔
    ∃ t a' c', ReadsOne derBytes c t c' ∧ store a t = .ok a' ∧
      (if c'.pointer < derBytes.length then walkLoop store derBytes fuel c' a' else pure a') =
        .ok r := by
  rw [walkLoop, bind_eq_ok]
  constructor
  · rintro ⟨⟨t, pointer⟩, ht, hrest⟩
    have hnext : pointer = t.next := by
      obtain ⟨_, _, _, _, _, -, -, -, -, heq⟩ := getNextTlv_eq_ok.1 ht
      obtain ⟨rfl, rfl⟩ := Prod.mk.inj heq
      rfl
    subst hnext
    obtain ⟨a', ha', hrest⟩ := bind_eq_ok.1 hrest
    obtain ⟨e, he, hrest⟩ := bind_eq_ok.1 hrest
    obtain ⟨c', hc', hrest⟩ := bind_eq_ok.1 hrest
    exact ⟨t, a', c', ⟨ht, bind_eq_ok.2 ⟨e, he, hc'⟩⟩, ha', hrest⟩
  · rintro ⟨t, a', c', ⟨ht, hc'⟩, ha', hrest⟩
    obtain ⟨e, he, hc'⟩ := bind_eq_ok.1 hc'
    exact ⟨(t, t.next), ht, bind_eq_ok.2 ⟨a', ha', bind_eq_ok.2 ⟨e, he, bind_eq_ok.2
      ⟨c', hc', hrest⟩⟩⟩⟩

theorem walkLoop_eq_ok : walkLoop store derBytes fuel c a = .ok r ↔
    ∃ ts c', Reads derBytes c ts c' ∧ ts ≠ [] ∧ c'.pointer = derBytes.length ∧
      ts.length ≤ fuel ∧ ts.foldlM store a = .ok r := by
  induction fuel generalizing c a with
  | zero =>
    constructor
    · intro h
      cases h
    · rintro ⟨ts, c', -, hts, -, hfuel, -⟩
      exact absurd (List.eq_nil_of_length_eq_zero (Nat.le_zero.1 hfuel)) hts
  | succ fuel ih =>
    rw [walkLoop_succ_eq_ok]
    constructor
    · rintro ⟨t, a', c₁, hone, ha', hrest⟩
      split_ifs at hrest with hlt
      · obtain ⟨ts, c', hreads, hts, hend, hfuel, hstore⟩ := ih.1 hrest
        refine ⟨t :: ts, c', .cons hone hreads, List.cons_ne_nil _ _, hend,
          Nat.succ_le_succ hfuel, ?_⟩
        rw [List.foldlM_cons, bind_eq_ok]
        exact ⟨a', ha', hstore⟩
      · have hend : c₁.pointer = derBytes.length :=
          Nat.le_antisymm hone.pointer_le (Nat.le_of_not_lt hlt)
        refine ⟨[t], c₁, .cons hone (.nil c₁), List.cons_ne_nil _ _, hend,
          Nat.succ_le_succ (Nat.zero_le _), ?_⟩
        rw [List.foldlM_cons, bind_eq_ok]
        exact ⟨a', ha', hrest⟩
    · rintro ⟨ts, c', hreads, hts, hend, hfuel, hstore⟩
      cases hreads with
      | nil => exact absurd rfl hts
      | @cons _ c₁ _ t ts hone hrest =>
        rw [List.foldlM_cons, bind_eq_ok] at hstore
        obtain ⟨a', ha', hstore⟩ := hstore
        refine ⟨t, a', c₁, hone, ha', ?_⟩
        cases hrest with
        | nil =>
          rw [if_neg (Nat.not_lt.2 hend.ge)]
          exact hstore
        | cons hone' hrest' =>
          have hlt := hone'.pointer_lt
          have hle := hrest'.length_le
          rw [if_pos (by omega)]
          exact ih.2 ⟨_, c', .cons hone' hrest', List.cons_ne_nil _ _, hend,
            Nat.le_of_succ_le_succ hfuel, hstore⟩

/-- The bound on the loop is never reached. -/
theorem walkLoop_start_eq_ok {pointer : ℕ} :
    walkLoop store derBytes (derBytes.length + 1) (.start pointer) a = .ok r ↔
    ∃ ts c', Reads derBytes (.start pointer) ts c' ∧ ts ≠ [] ∧ c'.pointer = derBytes.length ∧
      ts.foldlM store a = .ok r := by
  rw [walkLoop_eq_ok]
  constructor
  · rintro ⟨ts, c', hreads, hts, hend, -, hstore⟩
    exact ⟨ts, c', hreads, hts, hend, hstore⟩
  · rintro ⟨ts, c', hreads, hts, hend, hstore⟩
    have hle := hreads.length_le
    exact ⟨ts, c', hreads, hts, hend, by omega, hstore⟩

end

/-! ### The elements that are returned -/

theorem foldlM_store_eq_ok {ts : List DecodedTlv} {found : Found} {n : ℕ}
    (done : List DecodedTlv) :
    ts.foldlM Found.store ⟨done ++ List.replicate n .zero, done.length⟩ = .ok found ↔
      ts.length ≤ n ∧
        found = ⟨done ++ ts ++ List.replicate (n - ts.length) .zero, done.length + ts.length⟩ := by
  induction ts generalizing done n with
  | nil =>
    rw [List.foldlM_nil, pure_eq_ok, List.append_nil]
    exact ⟨fun h => ⟨Nat.zero_le _, h.symm⟩, fun h => h.2.symm⟩
  | cons t ts ih =>
    rw [List.foldlM_cons, bind_eq_ok, List.length_cons]
    cases n with
    | zero =>
      constructor
      · rintro ⟨found', hstore, -⟩
        rw [Found.store, if_neg (by simp)] at hstore
        cases hstore
      · intro h
        exact absurd h.1 (Nat.not_succ_le_zero _)
    | succ n =>
      have hstore : Found.store ⟨done ++ List.replicate (n + 1) .zero, done.length⟩ t =
          .ok ⟨(done ++ [t]) ++ List.replicate n .zero, (done ++ [t]).length⟩ := by
        rw [Found.store, if_pos (by simp)]
        simp [List.replicate_succ]
      rw [hstore]
      have hrest := @ih n (done ++ [t])
      constructor
      · rintro ⟨found', hfound', htail⟩
        rw [← Except.ok.inj hfound'] at htail
        obtain ⟨hle, rfl⟩ := hrest.1 htail
        refine ⟨Nat.succ_le_succ hle, ?_⟩
        simp [Nat.add_assoc, Nat.add_comm 1]
      · rintro ⟨hle, rfl⟩
        refine ⟨_, rfl, hrest.2 ⟨Nat.le_of_succ_le_succ hle, ?_⟩⟩
        simp [Nat.add_assoc, Nat.add_comm 1]

/-- **What `walkDerTree` returns**: the elements that are read until the end of the octets, in an
array whose other entries stay zero. -/
theorem walkDerTree_eq_ok {derBytes : Bytes} {pointer tlvLength : ℕ} {tlvs : List DecodedTlv} :
    walkDerTree derBytes pointer tlvLength = .ok tlvs ↔
      ∃ ts c', Reads derBytes (.start pointer) ts c' ∧ ts ≠ [] ∧ c'.pointer = derBytes.length ∧
        ts.length ≤ tlvLength ∧ tlvs = ts ++ List.replicate (tlvLength - ts.length) .zero := by
  have hstore : ∀ (ts : List DecodedTlv) (found : Found),
      ts.foldlM Found.store ⟨List.replicate tlvLength .zero, 0⟩ = .ok found ↔
        ts.length ≤ tlvLength ∧
          found = ⟨ts ++ List.replicate (tlvLength - ts.length) .zero, 0 + ts.length⟩ :=
    fun ts found => foldlM_store_eq_ok []
  rw [walkDerTree, bind_eq_ok]
  simp only [walkLoop_start_eq_ok, hstore, pure_eq_ok]
  constructor
  · rintro ⟨_, ⟨ts, c', hreads, hts, hend, hle, rfl⟩, rfl⟩
    exact ⟨ts, c', hreads, hts, hend, hle, rfl⟩
  · rintro ⟨ts, c', hreads, hts, hend, hle, rfl⟩
    exact ⟨_, ⟨ts, c', hreads, hts, hend, hle, rfl⟩, rfl⟩

/-- **What `computeNumberOfTlvs` returns**: the number of these elements. -/
theorem computeNumberOfTlvs_eq_ok {derBytes : Bytes} {pointer n : ℕ} :
    computeNumberOfTlvs derBytes pointer = .ok n ↔
      ∃ ts c', Reads derBytes (.start pointer) ts c' ∧ ts ≠ [] ∧ c'.pointer = derBytes.length ∧
        n = ts.length := by
  have hcount : ∀ (ts : List DecodedTlv) (id : ℕ),
      ts.foldlM (fun id _ => (.ok (id + 1) : Except Revert ℕ)) id = .ok (id + ts.length) := by
    intro ts
    induction ts with
    | nil => exact fun id => rfl
    | cons t ts ih =>
      intro id
      rw [List.length_cons, Nat.add_comm ts.length, ← Nat.add_assoc]
      exact ih (id + 1)
  rw [computeNumberOfTlvs, walkLoop_start_eq_ok]
  simp only [hcount, Nat.zero_add, Except.ok.injEq, eq_comm]

end Der

end X509

end Nightfall
