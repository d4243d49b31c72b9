import Nightfall.Data.Links
import Nightfall.Semantics.Stateful
import Nightfall.Trees.Indexed

/-!
# The records as a linked list

`Stored c v i c'` is what a call of `store_leaf` that succeeds does to the records.  It keeps the
records a sorted linked list (`IsLinked.stored`), in which `get_low_leaf` finds the one record between
whose value and next value a new value lies (`IsLinked.low`).
-/

namespace Nightfall

namespace Trees

open Stateful

/-- The collection of the records. -/
abbrev Leaves := Collection (IndexedLeaf.id (F := Fr254))

/-- What a record names: the index and the value of the next record, or zeros. -/
def IndexedLeaf.Names (r : IndexedLeaf Fr254) : Option (IndexedLeaf Fr254) → Prop
  | some s => r.nextIndex = s.id ∧ r.nextValue = s.value
  | none => r.nextIndex = 0 ∧ r.nextValue = 0

/-- The order of the records. -/
def IndexedLeaf.rank (r : IndexedLeaf Fr254) : ℕ := r.value.val

/-- The records are a sorted linked list that begins with a record of the value zero. -/
structure IsLinked (c : Leaves) (l : List (IndexedLeaf Fr254)) : Prop where
  perm : c.docs.Perm l
  linked : SortedLinks IndexedLeaf.rank IndexedLeaf.Names l
  zero : 0 ∈ c.docs.map IndexedLeaf.value

theorem isLinked_default {c : Leaves} (h : c.docs = [.default]) : IsLinked c [.default] := by
  refine ⟨by rw [h], ⟨⟨rfl, rfl⟩, ?_, trivial⟩, ?_⟩
  · rintro _ ⟨⟩
  · rw [h]
    exact List.mem_cons_self

/-! ### Queries -/

/-- The record with a value. -/
def Leaves.withValue (c : Leaves) (v : Fr254) : Option (IndexedLeaf Fr254) :=
  c.findOne fun leaf => leaf.value = v

/-- The record with the largest value below `v`. -/
def Leaves.low (c : Leaves) (v : Fr254) : Option (IndexedLeaf Fr254) :=
  c.findFirst (fun leaf => serializeToPaddedHex leaf.value < serializeToPaddedHex v)
    fun a b => serializeToPaddedHex b.value ≤ serializeToPaddedHex a.value

theorem run_getLeaf (v : Fr254) (db : TreeDb Fr254) :
    (getLeaf (some v) none).run db = .ok (Leaves.withValue db.indexedLeaves v) db := by
  have hquery : (fun leaf : IndexedLeaf Fr254 =>
      ((some v).all fun w => decide (serializeToPaddedHex leaf.value = serializeToPaddedHex w)) &&
        (none : Option Fr254).all fun w =>
          decide (serializeToPaddedHex leaf.nextValue = serializeToPaddedHex w)) =
      fun leaf => decide (leaf.value = v) := by
    funext leaf
    simp [serializeToPaddedHex_inj]
  simp only [getLeaf, EStateM.run_bind, EStateM.run_get, hquery]
  rfl

theorem run_getLowLeaf (v : Fr254) (db : TreeDb Fr254) :
    (getLowLeaf v).run db = .ok (Leaves.low db.indexedLeaves v) db := rfl

theorem withValue_some {c : Leaves} {v : Fr254} {r : IndexedLeaf Fr254}
    (h : c.withValue v = some r) : r ∈ c.docs ∧ r.value = v :=
  (Collection.findOne_some h).imp_right of_decide_eq_true

theorem withValue_eq_none {c : Leaves} {v : Fr254} :
    c.withValue v = none ↔ v ∉ c.docs.map IndexedLeaf.value := by
  rw [Leaves.withValue, Collection.findOne_eq_none]
  simp

/-- The order in which the low leaf is the first one. -/
theorem hex_le_iff {a b : Fr254} :
    serializeToPaddedHex b ≤ serializeToPaddedHex a ↔ b.val ≤ a.val := by
  rw [← not_lt, serializeToPaddedHex_lt, Nat.not_lt]

instance total_hex : Std.Total fun a b : IndexedLeaf Fr254 =>
    serializeToPaddedHex b.value ≤ serializeToPaddedHex a.value where
  total a b := by
    rw [hex_le_iff, hex_le_iff]
    exact Nat.le_total _ _

instance trans_hex : IsTrans (IndexedLeaf Fr254) fun a b =>
    serializeToPaddedHex b.value ≤ serializeToPaddedHex a.value where
  trans a b c := by
    rw [hex_le_iff, hex_le_iff, hex_le_iff]
    exact fun hab hbc => hbc.trans hab

theorem low_some {c : Leaves} {v : Fr254} {r : IndexedLeaf Fr254} (h : c.low v = some r) :
    r ∈ c.docs ∧ r.value.val < v.val ∧
      ∀ s ∈ c.docs, s.value.val < v.val → s.value.val ≤ r.value.val := by
  obtain ⟨hmem, hlt, hmax⟩ := Collection.findFirst_some h
  refine ⟨hmem, serializeToPaddedHex_lt.1 (of_decide_eq_true hlt), fun s hs hsv => ?_⟩
  rcases hmax s hs (decide_eq_true (serializeToPaddedHex_lt.2 hsv)) with rfl | hle
  · exact le_rfl
  · exact hex_le_iff.1 hle

theorem low_eq_none {c : Leaves} {v : Fr254} :
    c.low v = none ↔ ∀ s ∈ c.docs, v.val ≤ s.value.val := by
  rw [Leaves.low, Collection.findFirst_eq_none]
  simp [serializeToPaddedHex_lt]

/-! ### Storing a leaf -/

/-- The record that takes over from `low`. -/
def IndexedLeaf.after (low : IndexedLeaf Fr254) (v : Fr254) (i : ℕ) : IndexedLeaf Fr254 :=
  ⟨v, i, low.nextIndex, low.nextValue⟩

/-- The value and the index of a record. -/
def IndexedLeaf.pair (r : IndexedLeaf Fr254) : Fr254 × ℕ := (r.value, r.id)

/-- `low` names another record. -/
def IndexedLeaf.relink (low : IndexedLeaf Fr254) (v : Fr254) (i : ℕ) : IndexedLeaf Fr254 :=
  { low with nextIndex := i, nextValue := v }

/-- A new value `v` was stored with index `i`. -/
structure Stored (c : Leaves) (v : Fr254) (i : ℕ) (c' : Leaves) : Prop where
  value : v ∉ c.docs.map IndexedLeaf.value
  index : i ∉ c.docs.map IndexedLeaf.id
  docs : ∃ low, c.low v = some low ∧ c'.docs = Collection.updateDocs
    (fun x => serializeToPaddedHex x.value = serializeToPaddedHex low.value) (·.relink v i)
    (c.docs ++ [low.after v i])

theorem run_okOr_eq_ok {α : Type} {e : MerkleTreeError} {o : Option α} {a : α}
    {db db' : TreeDb Fr254} : (okOr e o).run db = .ok a db' ↔ o = some a ∧ db' = db := by
  cases o with
  | none =>
    refine ⟨fun h => ?_, fun h => ?_⟩
    · cases h
    · cases h.1
  | some b =>
    rw [okOr, run_pure_eq_ok, Option.some_inj, eq_comm (a := db)]

theorem Stored.unique {c d d' : Leaves} {v : Fr254} {i : ℕ} (h : Stored c v i d)
    (h' : Stored c v i d') : d = d' := by
  obtain ⟨low, hlow, hdocs⟩ := h.docs
  obtain ⟨low', hlow', hdocs'⟩ := h'.docs
  obtain rfl := Option.some_inj.1 (hlow.symm.trans hlow')
  exact Collection.ext (hdocs.trans hdocs'.symm)

/-- A new value other than zero can be stored with a new index. -/
theorem exists_stored {c : Leaves} {v low : _} {i : ℕ} (hlow : c.low v = some low)
    (hvalue : v ∉ c.docs.map IndexedLeaf.value) (hindex : i ∉ c.docs.map IndexedLeaf.id) :
    ∃ c', Stored c v i c' := by
  cases hinsert : c.insertOne (low.after v i) with
  | none => exact absurd (Collection.insertOne_eq_none.1 hinsert) hindex
  | some d =>
    obtain ⟨-, hdocs⟩ := Collection.insertOne_eq_some.1 hinsert
    refine ⟨d.updateOne (fun x => serializeToPaddedHex x.value = serializeToPaddedHex low.value)
      (·.relink v i) fun _ => rfl, hvalue, hindex, low, hlow, ?_⟩
    rw [← hdocs]
    rfl

/-- **What `store_leaf` does when it succeeds.** -/
theorem run_storeLeaf_eq_ok {v : Fr254} {index : Option ℕ} {r : Option Unit}
    {db db' : TreeDb Fr254} :
    (storeLeaf v index).run db = .ok r db' ↔ r = some () ∧
      ∃ c, Stored db.indexedLeaves v (index.getD (db.indexedLeaves.docs.length % 2 ^ 32)) c ∧
        db' = { db with indexedLeaves := c } := by
  cases hvalue : Leaves.withValue db.indexedLeaves v with
  | some x =>
    have hrun : (storeLeaf v index).run db = .error (.err .leafExists) db := by
      simp only [storeLeaf, EStateM.run_bind, run_getLeaf, hvalue, Option.isSome_some, if_true]
      rfl
    rw [hrun]
    refine ⟨fun h => ?_, fun ⟨_, c, hc, _⟩ => ?_⟩
    · cases h
    · obtain ⟨hmem, heq⟩ := withValue_some hvalue
      exact absurd (List.mem_map.2 ⟨x, hmem, heq⟩) hc.value
  | none =>
    have hfresh := withValue_eq_none.1 hvalue
    cases hlow : Leaves.low db.indexedLeaves v with
    | none =>
      have hrun : (storeLeaf v index).run db = .error (.err .leafExists) db := by
        simp only [storeLeaf, EStateM.run_bind, run_getLeaf, hvalue, Option.isSome_none,
          Bool.false_eq_true, if_false, run_getLowLeaf, hlow]
        rfl
      rw [hrun]
      refine ⟨fun h => ?_, fun ⟨_, c, hc, _⟩ => ?_⟩
      · cases h
      · obtain ⟨low, hlow', -⟩ := hc.docs
        rw [hlow] at hlow'
        cases hlow'
    | some low =>
      cases hinsert : db.indexedLeaves.insertOne
          (low.after v (index.getD (db.indexedLeaves.docs.length % 2 ^ 32))) with
      | none =>
        have hrun : (storeLeaf v index).run db = .error (.err .databaseError) db := by
          rw [IndexedLeaf.after] at hinsert
          simp only [storeLeaf, EStateM.run_bind, run_getLeaf, hvalue, Option.isSome_none,
            Bool.false_eq_true, if_false, run_getLowLeaf, hlow, okOr, EStateM.run_pure,
            EStateM.run_get, hinsert]
          rfl
        rw [hrun]
        refine ⟨fun h => ?_, fun ⟨_, c, hc, _⟩ => ?_⟩
        · cases h
        · have hdup := Collection.insertOne_eq_none.1 hinsert
          exact absurd hdup hc.index
      | some inserted =>
        obtain ⟨hindex, hdocs⟩ := Collection.insertOne_eq_some.1 hinsert
        have hrun : (storeLeaf v index).run db = .ok (some ()) { db with
            indexedLeaves := inserted.updateOne
              (fun x => serializeToPaddedHex x.value = serializeToPaddedHex low.value)
              (·.relink v (index.getD (db.indexedLeaves.docs.length % 2 ^ 32))) fun _ => rfl } := by
          rw [IndexedLeaf.after] at hinsert
          simp only [storeLeaf, EStateM.run_bind, run_getLeaf, hvalue, Option.isSome_none,
            Bool.false_eq_true, if_false, run_getLowLeaf, hlow, okOr, EStateM.run_pure,
            EStateM.run_get, hinsert]
          rfl
        rw [hrun]
        constructor
        · rintro ⟨⟩
          exact ⟨rfl, _, ⟨hfresh, hindex, low, hlow, by rw [← hdocs]; rfl⟩, rfl⟩
        · rintro ⟨rfl, c, ⟨-, -, low', hlow', hc⟩, rfl⟩
          obtain rfl := Option.some_inj.1 (hlow.symm.trans hlow')
          rw [← hdocs] at hc
          exact congrArg _ (congrArg _ (Collection.ext hc.symm))

/-! ### The linked list -/

section IsLinked

variable {c c' : Leaves} {l : List (IndexedLeaf Fr254)} {v : Fr254} {i : ℕ}

theorem IsLinked.nodup_values (h : IsLinked c l) : (c.docs.map IndexedLeaf.value).Nodup := by
  have hranks : (l.map IndexedLeaf.rank).Nodup := h.linked.nodup_values
  have hvalues : (l.map IndexedLeaf.value).Nodup := by
    have hmap : l.map IndexedLeaf.rank = (l.map IndexedLeaf.value).map ZMod.val := by
      rw [List.map_map]
      rfl
    rw [hmap] at hranks
    exact List.Nodup.of_map _ hranks
  exact (h.perm.map _).nodup_iff.2 hvalues

theorem IsLinked.value_inj (h : IsLinked c l) {r s : IndexedLeaf Fr254} (hr : r ∈ c.docs)
    (hs : s ∈ c.docs) (hvalue : r.value = s.value) : r = s :=
  List.inj_on_of_nodup_map h.nodup_values hr hs hvalue

theorem IsLinked.withValue_eq (h : IsLinked c l) {r : IndexedLeaf Fr254} (hr : r ∈ c.docs) :
    c.withValue r.value = some r :=
  Collection.findOne_eq_some_of_unique hr (decide_eq_true rfl) fun _ hs hvalue =>
    h.value_inj hs hr (of_decide_eq_true hvalue)

/-- There is a low leaf for every value other than zero. -/
theorem exists_low (hzero : 0 ∈ c.docs.map IndexedLeaf.value) (hv : v ≠ 0) :
    ∃ low, c.low v = some low := by
  cases hlow : c.low v with
  | some low => exact ⟨low, rfl⟩
  | none =>
    obtain ⟨r, hr, hvalue⟩ := List.mem_map.1 hzero
    have hle := low_eq_none.1 hlow r hr
    rw [hvalue, ZMod.val_zero, Nat.le_zero, ZMod.val_eq_zero] at hle
    exact absurd hle hv

theorem Stored.docs_eq (hc : IsLinked c l) (h : Stored c v i c') :
    ∃ low, c.low v = some low ∧ c'.docs =
      (c.docs.map fun x => if x.value = low.value then x.relink v i else x) ++ [low.after v i] := by
  obtain ⟨low, hlow, hdocs⟩ := h.docs
  obtain ⟨hmem, hlt, -⟩ := low_some hlow
  have hne : v ≠ low.value := by
    rintro rfl
    exact lt_irrefl _ hlt
  refine ⟨low, hlow, ?_⟩
  have hdistinct : (c.docs ++ [low.after v i]).Pairwise fun x y =>
      ¬ (decide (serializeToPaddedHex x.value = serializeToPaddedHex low.value) = true ∧
        decide (serializeToPaddedHex y.value = serializeToPaddedHex low.value) = true) := by
    have hnodup : ((c.docs ++ [low.after v i]).map IndexedLeaf.value).Nodup := by
      rw [List.map_append, List.map_singleton]
      refine List.Nodup.append hc.nodup_values (List.nodup_singleton _) ?_
      rw [List.disjoint_singleton]
      exact h.value
    rw [List.Nodup, List.pairwise_map] at hnodup
    refine hnodup.imp fun {x y} hxy hand => hxy ?_
    rw [decide_eq_true_eq, decide_eq_true_eq, serializeToPaddedHex_inj,
      serializeToPaddedHex_inj] at hand
    exact hand.1.trans hand.2.symm
  rw [hdocs, Collection.updateDocs_eq_map hdistinct]
  simp only [serializeToPaddedHex_inj, decide_eq_true_eq, List.map_append, List.map_singleton]
  rw [if_neg (show ¬ (low.after v i).value = low.value from hne)]

theorem Stored.pairs (hc : IsLinked c l) (h : Stored c v i c') :
    c'.docs.map IndexedLeaf.pair = c.docs.map IndexedLeaf.pair ++ [(v, i)] := by
  obtain ⟨low, -, hdocs⟩ := h.docs_eq hc
  rw [hdocs, List.map_append, List.map_map]
  congr 1
  refine List.map_congr_left fun x _ => ?_
  rw [Function.comp_apply]
  split_ifs
  · rfl
  · rfl

theorem map_value_eq (docs : List (IndexedLeaf Fr254)) :
    docs.map IndexedLeaf.value = (docs.map IndexedLeaf.pair).map Prod.fst := by
  rw [List.map_map]
  rfl

theorem map_id_eq (docs : List (IndexedLeaf Fr254)) :
    docs.map IndexedLeaf.id = (docs.map IndexedLeaf.pair).map Prod.snd := by
  rw [List.map_map]
  rfl

theorem Stored.values (hc : IsLinked c l) (h : Stored c v i c') :
    c'.docs.map IndexedLeaf.value = c.docs.map IndexedLeaf.value ++ [v] := by
  rw [map_value_eq, map_value_eq, h.pairs hc, List.map_append]
  rfl

/-- **Storing a leaf keeps the linked list.** -/
theorem IsLinked.stored (hc : IsLinked c l) (h : Stored c v i c') : ∃ l', IsLinked c' l' := by
  obtain ⟨low, hlow, hdocs⟩ := h.docs_eq hc
  obtain ⟨hmem, hlt, hmax⟩ := low_some hlow
  obtain ⟨pre, post, rfl⟩ := List.append_of_mem (hc.perm.mem_iff.1 hmem)
  have hsorted := hc.linked.sorted
  rw [List.pairwise_append, List.pairwise_cons] at hsorted
  obtain ⟨-, ⟨hlowpost, -⟩, hprepost⟩ := hsorted
  -- only the low leaf changes
  have hupdate : (pre ++ low :: post).map
      (fun x => if x.value = low.value then x.relink v i else x) =
      pre ++ low.relink v i :: post := by
    have hid : ∀ x ∈ pre ++ post, (if x.value = low.value then x.relink v i else x) = x := by
      intro x hx
      refine if_neg fun heq => ?_
      have hrank : x.rank = low.rank := congrArg ZMod.val heq
      rcases List.mem_append.1 hx with hx | hx
      · exact absurd hrank (hprepost x hx low List.mem_cons_self).ne
      · exact absurd hrank (hlowpost x hx).ne'
    rw [List.map_append, List.map_cons, if_pos rfl,
      List.map_congr_left fun x hx => hid x (List.mem_append_left _ hx),
      List.map_congr_left fun x hx => hid x (List.mem_append_right _ hx), List.map_id',
      List.map_id']
  refine ⟨pre ++ low.relink v i :: low.after v i :: post, ?_, ?_, ?_⟩
  · rw [hdocs]
    have hperm := hc.perm.map fun x => if x.value = low.value then x.relink v i else x
    rw [hupdate] at hperm
    refine (hperm.append_right _).trans ?_
    rw [List.append_assoc, List.cons_append]
    exact ((List.perm_append_singleton _ _).cons _).append_left _
  · refine hc.linked.insert rfl (fun r hr => hr) ⟨rfl, rfl⟩ (fun o ho => ?_) hlt fun s hs => ?_
    · cases o with
      | none => exact ho
      | some s => exact ho
    · -- the records above the low leaf are not below the new value
      have hs' : s ∈ c.docs := hc.perm.mem_iff.2 (List.mem_append_right _ (List.mem_cons_of_mem _ hs))
      have hle : ¬ s.value.val < v.val := by
        intro hsv
        exact absurd (hlowpost s hs) (hmax s hs' hsv).not_gt
      refine lt_of_le_of_ne (not_lt.1 hle) fun heq => h.value ?_
      have hvalue : v = s.value := ZMod.val_injective _ heq
      rw [hvalue]
      exact List.mem_map.2 ⟨s, hs', rfl⟩
  · rw [h.values hc]
    exact List.mem_append_left _ hc.zero

/-- **The low leaf of a new value.**  It is the one record that has the value between its own and the
next one. -/
theorem IsLinked.low (hc : IsLinked c l) (hv : v ≠ 0) (hnew : v ∉ c.docs.map IndexedLeaf.value) :
    ∃ low, c.low v = some low ∧ ∀ r ∈ c.docs, r = low ↔
      r.value.val < v.val ∧ (v.val < r.nextValue.val ∨ r.nextValue = 0) := by
  obtain ⟨low, hlow⟩ := exists_low hc.zero hv
  obtain ⟨hmem, hlt, hmax⟩ := low_some hlow
  refine ⟨low, hlow, fun r hr => ⟨?_, ?_⟩⟩
  · rintro rfl
    refine ⟨hlt, ?_⟩
    rcases hc.linked.names (hc.perm.mem_iff.1 hr) with ⟨t, ht, hname, hrt, -⟩ | ⟨hname, -⟩
    · have ht' := hc.perm.mem_iff.2 ht
      have hle : ¬ t.value.val < v.val := by
        intro htv
        exact absurd hrt (hmax t ht' htv).not_gt
      refine .inl (lt_of_le_of_ne ?_ fun heq => hnew ?_)
      · rw [hname.2]
        exact not_lt.1 hle
      · rw [ZMod.val_injective _ heq, hname.2]
        exact List.mem_map.2 ⟨t, ht', rfl⟩
    · exact .inr hname.2
  · rintro ⟨hrv, hnext⟩
    by_contra hne
    -- a smaller record names one that is not above the low leaf
    have hrlow : r.rank < low.rank := by
      refine lt_of_le_of_ne (hmax r hr hrv) fun heq => hne ?_
      exact hc.value_inj hr hmem (ZMod.val_injective _ heq)
    rcases hc.linked.names (hc.perm.mem_iff.1 hr) with ⟨t, -, hname, hrt, hleast⟩ | ⟨-, hlargest⟩
    · have htlow := hleast low (hc.perm.mem_iff.1 hmem) hrlow
      rcases hnext with hnext | hnext
      · rw [hname.2] at hnext
        exact absurd (hnext.trans_le htlow) hlt.not_gt
      · rw [hname.2] at hnext
        have hzero : t.rank = 0 := by rw [IndexedLeaf.rank, hnext, ZMod.val_zero]
        rw [hzero] at hrt
        exact absurd hrt (Nat.not_lt_zero _)
    · exact absurd (hlargest low (hc.perm.mem_iff.1 hmem)) hrlow.not_ge

end IsLinked

end Trees

end Nightfall
