import Nightfall.Trees.Batches

/-!
# Replaying a block

`insert_leaves` on an indexed tree with room for the leaves: it stores all leaves, appends them to the
tree and updates the low nullifiers at the end.  Between insertions the tree is the same as after
batches (`AtRest`).
-/

namespace Nightfall

namespace Trees

open Merkle Stateful

variable {treeHash : Fr254 → Fr254 → Fr254} {hash : Fr254 → Fr254 → Fr254 → Fr254}
  {db : TreeDb Fr254} {t : NaiveTree Fr254} {first next start : ℕ} {l : List Fr254}

/-- **The invariant between insertions.**  The leaf at the index of a record is the hash of the
record, and all other leaves are zero. -/
def AtRest (treeHash : Fr254 → Fr254 → Fr254) (hash : Fr254 → Fr254 → Fr254 → Fr254)
    (db : TreeDb Fr254) (t : NaiveTree Fr254) : Prop :=
  Inserting treeHash hash db t (t.subTreeCount * 2 ^ t.subTreeHeight)
    (t.subTreeCount * 2 ^ t.subTreeHeight)

theorem AtRest.leaves_eq (h : AtRest treeHash hash db t) :
    t.leaves = leafAt hash db.indexedLeaves := by
  funext i
  rw [h.leaves]
  split_ifs with hi
  · rfl
  · refine (leafAt_of_notMem fun hmem => ?_).symm
    obtain ⟨x, hx, hid⟩ := List.mem_map.1 hmem
    exact hi (hid ▸ h.below x hx)

/-! ### The parts of an insertion -/

theorem run_checkNew (hnew : ∀ v ∈ l, v ≠ 0 → v ∉ db.indexedLeaves.docs.map IndexedLeaf.value) :
    (checkNew l).run db = .ok () db := by
  induction l with
  | nil => rfl
  | cons v l ih =>
    rw [List.forall_mem_cons] at hnew
    have hfresh : ¬ ((Leaves.withValue db.indexedLeaves v).isSome = true ∧ v ≠ 0) := by
      rintro ⟨hsome, hv⟩
      rw [withValue_eq_none.2 (hnew.1 hv)] at hsome
      cases hsome
    rw [checkNew, EStateM.run_bind, run_getLeaf]
    dsimp only
    rw [if_neg hfresh, ih hnew.2]

theorem run_mapM_pure {α β : Type} {f : α → TreeM Fr254 β} {g : α → β} {as : List α}
    (h : ∀ a ∈ as, (f a).run db = .ok (g a) db) : (as.mapM f).run db = .ok (as.map g) db := by
  induction as with
  | nil => rfl
  | cons a as ih =>
    rw [List.forall_mem_cons] at h
    rw [List.mapM_cons, EStateM.run_bind, h.1]
    simp only [EStateM.run_bind, ih h.2]
    rfl

/-- **The new leaves are stored.** -/
theorem run_storeLeaves {r : List (IndexedLeaf Fr254)} (hlinked : IsLinked db.indexedLeaves r)
    (hbelow : ∀ x ∈ db.indexedLeaves.docs, x.id < next) (hstart : l ≠ [] → start = next)
    (hcap : next + l.length ≤ 2 ^ 32)
    (hnew : ∀ v ∈ l, v ≠ 0 → v ∉ db.indexedLeaves.docs.map IndexedLeaf.value)
    (hdistinct : (l.filter (· ≠ 0)).Nodup) :
    ∃ d, (storeLeaves start l).run db = .ok () { db with indexedLeaves := d } := by
  induction l generalizing db r start next with
  | nil => exact ⟨db.indexedLeaves, rfl⟩
  | cons v l ih =>
    obtain rfl := hstart (List.cons_ne_nil _ _)
    rw [List.forall_mem_cons] at hnew
    rw [List.length_cons] at hcap
    have hnext : l ≠ [] → (start + 1) % 2 ^ 32 = start + 1 := by
      intro hl
      have hpos := List.length_pos_iff.2 hl
      exact Nat.mod_eq_of_lt (by omega)
    by_cases hv : v = 0
    · have hdistinct' : (l.filter (· ≠ 0)).Nodup := by
        rwa [List.filter_cons_of_neg (by simp [hv])] at hdistinct
      obtain ⟨d, hrest⟩ := ih hlinked (fun x hx => (hbelow x hx).trans (Nat.lt_succ_self _)) hnext
        (by omega) hnew.2 hdistinct'
      refine ⟨d, ?_⟩
      rw [storeLeaves]
      simp only [hv, ne_eq, not_true_eq_false, if_false]
      exact hrest
    · have hindex : start ∉ db.indexedLeaves.docs.map IndexedLeaf.id := by
        intro hmem
        obtain ⟨x, hx, hid⟩ := List.mem_map.1 hmem
        exact absurd hid (hbelow x hx).ne
      obtain ⟨low, hlow⟩ := exists_low hlinked.zero hv
      obtain ⟨c, hc⟩ := exists_stored hlow (hnew.1 hv) hindex
      obtain ⟨r', hr'⟩ := hlinked.stored hc
      rw [List.filter_cons_of_pos (by simpa using hv), List.nodup_cons] at hdistinct
      have hnew' : ∀ w ∈ l, w ≠ 0 → w ∉ c.docs.map IndexedLeaf.value := by
        intro w hw hw0 hmem
        rw [hc.values hlinked, List.mem_append, List.mem_singleton] at hmem
        rcases hmem with hmem | rfl
        · exact hnew.2 w hw hw0 hmem
        · exact hdistinct.1 (List.mem_filter.2 ⟨hw, by simpa using hw0⟩)
      have hbelow' : ∀ x ∈ c.docs, x.id < start + 1 := by
        intro x hx
        have hmem : x.id ∈ c.docs.map IndexedLeaf.id := List.mem_map.2 ⟨x, hx, rfl⟩
        rw [map_id_eq, hc.pairs hlinked, List.map_append, ← map_id_eq, List.mem_append] at hmem
        rcases hmem with hmem | hmem
        · obtain ⟨y, hy, hid⟩ := List.mem_map.1 hmem
          have := hbelow y hy
          omega
        · have := List.mem_singleton.1 hmem
          omega
      obtain ⟨d, hrest⟩ : ∃ d, (storeLeaves ((start + 1) % 2 ^ 32) l).run
          { db with indexedLeaves := c } = .ok () { db with indexedLeaves := d } :=
        ih hr' hbelow' hnext (by omega) hnew' hdistinct.2
      have hstore : (storeLeaf v (some start)).run db =
          .ok (some ()) { db with indexedLeaves := c } := run_storeLeaf_eq_ok.2 ⟨rfl, c, hc, rfl⟩
      refine ⟨d, ?_⟩
      rw [storeLeaves]
      simp only [hv, ne_eq, not_false_eq_true, if_true, EStateM.run_bind, hstore, okOr,
        EStateM.run_pure, hrest]

/-- **The low nullifiers are updated in the tree.** -/
theorem run_updates {infos : List (Fr254 × ℕ)} {f : ℕ → Fr254} (hdb : Refines treeHash db t)
    (hinfos : ∀ info ∈ infos, info.2 < 2 ^ t.height ∧ info.1 = f info.2) (acc : Fr254) :
    ∃ root db' u, (infos.foldlM (fun _ info => updateSubTree treeHash info.2 [info.1] true)
        acc).run db = .ok root db' ∧ Refines treeHash db' u ∧
      db'.indexedLeaves = db.indexedLeaves ∧ u = { t with leaves := u.leaves } ∧
      (∀ i, u.leaves i = if i ∈ infos.map Prod.snd then f i else t.leaves i) ∧
      root = if infos = [] then acc else u.node treeHash 0 := by
  induction infos generalizing db t acc with
  | nil => exact ⟨acc, db, t, rfl, hdb, rfl, rfl, fun i => rfl, rfl⟩
  | cons info infos ih =>
    rw [List.forall_mem_cons] at hinfos
    obtain ⟨db₁, hrun, hdb₁, hleaves₁⟩ := run_updateLeaf hdb hinfos.1.1 info.1
    obtain ⟨root, db', u, hrest, hdb', hleaves, hu, hwrite, hroot⟩ := ih hdb₁ hinfos.2 _
    refine ⟨root, db', u, ?_, hdb', hleaves.trans hleaves₁, ?_, fun i => ?_, ?_⟩
    · rw [List.foldlM_cons, EStateM.run_bind, hrun]
      exact hrest
    · rw [hu]
      rfl
    · rw [hwrite, NaiveTree.write_leaves, List.map_cons]
      by_cases hi : i ∈ infos.map Prod.snd
      · rw [if_pos hi, if_pos (List.mem_cons_of_mem _ hi)]
      · rw [if_neg hi]
        by_cases hinfo : i = info.2
        · rw [if_pos hinfo, if_pos (by rw [hinfo]; exact List.mem_cons_self), hinfos.1.2, hinfo]
        · rw [if_neg hinfo, if_neg]
          rw [List.mem_cons]
          rintro (heq | hmem)
          · exact hinfo heq
          · exact hi hmem
    · rw [hroot, if_neg (List.cons_ne_nil info infos)]
      split_ifs with hnil
      · -- the last update: nothing was written after it
        have hsame : u = t.write (info.2 * [info.1].length) [info.1] := by
          have hleaves' : u.leaves = (t.write (info.2 * [info.1].length) [info.1]).leaves := by
            funext i
            rw [hwrite, hnil, List.map_nil, if_neg List.not_mem_nil]
          rw [hu, hleaves']
        rw [hsame]
      · rfl

/-! ### The insertion -/

/-- The values of the low nullifiers that `insert_leaves` finds first. -/
def lowValues (c : Leaves) (l : List Fr254) : List Fr254 :=
  ((((l.map c.low).filterMap id).map IndexedLeaf.value).insertionSort (·.val ≤ ·.val)).dedup

theorem mem_lowValues {c : Leaves} {u : Fr254} :
    u ∈ lowValues c l ↔ ∃ v ∈ l, ∃ low, c.low v = some low ∧ low.value = u := by
  rw [lowValues, List.mem_dedup, List.mem_insertionSort]
  simp only [List.mem_map, List.mem_filterMap, id_eq, exists_eq_right]
  constructor
  · rintro ⟨low, ⟨v, hv, hlow⟩, rfl⟩
    exact ⟨v, hv, low, hlow, rfl⟩
  · rintro ⟨v, hv, low, hlow, rfl⟩
    exact ⟨low, ⟨v, hv, hlow⟩, rfl⟩

/-- The record with a value, or the zero record. -/
def Leaves.record (c : Leaves) (v : Fr254) : IndexedLeaf Fr254 :=
  (c.withValue v).getD .default

theorem Leaves.record_eq {c : Leaves} {r : List (IndexedLeaf Fr254)} {x : IndexedLeaf Fr254}
    (hc : IsLinked c r) (hx : x ∈ c.docs) : c.record x.value = x := by
  rw [Leaves.record, hc.withValue_eq hx]
  rfl

theorem run_getIndexedLeaf {v : Fr254} (hv : v ∈ db.indexedLeaves.docs.map IndexedLeaf.value) :
    (getIndexedLeaf v).run db = .ok (Leaves.record db.indexedLeaves v) db := by
  cases hrecord : Leaves.withValue db.indexedLeaves v with
  | none => exact absurd hv (withValue_eq_none.1 hrecord)
  | some r =>
    simp only [getIndexedLeaf, EStateM.run_bind, run_getLeaf, hrecord, okOr, Leaves.record]
    rfl

theorem run_getUpdateInfo {v : Fr254} (hv : v ∈ db.indexedLeaves.docs.map IndexedLeaf.value) :
    (getUpdateInfo hash v).run db = .ok ((Leaves.record db.indexedLeaves v).leaf hash,
      (Leaves.record db.indexedLeaves v).id) db := by
  cases hrecord : Leaves.withValue db.indexedLeaves v with
  | none => exact absurd hv (withValue_eq_none.1 hrecord)
  | some r =>
    simp only [getUpdateInfo, EStateM.run_bind, run_getLeaf, hrecord, okOr, EStateM.run_pure,
      Leaves.record]
    rfl

theorem record_leaf {c : Leaves} {v : Fr254} (hv : v ∈ c.docs.map IndexedLeaf.value) :
    (if (c.record v).value ≠ 0 then (c.record v).leaf hash else 0) = newLeaf hash c v := by
  cases hrecord : c.withValue v with
  | none => exact absurd hv (withValue_eq_none.1 hrecord)
  | some r =>
    obtain ⟨-, hvalue⟩ := withValue_some hrecord
    simp only [Leaves.record, hrecord, Option.getD_some, hvalue, newLeaf]

/-- The leaves below the batch are those of the records after it, once the leaves of the low
nullifiers are. -/
theorem leafAt_of_lows {c d : Leaves} {r : List (IndexedLeaf Fr254)} (hc : IsLinked c r)
    (hstored : StoredAll c (slots start l) d) (hstart : l ≠ [] → start = first)
    (hcap : first + l.length ≤ 2 ^ 32) {i : ℕ} (hi : i < first)
    (hlow : ∀ x ∈ d.docs, x.value ∈ lowValues c l → x.id ≠ i) :
    leafAt hash c i = leafAt hash d i := by
  obtain ⟨-, hpairs⟩ := hstored.isLinked hc
  by_cases hmem : i ∈ c.docs.map IndexedLeaf.id
  · obtain ⟨x, hx, rfl⟩ := List.mem_map.1 hmem
    -- the record is no low leaf, since the record with its value has its index
    have hpair : x.pair ∈ d.docs.map IndexedLeaf.pair := by
      rw [hpairs]
      exact List.mem_append_left _ (List.mem_map.2 ⟨x, hx, rfl⟩)
    obtain ⟨y, hy, hxy⟩ := List.mem_map.1 hpair
    obtain ⟨hvalue, hid⟩ := Prod.mk.inj hxy
    have hkept : x ∈ d.docs := by
      refine hstored.mem_of_not_low hc hx fun p hp hlowp => hlow y hy ?_ hid
      obtain ⟨k, hk, -, -⟩ := (mem_slots hstart hcap).1 (show (p.1, p.2) ∈ slots start l from hp)
      exact mem_lowValues.2 ⟨p.1, List.mem_of_getElem? hk, x, hlowp, hvalue.symm⟩
    rw [leafAt_of_mem hx, leafAt_of_mem hkept]
  · rw [leafAt_of_notMem hmem, leafAt_of_notMem]
    rw [map_id_eq, hpairs, List.map_append, ← map_id_eq, List.mem_append]
    rintro (hmem' | hmem')
    · exact hmem hmem'
    · obtain ⟨⟨w, j⟩, hslot, rfl⟩ := List.mem_map.1 hmem'
      obtain ⟨k, -, -, hj⟩ := (mem_slots hstart hcap).1 hslot
      omega

/-- The low nullifiers that `insert_leaves` finds first are in the tree. -/
theorem exists_low_record {c d : Leaves} {ps : List (Fr254 × ℕ)}
    (hpairs : d.docs.map IndexedLeaf.pair = c.docs.map IndexedLeaf.pair ++ ps)
    (hbelow : ∀ x ∈ c.docs, x.id < first) {u : Fr254} (hu : u ∈ lowValues c l) :
    ∃ x ∈ d.docs, x.value = u ∧ x.id < first := by
  obtain ⟨v, -, low, hlow, rfl⟩ := mem_lowValues.1 hu
  have hlowmem := (low_some hlow).1
  have hpair : low.pair ∈ d.docs.map IndexedLeaf.pair := by
    rw [hpairs]
    exact List.mem_append_left _ (List.mem_map.2 ⟨low, hlowmem, rfl⟩)
  obtain ⟨x, hx, hxlow⟩ := List.mem_map.1 hpair
  obtain ⟨hvalue, hid⟩ := Prod.mk.inj hxlow
  exact ⟨x, hx, hvalue, hid ▸ hbelow low hlowmem⟩

/-- What `insert_leaves` writes to the tree for the low nullifiers. -/
def updateInfos (hash : Fr254 → Fr254 → Fr254 → Fr254) (d : Leaves) (us : List Fr254) :
    List (Fr254 × ℕ) :=
  us.map fun u => ((Leaves.record d u).leaf hash, (Leaves.record d u).id)

theorem mem_updateInfos {d : Leaves} {r : List (IndexedLeaf Fr254)} (hd : IsLinked d r)
    {us : List Fr254} (hus : ∀ u ∈ us, ∃ x ∈ d.docs, x.value = u ∧ x.id < first) {i : ℕ} :
    i ∈ (updateInfos hash d us).map Prod.snd ↔ ∃ x ∈ d.docs, x.value ∈ us ∧ x.id = i := by
  rw [updateInfos, List.map_map, List.mem_map]
  constructor
  · rintro ⟨u, hu, rfl⟩
    obtain ⟨x, hx, rfl, -⟩ := hus u hu
    exact ⟨x, hx, hu, by rw [Function.comp_apply, Leaves.record_eq hd hx]⟩
  · rintro ⟨x, hx, hvalue, rfl⟩
    exact ⟨x.value, hvalue, by rw [Function.comp_apply, Leaves.record_eq hd hx]⟩

theorem AtRest.replayed {d : Leaves} {db' : TreeDb Fr254} {u : NaiveTree Fr254}
    (h : AtRest treeHash hash db t)
    (hstored : StoredAll db.indexedLeaves (slots (t.subTreeCount * 2 ^ t.subTreeHeight) l) d)
    (hcount : (t.subTreeCount + l.length / 2 ^ t.subTreeHeight) * 2 ^ t.subTreeHeight =
      t.subTreeCount * 2 ^ t.subTreeHeight + l.length)
    (hroom : t.subTreeCount * 2 ^ t.subTreeHeight + l.length ≤ 2 ^ t.height)
    (hcap : t.subTreeCount * 2 ^ t.subTreeHeight + l.length ≤ 2 ^ 32)
    (hdb' : Refines treeHash db' u) (hd : db'.indexedLeaves = d)
    (hu : u = { t with
      leaves := u.leaves
      subTreeCount := t.subTreeCount + l.length / 2 ^ t.subTreeHeight })
    (hwrite : ∀ i, u.leaves i =
      if i ∈ (updateInfos hash d (lowValues db.indexedLeaves l)).map Prod.snd then leafAt hash d i
      else (t.append (l.map (newLeaf hash d)) (l.length / 2 ^ t.subTreeHeight)).leaves i) :
    AtRest treeHash hash db' u := by
  obtain ⟨r, hr⟩ := h.linked
  obtain ⟨⟨r', hr'⟩, hpairs⟩ := hstored.isLinked hr
  have hlows : ∀ v ∈ lowValues db.indexedLeaves l, ∃ x ∈ d.docs, x.value = v ∧
      x.id < t.subTreeCount * 2 ^ t.subTreeHeight :=
    fun v hv => exists_low_record hpairs h.below hv
  have hfirst : u.subTreeCount * 2 ^ u.subTreeHeight =
      t.subTreeCount * 2 ^ t.subTreeHeight + l.length := by
    rw [hu]
    exact hcount
  have hlength : (l.map (newLeaf hash d)).length = l.length := List.length_map _
  subst hd
  refine ⟨hdb', ⟨r', hr'⟩, rfl, ?_, le_rfl, fun i => ?_, ?_⟩
  · rw [hfirst, hu]
    exact hroom
  · rw [hfirst, hwrite, append_leaves rfl, hlength, h.leaves]
    by_cases hi : i < t.subTreeCount * 2 ^ t.subTreeHeight
    · -- a leaf below the batch
      rw [if_pos (by omega : i < t.subTreeCount * 2 ^ t.subTreeHeight + l.length),
        if_neg (by omega : ¬ (t.subTreeCount * 2 ^ t.subTreeHeight ≤ i ∧
          i < t.subTreeCount * 2 ^ t.subTreeHeight + l.length)), if_pos hi]
      by_cases hlow :
          i ∈ (updateInfos hash db'.indexedLeaves (lowValues db.indexedLeaves l)).map Prod.snd
      · rw [if_pos hlow]
      · rw [if_neg hlow]
        refine leafAt_of_lows hr hstored (fun _ => rfl) hcap hi fun x hx hvalue hid => hlow ?_
        exact (mem_updateInfos hr' hlows).2 ⟨x, hx, hvalue, hid⟩
    · -- a new leaf, or one above
      have hnot : i ∉
          (updateInfos hash db'.indexedLeaves (lowValues db.indexedLeaves l)).map Prod.snd := by
        intro hlow
        obtain ⟨x, hx, hvalue, hid⟩ := (mem_updateInfos hr' hlows).1 hlow
        obtain ⟨y, hy, heq, hlt⟩ := hlows x.value hvalue
        rw [hr'.value_inj hy hx heq, hid] at hlt
        exact hi hlt
      rw [if_neg hnot, if_neg hi]
      by_cases hi' : i < t.subTreeCount * 2 ^ t.subTreeHeight + l.length
      · rw [if_pos ⟨by omega, hi'⟩, if_pos hi',
          getD_newLeaves hr' hpairs (fun _ => rfl) hcap h.below _ (by rw [hlength]; omega),
          Nat.add_sub_cancel' (by omega)]
      · rw [if_neg (by omega), if_neg hi']
  · intro x hx
    rw [hfirst]
    exact id_lt_of_stored hpairs (fun _ => rfl) hcap h.below x hx

/-- A batch has a low nullifier exactly if it has a value other than zero. -/
theorem lowValues_eq_nil {c : Leaves} {r : List (IndexedLeaf Fr254)} (hc : IsLinked c r) :
    lowValues c l = [] ↔ ∀ v ∈ l, v = 0 := by
  rw [List.eq_nil_iff_forall_not_mem]
  constructor
  · intro hnone v hv
    by_contra hv0
    obtain ⟨low, hlow⟩ := exists_low hc.zero hv0
    exact hnone low.value (mem_lowValues.2 ⟨v, hv, low, hlow, rfl⟩)
  · rintro hzero u hu
    obtain ⟨v, hv, low, hlow, -⟩ := mem_lowValues.1 hu
    have hlt := (low_some hlow).2.1
    rw [hzero v hv, ZMod.val_zero] at hlt
    exact absurd hlt (Nat.not_lt_zero _)

theorem run_getIndexedLeaves {d : Leaves} (hdb : db.indexedLeaves = d)
    (hmem : ∀ v ∈ l, v ∈ d.docs.map IndexedLeaf.value) :
    (l.mapM getIndexedLeaf).run db = .ok (l.map (Leaves.record d)) db ∧
      (l.map (Leaves.record d)).map (fun leaf => if leaf.value ≠ 0 then leaf.leaf hash else 0) =
        l.map (newLeaf hash d) := by
  subst hdb
  refine ⟨run_mapM_pure fun v hv => run_getIndexedLeaf (hmem v hv), ?_⟩
  rw [List.map_map]
  exact List.map_congr_left fun v hv => record_leaf (hmem v hv)

theorem run_getUpdateInfos {d : Leaves} {r : List (IndexedLeaf Fr254)} (hdb : db.indexedLeaves = d)
    (hd : IsLinked d r) {us : List Fr254} (hus : ∀ u ∈ us, ∃ x ∈ d.docs, x.value = u ∧ x.id < first) :
    (us.mapM (getUpdateInfo hash)).run db = .ok (updateInfos hash d us) db ∧
      ∀ info ∈ updateInfos hash d us, info.2 < first ∧ info.1 = leafAt hash d info.2 := by
  subst hdb
  constructor
  · refine run_mapM_pure fun u hu => run_getUpdateInfo ?_
    obtain ⟨x, hx, hvalue, -⟩ := hus u hu
    exact List.mem_map.2 ⟨x, hx, hvalue⟩
  · intro info hinfo
    obtain ⟨u, hu, rfl⟩ := List.mem_map.1 hinfo
    obtain ⟨x, hx, rfl, hid⟩ := hus u hu
    rw [Leaves.record_eq hd hx]
    exact ⟨hid, (leafAt_of_mem hx).symm⟩

/-- **`insert_leaves`.**  It succeeds while there is room, for new values that are distinct.  It
returns the root that its last update of a low nullifier leaves. -/
theorem run_insertLeaves (h : AtRest treeHash hash db t) (hheight : t.height ≤ 32) (hl : l ≠ [])
    (hlen : l.length % 2 ^ t.subTreeHeight = 0)
    (hfit : t.subTreeCount + l.length / 2 ^ t.subTreeHeight ≤ 2 ^ t.treeHeight)
    (hnew : ∀ v ∈ l, v ≠ 0 → v ∉ db.indexedLeaves.docs.map IndexedLeaf.value)
    (hdistinct : (l.filter (· ≠ 0)).Nodup) :
    ∃ root db' u, (insertLeaves treeHash hash l).run db = .ok root db' ∧
      AtRest treeHash hash db' u ∧
      u = { t with
        leaves := u.leaves
        subTreeCount := t.subTreeCount + l.length / 2 ^ t.subTreeHeight } ∧
      StoredAll db.indexedLeaves (slots (t.subTreeCount * 2 ^ t.subTreeHeight) l)
        db'.indexedLeaves ∧
      root = if ∀ v ∈ l, v = 0 then 0 else u.node treeHash 0 := by
  have hcount : (t.subTreeCount + l.length / 2 ^ t.subTreeHeight) * 2 ^ t.subTreeHeight =
      t.subTreeCount * 2 ^ t.subTreeHeight + l.length := by
    rw [Nat.add_mul, Nat.div_mul_cancel (Nat.dvd_of_mod_eq_zero hlen)]
  have hroom : t.subTreeCount * 2 ^ t.subTreeHeight + l.length ≤ 2 ^ t.height := by
    rw [← hcount, NaiveTree.height, pow_add]
    exact Nat.mul_le_mul_right _ hfit
  have hpos := List.length_pos_iff.2 hl
  have hcap : t.subTreeCount * 2 ^ t.subTreeHeight + l.length ≤ 2 ^ 32 :=
    hroom.trans (Nat.pow_le_pow_right (by omega) hheight)
  have hindex : (t.metadata treeHash).insertIndex = t.subTreeCount * 2 ^ t.subTreeHeight :=
    insertIndex_eq rfl (by omega)
  obtain ⟨r, hr⟩ := h.linked
  obtain ⟨d, hstore⟩ := run_storeLeaves hr h.below (fun _ => rfl) hcap hnew hdistinct
  have hstored : StoredAll db.indexedLeaves (slots (t.subTreeCount * 2 ^ t.subTreeHeight) l) d :=
    stores_storeLeaves _ l _ _ _ hstore
  obtain ⟨⟨r', hr'⟩, hpairs⟩ := hstored.isLinked hr
  obtain ⟨hrecords, hleaves⟩ := @run_getIndexedLeaves hash { db with indexedLeaves := d } l d rfl
    (mem_values_of_stored hr hpairs)
  -- the append
  have hdb₁ : Refines treeHash { db with indexedLeaves := d } t :=
    ⟨⟨h.refines.metadata, h.refines.nodes⟩, h.refines.cache⟩
  have hlength : (l.map (newLeaf hash d)).length = l.length := List.length_map _
  have hne : l.map (newLeaf hash d) ≠ [] := by
    rw [Ne, List.map_eq_nil_iff]
    exact hl
  have hcache := cacheAgrees_of_empty hdb₁.cache
    ((t.append (l.map (newLeaf hash d)) ((l.map (newLeaf hash d)).length / 2 ^ t.subTreeHeight)).node
      treeHash)
  obtain ⟨updates, happend, -, hnodes⟩ := run_appendSubTrees hdb₁.toHolds hne (by rwa [hlength])
    (by rwa [hlength]) hcache
  have hdb₂ := refines_commit hcache hnodes
  rw [hlength] at happend hdb₂
  -- the updates of the low nullifiers
  obtain ⟨hinfos, hread⟩ := @run_getUpdateInfos hash
    (commit treeHash { db with indexedLeaves := d }
      (t.append (l.map (newLeaf hash d)) (l.length / 2 ^ t.subTreeHeight)) updates)
    (t.subTreeCount * 2 ^ t.subTreeHeight) d r' rfl hr' (lowValues db.indexedLeaves l)
    (fun u hu => exists_low_record hpairs h.below hu)
  have hvalid : ∀ info ∈ updateInfos hash d (lowValues db.indexedLeaves l),
      info.2 < 2 ^ t.height ∧ info.1 = leafAt hash d info.2 := fun info hinfo =>
    ⟨(hread info hinfo).1.trans_le (by omega), (hread info hinfo).2⟩
  obtain ⟨root, db', u, hupdate, hdb', hd, hu, hwrite, hroot⟩ := run_updates hdb₂ hvalid 0
  have hlow : (l.mapM getLowLeaf).run db = .ok (l.map (Leaves.low db.indexedLeaves)) db :=
    run_mapM_pure fun v _ => run_getLowLeaf v db
  have hempty : l.isEmpty = false := by simpa using hl
  refine ⟨root, db', u, ?_, ?_, hu, ?_, ?_⟩
  · simp only [insertLeaves, hempty, Bool.false_eq_true, if_false, EStateM.run_bind,
      run_checkNew hnew, hlow, run_findMetadata h.refines, hindex, hstore, hrecords, hleaves, happend]
    rw [lowValues] at hinfos hupdate
    simp only [hinfos, hupdate]
  · exact h.replayed hstored hcount hroom hcap hdb' hd hu hwrite
  · rw [hd]
    exact hstored
  · rw [hroot]
    refine if_congr ?_ rfl rfl
    rw [updateInfos, List.map_eq_nil_iff]
    exact lowValues_eq_nil hr

end Trees

end Nightfall
