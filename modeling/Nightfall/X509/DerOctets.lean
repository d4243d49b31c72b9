import Nightfall.X509.DerForest

/-!
# The walk, said of the octets

What the walk reads is determined by the octets: header follows header, and behind the header of a
constructed TLV the next one is the first of its contents.  The depth counts the TLVs that are open.
One is closed where its contents end, if a header starts there; of those opened at one depth only the
end of the last is remembered.

`Scans` says this without offsets, by the number of octets that are left, and the array of the walk
remembers the same (`walkDerTree_iff_scans`).  The octets need not be the encoding of a forest.
-/

namespace Nightfall

namespace X509

namespace Der

open Evm Tlv

/-- A TLV that is scanned. -/
structure Scanned where
  depth : ℕ
  tagType : BitVec 8
  content : Bytes
  deriving DecidableEq, Repr

/-- How many of the ends that are remembered, one for each depth, lie where `left` octets are left. -/
def closed (ends : ℕ → Option ℕ) (left : ℕ) : ℕ :=
  (List.range MAX_DEPTH).countP fun d => ends d = some left

/-- The octets are TLVs, header by header, where `ends` are remembered and `depth` are open. -/
inductive Scans : (ℕ → Option ℕ) → ℕ → Bytes → List Scanned → Prop
  | nil {ends : ℕ → Option ℕ} {depth : ℕ} : Scans ends depth [] []
  | primitive {ends : ℕ → Option ℕ} {depth depth' n : ℕ} {tag : BitVec 8}
      {length content rest : Bytes} {ts : List Scanned} :
      Allowed tag → isConstructed tag = false → contentLength length = some n →
      content.length = n % 2 ^ 256 → depth' + closed ends rest.length = depth →
      Scans ends depth' rest ts →
      Scans ends depth (tag :: (length ++ (content ++ rest)))
        (⟨depth, tag &&& 0x1F, content⟩ :: ts)
  | constructed {ends : ℕ → Option ℕ} {depth depth' n : ℕ} {tag : BitVec 8}
      {length content rest : Bytes} {ts : List Scanned} :
      Allowed tag → isConstructed tag = true → contentLength length = some n →
      content.length = n % 2 ^ 256 → depth < MAX_DEPTH →
      depth' + closed (Function.update ends depth (some rest.length)) (content ++ rest).length =
        depth + 1 →
      Scans (Function.update ends depth (some rest.length)) depth' (content ++ rest) ts →
      Scans ends depth (tag :: (length ++ (content ++ rest)))
        (⟨depth, tag &&& 0x1F, content⟩ :: ts)

/-- What is scanned of an element. -/
def DecodedTlv.scanned (t : DecodedTlv) : Scanned := ⟨t.depth, t.tag.tagType, t.value⟩

theorem scanned_element (start depth : ℕ) (tag : BitVec 8) (length content : Bytes) :
    (element start depth tag length content).scanned = ⟨depth, tag &&& 0x1F, content⟩ := rfl

/-! ### What the array remembers -/

/-- The array holds the remembered ends that are still ahead. -/
structure Remembers (derBytes : Bytes) (ends : ℕ → Option ℕ) (c : Cursor) : Prop where
  length_eq : c.depthChangesAt.length = MAX_DEPTH
  entry_iff : ∀ d < MAX_DEPTH, ∀ q left, q + left = derBytes.length → c.pointer < q →
    (c.depthChangesAt[d]? = some q ↔ ends d = some left)

theorem remembers_start (derBytes : Bytes) (pointer : ℕ) :
    Remembers derBytes (fun _ => none) (.start pointer) where
  length_eq := rfl
  entry_iff d hd q left _ hq := by
    rw [Cursor.start] at hq ⊢
    rw [List.getElem?_replicate, if_pos hd, Option.some.injEq]
    exact iff_of_false (by omega) nofun

theorem countP_getElem? (changes : List ℕ) (q : ℕ) :
    (List.range changes.length).countP (fun d => changes[d]? = some q) = changes.count q := by
  induction changes with
  | nil => rfl
  | cons change changes ih =>
    rw [List.length_cons, List.range_succ_eq_map, List.countP_cons, List.countP_map,
      List.count_cons, ← ih]
    simp [Function.comp_def]

section

variable {derBytes : Bytes} {ends : ℕ → Option ℕ} {c c' : Cursor} {q left : ℕ}

theorem Remembers.closed_eq (h : Remembers derBytes ends c) (hq : q + left = derBytes.length)
    (hlt : c.pointer < q) : closed ends left = c.depthChangesAt.count q := by
  rw [closed, ← countP_getElem?, h.length_eq]
  refine List.countP_congr fun d hd => ?_
  simp only [decide_eq_true_eq]
  exact (h.entry_iff d (List.mem_range.1 hd) q left hq hlt).symm

theorem Remembers.mono (h : Remembers derBytes ends c)
    (hchanges : c'.depthChangesAt = c.depthChangesAt) (hpointer : c.pointer ≤ c'.pointer) :
    Remembers derBytes ends c' where
  length_eq := by rw [hchanges, h.length_eq]
  entry_iff d hd q left hq hlt := by
    rw [hchanges]
    exact h.entry_iff d hd q left hq (hpointer.trans_lt hlt)

/-- The end of a TLV that is opened takes the place of the one at its depth. -/
theorem Remembers.set (h : Remembers derBytes ends c) (hdepth : c.depth < MAX_DEPTH)
    {stop rest : ℕ} (hstop : stop + rest = derBytes.length) (pointer depth : ℕ)
    (hpointer : c.pointer ≤ pointer) :
    Remembers derBytes (Function.update ends c.depth (some rest))
      ⟨pointer, depth, c.depthChangesAt.set c.depth stop⟩ where
  length_eq := by
    dsimp only
    rw [List.length_set, h.length_eq]
  entry_iff d hd q left hq hlt := by
    dsimp only at hlt ⊢
    by_cases heq : d = c.depth
    · subst heq
      rw [List.getElem?_set_self (h.length_eq ▸ hdepth), Function.update_self, Option.some.injEq,
        Option.some.injEq]
      omega
    · rw [List.getElem?_set_ne (Ne.symm heq), Function.update_of_ne heq]
      exact h.entry_iff d hd q left hq (hpointer.trans_lt hlt)

/-! ### One element -/

theorem enter_leave_primitive {t : DecodedTlv} (htag : t.tag.isConstructed = false) :
    (enter t t.next c >>= leave) = .ok c' ↔ c'.pointer = t.next ∧
      c'.depthChangesAt = c.depthChangesAt ∧
      c'.depth + c.depthChangesAt.count t.next = c.depth := by
  rw [enter, if_neg (by rw [htag]; exact Bool.false_ne_true), bind_eq_ok]
  constructor
  · rintro ⟨_, ⟨⟩, hleave⟩
    obtain ⟨hfold, hpointer, hchanges⟩ := leave_eq_ok.1 hleave
    exact ⟨hpointer, hchanges, foldlM_changes_eq_ok.1 hfold⟩
  · rintro ⟨hpointer, hchanges, hdepth⟩
    exact ⟨_, rfl, leave_eq_ok.2 ⟨foldlM_changes_eq_ok.2 hdepth, hpointer, hchanges⟩⟩

theorem enter_leave_constructed {t : DecodedTlv} (htag : t.tag.isConstructed = true) :
    (enter t t.next c >>= leave) = .ok c' ↔ c.depth < c.depthChangesAt.length ∧
      c'.pointer = t.next ∧
      c'.depthChangesAt = c.depthChangesAt.set c.depth (t.next + t.length) ∧
      c'.depth + (c.depthChangesAt.set c.depth (t.next + t.length)).count t.next =
        c.depth + 1 := by
  rw [enter, if_pos htag, bind_eq_ok]
  constructor
  · rintro ⟨e, henter, hleave⟩
    split_ifs at henter with hroom
    cases henter
    obtain ⟨hfold, hpointer, hchanges⟩ := leave_eq_ok.1 hleave
    exact ⟨hroom, hpointer, hchanges, foldlM_changes_eq_ok.1 hfold⟩
  · rintro ⟨hroom, hpointer, hchanges, hdepth⟩
    exact ⟨_, if_pos hroom, leave_eq_ok.2 ⟨foldlM_changes_eq_ok.2 hdepth, hpointer, hchanges⟩⟩

/-! ### All elements -/

variable {ts : List DecodedTlv} {items : List Scanned} {octets : Bytes} {depth : ℕ}

theorem length_of_drop {tag : BitVec 8} {length content rest : Bytes} {start : ℕ}
    (h : derBytes.drop start = tag :: (length ++ (content ++ rest))) :
    start + (1 + length.length) + content.length + rest.length = derBytes.length := by
  have hlen := congrArg List.length h
  rw [List.length_drop, List.length_cons, List.length_append, List.length_append] at hlen
  omega

theorem drop_behind {tag : BitVec 8} {length content rest : Bytes} {start : ℕ}
    (h : derBytes.drop start = tag :: (length ++ (content ++ rest))) :
    derBytes.drop (start + (1 + length.length) + content.length) = rest := by
  rw [← List.drop_drop, drop_encoded h, List.drop_left]

theorem scans_of_reads (h : Reads derBytes c ts c') (hend : c'.pointer = derBytes.length)
    (hmem : Remembers derBytes ends c) :
    Scans ends c.depth (derBytes.drop c.pointer) (ts.map DecodedTlv.scanned) := by
  induction h generalizing ends with
  | nil c =>
    rw [hend, List.drop_length]
    exact .nil
  | @cons c c₁ c' t ts hone hrest ih =>
    have hlt := hone.pointer_lt
    obtain ⟨tag, length, content, rest, n, hdrop, hallowed, hn, hcontent, rfl⟩ := hone.element_eq
    have hlen := length_of_drop hdrop
    have hinside := drop_encoded hdrop
    have hbehind := drop_behind hdrop
    rw [hdrop, List.map_cons, scanned_element]
    cases htag : isConstructed tag with
    | false =>
      obtain ⟨hpointer, hchanges, hdepth⟩ := (enter_leave_primitive htag).1 hone.2
      rw [next_primitive htag] at hpointer hdepth
      have htail := ih hend (hmem.mono hchanges hlt.le)
      rw [hpointer, hbehind] at htail
      refine .primitive hallowed htag hn hcontent ?_ htail
      rw [hmem.closed_eq hlen (hpointer ▸ hlt)]
      exact hdepth
    | true =>
      obtain ⟨hroom, hpointer, hchanges, hdepth⟩ := (enter_leave_constructed htag).1 hone.2
      rw [next_constructed htag] at hpointer hchanges hdepth
      rw [hmem.length_eq] at hroom
      have hset := hmem.set hroom hlen c.pointer c.depth le_rfl
      have htail := ih hend (hset.mono hchanges hlt.le)
      rw [hpointer, hinside] at htail
      refine .constructed hallowed htag hn hcontent hroom ?_ htail
      rw [hset.closed_eq (by rw [List.length_append]; omega) (hpointer ▸ hlt)]
      exact hdepth

theorem exists_reads (h : Scans ends depth octets items) (hdepth : c.depth = depth)
    (hdrop : derBytes.drop c.pointer = octets) (hle : c.pointer ≤ derBytes.length)
    (hmem : Remembers derBytes ends c) :
    ∃ ts c', Reads derBytes c ts c' ∧ c'.pointer = derBytes.length ∧
      ts.map DecodedTlv.scanned = items := by
  induction h generalizing c with
  | nil => exact ⟨[], c, .nil c, hle.antisymm (List.drop_eq_nil_iff.1 hdrop), rfl⟩
  | @primitive ends depth depth' n tag length content rest items hallowed htag hn hcontent hclosed
      _ ih =>
    subst hdepth
    have hlen := length_of_drop hdrop
    have hbehind := drop_behind hdrop
    rw [hmem.closed_eq hlen (by omega)] at hclosed
    have hone : ReadsOne derBytes c (element c.pointer c.depth tag length content)
        ⟨c.pointer + (1 + length.length) + content.length, depth', c.depthChangesAt⟩ :=
      ⟨getNextTlv_eq_ok.2 ⟨tag, length, content, rest, n, hdrop, hallowed, hn, hcontent, rfl⟩,
        (enter_leave_primitive htag).2 (by rw [next_primitive htag]; exact ⟨rfl, rfl, hclosed⟩)⟩
    obtain ⟨ts, c', hreads, hend, hitems⟩ := @ih ⟨_, depth', c.depthChangesAt⟩ rfl hbehind
      (by dsimp only; omega) (hmem.mono rfl hone.pointer_lt.le)
    exact ⟨_, c', .cons hone hreads, hend, by rw [List.map_cons, hitems, scanned_element]⟩
  | @constructed ends depth depth' n tag length content rest items hallowed htag hn hcontent hroom
      hclosed _ ih =>
    subst hdepth
    have hlen := length_of_drop hdrop
    have hinside := drop_encoded hdrop
    have hset := hmem.set hroom hlen c.pointer c.depth le_rfl
    rw [@Remembers.closed_eq derBytes _ _ (c.pointer + (1 + length.length)) _ hset
      (by rw [List.length_append]; omega) (by dsimp only; omega)] at hclosed
    have hone : ReadsOne derBytes c (element c.pointer c.depth tag length content)
        ⟨c.pointer + (1 + length.length), depth', c.depthChangesAt.set c.depth
          (c.pointer + (1 + length.length) + content.length)⟩ :=
      ⟨getNextTlv_eq_ok.2 ⟨tag, length, content, rest, n, hdrop, hallowed, hn, hcontent, rfl⟩,
        (enter_leave_constructed htag).2 (by
          rw [next_constructed htag]
          exact ⟨hmem.length_eq ▸ hroom, rfl, rfl, hclosed⟩)⟩
    obtain ⟨ts, c', hreads, hend, hitems⟩ := @ih ⟨_, depth', _⟩ rfl hinside
      (by dsimp only; omega) (hset.mono rfl hone.pointer_lt.le)
    exact ⟨_, c', .cons hone hreads, hend, by rw [List.map_cons, hitems, scanned_element]⟩

/-- **What `walkDerTree` returns**, from the octets: what is scanned, in an array whose other entries
stay zero. -/
theorem walkDerTree_iff_scans {pointer tlvLength : ℕ} {found : List Scanned} :
    (∃ tlvs, walkDerTree derBytes pointer tlvLength = .ok tlvs ∧
      tlvs.map DecodedTlv.scanned = found) ↔
    ∃ items, items ≠ [] ∧ items.length ≤ tlvLength ∧
      Scans (fun _ => none) 0 (derBytes.drop pointer) items ∧
      found = items ++ List.replicate (tlvLength - items.length) ⟨0, 0, []⟩ := by
  simp only [walkDerTree_eq_ok]
  constructor
  · rintro ⟨_, ⟨ts, c', hreads, hts, hend, hle, rfl⟩, rfl⟩
    refine ⟨ts.map DecodedTlv.scanned, fun h => hts (List.map_eq_nil_iff.1 h), ?_,
      scans_of_reads hreads hend (remembers_start derBytes pointer), ?_⟩
    · rwa [List.length_map]
    · rw [List.map_append, List.map_replicate, List.length_map]
      rfl
  · rintro ⟨items, hitems, hle, hscans, rfl⟩
    have hlt : pointer < derBytes.length := by
      by_contra hge
      rw [List.drop_eq_nil_of_le (Nat.le_of_not_lt hge)] at hscans
      cases hscans
      exact hitems rfl
    obtain ⟨ts, c', hreads, hend, rfl⟩ :=
      @exists_reads derBytes _ (.start pointer) _ _ _ hscans rfl rfl hlt.le
        (remembers_start derBytes pointer)
    rw [List.length_map] at hle
    refine ⟨_, ⟨ts, c', hreads, fun h => hitems (by rw [h]; rfl), hend, hle, rfl⟩, ?_⟩
    rw [List.map_append, List.map_replicate, List.length_map]
    rfl

end

end Der

end X509

end Nightfall
