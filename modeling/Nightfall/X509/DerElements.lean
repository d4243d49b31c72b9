import Nightfall.X509.DerParser
import Mathlib.Tactic.Ring

/-!
# Elements of the DER parser

What `getNextTlv` returns: the element whose header stands at the offset, with contents of the length
that the length octets encode modulo `2 ^ 256` (`getNextTlv_eq_ok`).
-/

namespace Nightfall

namespace X509

namespace Der

open Evm Tlv

/-! ### Arrays and byte strings -/

section

variable {bs s : Bytes} {i j : ℕ}

theorem index_eq_ok {α : Type} {xs : List α} {x : α} :
    index xs i = .ok x ↔ ∃ rest, xs.drop i = x :: rest := by
  unfold index
  constructor
  · intro h
    split_ifs at h with hi
    rw [← Except.ok.inj h]
    exact ⟨_, List.drop_eq_getElem_cons hi⟩
  · rintro ⟨rest, hrest⟩
    have hi : i < xs.length := by
      have hlen := congrArg List.length hrest
      rw [List.length_drop, List.length_cons] at hlen
      omega
    rw [List.drop_eq_getElem_cons hi] at hrest
    rw [dif_pos hi, (List.cons.inj hrest).1]

theorem index_eq_ok_iff_getElem? {α : Type} {xs : List α} {x : α} :
    index xs i = .ok x ↔ xs[i]? = some x := by
  unfold index
  split_ifs with hi
  · rw [List.getElem?_eq_getElem hi, Except.ok.injEq, Option.some.injEq]
  · rw [List.getElem?_eq_none (Nat.le_of_not_lt hi)]
    constructor
    · intro h
      cases h
    · intro h
      cases h

theorem slice_eq_ok : slice bs i j = .ok s ↔ i ≤ j ∧ j ≤ bs.length ∧ (bs.take j).drop i = s := by
  unfold slice
  split_ifs with h
  · exact ⟨fun heq => ⟨h.1, h.2, Except.ok.inj heq⟩, fun hand => congrArg _ hand.2.2⟩
  · constructor
    · intro heq
      cases heq
    · intro hand
      exact absurd ⟨hand.1, hand.2.1⟩ h

theorem sliceFrom_eq_ok : sliceFrom bs i = .ok s ↔ i ≤ bs.length ∧ bs.drop i = s := by
  rw [sliceFrom, slice_eq_ok, List.take_length]
  exact ⟨fun h => ⟨h.1, h.2.2⟩, fun h => ⟨h.1, le_refl _, h.2⟩⟩

theorem sliceTo_eq_ok : sliceTo bs j = .ok s ↔ j ≤ bs.length ∧ bs.take j = s := by
  rw [sliceTo, slice_eq_ok, List.drop_zero]
  exact ⟨fun h => h.2, fun h => ⟨Nat.zero_le _, h⟩⟩

end

/-! ### Tags -/

theorem getTlvTag_eq_ok {tagByte : BitVec 8} {pointer : ℕ} {r : Tag × ℕ × ℕ} :
    getTlvTag tagByte pointer = .ok r ↔ Allowed tagByte ∧
      r = (⟨isConstructed tagByte, tagByte &&& 0x1F⟩, pointer + 1, 1) := by
  rw [getTlvTag]
  simp only [bind_eq_ok, require_eq_ok, pure_eq_ok]
  constructor
  · rintro ⟨_, hlow, _, hclass, rfl⟩
    exact ⟨⟨hlow, hclass⟩, rfl⟩
  · rintro ⟨⟨hlow, hclass⟩, rfl⟩
    exact ⟨(), hlow, (), hclass, rfl⟩

/-! ### Lengths -/

theorem shift_in (n : ℕ) (b : BitVec 8) :
    (BitVec.ofNat 256 n <<< 8) ||| b.zeroExtend 256 = BitVec.ofNat 256 (256 * n + b.toNat) := by
  have hb : b.toNat < 2 ^ 8 := b.isLt
  refine BitVec.eq_of_toNat_eq ?_
  rw [BitVec.toNat_or, BitVec.toNat_shiftLeft, BitVec.toNat_ofNat, BitVec.toNat_ofNat,
    BitVec.toNat_setWidth, Nat.mod_eq_of_lt (a := b.toNat) (by omega)]
  have hshift : (n % 2 ^ 256) <<< 8 % 2 ^ 256 = (n % 2 ^ 248) <<< 8 := by
    rw [Nat.shiftLeft_eq, Nat.shiftLeft_eq]
    omega
  rw [hshift, ← Nat.shiftLeft_add_eq_or_of_lt hb, Nat.shiftLeft_eq]
  omega

/-- The loop over the length octets computes their number modulo `2 ^ 256`. -/
theorem readLength_eq_ok {first : BitVec 8} {more : Bytes} {k : ℕ} {length : U256} :
    readLength (first :: more) k = .ok length ↔
      k ≤ more.length ∧ length = BitVec.ofNat 256 (number (more.take k)) := by
  induction k generalizing length with
  | zero =>
    rw [readLength, List.range_zero, List.foldlM_nil, pure_eq_ok]
    exact ⟨fun h => ⟨Nat.zero_le _, h.symm⟩, fun h => h.2.symm⟩
  | succ k ih =>
    have hstep : readLength (first :: more) (k + 1) = (readLength (first :: more) k >>= fun length =>
        index (first :: more) (k + 1) >>= fun octet =>
          pure ((length <<< 8) ||| octet.zeroExtend 256)) := by
      rw [readLength, readLength, List.range_succ, List.foldlM_append]
      refine congrArg _ (funext fun length => ?_)
      rw [List.foldlM_cons]
      simp only [List.foldlM_nil, bind_pure]
    rw [hstep, bind_eq_ok]
    constructor
    · rintro ⟨length', hlength', hrest⟩
      obtain ⟨hk, rfl⟩ := ih.1 hlength'
      obtain ⟨octet, hoctet, hsum⟩ := bind_eq_ok.1 hrest
      obtain ⟨rest, hdrop⟩ := index_eq_ok.1 hoctet
      rw [List.drop_succ_cons] at hdrop
      have hlt : k < more.length := by
        have hlen := congrArg List.length hdrop
        rw [List.length_drop, List.length_cons] at hlen
        omega
      rw [List.drop_eq_getElem_cons hlt] at hdrop
      rw [pure_eq_ok, shift_in] at hsum
      refine ⟨hlt, ?_⟩
      rw [← hsum, ← (List.cons.inj hdrop).1, ← number_append_singleton, List.take_concat_get' _ _ hlt]
    · rintro ⟨hlt, rfl⟩
      refine ⟨_, ih.2 ⟨Nat.le_of_succ_le hlt, rfl⟩, bind_eq_ok.2 ⟨more[k], ?_, ?_⟩⟩
      · rw [index_eq_ok, List.drop_succ_cons]
        exact ⟨_, List.drop_eq_getElem_cons hlt⟩
      · rw [pure_eq_ok, shift_in, ← number_append_singleton, List.take_concat_get' _ _ hlt]

theorem short_iff : ∀ b : BitVec 8, b &&& 0x80 = 0 ↔ b.toNat < 128 := by decide +kernel

theorem lengthBits_eq : ∀ b : BitVec 8,
    (b &&& 0x7F).toNat = if b.toNat < 128 then b.toNat else b.toNat - 128 := by decide +kernel

/-- The length octets stand at the start of the slice; the length is taken modulo `2 ^ 256`. -/
theorem getTlvLength_eq_ok {derSlice : Bytes} {pointer headerLength : ℕ} {r : ℕ × ℕ × ℕ} :
    getTlvLength derSlice pointer headerLength = .ok r ↔
      ∃ length rest n, derSlice = length ++ rest ∧ contentLength length = some n ∧
        r = (n % 2 ^ 256, pointer + length.length, headerLength + length.length) := by
  rw [getTlvLength, bind_eq_ok]
  constructor
  · rintro ⟨first, hfirst, hrest⟩
    obtain ⟨more, hdrop⟩ := index_eq_ok.1 hfirst
    rw [List.drop_zero] at hdrop
    subst hdrop
    simp only [short_iff, lengthBits_eq] at hrest
    split_ifs at hrest with hshort
    · rw [pure_eq_ok] at hrest
      have hmod : first.toNat % 2 ^ 256 = first.toNat := Nat.mod_eq_of_lt (by omega)
      refine ⟨[first], more, first.toNat, rfl, contentLength_short hshort, ?_⟩
      rw [← hrest, hmod]
      rfl
    · simp only [bind_eq_ok, require_eq_ok, pure_eq_ok] at hrest
      obtain ⟨_, hindefinite, _, hreserved, length, hlength, rfl⟩ := hrest
      obtain ⟨hle, rfl⟩ := readLength_eq_ok.1 hlength
      have htake : (more.take (first.toNat - 128)).length = first.toNat - 128 :=
        List.length_take_of_le hle
      refine ⟨first :: more.take (first.toNat - 128), more.drop (first.toNat - 128), _, ?_,
        contentLength_long hshort (by omega) (by omega) htake, ?_⟩
      · rw [List.cons_append, List.take_append_drop]
      · rw [BitVec.toNat_ofNat, List.length_cons, htake, Nat.add_assoc pointer,
          Nat.add_assoc headerLength, Nat.add_comm 1]
  · rintro ⟨length, rest, n, rfl, hlength, rfl⟩
    rcases contentLength_eq_some hlength with ⟨first, hshort, rfl, rfl⟩ |
      ⟨first, more, hshort, hindefinite, hreserved, hmore, rfl, rfl⟩
    · refine ⟨first, index_eq_ok.2 ⟨rest, rfl⟩, ?_⟩
      have hmod : first.toNat % 2 ^ 256 = first.toNat := Nat.mod_eq_of_lt (by omega)
      simp only [short_iff, lengthBits_eq]
      rw [if_pos hshort, if_pos hshort, hmod]
      rfl
    · refine ⟨first, index_eq_ok.2 ⟨more ++ rest, rfl⟩, ?_⟩
      simp only [short_iff, lengthBits_eq]
      rw [if_neg hshort, if_neg hshort]
      simp only [bind_eq_ok, require_eq_ok, pure_eq_ok]
      refine ⟨(), by omega, (), by omega, BitVec.ofNat 256 (number more), ?_, ?_⟩
      · rw [List.cons_append, readLength_eq_ok, ← hmore, List.take_left]
        exact ⟨by rw [List.length_append]; omega, rfl⟩
      · rw [BitVec.toNat_ofNat, List.length_cons, ← hmore, Nat.add_assoc pointer,
          Nat.add_assoc headerLength, Nat.add_comm 1]

/-! ### Elements -/

/-- The element with the given octets at an offset. -/
def element (start depth : ℕ) (tag : BitVec 8) (length content : Bytes) : DecodedTlv where
  start := start
  headerLength := 1 + length.length
  tag := ⟨isConstructed tag, tag &&& 0x1F⟩
  length := content.length
  value := content
  octets := tag :: (length ++ content)
  depth := depth

/-- Where the walk goes on behind an element: inside, if it is constructed. -/
def DecodedTlv.next (t : DecodedTlv) : ℕ :=
  if t.tag.isConstructed then t.start + t.headerLength else t.start + t.headerLength + t.length

theorem take_drop_octets {bs length content rest : Bytes} {start : ℕ} {tag : BitVec 8}
    (h : bs.drop start = tag :: (length ++ (content ++ rest))) :
    (bs.take (start + (1 + length.length) + content.length)).drop start =
      tag :: (length ++ content) := by
  have htake : start + (1 + length.length) + content.length - start =
      length.length + content.length + 1 := by omega
  rw [List.drop_take, h, htake, List.take_succ_cons, List.take_length_add_append, List.take_left]

/-- **What `getNextTlv` returns**: an element that stands at the offset. -/
theorem getNextTlv_eq_ok {derBytes : Bytes} {start depth : ℕ} {r : DecodedTlv × ℕ} :
    getNextTlv derBytes start depth = .ok r ↔
      ∃ tag length content rest n, derBytes.drop start = tag :: (length ++ (content ++ rest)) ∧
        Allowed tag ∧ contentLength length = some n ∧ content.length = n % 2 ^ 256 ∧
        r = (element start depth tag length content,
          (element start depth tag length content).next) := by
  rw [getNextTlv]
  simp only [bind_eq_ok, pure_eq_ok, index_eq_ok, getTlvTag_eq_ok, sliceFrom_eq_ok,
    getTlvLength_eq_ok, getTlvValue, sliceTo_eq_ok, slice_eq_ok]
  constructor
  · rintro ⟨tag, ⟨_, htag⟩, _, ⟨hallowed, rfl⟩, _, ⟨hle, rfl⟩, _, ⟨length, rest, n, hlength, hn, rfl⟩,
      _, ⟨hle', rfl⟩, _, ⟨_, ⟨hle'', rfl⟩, rfl⟩, _, ⟨_, hle''', rfl⟩, rfl⟩
    dsimp only at hle hlength hle' hle'' hle'''
    have hdrop : derBytes.drop start = tag :: (length ++ rest) := by
      rw [htag, ← hlength, ← List.tail_drop, htag, List.tail_cons]
    have hrest : derBytes.drop (start + 1 + length.length) = rest := by
      rw [← List.drop_drop, hlength, List.drop_left]
    rw [hrest] at hle''
    refine ⟨tag, length, rest.take (n % 2 ^ 256), rest.drop (n % 2 ^ 256), n, ?_, hallowed, hn,
      List.length_take_of_le hle'', ?_⟩
    · rw [List.take_append_drop, hdrop]
    · have hoctets := @take_drop_octets derBytes length (rest.take (n % 2 ^ 256))
        (rest.drop (n % 2 ^ 256)) start tag (by rw [List.take_append_drop, hdrop])
      rw [List.length_take_of_le hle''] at hoctets
      rw [hrest, hoctets, element, DecodedTlv.next, List.length_take_of_le hle'']
      simp only [Nat.add_assoc]
  · rintro ⟨tag, length, content, rest, n, hdrop, hallowed, hn, hcontent, rfl⟩
    have hlen : derBytes.length = start + (1 + length.length + content.length + rest.length) := by
      have hlen' := congrArg List.length hdrop
      rw [List.length_drop, List.length_cons, List.length_append, List.length_append] at hlen'
      omega
    have hlength : derBytes.drop (start + 1) = length ++ (content ++ rest) := by
      rw [← List.tail_drop, hdrop, List.tail_cons]
    have hrest : derBytes.drop (start + 1 + length.length) = content ++ rest := by
      rw [← List.drop_drop, hlength, List.drop_left]
    have hstart : start + 1 ≤ derBytes.length := by omega
    have hpointer : start + 1 + length.length ≤ derBytes.length := by omega
    refine ⟨tag, ⟨_, hdrop⟩, _, ⟨hallowed, rfl⟩, _, ⟨hstart, hlength⟩, _,
      ⟨length, content ++ rest, n, rfl, hn, rfl⟩, _, ⟨hpointer, hrest⟩, _, ⟨_, ⟨?_, rfl⟩, rfl⟩, _,
      ⟨?_, ?_, rfl⟩, ?_⟩
    · rw [← hcontent, List.length_append]
      exact Nat.le_add_right _ _
    · rw [Nat.add_assoc]
      exact Nat.le_add_right _ _
    · rw [← hcontent]
      dsimp only
      omega
    · rw [← hcontent, List.take_left, take_drop_octets hdrop, element, DecodedTlv.next]
      simp only [Nat.add_assoc]

end Der

end X509

end Nightfall
