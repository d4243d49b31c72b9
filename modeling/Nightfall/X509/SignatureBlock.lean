import Nightfall.X509.Contract
import Nightfall.X509.DerOctets
import Nightfall.X509.Sha
import Mathlib.Data.List.TakeWhile

/-!
# Signatures

A signature is raised to the exponent of the key, and the block that results holds a digest of the
message.  The contract looks for the leading octets, skips the padding and the octet behind it, and
takes the digest from the fifth of the TLVs that follow.

So it accepts blocks that are no PKCS#1 v1.5 encoding of a digest, and where the modulus doesn't start
with one zero octet it refuses those that are; `padding_exact_iff` says which blocks these are.
-/

namespace Nightfall

namespace X509

namespace Der

open Evm Tlv

/-! ### The contract -/

/-- `modExp`: the result has as many bytes as the modulus. -/
def modExp (b : Bytes) (e : U256) (m : Bytes) : Bytes :=
  Sha.bytesBE m.length (if number m = 0 then 0 else number b ^ e.toNat % number m)

/-- The octets that the loop of `validateSignatureAndExtractMessageHash` skips. -/
def padding (decrypt : Bytes) : Bytes := (decrypt.drop 3).takeWhile fun b => b = 0xff

/-- `validateSignatureAndExtractMessageHash`. -/
def validateSignatureAndExtractMessageHash (decrypt : Bytes) (tlvLength : ℕ) :
    Except Revert Bytes := do
  require ((← index decrypt 0) = 0) "X509: Decrypt does not have a leading zero octets"
  require ((← index decrypt 1) = 0) "X509: Decrypt does not have a leading zero octets"
  let blockType ← index decrypt 2
  require (blockType = 0 ∨ blockType = 1) "X509: Block Type is not a private key operation"
  let i := 3 + (padding decrypt).length
  let tlvs ← parseDER decrypt (i + 1) tlvLength
  let tlv ← index tlvs 4
  require (tlv.depth = 1 ∧ tlv.tag.tagType = 0x04)
    "X509: Incorrect tag or position for decrypted hash data"
  return tlv.value

section

variable (sha256 keccak256 : Bytes → U256)

/-- `checkSignature`. -/
def checkSignature (signature message : Bytes) (publicKey : RSAPublicKey) :
    Except Revert Unit := do
  let signatureDecrypt := modExp signature publicKey.exponent publicKey.modulus
  let messageHashFromSignature ← validateSignatureAndExtractMessageHash signatureDecrypt 5
  if keccak256 messageHashFromSignature = keccak256 (toBytesBE (sha256 message)) then return ()
  else do
    let digest ← Sha.sha512 message
    require (keccak256 messageHashFromSignature = keccak256 digest) "X509: Signature is invalid"

/-! ### PKCS#1 v1.5 -/

/-- The object identifier of SHA-256. -/
def sha256Oid : Bytes := [0x60, 0x86, 0x48, 0x01, 0x65, 0x03, 0x04, 0x02, 0x01]

/-- The object identifier of SHA-512. -/
def sha512Oid : Bytes := [0x60, 0x86, 0x48, 0x01, 0x65, 0x03, 0x04, 0x02, 0x03]

/-- A `DigestInfo`: the algorithm, without parameters, and a digest with the given length octet;
`total` is the length octet of the whole. -/
def digestInfo (oid : Bytes) (total length : BitVec 8) (digest : Bytes) : Forest :=
  .constructed 0x30 [total]
    (.constructed 0x30 [0x0d] (.primitive 0x06 [0x09] oid (.primitive 0x05 [0x00] [] .nil))
      (.primitive 0x04 [length] digest .nil)) .nil

/-- The octets are the `DigestInfo` of the message for one of the algorithms. -/
def IsDigestInfo (message info : Bytes) : Prop :=
  info = (digestInfo sha256Oid 0x31 0x20 (toBytesBE (sha256 message))).encode ∨
    ∃ digest, Sha.sha512 message = .ok digest ∧
      info = (digestInfo sha512Oid 0x51 0x40 digest).encode

/-- The zero octets that a modulus starts with, beyond its length as a number. -/
def leadingZeros (modulus : Bytes) : ℕ := (modulus.takeWhile fun b => b = 0x00).length

/-- A block is the encoding of a digest of the message, and fills the modulus. -/
def Pkcs1 (message modulus block : Bytes) : Prop :=
  block.length = modulus.length ∧ ∃ n info, 8 ≤ n ∧ IsDigestInfo sha256 message info ∧
    block = List.replicate (leadingZeros modulus) 0x00 ++
      0x00 :: 0x01 :: (List.replicate n 0xff ++ 0x00 :: info)

/-! ### Other blocks -/

/-- The octets are a digest of the message. -/
def IsDigest (message digest : Bytes) : Prop :=
  digest = toBytesBE (sha256 message) ∨ Sha.sha512 message = .ok digest

/-- The octets are five TLVs, the last of which is at depth 1 an octet string with a digest of the
message. -/
def Carries (message info : Bytes) : Prop :=
  ∃ before digest, before.length = 4 ∧ IsDigest sha256 message digest ∧
    Scans (fun _ => none) 0 info (before ++ [⟨1, 0x04, digest⟩])

/-- Behind two zero octets and a block type, 0 or 1, stand octets `ff` and another octet, and behind
these a digest in the fifth TLV. -/
structure Signed (message block : Bytes) (blockType : BitVec 8) (n : ℕ) (separator : BitVec 8)
    (info : Bytes) : Prop where
  block_eq : block = 0x00 :: 0x00 :: blockType :: (List.replicate n 0xff ++ separator :: info)
  blockType_le : blockType = 0x00 ∨ blockType = 0x01
  separator_ne : separator ≠ 0xff
  carries : Carries sha256 message info

/-- A block with a digest although there isn't one zero octet in front of the modulus, its type is 0,
its padding is short, the octet behind the padding isn't zero, or the digest stands in something else
than the `DigestInfo`. -/
def Forged (message modulus block : Bytes) : Prop :=
  ∃ blockType n separator info, Signed sha256 message block blockType n separator info ∧
    (leadingZeros modulus ≠ 1 ∨ blockType = 0x00 ∨ n < 8 ∨ separator ≠ 0x00 ∨
      ¬ IsDigestInfo sha256 message info)

/-- The encoding of a digest, which starts with one zero octet or with more than two. -/
def Refused (message modulus block : Bytes) : Prop :=
  leadingZeros modulus ≠ 1 ∧ Pkcs1 sha256 message modulus block

/-- No octets of the block have the keccak of a digest of the message but the digest itself. -/
def CollisionFree (message block : Bytes) : Prop :=
  ∀ value digest, value <:+: block → IsDigest sha256 message digest →
    keccak256 value = keccak256 digest → value = digest

variable {sha256 keccak256} {message modulus block : Bytes}

theorem compare_eq_ok {value : Bytes} (hfree : CollisionFree sha256 keccak256 message block)
    (hvalue : value <:+: block) :
    (if keccak256 value = keccak256 (toBytesBE (sha256 message)) then pure ()
      else do
        let digest ← Sha.sha512 message
        require (keccak256 value = keccak256 digest) "X509: Signature is invalid") =
      (.ok () : Except Revert Unit) ↔ IsDigest sha256 message value := by
  split_ifs with h
  · exact iff_of_true rfl (.inl (hfree value _ hvalue (.inl rfl) h))
  · simp only [bind_eq_ok, require_eq_ok]
    constructor
    · rintro ⟨digest, hdigest, hkeccak⟩
      exact .inr (hfree value digest hvalue (.inr hdigest) hkeccak ▸ hdigest)
    · rintro (rfl | hdigest)
      · exact absurd rfl h
      · exact ⟨value, hdigest, rfl⟩

/-! ### The block that the contract takes apart -/

theorem padding_eq (n : ℕ) (b₀ b₁ b₂ : BitVec 8) {separator : BitVec 8} (h : separator ≠ 0xff)
    (info : Bytes) :
    padding (b₀ :: b₁ :: b₂ :: (List.replicate n 0xff ++ separator :: info)) =
      List.replicate n 0xff := by
  rw [padding, List.drop_succ_cons, List.drop_succ_cons, List.drop_succ_cons, List.drop_zero,
    List.takeWhile_append_of_pos, List.takeWhile_cons_of_neg (by simpa using h), List.append_nil]
  intro b hb
  rw [List.eq_of_mem_replicate hb]
  rfl

/-- What stands behind the padding and one more octet. -/
theorem drop_padding (n : ℕ) (b₀ b₁ b₂ b₃ : BitVec 8) (info : Bytes) :
    (b₀ :: b₁ :: b₂ :: (List.replicate n 0xff ++ b₃ :: info)).drop (3 + n + 1) = info := by
  rw [Nat.add_assoc, ← List.drop_drop, List.drop_succ_cons, List.drop_succ_cons,
    List.drop_succ_cons, List.drop_zero, ← List.drop_drop,
    List.drop_left' List.length_replicate, List.drop_succ_cons, List.drop_zero]

theorem exists_replicate (tail : Bytes) :
    ∃ n, tail.takeWhile (fun b => b = 0xff) = List.replicate n 0xff ∧
      (tail = List.replicate n 0xff ∨
        ∃ separator info, separator ≠ 0xff ∧ tail = List.replicate n 0xff ++ separator :: info) := by
  have hrun : tail.takeWhile (fun b => b = 0xff) =
      List.replicate (tail.takeWhile fun b => b = 0xff).length 0xff :=
    List.eq_replicate_of_mem fun b hb => of_decide_eq_true (@List.mem_takeWhile_imp _
      (fun b => decide (b = 0xff)) tail b hb)
  have hsplit := @List.takeWhile_append_dropWhile _ (fun b => decide (b = 0xff)) tail
  refine ⟨_, hrun, ?_⟩
  rw [hrun] at hsplit
  have hhead := List.head?_dropWhile_not (fun b => decide (b = 0xff)) tail
  cases hrest : tail.dropWhile (fun b => decide (b = 0xff)) with
  | nil =>
    rw [hrest, List.append_nil] at hsplit
    exact .inl hsplit.symm
  | cons separator info =>
    rw [hrest] at hhead hsplit
    exact .inr ⟨separator, info, of_decide_eq_false hhead, hsplit.symm⟩

theorem parseDER_eq_ok {pointer : ℕ} {value : Bytes} :
    (∃ tlvs t, parseDER block pointer 5 = .ok tlvs ∧ tlvs[4]? = some t ∧ t.depth = 1 ∧
        t.tag.tagType = 0x04 ∧ t.value = value) ↔
      ∃ before, before.length = 4 ∧
        Scans (fun _ => none) 0 (block.drop pointer) (before ++ [⟨1, 0x04, value⟩]) := by
  constructor
  · rintro ⟨tlvs, t, hparse, ht, hdepth, htag, rfl⟩
    obtain ⟨items, -, hle, hscans, hfound⟩ := walkDerTree_iff_scans.1 ⟨tlvs, hparse, rfl⟩
    have hitem : (items ++ List.replicate (5 - items.length) (⟨0, 0, []⟩ : Scanned))[4]? =
        some ⟨1, 0x04, t.value⟩ := by
      rw [← hfound, List.getElem?_map, ht, Option.map_some, DecodedTlv.scanned, hdepth, htag]
    -- an entry that stays zero has another type
    have hlen : items.length = 5 := by
      by_contra hne
      rw [List.getElem?_append_right (by omega), List.getElem?_replicate] at hitem
      split_ifs at hitem
      cases hitem
    rw [List.getElem?_append_left (by omega)] at hitem
    refine ⟨items.take 4, by rw [List.length_take]; omega, ?_⟩
    have hlast : items.drop 4 = [⟨1, 0x04, t.value⟩] := by
      rw [List.drop_eq_getElem_cons (by omega), List.drop_eq_nil_of_le (by omega)]
      rw [List.getElem?_eq_getElem (by omega)] at hitem
      rw [Option.some.inj hitem]
    rw [← hlast, List.take_append_drop]
    exact hscans
  · rintro ⟨before, hbefore, hscans⟩
    obtain ⟨tlvs, hparse, hfound⟩ := walkDerTree_iff_scans.2 ⟨_, by simp,
      (by rw [List.length_append, hbefore]; rfl : _ ≤ 5), hscans, rfl⟩
    have hitem : (tlvs.map DecodedTlv.scanned)[4]? = some ⟨1, 0x04, value⟩ := by
      rw [hfound, List.getElem?_append_left (by simp [hbefore]),
        List.getElem?_append_right hbefore.le, hbefore]
      rfl
    rw [List.getElem?_map, Option.map_eq_some_iff] at hitem
    obtain ⟨t, ht, hscanned⟩ := hitem
    obtain ⟨hdepth, htag, hvalue⟩ := Scanned.mk.inj hscanned
    exact ⟨tlvs, t, hparse, ht, hdepth, htag, hvalue⟩

theorem Scans.content_within {ends : ℕ → Option ℕ} {depth : ℕ} {octets : Bytes} {items : List Scanned}
    (h : Scans ends depth octets items) : ∀ item ∈ items, item.content <:+: octets := by
  induction h with
  | nil => exact List.forall_mem_nil _
  | @primitive ends depth depth' n tag length content rest items _ _ _ _ _ _ ih =>
    refine List.forall_mem_cons.2 ⟨⟨tag :: length, rest, by simp⟩, fun item hitem => ?_⟩
    exact (ih item hitem).trans ⟨tag :: (length ++ content), [], by simp⟩
  | @constructed ends depth depth' n tag length content rest items _ _ _ _ _ _ _ ih =>
    refine List.forall_mem_cons.2 ⟨⟨tag :: length, rest, by simp⟩, fun item hitem => ?_⟩
    exact (ih item hitem).trans ⟨tag :: length, [], by simp⟩

/-- What `validateSignatureAndExtractMessageHash` takes for a digest. -/
theorem validate_eq_ok {value : Bytes} :
    validateSignatureAndExtractMessageHash block 5 = .ok value ↔
      ∃ blockType n separator info before,
        block = 0x00 :: 0x00 :: blockType :: (List.replicate n 0xff ++ separator :: info) ∧
        (blockType = 0x00 ∨ blockType = 0x01) ∧ separator ≠ 0xff ∧ before.length = 4 ∧
        Scans (fun _ => none) 0 info (before ++ [⟨1, 0x04, value⟩]) := by
  rw [validateSignatureAndExtractMessageHash]
  simp only [bind_eq_ok, require_eq_ok, pure_eq_ok, index_eq_ok_iff_getElem?]
  constructor
  · rintro ⟨_, hfirst, _, rfl, _, hsecond, _, rfl, blockType, hthird, _, htype, tlvs, hparse, t, ht,
      _, ⟨hdepth, htag⟩, hvalue⟩
    obtain ⟨before, hbefore, hscans⟩ := parseDER_eq_ok.1 ⟨tlvs, t, hparse, ht, hdepth, htag, hvalue⟩
    rcases block with _ | ⟨b₀, _ | ⟨b₁, _ | ⟨b₂, tail⟩⟩⟩
    · cases hfirst
    · cases hsecond
    · cases hthird
    · cases hfirst
      cases hsecond
      cases hthird
      obtain ⟨n, hrun, htail | ⟨separator, info, hne, htail⟩⟩ := exists_replicate tail
      · -- the padding goes on to the end, so nothing is left to scan
        have hlength : (padding (0x00 :: 0x00 :: blockType :: tail)).length = tail.length := by
          rw [padding, List.drop_succ_cons, List.drop_succ_cons, List.drop_succ_cons,
            List.drop_zero, hrun, ← htail]
        rw [hlength, List.drop_eq_nil_of_le (by simp only [List.length_cons]; omega)] at hscans
        generalize hitems : before ++ [_] = items at hscans
        cases hscans
        exact absurd hitems (by simp)
      · subst htail
        rw [padding_eq n _ _ _ hne, List.length_replicate, drop_padding] at hscans
        exact ⟨blockType, n, separator, info, before, rfl, htype, hne, hbefore, hscans⟩
  · rintro ⟨blockType, n, separator, info, before, rfl, htype, hne, hbefore, hscans⟩
    rw [padding_eq n _ _ _ hne, List.length_replicate]
    rw [← drop_padding n 0x00 0x00 blockType separator info] at hscans
    obtain ⟨tlvs, t, hparse, ht, hdepth, htag, hvalue⟩ := parseDER_eq_ok.2 ⟨before, hbefore, hscans⟩
    exact ⟨_, rfl, (), rfl, _, rfl, (), rfl, _, rfl, (), htype, tlvs, hparse, t, ht, (),
      ⟨hdepth, htag⟩, hvalue⟩

theorem checkSignature_eq_ok {signature : Bytes} {publicKey : RSAPublicKey}
    (hblock : modExp signature publicKey.exponent publicKey.modulus = block)
    (hfree : CollisionFree sha256 keccak256 message block) :
    checkSignature sha256 keccak256 signature message publicKey = .ok () ↔
      ∃ blockType n separator info, Signed sha256 message block blockType n separator info := by
  rw [checkSignature, hblock]
  simp only [bind_eq_ok, validate_eq_ok]
  constructor
  · rintro ⟨value, ⟨blockType, n, separator, info, before, hblock, htype, hne, hbefore, hscans⟩,
      hcompare⟩
    have hvalue : value <:+: block := by
      refine (hscans.content_within ⟨1, 0x04, value⟩ (by simp)).trans ?_
      rw [hblock]
      exact ⟨0x00 :: 0x00 :: blockType :: (List.replicate n 0xff ++ [separator]), [], by simp⟩
    exact ⟨blockType, n, separator, info, hblock, htype, hne, before, value, hbefore,
      (compare_eq_ok hfree hvalue).1 hcompare, hscans⟩
  · rintro ⟨blockType, n, separator, info, hblock, htype, hne, before, digest, hbefore, hdigest,
      hscans⟩
    have hvalue : digest <:+: block := by
      refine (hscans.content_within ⟨1, 0x04, digest⟩ (by simp)).trans ?_
      rw [hblock]
      exact ⟨0x00 :: 0x00 :: blockType :: (List.replicate n 0xff ++ [separator]), [], by simp⟩
    exact ⟨digest, ⟨blockType, n, separator, info, before, hblock, htype, hne, hbefore, hscans⟩,
      (compare_eq_ok hfree hvalue).2 hdigest⟩

/-! ### PKCS#1 blocks -/

theorem parseDER_digestInfo {oid digest : Bytes} {total length : BitVec 8} {pointer : ℕ}
    (hdrop : block.drop pointer = (digestInfo oid total length digest).encode)
    (hoid : oid.length = 9) (hwf : (digestInfo oid total length digest).WellFormed)
    (hdigest : digest.length < 128) :
    ∃ tlvs t, parseDER block pointer 5 = .ok tlvs ∧ tlvs[4]? = some t ∧ t.depth = 1 ∧
      t.tag.tagType = 0x04 ∧ t.value = digest := by
  have hsize : (digestInfo oid total length digest).encode.length < 2 ^ 256 := by
    simp only [digestInfo, Forest.encode, List.length_cons, List.length_append, List.length_nil]
    omega
  have hnesting : (digestInfo oid total length digest).nesting ≤ MAX_DEPTH := by
    simp [digestInfo, Forest.nesting, MAX_DEPTH]
  exact ⟨_, element _ 1 0x04 [length] digest,
    walkDerTree_of_encode hsize Forest.noConfusion hwf hnesting hdrop (le_refl 5), rfl, rfl, rfl,
    rfl⟩

theorem wellFormed_digestInfo {oid digest : Bytes} {total length : BitVec 8}
    (hoid : oid.length = 9) (htotal : total.toNat = digest.length + 17)
    (hlength : length.toNat = digest.length) (hshort : digest.length < 111) :
    (digestInfo oid total length digest).WellFormed := by
  have hcontent : contentLength [total] = some (digest.length + 17) := by
    rw [contentLength_short (by omega), htotal]
  have hdigest : contentLength [length] = some digest.length := by
    rw [contentLength_short (by omega), hlength]
  have hoid' : contentLength [0x09] = some oid.length := by
    rw [hoid]
    rfl
  refine ⟨by decide, rfl, ?_, ⟨by decide, rfl, ?_, ⟨by decide, rfl, hoid', by decide, rfl, rfl,
    trivial⟩, by decide, rfl, hdigest, trivial⟩, trivial⟩
  · rw [hcontent]
    simp [Forest.encode, hoid]
    omega
  · simp [Forest.encode, hoid]
    rfl

theorem length_bytesBE (n x : ℕ) : (Sha.bytesBE n x).length = n := by
  induction n generalizing x with
  | zero => rfl
  | succ n ih => rw [Sha.bytesBE, List.length_append, ih, List.length_singleton]

theorem length_sha512 {digest : Bytes} (h : Sha.sha512 message = .ok digest) :
    digest.length = 64 := by
  rw [Sha.sha512, bind_eq_ok] at h
  obtain ⟨_, -, h⟩ := h
  rw [← pure_eq_ok.1 h, List.length_flatMap]
  simp only [length_bytesBE]
  rfl

/-- A `DigestInfo` has a digest of the message in its fifth TLV. -/
theorem carries_of_isDigestInfo {info : Bytes} (h : IsDigestInfo sha256 message info) :
    Carries sha256 message info := by
  have hcarries : ∀ {oid digest : Bytes} {total length : BitVec 8},
      info = (digestInfo oid total length digest).encode → oid.length = 9 →
      (digestInfo oid total length digest).WellFormed → digest.length < 128 →
      IsDigest sha256 message digest → Carries sha256 message info := by
    intro oid digest total length hinfo hoid hwf hlength hdigest
    obtain ⟨before, hbefore, hscans⟩ :=
      parseDER_eq_ok.1 (@parseDER_digestInfo info oid digest total length 0 hinfo hoid hwf hlength)
    exact ⟨before, digest, hbefore, hdigest, hscans⟩
  rcases h with rfl | ⟨digest, hdigest, rfl⟩
  · have hlength := length_toBytesBE (sha256 message)
    exact hcarries rfl rfl
      (wellFormed_digestInfo rfl (by rw [hlength]; rfl) (by rw [hlength]; rfl) (by omega))
      (by omega) (.inl rfl)
  · have hlength := length_sha512 hdigest
    exact hcarries rfl rfl
      (wellFormed_digestInfo rfl (by rw [hlength]; rfl) (by rw [hlength]; rfl) (by omega))
      (by omega) (.inr hdigest)

/-- Behind one zero octet a PKCS#1 block is one that the contract takes. -/
theorem Pkcs1.signed (h : Pkcs1 sha256 message modulus block) (hone : leadingZeros modulus = 1) :
    ∃ n info, 8 ≤ n ∧ IsDigestInfo sha256 message info ∧
      Signed sha256 message block 0x01 n 0x00 info := by
  obtain ⟨-, n, info, hn, hinfo, hblock⟩ := h
  rw [hone] at hblock
  exact ⟨n, info, hn, hinfo, hblock, .inr rfl, by decide, carries_of_isDigestInfo hinfo⟩

/-- A block is taken apart in one way. -/
theorem Signed.unique {t t' s s' : BitVec 8} {n n' : ℕ} {info info' : Bytes}
    (h : Signed sha256 message block t n s info) (h' : Signed sha256 message block t' n' s' info') :
    t = t' ∧ n = n' ∧ s = s' ∧ info = info' := by
  have hpadding := padding_eq n 0x00 0x00 t h.separator_ne info
  have hpadding' := padding_eq n' 0x00 0x00 t' h'.separator_ne info'
  rw [← h.block_eq] at hpadding
  rw [← h'.block_eq, hpadding] at hpadding'
  have hn : n = n' := by
    have hlength := congrArg List.length hpadding'
    rwa [List.length_replicate, List.length_replicate] at hlength
  subst hn
  have hblock := h.block_eq.symm.trans h'.block_eq
  simp only [List.cons.injEq, List.append_cancel_left_eq, true_and] at hblock
  exact ⟨hblock.1, rfl, hblock.2.1, hblock.2.2⟩

theorem length_eq_short {length more octets : Bytes} {first : BitVec 8} {n : ℕ}
    (hfirst : first.toNat < 128) (hn : contentLength length = some n)
    (heq : length ++ more = first :: octets) : n = first.toNat ∧ more = octets := by
  rcases contentLength_eq_some hn with ⟨_, -, rfl, rfl⟩ | ⟨_, _, hlong, -, -, -, rfl, -⟩
  · obtain ⟨rfl, hmore⟩ := List.cons.inj heq
    exact ⟨rfl, hmore⟩
  · obtain ⟨rfl, -⟩ := List.cons.inj heq
    exact absurd hfirst hlong

theorem length_ne_reserved {length more octets : Bytes} {n : ℕ}
    (hn : contentLength length = some n) : length ++ more ≠ 0xff :: octets := by
  intro heq
  rcases contentLength_eq_some hn with ⟨_, hshort, rfl, -⟩ | ⟨_, _, -, -, hreserved, -, rfl, -⟩
  · obtain ⟨rfl, -⟩ := List.cons.inj heq
    exact absurd hshort (by decide)
  · obtain ⟨rfl, -⟩ := List.cons.inj heq
    exact hreserved rfl

section

variable {ends : ℕ → Option ℕ} {depth : ℕ} {octets tail : Bytes} {items : List Scanned}

theorem Scans.cons_primitive {tag : BitVec 8} (h : Scans ends depth (tag :: octets) items)
    (htag : isConstructed tag = false) : Allowed tag ∧ ∃ n length content rest,
      contentLength length = some n ∧ content.length = n % 2 ^ 256 ∧
      octets = length ++ (content ++ rest) ∧ ∃ depth' items', Scans ends depth' rest items' := by
  cases h with
  | primitive hallowed _ hn hcontent _ hrest =>
    exact ⟨hallowed, _, _, _, _, hn, hcontent, rfl, _, _, hrest⟩
  | constructed _ hconstructed => exact absurd (htag.symm.trans hconstructed) Bool.false_ne_true

theorem not_scans_padding : ¬ Scans ends depth (0xff :: tail) items := by
  intro h
  cases h with
  | primitive hallowed => exact absurd hallowed (by decide)
  | constructed hallowed => exact absurd hallowed (by decide)

/-- Zero octets in front of a block type and padding aren't TLVs: they are read two at a time, up to
the block type, which is a tag without a length or the length of one octet of the padding. -/
theorem not_scans (k : ℕ) :
    ¬ Scans ends depth (List.replicate k 0x00 ++ 0x01 :: 0xff :: 0xff :: tail) items := by
  induction k using Nat.twoStepInduction generalizing ends depth items with
  | zero =>
    intro h
    obtain ⟨-, n, length, content, rest, hn, -, heq, -⟩ := h.cons_primitive rfl
    exact length_ne_reserved hn heq.symm
  | one =>
    intro h
    obtain ⟨-, n, length, content, rest, hn, hcontent, heq, _, _, hrest⟩ := h.cons_primitive rfl
    obtain ⟨rfl, heq⟩ := length_eq_short (by decide) hn heq.symm
    obtain ⟨b, rfl⟩ := List.length_eq_one_iff.1 hcontent
    obtain ⟨-, rfl⟩ := List.cons.inj heq
    exact not_scans_padding hrest
  | more k ih _ =>
    intro h
    obtain ⟨-, n, length, content, rest, hn, hcontent, heq, _, _, hrest⟩ := h.cons_primitive rfl
    obtain ⟨rfl, heq⟩ := length_eq_short (by decide) hn heq.symm
    obtain rfl := List.length_eq_zero_iff.1 hcontent
    rw [List.nil_append] at heq
    exact ih (heq ▸ hrest)

end

/-- What is refused isn't taken for a digest. -/
theorem Refused.not_signed (h : Refused sha256 message modulus block) {t s : BitVec 8} {n : ℕ}
    {info : Bytes} : ¬ Signed sha256 message block t n s info := by
  rintro ⟨hsigned, -, -, before, digest, -, -, hscans⟩
  obtain ⟨hone, -, m, encoded, hm, -, hblock⟩ := h
  obtain ⟨m, rfl⟩ := Nat.exists_eq_add_of_le' hm
  rw [hsigned] at hblock
  generalize leadingZeros modulus = zeros at hone hblock
  rcases zeros with _ | _ | k
  · obtain ⟨-, hsecond⟩ := List.cons.inj hblock
    obtain ⟨hsecond, -⟩ := List.cons.inj hsecond
    exact absurd hsecond (by decide)
  · exact hone rfl
  · -- the third octet is zero too, and there is no padding behind it
    have hzero : ∀ octets : Bytes, List.replicate k (0x00 : BitVec 8) ++ 0x00 :: octets =
        0x00 :: (List.replicate k 0x00 ++ octets) := fun octets => by
      rw [List.append_cons, ← List.replicate_succ', List.replicate_succ, List.cons_append]
    rw [List.replicate_succ, List.replicate_succ, List.cons_append, List.cons_append, hzero]
      at hblock
    simp only [List.cons.injEq, true_and] at hblock
    obtain ⟨-, hbehind⟩ := hblock
    rcases n with _ | n
    · rcases k with _ | k
      · obtain ⟨-, rfl⟩ := List.cons.inj hbehind
        exact not_scans_padding hscans
      · obtain ⟨-, rfl⟩ := List.cons.inj hbehind
        exact not_scans k hscans
    · rcases k with _ | k
      · exact absurd (List.cons.inj hbehind).1 (by decide)
      · exact absurd (List.cons.inj hbehind).1 (by decide)

variable (sha256 keccak256)

/-- **Which blocks are judged right**: `checkSignature` accepts exactly the PKCS#1 encodings of a
digest of the message, unless the block is one of the other blocks with a digest, or such an encoding
that doesn't start with two zero octets. -/
theorem padding_exact_iff (signature message : Bytes) (publicKey : RSAPublicKey)
    (hfree : CollisionFree sha256 keccak256 message
      (modExp signature publicKey.exponent publicKey.modulus)) :
    (checkSignature sha256 keccak256 signature message publicKey = .ok () ↔
      Pkcs1 sha256 message publicKey.modulus
        (modExp signature publicKey.exponent publicKey.modulus)) ↔
    ¬ Forged sha256 message publicKey.modulus
        (modExp signature publicKey.exponent publicKey.modulus) ∧
      ¬ Refused sha256 message publicKey.modulus
        (modExp signature publicKey.exponent publicKey.modulus) := by
  obtain ⟨block, hblock⟩ : ∃ block, modExp signature publicKey.exponent publicKey.modulus = block :=
    ⟨_, rfl⟩
  have hsize : block.length = publicKey.modulus.length := by
    rw [← hblock, modExp, length_bytesBE]
  rw [hblock] at hfree ⊢
  rw [checkSignature_eq_ok hblock hfree]
  constructor
  · intro hiff
    refine ⟨?_, fun hrefused => ?_⟩
    · rintro ⟨t, n, s, info, hsigned, hother⟩
      have hpkcs := hiff.1 ⟨t, n, s, info, hsigned⟩
      by_cases hone : leadingZeros publicKey.modulus = 1
      · obtain ⟨n', info', hn, hinfo, hsigned'⟩ := hpkcs.signed hone
        obtain ⟨rfl, rfl, rfl, rfl⟩ := hsigned.unique hsigned'
        rcases hother with hother | htype | hshort | hseparator | hother
        · exact hother hone
        · exact absurd htype (by decide)
        · omega
        · exact hseparator rfl
        · exact hother hinfo
      · exact Refused.not_signed ⟨hone, hpkcs⟩ hsigned
    · obtain ⟨t, n, s, info, hsigned⟩ := hiff.2 hrefused.2
      exact hrefused.not_signed hsigned
  · rintro ⟨hforged, hrefused⟩
    constructor
    · rintro ⟨t, n, s, info, hsigned⟩
      have hexact : ¬(leadingZeros publicKey.modulus ≠ 1 ∨ t = 0x00 ∨ n < 8 ∨ s ≠ 0x00 ∨
          ¬ IsDigestInfo sha256 message info) := fun hother =>
        hforged ⟨t, n, s, info, hsigned, hother⟩
      simp only [not_or, not_not, not_lt] at hexact
      obtain ⟨hone, htype, hn, rfl, hinfo⟩ := hexact
      obtain rfl := hsigned.blockType_le.resolve_left htype
      refine ⟨hsize, n, info, hn, hinfo, ?_⟩
      rw [hone]
      exact hsigned.block_eq
    · intro hpkcs
      have hone : leadingZeros publicKey.modulus = 1 := by
        by_contra hne
        exact hrefused ⟨hne, hpkcs⟩
      obtain ⟨n, info, -, -, hsigned⟩ := hpkcs.signed hone
      exact ⟨_, n, _, info, hsigned⟩

end

/-! ### A forged block -/

/-- SHA-256 at the empty message. -/
def emptySha256 (_ : Bytes) : U256 :=
  0xe3b0c44298fc1c149afbf4c8996fb92427ae41e4649b934ca495991b7852b855

/-- The digest of the empty message. -/
def emptyDigest : Bytes := toBytesBE (emptySha256 [])

/-- Keccak-256 at the digests of the empty message. -/
def emptyKeccak256 (value : Bytes) : U256 :=
  if value = emptyDigest then 0xa332df1e58a99d8dcb0767dab2d23985ef337d59fadbe040f56e1c642b314973
  else if Sha.sha512 [] = .ok value then
    0x5a0393bd0c57e07f143f51774bafa50898b8434b22f41befcd1eb790fecad5e4
  else 0

/-- A block of type 0 with no padding and another octet behind it. -/
def unpaddedBlock : Bytes :=
  0x00 :: 0x00 :: 0x00 :: 0x41 :: (digestInfo sha256Oid 0x31 0x20 emptyDigest).encode

/-- The encoding of the digest with the shortest padding. -/
def paddedBlock : Bytes :=
  0x00 :: 0x00 :: 0x01 :: (List.replicate 8 0xff ++
    0x00 :: (digestInfo sha256Oid 0x31 0x20 emptyDigest).encode)

/-- A key with exponent 1, under which a smaller block is its own signature.  One zero octet stands in
front of the modulus. -/
def sampleKey (n : ℕ) : RSAPublicKey := ⟨0x00 :: 0x01 :: (List.replicate n 0x00 ++ [0x01]), 1⟩

theorem eq_emptyDigest {value : Bytes}
    (h : emptyKeccak256 value = emptyKeccak256 emptyDigest) : value = emptyDigest := by
  by_contra hne
  rw [emptyKeccak256, if_neg hne, emptyKeccak256, if_pos rfl] at h
  split_ifs at h
  · exact absurd h (by decide)
  · exact absurd h (by decide)

theorem collisionFree_emptyKeccak256 (block : Bytes) :
    CollisionFree emptySha256 emptyKeccak256 [] block := by
  rintro value digest - (rfl | hdigest) hkeccak
  · exact eq_emptyDigest hkeccak
  · by_cases hfirst : digest = emptyDigest
    · subst hfirst
      exact eq_emptyDigest hkeccak
    · rw [emptyKeccak256, emptyKeccak256, if_neg hfirst, if_pos hdigest] at hkeccak
      split_ifs at hkeccak with hvalue hvalue'
      · exact absurd hkeccak (by decide)
      · exact Except.ok.inj (hvalue'.symm.trans hdigest)
      · exact absurd hkeccak (by decide)

theorem padding_exact_iff_sample :
    checkSignature emptySha256 emptyKeccak256 paddedBlock [] (sampleKey 60) = .ok () ∧
      ((checkSignature emptySha256 emptyKeccak256 paddedBlock [] (sampleKey 60) = .ok () ↔
        Pkcs1 emptySha256 [] (sampleKey 60).modulus
          (modExp paddedBlock (sampleKey 60).exponent (sampleKey 60).modulus)) ↔
      ¬ Forged emptySha256 [] (sampleKey 60).modulus
          (modExp paddedBlock (sampleKey 60).exponent (sampleKey 60).modulus) ∧
        ¬ Refused emptySha256 [] (sampleKey 60).modulus
          (modExp paddedBlock (sampleKey 60).exponent (sampleKey 60).modulus)) :=
  ⟨by decide +kernel,
    padding_exact_iff _ _ paddedBlock [] (sampleKey 60) (collisionFree_emptyKeccak256 _)⟩

theorem unpadded_block_accepted :
    checkSignature emptySha256 emptyKeccak256 unpaddedBlock [] (sampleKey 52) = .ok () ∧
      ¬ ∀ (signature message : Bytes) (publicKey : RSAPublicKey),
        checkSignature emptySha256 emptyKeccak256 signature message publicKey = .ok () ↔
          Pkcs1 emptySha256 message publicKey.modulus
            (modExp signature publicKey.exponent publicKey.modulus) := by
  have hblock : modExp unpaddedBlock (sampleKey 52).exponent (sampleKey 52).modulus =
      unpaddedBlock := by
    decide +kernel
  have haccepted : checkSignature emptySha256 emptyKeccak256 unpaddedBlock [] (sampleKey 52) =
      .ok () := by
    decide +kernel
  refine ⟨haccepted, fun h => ?_⟩
  obtain ⟨-, n, info, -, -, heq⟩ := (h unpaddedBlock [] (sampleKey 52)).1 haccepted
  have hone : leadingZeros (sampleKey 52).modulus = 1 := rfl
  rw [hblock, hone] at heq
  -- the block type
  have hthird : (0x00 : BitVec 8) = 0x01 := (List.cons.inj (List.cons.inj (List.cons.inj heq).2).2).1
  exact absurd hthird (by decide)

end Der

end X509

end Nightfall
