import Nightfall.Codec.TypeConversions
import Nightfall.Node.Proposer

/-!
# Nightfall token ids

The Nightfall token id of a token is the shifted hash of its address and its id, as the contract
encodes them.  The nodes compute it from texts, from field elements, or from the words of a call, and
build the 64 bytes in three ways.  For one address and one id all of them agree with the contract, in
whatever spelling the texts are.  Texts are not checked for their length, as
`ERCAddress::try_from_hex_string` checks them, so some texts that are no address have a token id as
well; `token_ids_agree_iff` says which.
-/

namespace Nightfall

namespace Codec

open Contract (Address sha256AndShift)
open Evm (Bytes U256 abiEncode toBytesBE)
open Tlv (number)

section

variable (sha256 : Bytes → U256)

/-! ### The functions -/

/-- The shifted hash of the bytes as a field element. -/
def shiftedDigest (inputBytes : Bytes) : Fr254 :=
  let nfTokenId := (sha256 inputBytes).toNat
  ((nfTokenId >>> 4 : ℕ) : Fr254)

/-- `to_nf_token_id_from_str`. -/
def toNfTokenIdFromStr (ercAddress tokenId : List Char) : Except ConversionStop Fr254 := do
  let ercVec : Bytes ← (fromHexString ercAddress).mapError fun _ => .parseFailed
  let ercVec := padFront 32 ercVec
  let tokenVec : Bytes ← (fromHexString tokenId).mapError fun _ => .parseFailed
  let tokenVec := padFront 32 tokenVec
  return shiftedDigest sha256 (ercVec ++ tokenVec)

/-- `to_nf_token_id_from_fr254`. -/
def toNfTokenIdFromFr254 (ercAddress tokenId : Fr254) : Fr254 :=
  let ercAddressBytes := padFront 32 (toBytesBe 32 ercAddress.val)
  let tokenIdBytes := padFront 32 (toBytesBe 32 tokenId.val)
  shiftedDigest sha256 (ercAddressBytes ++ tokenIdBytes)

/-- `to_nf_token_id_from_solidity`. -/
def toNfTokenIdFromSolidity (solidityTokenAddress : Address) (solidityTokenId : U256) : Fr254 :=
  let ercAddressBytes := padFront 32 (toBytesBe 20 solidityTokenAddress.toNat)
  let tokenIdBytes := toBytesBe 32 solidityTokenId.toNat
  shiftedDigest sha256 (ercAddressBytes ++ tokenIdBytes)

/-! ### The bytes that are hashed -/

theorem number_toBytesBE (x : U256) : number (toBytesBE x) = x.toNat := by
  have h := Evm.foldl_take_toBytesBE x (le_refl 32)
  rw [List.take_of_length_le (Evm.length_toBytesBE x).le, Nat.sub_self, mul_zero, pow_zero,
    Nat.div_one] at h
  exact h

theorem length_padFront {n : ℕ} {bytes : Bytes} (h : bytes.length ≤ n) :
    (padFront n bytes).length = n := by
  rw [padFront, List.length_append, List.length_replicate]
  omega

/-- Bytes that denote a word are its bytes, once there are 32 of them. -/
theorem padFront_eq {bytes : Bytes} {x : U256} (hlen : bytes.length ≤ 32)
    (hx : number bytes = x.toNat) : padFront 32 bytes = toBytesBE x := by
  rw [← Hex.number_inj (by rw [length_padFront hlen, Evm.length_toBytesBE]), number_padFront, hx,
    number_toBytesBE]

theorem toNat_toWord (a : Address) : a.toWord.toNat = a.toNat := by
  have ha := a.isLt
  exact (BitVec.toNat_setWidth 256 a).trans (Nat.mod_eq_of_lt (by omega))

/-- The token id of the contract. -/
def contractTokenId (a : Address) (t : U256) : U256 :=
  sha256AndShift sha256 (abiEncode [a.toWord, t])

/-- The contract's shift drops four bits, so nothing is reduced. -/
theorem shiftedDigest_abiEncode (a : Address) (t : U256) :
    shiftedDigest sha256 (toBytesBE a.toWord ++ toBytesBE t) =
      (contractTokenId sha256 a t).toNat := by
  have hbytes : abiEncode [a.toWord, t] = toBytesBE a.toWord ++ toBytesBE t := by
    rw [abiEncode, List.flatMap_cons, List.flatMap_singleton]
  rw [shiftedDigest, contractTokenId, sha256AndShift, hbytes, BitVec.toNat_ushiftRight]

theorem toNat_contractTokenId_lt (a : Address) (t : U256) :
    (contractTokenId sha256 a t).toNat < frModulus := by
  have h := (sha256 (abiEncode [a.toWord, t])).isLt
  rw [contractTokenId, sha256AndShift, BitVec.toNat_ushiftRight, Nat.shiftRight_eq_div_pow,
    frModulus]
  omega

/-! ### Texts -/

/-- A text is an even number of digits, at least two, with or without the prefix. -/
def Readable (hexStr : List Char) : Prop :=
  ∃ digits, Hex.IsHex digits ∧ digits ≠ [] ∧ Even digits.length ∧ Spells digits hexStr

/-- The text is a number of at most 32 bytes. -/
def Denotes (hexStr : List Char) (n : ℕ) : Prop :=
  ∃ digits, Hex.IsHex digits ∧ digits ≠ [] ∧ Even digits.length ∧ digits.length ≤ 64 ∧
    Spells digits hexStr ∧ Hex.value digits = n

theorem spells_stripPrefix (hexStr : List Char) : Spells (stripPrefix hexStr) hexStr := by
  unfold stripPrefix
  split
  · exact .inr rfl
  · exact .inl rfl

/-- What `Vec::<u8>::from_hex_string` reads. -/
theorem fromHexString_eq_ok {hexStr : List Char} {bytes : Bytes} :
    fromHexString hexStr = .ok bytes ↔
      stripPrefix hexStr ≠ [] ∧ Hex.decode (stripPrefix hexStr) = some bytes := by
  constructor
  · intro h
    simp only [fromHexString] at h
    split_ifs at h with hlen
    rw [not_or] at hlen
    refine ⟨hlen.2, ?_⟩
    cases hdecode : Hex.decode (stripPrefix hexStr) with
    | none => rw [hdecode] at h; cases h
    | some bs => rw [hdecode] at h; cases h; rfl
  · rintro ⟨hne, hdecode⟩
    obtain ⟨hhex, hlen, -⟩ := Hex.decode_eq_some hdecode
    simp only [fromHexString]
    rw [if_neg, hdecode]
    · rfl
    · rw [utf8Len_of_isHex hhex, hlen, not_or]
      exact ⟨by omega, hne⟩

theorem readable_iff {hexStr : List Char} :
    Readable hexStr ↔ ∃ bytes : Bytes, fromHexString hexStr = .ok bytes := by
  constructor
  · rintro ⟨digits, hhex, hne, heven, hspells⟩
    obtain ⟨bytes, hbytes⟩ := Hex.exists_decode_eq_some hhex heven
    refine ⟨bytes, fromHexString_eq_ok.2 ?_⟩
    rw [stripPrefix_of_spells hhex hspells]
    exact ⟨hne, hbytes⟩
  · rintro ⟨bytes, h⟩
    obtain ⟨hne, hdecode⟩ := fromHexString_eq_ok.1 h
    obtain ⟨hhex, hlen, -⟩ := Hex.decode_eq_some hdecode
    exact ⟨_, hhex, hne, by rw [hlen]; exact even_two_mul _, spells_stripPrefix hexStr⟩

theorem denotes_iff {hexStr : List Char} {n : ℕ} :
    Denotes hexStr n ↔ Readable hexStr ∧ (stripPrefix hexStr).length ≤ 64 ∧
      Hex.value (stripPrefix hexStr) = n := by
  constructor
  · rintro ⟨digits, hhex, hne, heven, hlen, hspells, hvalue⟩
    rw [stripPrefix_of_spells hhex hspells]
    exact ⟨⟨digits, hhex, hne, heven, hspells⟩, hlen, hvalue⟩
  · rintro ⟨⟨digits, hhex, hne, heven, hspells⟩, hlen, hvalue⟩
    rw [stripPrefix_of_spells hhex hspells] at hlen hvalue
    exact ⟨digits, hhex, hne, heven, hlen, hspells, hvalue⟩

theorem value_lt_of_readable {hexStr : List Char} (h : Readable hexStr)
    (hlen : (stripPrefix hexStr).length ≤ 64) : Hex.value (stripPrefix hexStr) < 2 ^ 256 := by
  obtain ⟨bytes, hbytes⟩ := readable_iff.1 h
  obtain ⟨-, hlen', hnumber⟩ := Hex.decode_eq_some (fromHexString_eq_ok.1 hbytes).2
  calc Hex.value (stripPrefix hexStr) = number bytes := hnumber.symm
    _ < 256 ^ bytes.length := Hex.number_lt bytes
    _ ≤ 256 ^ 32 := Nat.pow_le_pow_right (by omega) (by omega)
    _ = 2 ^ 256 := by norm_num

theorem exists_denotes {w : ℕ} {hexStr : List Char} (h : Readable hexStr)
    (hlen : (stripPrefix hexStr).length ≤ 64) (hvalue : Hex.value (stripPrefix hexStr) < 2 ^ w) :
    ∃ x : BitVec w, Denotes hexStr x.toNat :=
  ⟨BitVec.ofNatLT _ hvalue, denotes_iff.2 ⟨h, hlen, rfl⟩⟩

/-- A number of at most 32 bytes is read as the word. -/
theorem Denotes.read {hexStr : List Char} {x : U256} (h : Denotes hexStr x.toNat) :
    ∃ bytes : Bytes, fromHexString hexStr = .ok bytes ∧ padFront 32 bytes = toBytesBE x := by
  obtain ⟨digits, hhex, hne, heven, hlen, hspells, hvalue⟩ := h
  obtain ⟨bytes, hbytes⟩ := Hex.exists_decode_eq_some hhex heven
  obtain ⟨-, hlen', hnumber⟩ := Hex.decode_eq_some hbytes
  refine ⟨bytes, fromHexString_eq_ok.2 ?_, padFront_eq (by omega) (hnumber.trans hvalue)⟩
  rw [stripPrefix_of_spells hhex hspells]
  exact ⟨hne, hbytes⟩

/-! ### Agreement -/

theorem toNfTokenIdFromSolidity_eq (a : Address) (t : U256) :
    toNfTokenIdFromSolidity sha256 a t = (contractTokenId sha256 a t).toNat := by
  have ha : a.toNat % 256 ^ 20 = a.toWord.toNat := by
    rw [toNat_toWord, Nat.mod_eq_of_lt (a.isLt.trans_le (by norm_num))]
  have ht : toBytesBe 32 t.toNat = toBytesBE t := by
    rw [← Hex.number_inj (by rw [length_toBytesBe, Evm.length_toBytesBE]), number_toBytesBe,
      number_toBytesBE, Nat.mod_eq_of_lt (t.isLt.trans_le (by norm_num))]
  rw [toNfTokenIdFromSolidity, ← shiftedDigest_abiEncode, ht,
    padFront_eq (by rw [length_toBytesBe]; omega) ((number_toBytesBe _ _).trans ha)]

/-- What the nodes use for the events of deposits. -/
theorem node_toNfTokenIdFromSolidity (a : Address) (t : U256) :
    Node.toNfTokenIdFromSolidity sha256 a t = toNfTokenIdFromSolidity sha256 a t :=
  (toNfTokenIdFromSolidity_eq sha256 a t).symm

theorem toNfTokenIdFromFr254_eq {a : Address} {t : U256} {f g : Fr254} (hf : f.val = a.toNat)
    (hg : g.val = t.toNat) :
    toNfTokenIdFromFr254 sha256 f g = (contractTokenId sha256 a t).toNat := by
  have hbytes : ∀ (x : Fr254) (w : U256), x.val = w.toNat →
      padFront 32 (toBytesBe 32 x.val) = toBytesBE w := by
    intro x w h
    refine padFront_eq (length_toBytesBe _ _).le ?_
    rw [number_toBytesBe, Nat.mod_eq_of_lt (Trees.val_lt_pow x), h]
  rw [toNfTokenIdFromFr254, ← shiftedDigest_abiEncode, hbytes g t hg,
    hbytes f a.toWord (hf.trans (toNat_toWord a).symm)]

theorem toNfTokenIdFromStr_eq {a : Address} {t : U256} {ercAddress tokenId : List Char}
    (herc : Denotes ercAddress a.toNat) (htoken : Denotes tokenId t.toNat) :
    toNfTokenIdFromStr sha256 ercAddress tokenId = .ok (contractTokenId sha256 a t).toNat := by
  rw [← toNat_toWord] at herc
  obtain ⟨ercVec, herc, hercBytes⟩ := herc.read
  obtain ⟨tokenVec, htoken, htokenBytes⟩ := htoken.read
  rw [toNfTokenIdFromStr, herc, htoken, ← shiftedDigest_abiEncode, ← hercBytes, ← htokenBytes]
  rfl

/-- Exactly the readable texts have a token id; others fail to be parsed. -/
theorem toNfTokenIdFromStr_isOk_iff (ercAddress tokenId : List Char) :
    ((∃ x, toNfTokenIdFromStr sha256 ercAddress tokenId = .ok x) ↔
      Readable ercAddress ∧ Readable tokenId) ∧
    ∀ e, toNfTokenIdFromStr sha256 ercAddress tokenId = .error e → e = .parseFailed := by
  rw [readable_iff, readable_iff, toNfTokenIdFromStr]
  cases (fromHexString ercAddress : Except HexError Bytes) with
  | error e =>
    refine ⟨iff_of_false ?_ ?_, ?_⟩
    · rintro ⟨x, hx⟩
      cases hx
    · rintro ⟨⟨bytes, h⟩, -⟩
      cases h
    · rintro e' ⟨⟩
      rfl
  | ok ercVec =>
    cases (fromHexString tokenId : Except HexError Bytes) with
    | error e =>
      refine ⟨iff_of_false ?_ ?_, ?_⟩
      · rintro ⟨x, hx⟩
        cases hx
      · rintro ⟨-, ⟨bytes, h⟩⟩
        cases h
      · rintro e' ⟨⟩
        rfl
    | ok tokenVec =>
      refine ⟨iff_of_true ⟨_, rfl⟩ ⟨⟨_, rfl⟩, ⟨_, rfl⟩⟩, ?_⟩
      intro e h
      cases h

/-- An address and an id have one token id, in whatever way they are given, and texts that are no
address and id have none. -/
structure TokenIdsAgree (ercAddress tokenId : List Char) : Prop where
  solidity : ∀ a t, (toNfTokenIdFromSolidity sha256 a t).val = (contractTokenId sha256 a t).toNat
  fr254 : ∀ (a : Address) (t : U256) (f g : Fr254), f.val = a.toNat → g.val = t.toNat →
    (toNfTokenIdFromFr254 sha256 f g).val = (contractTokenId sha256 a t).toNat
  str : ∀ (a : Address) (t : U256), Denotes ercAddress a.toNat → Denotes tokenId t.toNat →
    toNfTokenIdFromStr sha256 ercAddress tokenId = .ok (contractTokenId sha256 a t).toNat
  rejects : ¬((∃ a : Address, Denotes ercAddress a.toNat) ∧ ∃ t : U256, Denotes tokenId t.toNat) →
    toNfTokenIdFromStr sha256 ercAddress tokenId = .error .parseFailed

/-- **One token id.**  The texts for which the token ids agree are those that can't be read, and
numbers of at most 32 bytes of which the address is below `2 ^ 160`. -/
theorem token_ids_agree_iff (ercAddress tokenId : List Char) :
    TokenIdsAgree sha256 ercAddress tokenId ↔
      (Readable ercAddress → Readable tokenId →
        (stripPrefix ercAddress).length ≤ 64 ∧ Hex.value (stripPrefix ercAddress) < 2 ^ 160 ∧
        (stripPrefix tokenId).length ≤ 64) := by
  obtain ⟨hok, herror⟩ := toNfTokenIdFromStr_isOk_iff sha256 ercAddress tokenId
  constructor
  · intro h herc htoken
    obtain ⟨x, hx⟩ := hok.2 ⟨herc, htoken⟩
    obtain ⟨⟨a, ha⟩, t, ht⟩ := not_not.1 fun hnot => by
      rw [h.rejects hnot] at hx
      cases hx
    obtain ⟨-, hlen, hvalue⟩ := denotes_iff.1 ha
    exact ⟨hlen, hvalue ▸ a.isLt, (denotes_iff.1 ht).2.1⟩
  · intro h
    refine ⟨fun a t => ?_, fun a t f g hf hg => ?_, fun a t => toNfTokenIdFromStr_eq sha256, ?_⟩
    · rw [toNfTokenIdFromSolidity_eq, ZMod.val_cast_of_lt (toNat_contractTokenId_lt sha256 a t)]
    · rw [toNfTokenIdFromFr254_eq sha256 hf hg,
        ZMod.val_cast_of_lt (toNat_contractTokenId_lt sha256 a t)]
    · intro hnone
      cases hresult : toNfTokenIdFromStr sha256 ercAddress tokenId with
      | error e => rw [herror e hresult]
      | ok x =>
        -- a text that is read is an address and an id, by the condition
        obtain ⟨herc, htoken⟩ := hok.1 ⟨x, hresult⟩
        obtain ⟨hlen, hvalue, hlen'⟩ := h herc htoken
        exact absurd ⟨exists_denotes herc hlen hvalue,
          exists_denotes htoken hlen' (value_lt_of_readable htoken hlen')⟩ hnone

end

/-- The text of an address of 21 bytes. -/
def longAddress : List Char := '0' :: 'x' :: '0' :: '1' :: List.replicate 40 '0'

/-- The text of a number that is no address has a token id. -/
theorem long_address_accepted :
    2 ^ 160 ≤ Hex.value (stripPrefix longAddress) ∧
      (∃ x, toNfTokenIdFromStr (fun _ => 0) longAddress ['0', '0'] = .ok x) ∧
      ¬TokenIdsAgree (fun _ => 0) longAddress ['0', '0'] := by
  have herc : Readable longAddress :=
    ⟨'0' :: '1' :: List.replicate 40 '0', by decide, List.cons_ne_nil _ _, by decide, .inr rfl⟩
  have htoken : Readable ['0', '0'] := ⟨_, by decide, List.cons_ne_nil _ _, by decide, .inl rfl⟩
  have hvalue : 2 ^ 160 ≤ Hex.value (stripPrefix longAddress) := by decide +kernel
  obtain ⟨x, hx⟩ := (toNfTokenIdFromStr_isOk_iff (fun _ => 0) longAddress ['0', '0']).1.2
    ⟨herc, htoken⟩
  refine ⟨hvalue, ⟨x, hx⟩, fun h => ?_⟩
  have hnone : ¬((∃ a : Address, Denotes longAddress a.toNat) ∧
      ∃ t : U256, Denotes ['0', '0'] t.toNat) := by
    rintro ⟨⟨a, ha⟩, -⟩
    exact absurd ((denotes_iff.1 ha).2.2 ▸ a.isLt) (Nat.not_lt.2 hvalue)
  rw [h.rejects hnone] at hx
  cases hx

end Codec

end Nightfall
