import Mathlib.Data.Fintype.Pi
import Mathlib.Data.List.GetD
import Mathlib.Data.Nat.Digits.Lemmas
import Nightfall.Contract.State
import Nightfall.Evm.Revert
import Nightfall.Trees.PaddedHex

/-!
# Field elements and words

The nodes compute with field elements and the contract with 256-bit words.  A field element is
written as its four 64-bit digits, of which the leading ones may be missing; a word beyond the modulus
fails to convert.  The last two elements of the compressed secrets of a transaction, a coordinate and
a sign, share a word, which goes through a buffer of bytes.

A block survives the way to the contract and back (`block_roundtrip`).
-/

namespace Nightfall

namespace Node

open Evm Trees

/-! ### Words to field elements -/

/-- `FrBn254::try_from`: words up to and including the modulus are converted. -/
def tryFrom (u : U256) : Option Fr254 := if frModulus < u.toNat then none else some (u.toNat : Fr254)

/-- Convert an array of words; the message of the panic if one of them doesn't convert. -/
def convertArray {n : ℕ} (message : String) (words : Fin n → U256) : Except String (Fin n → Fr254) :=
  if ∀ i, (tryFrom (words i)).isSome then .ok fun i => (tryFrom (words i)).getD 0
  else .error message

/-- The ciphertext of a transaction: three words, and the compressed ephemeral key as a coordinate and
a sign. -/
structure CompressedSecrets where
  cipherText : Fin 5 → Fr254
  deriving DecidableEq

/-- `CompressedSecrets::from`: the top bit of the last word is the sign of the point. -/
def CompressedSecrets.ofWords (words : Fin 4 → U256) : Except String CompressedSecrets := do
  let compressedPoint := bytesLE 32 (words 3).toNat
  let topBit : ℕ := compressedPoint.getD 31 0 / 2 ^ 7
  let yCoord : ℕ := Nat.ofDigits 256 compressedPoint - topBit * 2 ^ 255
  let secrets ← convertArray "Conversion from U256 to Fr should never fail"
    ![words 0, words 1, words 2]
  return ⟨![secrets 0, secrets 1, secrets 2, (yCoord : Fr254), (topBit : Fr254)]⟩

/-- A transaction of a block, off the chain. -/
structure OnChainTransaction where
  fee : Fr254
  commitments : Fin 4 → Fr254
  nullifiers : Fin 4 → Fr254
  publicData : CompressedSecrets
  deriving DecidableEq

/-- `OnChainTransaction::from`, which the proposer and the client have alike. -/
def OnChainTransaction.ofContract (ntx : Contract.OnChainTransaction) :
    Except String OnChainTransaction := do
  let fee ← convertArray "Conversion of on-chain fee into field element should never fail"
    ![ntx.fee]
  let commitments ← convertArray
    "Conversion of on-chain commitments into field elements should never fail" ntx.commitments
  -- the message for nullifiers speaks of commitments as well
  let nullifiers ← convertArray
    "Conversion of on-chain commitments into field elements should never fail" ntx.nullifiers
  let publicData ← CompressedSecrets.ofWords ntx.publicData
  return ⟨fee 0, commitments, nullifiers, publicData⟩

/-- A block, off the chain. -/
structure Block where
  commitmentsRoot : Fr254
  nullifiersRoot : Fr254
  commitmentsRootRoot : Fr254
  transactions : List OnChainTransaction
  rollupProof : Bytes
  deriving DecidableEq

/-- How the conversion of a block fails. -/
inductive ConversionFailure
  /-- `ConversionError::Overflow`. -/
  | overflow
  | panic (message : String)
  deriving DecidableEq, Repr

/-- A root, or an error. -/
def convertRoot (u : U256) : Except ConversionFailure Fr254 :=
  (tryFrom u).elim (.error .overflow) .ok

/-- `Block::try_from`. -/
def Block.tryFrom (nblk : Contract.Block) : Except ConversionFailure Block := do
  let commitmentsRoot ← convertRoot nblk.commitmentsRoot
  let nullifiersRoot ← convertRoot nblk.nullifierRoot
  let commitmentsRootRoot ← convertRoot nblk.commitmentsRootRoot
  let transactions ←
    (nblk.transactions.mapM OnChainTransaction.ofContract).mapError ConversionFailure.panic
  return ⟨commitmentsRoot, nullifiersRoot, commitmentsRootRoot, transactions, nblk.rollupProof⟩

/-! ### Field elements to words -/

/-- `Uint256::from`: the 64-bit digits of the element fill an array of four zeros. -/
def uint256 (a : Fr254) : U256 :=
  BitVec.ofNat 256 (Nat.ofDigits (2 ^ 64)
    (List.ofFn fun i : Fin 4 => (Nat.digits (2 ^ 64) a.val).getD i 0))

/-- `to_bytes_le` of a number: no leading zeros, but one byte for zero. -/
def toBytesLE (n : ℕ) : List ℕ := if n = 0 then [0] else Nat.digits 256 n

/-- The words of compressed secrets. -/
def CompressedSecrets.toWords (secrets : CompressedSecrets) : Except String (Fin 4 → U256) :=
  let compressedPoint := (secrets.cipherText 3).val + (secrets.cipherText 4).val * 2 ^ 255
  let bytes := toBytesLE compressedPoint
  if 32 < bytes.length then .error "BigUint is too large to fit in 32 bytes"
  else
    let finalSecret := Nat.ofDigits 256 (bytes ++ List.replicate (32 - bytes.length) 0)
    .ok ![uint256 (secrets.cipherText 0), uint256 (secrets.cipherText 1),
      uint256 (secrets.cipherText 2), BitVec.ofNat 256 finalSecret]

/-- `Nightfall::OnChainTransaction::from`. -/
def OnChainTransaction.toContract (otx : OnChainTransaction) :
    Except String Contract.OnChainTransaction := do
  let publicData ← otx.publicData.toWords
  return ⟨uint256 otx.fee, fun i => uint256 (otx.commitments i), fun i => uint256 (otx.nullifiers i),
    publicData⟩

/-- `Nightfall::Block::from`. -/
def Block.toContract (blk : Block) : Except String Contract.Block := do
  let transactions ← blk.transactions.mapM OnChainTransaction.toContract
  return ⟨uint256 blk.commitmentsRoot, uint256 blk.nullifiersRoot, uint256 blk.commitmentsRootRoot,
    transactions, blk.rollupProof⟩

/-! ### What converts -/

section Conversions

variable {u : U256} {a : Fr254} {message : String}

theorem tryFrom_eq_some : tryFrom u = some a ↔ u.toNat ≤ frModulus ∧ a = (u.toNat : Fr254) := by
  unfold tryFrom
  split_ifs with h
  · exact ⟨fun hnone => (by cases hnone), fun hand => absurd hand.1 h.not_ge⟩
  · rw [Option.some_inj, eq_comm (a := a)]
    exact ⟨fun heq => ⟨not_lt.1 h, heq⟩, fun hand => hand.2⟩

theorem tryFrom_eq_none : tryFrom u = none ↔ frModulus < u.toNat := by
  unfold tryFrom
  split_ifs with h
  · exact ⟨fun _ => h, fun _ => rfl⟩
  · exact ⟨fun hsome => (by cases hsome), fun hlt => absurd hlt h⟩

/-- The field element of a word. -/
def element (u : U256) : Fr254 := (u.toNat : Fr254)

/-- All words are at most the modulus. -/
def Converts {n : ℕ} (words : Fin n → U256) : Prop := ∀ i, (words i).toNat ≤ frModulus

theorem convertArray_eq_ok {n : ℕ} {words : Fin n → U256} {as : Fin n → Fr254} :
    convertArray message words = .ok as ↔ Converts words ∧ as = fun i => element (words i) := by
  have hsome : ∀ i, (tryFrom (words i)).isSome ↔ (words i).toNat ≤ frModulus := by
    intro i
    rw [← not_lt, ← tryFrom_eq_none, ← Option.not_isSome_iff_eq_none, not_not]
  unfold convertArray
  split_ifs with h
  · have hall : Converts words := fun i => (hsome i).1 (h i)
    have heq : (fun i => (tryFrom (words i)).getD 0) = fun i => element (words i) := by
      funext i
      rw [tryFrom_eq_some.2 ⟨hall i, rfl⟩]
      rfl
    rw [heq]
    constructor
    · rintro ⟨⟩
      exact ⟨hall, rfl⟩
    · rintro ⟨-, rfl⟩
      rfl
  · constructor
    · intro herror
      cases herror
    · rintro ⟨hall, -⟩
      exact absurd (fun i => (hsome i).2 (hall i)) h

/-- The ciphertext that words convert to. -/
def CompressedSecrets.converted (words : Fin 4 → U256) : CompressedSecrets :=
  ⟨![element (words 0), element (words 1), element (words 2),
    (((words 3).toNat % 2 ^ 255 : ℕ) : Fr254), (((words 3).toNat / 2 ^ 255 : ℕ) : Fr254)]⟩

theorem ofDigits_bytesLE (n x : ℕ) : Nat.ofDigits 256 (bytesLE n x) = x % 256 ^ n := by
  induction n generalizing x with
  | zero => rw [bytesLE, Nat.ofDigits_nil, pow_zero, Nat.mod_one]
  | succ n ih => rw [bytesLE, Nat.ofDigits_cons, ih, pow_succ', Nat.mod_mul]

theorem getD_bytesLE {n i : ℕ} (x : ℕ) (hi : i < n) :
    (bytesLE n x).getD i 0 = x / 256 ^ i % 256 := by
  induction n generalizing x i with
  | zero => exact absurd hi (Nat.not_lt_zero i)
  | succ n ih =>
    cases i with
    | zero => rw [bytesLE, List.getD_cons_zero, pow_zero, Nat.div_one]
    | succ i =>
      rw [bytesLE, List.getD_cons_succ, ih _ (Nat.lt_of_succ_lt_succ hi), Nat.div_div_eq_div_mul,
        pow_succ']

/-- The words of the ciphertext that have to convert. -/
def secretWords (words : Fin 4 → U256) : Fin 3 → U256 := ![words 0, words 1, words 2]

theorem CompressedSecrets.ofWords_eq_ok {words : Fin 4 → U256} {secrets : CompressedSecrets} :
    CompressedSecrets.ofWords words = .ok secrets ↔
      Converts (secretWords words) ∧ secrets = .converted words := by
  have hlt : (words 3).toNat < 2 ^ 256 := (words 3).isLt
  have htop : (bytesLE 32 (words 3).toNat).getD 31 0 / 2 ^ 7 = (words 3).toNat / 2 ^ 255 := by
    rw [getD_bytesLE _ (by omega)]
    omega
  have hpoint : Nat.ofDigits 256 (bytesLE 32 (words 3).toNat) = (words 3).toNat := by
    rw [ofDigits_bytesLE, Nat.mod_eq_of_lt (by rwa [show 256 ^ 32 = 2 ^ 256 by norm_num])]
  have hy : (words 3).toNat - (words 3).toNat / 2 ^ 255 * 2 ^ 255 = (words 3).toNat % 2 ^ 255 := by
    omega
  rw [ofWords]
  simp only [htop, hpoint, hy, bind_eq_ok, convertArray_eq_ok]
  constructor
  · rintro ⟨_, ⟨hall, rfl⟩, h⟩
    exact ⟨hall, (pure_eq_ok.1 h).symm⟩
  · rintro ⟨hall, rfl⟩
    exact ⟨_, ⟨hall, rfl⟩, rfl⟩

/-- All words of a transaction convert; the last word of the public data always does. -/
structure TransactionConverts (ntx : Contract.OnChainTransaction) : Prop where
  fee : ntx.fee.toNat ≤ frModulus
  commitments : Converts ntx.commitments
  nullifiers : Converts ntx.nullifiers
  publicData : Converts (secretWords ntx.publicData)

/-- The transaction that words convert to. -/
def OnChainTransaction.converted (ntx : Contract.OnChainTransaction) : OnChainTransaction where
  fee := element ntx.fee
  commitments i := element (ntx.commitments i)
  nullifiers i := element (ntx.nullifiers i)
  publicData := .converted ntx.publicData

theorem OnChainTransaction.ofContract_eq_ok (ntx : Contract.OnChainTransaction)
    (tx : OnChainTransaction) :
    OnChainTransaction.ofContract ntx = .ok tx ↔ TransactionConverts ntx ∧ tx = .converted ntx := by
  simp only [ofContract, bind_eq_ok, convertArray_eq_ok, CompressedSecrets.ofWords_eq_ok]
  constructor
  · rintro ⟨_, ⟨hfee, rfl⟩, _, ⟨hcommitments, rfl⟩, _, ⟨hnullifiers, rfl⟩, _, ⟨hdata, rfl⟩, h⟩
    exact ⟨⟨hfee 0, hcommitments, hnullifiers, hdata⟩, (pure_eq_ok.1 h).symm⟩
  · rintro ⟨h, rfl⟩
    have hfee : Converts ![ntx.fee] := by
      intro i
      rw [Matrix.cons_val_fin_one]
      exact h.fee
    exact ⟨_, ⟨hfee, rfl⟩, _, ⟨h.commitments, rfl⟩, _, ⟨h.nullifiers, rfl⟩, _,
      ⟨h.publicData, rfl⟩, rfl⟩

/-- All transactions of a block convert, or it panics. -/
theorem mapM_ofContract_eq_ok {ntxs : List Contract.OnChainTransaction}
    {txs : List OnChainTransaction} :
    ntxs.mapM OnChainTransaction.ofContract = .ok txs ↔
      (∀ ntx ∈ ntxs, TransactionConverts ntx) ∧ txs = ntxs.map .converted :=
  mapM_eq_ok OnChainTransaction.ofContract_eq_ok

end Conversions

/-! ### The way to the contract and back -/

theorem length_digits_le {b k n : ℕ} (hb : 1 < b) (h : n < b ^ k) : (Nat.digits b n).length ≤ k :=
  (Nat.digits_length_le_iff hb n).2 h

/-- Digits that fill an array. -/
theorem ofDigits_ofFn_getD (b : ℕ) {k : ℕ} {l : List ℕ} (hl : l.length ≤ k) :
    Nat.ofDigits b (List.ofFn fun i : Fin k => l.getD i 0) = Nat.ofDigits b l := by
  have hfill : (List.ofFn fun i : Fin k => l.getD i 0) = l ++ List.replicate (k - l.length) 0 := by
    refine List.ext_getElem ?_ fun i hi hi' => ?_
    · rw [List.length_ofFn, List.length_append, List.length_replicate]
      omega
    · rw [List.getElem_ofFn]
      by_cases hlt : i < l.length
      · rw [List.getElem_append_left hlt, List.getD_eq_getElem _ _ hlt]
      · rw [List.getElem_append_right (not_lt.1 hlt), List.getElem_replicate,
          List.getD_eq_default _ _ (not_lt.1 hlt)]
  rw [hfill, Nat.ofDigits_append_replicate_zero]

theorem val_lt_two_pow (a : Fr254) : a.val < 2 ^ 254 :=
  (ZMod.val_lt a).trans (by norm_num [frModulus])

/-- **No digit is lost.** -/
theorem toNat_uint256 (a : Fr254) : (uint256 a).toNat = a.val := by
  have ha := val_lt_two_pow a
  rw [uint256, ofDigits_ofFn_getD _ (length_digits_le (by norm_num) (ha.trans (by norm_num))),
    Nat.ofDigits_digits, BitVec.toNat_ofNat, Nat.mod_eq_of_lt (ha.trans (by norm_num))]

theorem uint256_le (a : Fr254) : (uint256 a).toNat ≤ frModulus := by
  rw [toNat_uint256]
  exact (ZMod.val_lt a).le

@[simp] theorem element_uint256 (a : Fr254) : element (uint256 a) = a := by
  rw [element, toNat_uint256, ZMod.natCast_zmod_val]

/-- The fifth element is a sign. -/
def CompressedSecrets.HasFlag (secrets : CompressedSecrets) : Prop :=
  secrets.cipherText 4 = 0 ∨ secrets.cipherText 4 = 1

/-- The number in the last word: a coordinate and a sign. -/
def CompressedSecrets.packed (secrets : CompressedSecrets) : ℕ :=
  (secrets.cipherText 3).val + (secrets.cipherText 4).val * 2 ^ 255

theorem CompressedSecrets.HasFlag.val_le {secrets : CompressedSecrets} (h : secrets.HasFlag) :
    (secrets.cipherText 4).val ≤ 1 := by
  rcases h with h | h
  · rw [h, ZMod.val_zero]
    exact Nat.zero_le 1
  · rw [h]
    exact ZMod.val_one'' (by norm_num [frModulus]) |>.le

theorem length_toBytesLE {n : ℕ} (h : n < 2 ^ 256) : (toBytesLE n).length ≤ 32 := by
  unfold toBytesLE
  split_ifs
  · exact Nat.le_of_ble_eq_true rfl
  · exact length_digits_le (by norm_num) (by rwa [show 256 ^ 32 = 2 ^ 256 by norm_num])

theorem ofDigits_toBytesLE (n : ℕ) : Nat.ofDigits 256 (toBytesLE n) = n := by
  unfold toBytesLE
  split_ifs with h
  · rw [h]
    rfl
  · exact Nat.ofDigits_digits 256 n

theorem CompressedSecrets.packed_lt {secrets : CompressedSecrets} (h : secrets.HasFlag) :
    secrets.packed < 2 ^ 256 := by
  have hy := val_lt_two_pow (secrets.cipherText 3)
  have hflag := h.val_le
  unfold packed
  omega

/-- The words of compressed secrets with a sign. -/
theorem CompressedSecrets.toWords_eq {secrets : CompressedSecrets} (h : secrets.HasFlag) :
    secrets.toWords = .ok ![uint256 (secrets.cipherText 0), uint256 (secrets.cipherText 1),
      uint256 (secrets.cipherText 2), BitVec.ofNat 256 secrets.packed] := by
  rw [toWords]
  dsimp only
  rw [← packed, if_neg (length_toBytesLE (packed_lt h)).not_gt,
    Nat.ofDigits_append_replicate_zero, ofDigits_toBytesLE]

/-- A word with a coordinate and a sign converts to both. -/
theorem CompressedSecrets.converted_packed {secrets : CompressedSecrets} (h : secrets.HasFlag)
    {w : U256} (hw : w.toNat = secrets.packed) :
    CompressedSecrets.converted ![uint256 (secrets.cipherText 0), uint256 (secrets.cipherText 1),
      uint256 (secrets.cipherText 2), w] = secrets := by
  have hy := val_lt_two_pow (secrets.cipherText 3)
  have hflag := h.val_le
  have hmod : secrets.packed % 2 ^ 255 = (secrets.cipherText 3).val := by
    unfold packed
    omega
  have hdiv : secrets.packed / 2 ^ 255 = (secrets.cipherText 4).val := by
    unfold packed
    omega
  have hcoord : ((w.toNat % 2 ^ 255 : ℕ) : Fr254) = secrets.cipherText 3 := by
    rw [hw, hmod, ZMod.natCast_zmod_val]
  have hsign : ((w.toNat / 2 ^ 255 : ℕ) : Fr254) = secrets.cipherText 4 := by
    rw [hw, hdiv, ZMod.natCast_zmod_val]
  obtain ⟨cipherText⟩ := secrets
  refine congrArg CompressedSecrets.mk (funext fun i => ?_)
  fin_cases i
  · exact element_uint256 _
  · exact element_uint256 _
  · exact element_uint256 _
  · exact hcoord
  · exact hsign

/-- **The packing is undone.** -/
theorem CompressedSecrets.ofWords_toWords {secrets : CompressedSecrets} (h : secrets.HasFlag) :
    ∃ words, secrets.toWords = .ok words ∧ (words 3).toNat = secrets.packed ∧
      CompressedSecrets.ofWords words = .ok secrets := by
  have hword : (BitVec.ofNat 256 secrets.packed).toNat = secrets.packed := by
    rw [BitVec.toNat_ofNat, Nat.mod_eq_of_lt (packed_lt h)]
  refine ⟨_, toWords_eq h, hword, ofWords_eq_ok.2 ⟨?_, (converted_packed h hword).symm⟩⟩
  intro i
  fin_cases i
  · exact uint256_le _
  · exact uint256_le _
  · exact uint256_le _

/-- What the contract gets of a transaction. -/
structure OnChainTransaction.SentAs (otx : OnChainTransaction) (ntx : Contract.OnChainTransaction) :
    Prop where
  toContract : otx.toContract = .ok ntx
  ofContract : OnChainTransaction.ofContract ntx = .ok otx
  packed : (ntx.publicData 3).toNat =
    (otx.publicData.cipherText 3).val + (otx.publicData.cipherText 4).val * 2 ^ 255

theorem OnChainTransaction.exists_sentAs {otx : OnChainTransaction} (h : otx.publicData.HasFlag) :
    ∃ ntx, otx.SentAs ntx := by
  obtain ⟨words, hto, hpacked, hof⟩ := CompressedSecrets.ofWords_toWords h
  obtain ⟨hconverts, hsecrets⟩ := CompressedSecrets.ofWords_eq_ok.1 hof
  refine ⟨⟨uint256 otx.fee, fun i => uint256 (otx.commitments i), fun i => uint256 (otx.nullifiers i),
    words⟩, ?_, ?_, hpacked⟩
  · rw [OnChainTransaction.toContract, hto]
    rfl
  · refine (ofContract_eq_ok _ _).2
      ⟨⟨uint256_le _, fun _ => uint256_le _, fun _ => uint256_le _, hconverts⟩, ?_⟩
    simp only [converted, element_uint256, ← hsecrets]

/-- The transactions of a block, one by one. -/
theorem exists_sentAs_all {otxs : List OnChainTransaction}
    (h : ∀ otx ∈ otxs, otx.publicData.HasFlag) :
    ∃ ntxs, otxs.mapM OnChainTransaction.toContract = .ok ntxs ∧
      ntxs.mapM OnChainTransaction.ofContract = .ok otxs ∧
      List.Forall₂ OnChainTransaction.SentAs otxs ntxs := by
  induction otxs with
  | nil => exact ⟨[], rfl, rfl, .nil⟩
  | cons otx otxs ih =>
    rw [List.forall_mem_cons] at h
    obtain ⟨ntx, hone⟩ := OnChainTransaction.exists_sentAs h.1
    obtain ⟨ntxs, hto, hof, hall⟩ := ih h.2
    refine ⟨ntx :: ntxs, ?_, ?_, .cons hone hall⟩
    · rw [List.mapM_cons, hone.toContract, hto]
      rfl
    · rw [List.mapM_cons, hone.ofContract, hof]
      rfl

/-- The signs of all transactions are zero or one. -/
def Block.HasFlags (blk : Block) : Prop := ∀ tx ∈ blk.transactions, tx.publicData.HasFlag

theorem convertRoot_uint256 (a : Fr254) : convertRoot (uint256 a) = .ok a := by
  have hsome : Node.tryFrom (uint256 a) = some a := by
    rw [tryFrom_eq_some]
    exact ⟨uint256_le a, (element_uint256 a).symm⟩
  rw [convertRoot, hsome]
  rfl

theorem Block.exists_toContract {blk : Block} (h : blk.HasFlags) :
    ∃ nblk, blk.toContract = .ok nblk ∧ Block.tryFrom nblk = .ok blk ∧
      List.Forall₂ OnChainTransaction.SentAs blk.transactions nblk.transactions := by
  obtain ⟨ntxs, hto, hof, hall⟩ := exists_sentAs_all h
  refine ⟨⟨uint256 blk.commitmentsRoot, uint256 blk.nullifiersRoot, uint256 blk.commitmentsRootRoot,
    ntxs, blk.rollupProof⟩, ?_, ?_, hall⟩
  · rw [toContract, hto]
    rfl
  · simp only [tryFrom, convertRoot_uint256, hof]
    rfl

/-- **The wire format of blocks.**  A block whose signs are zero or one is converted for the contract
and back without a change; the coordinate and the sign of a transaction share the last word.  So
distinct blocks are distinct for the contract. -/
theorem block_roundtrip {blk : Block} (h : blk.HasFlags) :
    ∃ nblk, blk.toContract = .ok nblk ∧ Block.tryFrom nblk = .ok blk ∧
      List.Forall₂ OnChainTransaction.SentAs blk.transactions nblk.transactions ∧
      ∀ other : Block, other.HasFlags → other ≠ blk →
        ∃ nother, other.toContract = .ok nother ∧ nother ≠ nblk := by
  obtain ⟨nblk, hto, hof, hall⟩ := Block.exists_toContract h
  refine ⟨nblk, hto, hof, hall, fun other hother hne => ?_⟩
  obtain ⟨nother, hto', hof', -⟩ := Block.exists_toContract hother
  refine ⟨nother, hto', ?_⟩
  rintro rfl
  rw [hof] at hof'
  exact hne (Except.ok.inj hof').symm

/-- A block with extreme values. -/
def sampleBlock : Block where
  commitmentsRoot := -1
  nullifiersRoot := 0
  commitmentsRootRoot := 1
  transactions := [⟨0, ![-1, 0, 1, 0], ![0, -1, 0, 1], ⟨![0, -1, 1, -1, 1]⟩⟩,
    ⟨-1, 0, 0, ⟨![0, 0, 0, 0, 0]⟩⟩]
  rollupProof := [255, 0]

theorem block_roundtrip_sample :
    ∃ nblk, sampleBlock.toContract = .ok nblk ∧ Block.tryFrom nblk = .ok sampleBlock := by
  have h : sampleBlock.HasFlags := by
    intro tx htx
    rcases List.mem_cons.1 htx with rfl | htx
    · exact .inr rfl
    · rw [List.mem_singleton.1 htx]
      exact .inl rfl
  obtain ⟨nblk, hto, hof, -⟩ := block_roundtrip h
  exact ⟨nblk, hto, hof⟩

end Node

end Nightfall
