import Nightfall.Contract.State
import Nightfall.Merkle.Fold
import Mathlib.Data.List.GetD
import Mathlib.Data.Fin.VecNotation
import Mathlib.Tactic.NormNum

/-!
# The public hash of a block

`propose_block` hashes every transaction, folds the hashes in place and passes entry 0 of the
array to the verifier.  The rounds of the fold drop the last entry of an odd length, while the
loop that processes the transactions runs over all of them.

* `publicHash_eq_treeRoot` : the public hash is the root over the first `2 ^ log₂ n` transactions;
* `boundByProof_iff` : **the hash binds all `n` transactions exactly if `n` is a power of two**;
* `forged_withdraw` : a block of 65 transactions with a withdraw that the proof does not cover.
-/

namespace Nightfall

namespace Contract

open Evm Merkle

/-- The twelve words that `hash_transaction` hashes. -/
def OnChainTransaction.words (txn : OnChainTransaction) : List U256 :=
  List.ofFn txn.commitments ++ List.ofFn txn.nullifiers ++ List.ofFn txn.publicData

/-- `hash_transaction`. -/
def hashTransaction (sha256 : Bytes → U256) (txn : OnChainTransaction) : U256 :=
  sha256AndShift sha256 (abiEncode txn.words)

/-- The hash of two entries of the array. -/
def hashPair (sha256 : Bytes → U256) (l r : U256) : U256 :=
  sha256AndShift sha256 (abiEncode [l, r])

/-- The array `transaction_hashes`; its length is that of `txs`. -/
def transactionHashes (sha256 : Bytes → U256) (txs : List OnChainTransaction) (i : ℕ) : U256 :=
  (txs.map (hashTransaction sha256)).getD i 0

/-- `transaction_hashes[0]` after the rounds; reverts for the empty array. -/
def publicHash (sha256 : Bytes → U256) (txs : List OnChainTransaction) : Option U256 :=
  if txs.length = 0 then none
  else some (foldRounds (hashPair sha256) txs.length (transactionHashes sha256 txs) 0)

/-- The byte strings that are hashed for the public hash. -/
def publicHashInputs (sha256 : Bytes → U256) (txs : List OnChainTransaction) : Set Bytes :=
  {bs | ∃ txn ∈ txs, bs = abiEncode txn.words} ∪
    {bs | ∃ q ∈ foldPairs (hashPair sha256) txs.length (transactionHashes sha256 txs),
      bs = abiEncode [q.1, q.2]}

/-- The two transactions have the same commitments, nullifiers and public data. -/
def OnChainTransaction.Agree (t u : OnChainTransaction) : Prop :=
  t.commitments = u.commitments ∧ t.nullifiers = u.nullifiers ∧ t.publicData = u.publicData

/-- Blocks of `n` transactions are bound by their public hash: if two have the same public hash,
where `sha256_and_shift` has no collision among the strings hashed for them, they agree at every
index. -/
def BoundByProof (n : ℕ) : Prop :=
  ∀ (sha256 : Bytes → U256) (txs txs' : List OnChainTransaction), txs.length = n →
    txs'.length = n →
    Set.InjOn (sha256AndShift sha256) (publicHashInputs sha256 txs ∪ publicHashInputs sha256 txs') →
    publicHash sha256 txs = publicHash sha256 txs' →
    List.Forall₂ OnChainTransaction.Agree txs txs'

theorem OnChainTransaction.agree_of_words {t u : OnChainTransaction} (h : t.words = u.words) :
    t.Agree u := by
  obtain ⟨h₁, h₂⟩ := List.append_inj h (by simp)
  obtain ⟨h₃, h₄⟩ := List.append_inj h₁ (by simp)
  exact ⟨List.ofFn_injective h₃, List.ofFn_injective h₄, List.ofFn_injective h₂⟩

/-- The public hash is the root over the first `2 ^ log₂ n` transactions. -/
theorem publicHash_eq_treeRoot {sha256 : Bytes → U256} {txs : List OnChainTransaction}
    (h : txs.length ≠ 0) : publicHash sha256 txs =
      some (treeRoot (hashPair sha256) (Nat.log 2 txs.length) (transactionHashes sha256 txs)) := by
  rw [publicHash, if_neg h, foldRounds_zero (Nat.pos_of_ne_zero h)]

theorem transactionHashes_of_lt {sha256 : Bytes → U256} {txs : List OnChainTransaction} {i : ℕ}
    (hi : i < txs.length) : transactionHashes sha256 txs i = hashTransaction sha256 txs[i] := by
  simp [transactionHashes, hi]

/-! ### Powers of two -/

theorem collisionFree_hashPair {sha256 : Bytes → U256} {D : Set (U256 × U256)} {S : Set Bytes}
    (hS : Set.InjOn (sha256AndShift sha256) S) (hD : ∀ q ∈ D, abiEncode [q.1, q.2] ∈ S) :
    CollisionFree (hashPair sha256) D := by
  rintro ⟨a, b⟩ hab ⟨c, d⟩ hcd he
  have henc := abiEncode_injective (hS (hD _ hab) (hD _ hcd) he)
  simpa using henc

/-- Lists of the same length agree as far as their public hash reaches. -/
theorem agree_of_publicHash_eq {sha256 : Bytes → U256} {txs txs' : List OnChainTransaction}
    (hlen : txs.length = txs'.length) (hne : txs.length ≠ 0)
    (hinj : Set.InjOn (sha256AndShift sha256)
      (publicHashInputs sha256 txs ∪ publicHashInputs sha256 txs'))
    (heq : publicHash sha256 txs = publicHash sha256 txs') :
    ∀ i, (hi : i < txs.length) → (hi' : i < txs'.length) → i < 2 ^ Nat.log 2 txs.length →
      OnChainTransaction.Agree txs[i] txs'[i] := by
  have hne' : txs'.length ≠ 0 := hlen ▸ hne
  rw [publicHash_eq_treeRoot hne, publicHash_eq_treeRoot hne', ← hlen, Option.some.injEq] at heq
  have htree := treePairs_subset_foldPairs (h := hashPair sha256) (Nat.pos_of_ne_zero hne)
    (transactionHashes sha256 txs)
  have htree' := treePairs_subset_foldPairs (h := hashPair sha256) (Nat.pos_of_ne_zero hne')
    (transactionHashes sha256 txs')
  rw [← hlen] at htree'
  have hpairs : ∀ q ∈ treePairs (hashPair sha256) (Nat.log 2 txs.length)
      (transactionHashes sha256 txs) ∪ treePairs (hashPair sha256) (Nat.log 2 txs.length)
      (transactionHashes sha256 txs'),
      abiEncode [q.1, q.2] ∈ publicHashInputs sha256 txs ∪ publicHashInputs sha256 txs' := by
    rintro q (hq | hq)
    · exact Or.inl (Or.inr ⟨q, htree hq, rfl⟩)
    · exact Or.inr (Or.inr ⟨q, hlen ▸ htree' hq, rfl⟩)
  have hleaves := treeRoot_inj (collisionFree_hashPair hinj hpairs) Set.subset_union_left
    Set.subset_union_right heq
  intro i hi hi' hi2
  have he := hleaves i hi2
  rw [transactionHashes_of_lt hi, transactionHashes_of_lt hi'] at he
  refine OnChainTransaction.agree_of_words (abiEncode_injective (hinj ?_ ?_ he))
  · exact Or.inl (Or.inl ⟨_, List.getElem_mem hi, rfl⟩)
  · exact Or.inr (Or.inl ⟨_, List.getElem_mem hi', rfl⟩)

theorem boundByProof_two_pow (k : ℕ) : BoundByProof (2 ^ k) := by
  intro sha256 txs txs' hlen hlen' hinj heq
  have hne : txs.length ≠ 0 := by rw [hlen]; exact (Nat.two_pow_pos k).ne'
  refine List.forall₂_iff_get.2 ⟨hlen.trans hlen'.symm, fun i hi hi' => ?_⟩
  refine agree_of_publicHash_eq (hlen.trans hlen'.symm) hne hinj heq i hi hi' ?_
  rwa [hlen, Nat.log_pow one_lt_two, ← hlen]

/-! ### Other lengths

For a length that is not a power of two, take a block of equal transactions `t` and exchange the
last one for `u`.  `rowHash` has no collision among the strings hashed for the two blocks: it
numbers the entries of row `l` by `2 l`, and by `2 l + 1` where the exchange is seen. -/

/-- A hash that numbers the rows of a block of transactions `t`, the last of which may be `u`. -/
def rowHash (t u : OnChainTransaction) (bs : Bytes) : U256 :=
  if bs = abiEncode t.words then 0
  else if bs = abiEncode u.words then BitVec.ofNat 256 1 <<< 4
  else (fromBytesBE (bs.drop 32) + 2) <<< 4

/-- The entries of row `l`: `d` is 1 where the exchange is seen. -/
def rowEntry (l d : ℕ) : U256 := BitVec.ofNat 256 (2 * l + d)

/-- Row `l` of length `m`: only its last entry may see the exchange. -/
def IsRow (l m : ℕ) (f : ℕ → U256) : Prop :=
  ∀ i < m, f i = rowEntry l 0 ∨ (i + 1 = m ∧ f i = rowEntry l 1)

/-- The strings hashed for the blocks. -/
def rowInputs (t u : OnChainTransaction) : Set Bytes :=
  {abiEncode t.words, abiEncode u.words} ∪
    {bs | ∃ l ≤ 256, ∃ d ≤ 1, bs = abiEncode [rowEntry l 0, rowEntry l d]}

theorem length_words (t : OnChainTransaction) : t.words.length = 12 := by
  simp [OnChainTransaction.words]

theorem rowEntry_inj {l d l' d' : ℕ} (hl : l ≤ 257) (hl' : l' ≤ 257) (hd : d ≤ 1) (hd' : d' ≤ 1)
    (h : rowEntry l d = rowEntry l' d') : l = l' ∧ d = d' := by
  have hnat := congrArg BitVec.toNat h
  simp only [rowEntry, BitVec.toNat_ofNat] at hnat
  rw [Nat.mod_eq_of_lt (by omega), Nat.mod_eq_of_lt (by omega)] at hnat
  omega

theorem shiftLeft_shiftRight_four {x : U256} (h : x.toNat < 2 ^ 252) : (x <<< 4) >>> 4 = x := by
  apply BitVec.eq_of_toNat_eq
  rw [BitVec.toNat_ushiftRight, BitVec.toNat_shiftLeft, Nat.shiftLeft_eq,
    Nat.mod_eq_of_lt (by omega), Nat.shiftRight_eq_div_pow, Nat.mul_div_cancel _ (by norm_num)]

section RowHash

variable {t u : OnChainTransaction}

theorem rowHash_t : sha256AndShift (rowHash t u) (abiEncode t.words) = rowEntry 0 0 := by
  simp [sha256AndShift, rowHash, rowEntry]

theorem rowHash_u (h : t.words ≠ u.words) :
    sha256AndShift (rowHash t u) (abiEncode u.words) = rowEntry 0 1 := by
  rw [sha256AndShift, rowHash, if_neg fun he => h (abiEncode_injective he).symm, if_pos rfl,
    shiftLeft_shiftRight_four (by simp)]
  rfl

theorem rowHash_pair {l d : ℕ} (hl : l ≤ 256) (hd : d ≤ 1) (x : U256) :
    sha256AndShift (rowHash t u) (abiEncode [x, rowEntry l d]) = rowEntry (l + 1) d := by
  have hne : ∀ v : OnChainTransaction, abiEncode [x, rowEntry l d] ≠ abiEncode v.words := by
    intro v he
    have hlen := congrArg List.length he
    rw [length_abiEncode, length_abiEncode, length_words] at hlen
    simp at hlen
  have hdrop : (abiEncode [x, rowEntry l d]).drop 32 = toBytesBE (rowEntry l d) := by
    simp [abiEncode]
  have hadd : rowEntry l d + 2 = rowEntry (l + 1) d := by
    apply BitVec.eq_of_toNat_eq
    have htwo : (2 : U256).toNat = 2 := rfl
    simp only [rowEntry, BitVec.toNat_add, BitVec.toNat_ofNat, htwo]
    omega
  rw [sha256AndShift, rowHash, if_neg (hne t), if_neg (hne u), hdrop, fromBytesBE_toBytesBE, hadd,
    shiftLeft_shiftRight_four]
  simp only [rowEntry, BitVec.toNat_ofNat]
  omega

theorem IsRow.layer {l m : ℕ} {f : ℕ → U256} (hf : IsRow l m f) (hl : l ≤ 256) :
    IsRow (l + 1) (m / 2) (layer (hashPair (rowHash t u)) f) := by
  intro i hi
  rw [Merkle.layer, hashPair]
  rcases hf (2 * i + 1) (by omega) with h | ⟨hlast, h⟩
  · exact Or.inl (by rw [h, rowHash_pair hl (by omega)])
  · exact Or.inr ⟨by omega, by rw [h, rowHash_pair hl le_rfl]⟩

theorem foldPairs_subset_rowInputs {l m : ℕ} {f : ℕ → U256} (hf : IsRow l m f)
    (hl : l + Nat.log 2 m ≤ 256) : ∀ q ∈ foldPairs (hashPair (rowHash t u)) m f,
      abiEncode [q.1, q.2] ∈ rowInputs t u := by
  induction m using Nat.strong_induction_on generalizing l f with
  | _ m ih =>
    by_cases hm : 1 < m
    · rw [log_of_one_lt hm] at hl
      rw [foldPairs_of_lt hm]
      rintro q (⟨i, hi, rfl⟩ | hq)
      · have h0 : f (2 * i) = rowEntry l 0 :=
          (hf (2 * i) (by omega)).resolve_right fun h => by omega
        refine Or.inr ⟨l, by omega, ?_⟩
        rcases hf (2 * i + 1) (by omega) with h | ⟨-, h⟩
        · exact ⟨0, by omega, by rw [h0, h]⟩
        · exact ⟨1, le_rfl, by rw [h0, h]⟩
      · exact ih (m / 2) (by omega) (hf.layer (by omega)) (by omega) q hq
    · rw [foldPairs_of_le (by omega)]
      exact fun q hq => absurd hq (Set.notMem_empty q)

theorem injOn_rowInputs (h : t.words ≠ u.words) :
    Set.InjOn (sha256AndShift (rowHash t u)) (rowInputs t u) := by
  -- every string has a number of its own
  have hcode : ∀ bs ∈ rowInputs t u, ∃ l ≤ 257, ∃ d ≤ 1,
      sha256AndShift (rowHash t u) bs = rowEntry l d ∧
        bs = if l = 0 then abiEncode (if d = 0 then t.words else u.words)
          else abiEncode [rowEntry (l - 1) 0, rowEntry (l - 1) d] := by
    rintro bs ((rfl | rfl) | ⟨l, hl, d, hd, rfl⟩)
    · exact ⟨0, by omega, 0, by omega, rowHash_t, by simp⟩
    · exact ⟨0, by omega, 1, le_rfl, rowHash_u h, by simp⟩
    · exact ⟨l + 1, by omega, d, hd, rowHash_pair hl hd _, by simp⟩
  intro a ha b hb he
  obtain ⟨l, hl, d, hd, hla, rfl⟩ := hcode a ha
  obtain ⟨l', hl', d', hd', hlb, rfl⟩ := hcode b hb
  obtain ⟨rfl, rfl⟩ := rowEntry_inj hl hl' hd hd' (hla.symm.trans (he.trans hlb))
  rfl

theorem isRow_transactionHashes {txs : List OnChainTransaction} (h : t.words ≠ u.words)
    (htxs : ∀ i, (hi : i < txs.length) → txs[i] = t ∨ (i + 1 = txs.length ∧ txs[i] = u)) :
    IsRow 0 txs.length (transactionHashes (rowHash t u) txs) := by
  intro i hi
  rw [transactionHashes_of_lt hi, hashTransaction]
  rcases htxs i hi with he | ⟨hlast, he⟩
  · exact Or.inl (by rw [he, rowHash_t])
  · exact Or.inr ⟨hlast, by rw [he, rowHash_u h]⟩

theorem publicHashInputs_subset {txs : List OnChainTransaction} (h : t.words ≠ u.words)
    (hlen : Nat.log 2 txs.length ≤ 256)
    (htxs : ∀ i, (hi : i < txs.length) → txs[i] = t ∨ (i + 1 = txs.length ∧ txs[i] = u)) :
    publicHashInputs (rowHash t u) txs ⊆ rowInputs t u := by
  rintro bs (⟨txn, htxn, rfl⟩ | ⟨q, hq, rfl⟩)
  · obtain ⟨i, hi, rfl⟩ := List.mem_iff_getElem.1 htxn
    rcases htxs i hi with he | ⟨-, he⟩
    · exact Or.inl (Or.inl (by rw [he]))
    · exact Or.inl (Or.inr (by rw [he]; rfl))
  · exact foldPairs_subset_rowInputs (isRow_transactionHashes h htxs) (by omega) q hq

end RowHash

/-- A block of `n` transactions `t`, but for the last, which is `v`. -/
def exchanged (n : ℕ) (t v : OnChainTransaction) : List OnChainTransaction :=
  List.replicate (n - 1) t ++ [v]

theorem length_exchanged {n : ℕ} (hn : 0 < n) (t v : OnChainTransaction) :
    (exchanged n t v).length = n := by
  simp only [exchanged, List.length_append, List.length_replicate, List.length_singleton]
  omega

theorem getElem_exchanged {n : ℕ} (hn : 0 < n) {t v : OnChainTransaction} {i : ℕ}
    (hi : i < (exchanged n t v).length) : (exchanged n t v)[i] = if i + 1 = n then v else t := by
  rw [length_exchanged hn] at hi
  simp only [exchanged, List.getElem_append, List.length_replicate]
  split_ifs with h₁ h₂ h₂
  · omega
  · exact List.getElem_replicate ..
  · exact List.getElem_singleton ..
  · omega

/-- The last transaction of a block whose length is not a power of two can be exchanged. -/
theorem exchange_last {n : ℕ} (hn : 2 ^ Nat.log 2 n < n) (hlt : n < 2 ^ 256)
    {t u : OnChainTransaction} (h : t.words ≠ u.words) :
    Set.InjOn (sha256AndShift (rowHash t u)) (publicHashInputs (rowHash t u) (exchanged n t t) ∪
        publicHashInputs (rowHash t u) (exchanged n t u)) ∧
      publicHash (rowHash t u) (exchanged n t t) = publicHash (rowHash t u) (exchanged n t u) := by
  have hpos : 0 < n := (Nat.zero_le _).trans_lt hn
  have hlog : Nat.log 2 n ≤ 256 := (Nat.log_lt_of_lt_pow hpos.ne' hlt).le
  constructor
  · refine (injOn_rowInputs h).mono (Set.union_subset ?_ ?_)
    · refine publicHashInputs_subset h (by rwa [length_exchanged hpos]) fun i hi => Or.inl ?_
      rw [getElem_exchanged hpos, ite_self]
    · refine publicHashInputs_subset h (by rwa [length_exchanged hpos]) fun i hi => ?_
      rw [getElem_exchanged hpos, length_exchanged hpos]
      by_cases hi' : i + 1 = n <;> simp [hi']
  · have hne : n ≠ 0 := hpos.ne'
    rw [publicHash, publicHash, length_exchanged hpos, length_exchanged hpos, if_neg hne,
      if_neg hne, Option.some.injEq]
    refine foldRounds_congr hpos fun i hi => ?_
    have hin : i < n := hi.trans hn
    have hlast : i + 1 ≠ n := by omega
    rw [transactionHashes_of_lt (by rwa [length_exchanged hpos]),
      transactionHashes_of_lt (by rwa [length_exchanged hpos]), getElem_exchanged hpos,
      getElem_exchanged hpos, if_neg hlast, if_neg hlast]

theorem not_agree_exchanged {n : ℕ} (hn : 0 < n) {t u : OnChainTransaction} (h : ¬t.Agree u) :
    ¬List.Forall₂ OnChainTransaction.Agree (exchanged n t t) (exchanged n t u) := by
  intro hagree
  have hlt : ∀ v, n - 1 < (exchanged n t v).length := fun v => by
    rw [length_exchanged hn]
    omega
  have hlast := (List.forall₂_iff_get.1 hagree).2 (n - 1) (hlt t) (hlt u)
  simp only [List.get_eq_getElem, getElem_exchanged hn] at hlast
  rw [if_pos (by omega), if_pos (by omega)] at hlast
  exact h hlast

/-- A padding transaction. -/
def emptyTransaction : OnChainTransaction := ⟨0, 0, 0, 0⟩

/-- A withdraw of `value` of token `nfTokenId` to `recipient`. -/
def withdrawTransaction (nfTokenId recipient value : U256) : OnChainTransaction :=
  ⟨0, 0, ![1, 0, 0, 0], ![nfTokenId, recipient, value, 0]⟩

theorem withdraw_words_ne : emptyTransaction.words ≠ (withdrawTransaction 5 6 7).words := by decide

theorem not_agree_withdraw : ¬emptyTransaction.Agree (withdrawTransaction 5 6 7) := fun h =>
  absurd (congrFun h.2.1 0) (by decide)

theorem not_boundByProof {n : ℕ} (hn : 2 ^ Nat.log 2 n < n) (hlt : n < 2 ^ 256) :
    ¬BoundByProof n := by
  intro hbound
  have hpos : 0 < n := (Nat.zero_le _).trans_lt hn
  obtain ⟨hinj, heq⟩ := exchange_last hn hlt withdraw_words_ne
  exact not_agree_exchanged hpos not_agree_withdraw
    (hbound _ _ _ (length_exchanged hpos _ _) (length_exchanged hpos _ _) hinj heq)

/-- **The public hash binds a block of `n` transactions exactly if `n` is a power of two.** -/
theorem boundByProof_iff {n : ℕ} (hpos : 0 < n) (hlt : n < 2 ^ 256) :
    BoundByProof n ↔ ∃ k, n = 2 ^ k := by
  constructor
  · intro h
    refine ⟨Nat.log 2 n, le_antisymm ?_ (pow_log_le hpos)⟩
    exact not_lt.1 fun hn => not_boundByProof hn hlt h
  · rintro ⟨k, rfl⟩
    exact boundByProof_two_pow k

theorem boundByProof_iff_sixtyFour : BoundByProof 64 ↔ ∃ k, 64 = 2 ^ k :=
  boundByProof_iff (by norm_num) (by norm_num)

/-- A withdraw as the 65th transaction of a block is not covered by the public hash. -/
theorem forged_withdraw : ∃ (sha256 : Bytes → U256) (txs txs' : List OnChainTransaction),
    txs.length = 65 ∧ txs'.length = 65 ∧
    Set.InjOn (sha256AndShift sha256)
      (publicHashInputs sha256 txs ∪ publicHashInputs sha256 txs') ∧
    publicHash sha256 txs = publicHash sha256 txs' ∧
    txs[64]? = some emptyTransaction ∧ txs'[64]? = some (withdrawTransaction 5 6 7) ∧
    ¬List.Forall₂ OnChainTransaction.Agree txs txs' := by
  obtain ⟨hinj, heq⟩ := exchange_last (n := 65) (by decide) (by norm_num) withdraw_words_ne
  exact ⟨_, _, _, length_exchanged (by norm_num) _ _, length_exchanged (by norm_num) _ _, hinj, heq,
    rfl, rfl, not_agree_exchanged (by norm_num) not_agree_withdraw⟩

end Contract

end Nightfall
