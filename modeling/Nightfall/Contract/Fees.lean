import Nightfall.Contract.Solvency
import Mathlib.Data.List.Forall2

/-!
# The fees of single transactions

An `OnChainTransaction` carries the fee of its client, so that a proposer cannot move fees between
clients while their sum stays the same.  `hash_transaction` leaves the fee out, though, and no
other part of `propose_block` reads it: the sum comes from the proof.

* `proposeBlock_withFees` : `propose_block` does the same whatever the fee words are;
* `fees_never_bound` : **no public hash fixes the fees, and no accepted block their sum**;
* `moved_fee` : two clients with fees 1 and 2, exchanged by the proposer.
-/

namespace Nightfall

namespace Contract

open Evm

/-- The transactions with other fee words. -/
def withFees (txs : List OnChainTransaction) (fees : List U256) : List OnChainTransaction :=
  List.zipWith (fun txn fee => { txn with fee }) txs fees

/-- The block with other fee words. -/
def Block.withFees (blk : Block) (fees : List U256) : Block :=
  { blk with transactions := Contract.withFees blk.transactions fees }

/-- Every list of the length of `txs` with the same public hash has the same fees at all
indices. -/
def FeesBoundByHash (sha256 : Bytes → U256) (txs : List OnChainTransaction) : Prop :=
  ∀ txs' : List OnChainTransaction, txs'.length = txs.length →
    publicHash sha256 txs' = publicHash sha256 txs →
    txs'.map OnChainTransaction.fee = txs.map OnChainTransaction.fee

/-- The fee words sum to `feeSum`, the first word of the proof, at least modulo `2 ^ 256`. -/
def Block.FeesAddUp (blk : Block) : Prop :=
  (blk.transactions.map OnChainTransaction.fee).sum = fromBytesBE (blk.rollupProof.take 32)

/-- Whatever the fee words of the block: if it is accepted, they sum to `feeSum`. -/
def FeeSumChecked (hs : Hashes) (verifier : Verifier) (ctx : ProposeContext) (s : State)
    (blk : Block) : Prop :=
  ∀ fees : List U256, fees.length = blk.transactions.length →
    (proposeBlock hs verifier ctx s (blk.withFees fees)).isSome → (blk.withFees fees).FeesAddUp

/-! ### Blocks that agree but for the fees -/

section Agree

variable {hs : Hashes} {txs txs' : List OnChainTransaction}

theorem OnChainTransaction.Agree.words_eq {t u : OnChainTransaction} (h : t.Agree u) :
    t.words = u.words := by
  obtain ⟨hc, hn, hp⟩ := h
  rw [words, words, hc, hn, hp]

theorem publicHash_of_agree (h : List.Forall₂ OnChainTransaction.Agree txs txs') :
    publicHash hs.sha256 txs = publicHash hs.sha256 txs' := by
  have hhashes : txs.map (hashTransaction hs.sha256) = txs'.map (hashTransaction hs.sha256) := by
    induction h with
    | nil => rfl
    | cons htu _ ih => rw [List.map_cons, List.map_cons, ih, hashTransaction, hashTransaction,
        htu.words_eq]
  unfold publicHash transactionHashes
  rw [hhashes, h.length_eq]

/-- A transaction is processed without regard to its fee. -/
theorem processTransaction_of_agree {t u : OnChainTransaction} (h : t.Agree u)
    (st : State × U256) : processTransaction hs st t = processTransaction hs st u := by
  obtain ⟨hc, hn, hp⟩ := h
  have hwithdraw : t.withdrawData = u.withdrawData := by
    rw [OnChainTransaction.withdrawData, OnChainTransaction.withdrawData, hn, hp]
  unfold processTransaction includeWithdraw
  rw [hc, hn, hp, hwithdraw]

theorem processTransactions_of_agree (h : List.Forall₂ OnChainTransaction.Agree txs txs')
    (st : State × U256) :
    txs.foldlM (processTransaction hs) st = txs'.foldlM (processTransaction hs) st := by
  induction h generalizing st with
  | nil => rfl
  | cons htu _ ih =>
    rw [List.foldlM_cons, List.foldlM_cons, processTransaction_of_agree htu]
    exact congrArg _ (funext fun st₁ => ih st₁)

/-- `propose_block` treats blocks alike that differ in their fee words only. -/
theorem proposeBlock_of_agree {verifier : Verifier} {ctx : ProposeContext} {s : State}
    {blk : Block} (h : List.Forall₂ OnChainTransaction.Agree txs blk.transactions) :
    proposeBlock hs verifier ctx s { blk with transactions := txs } =
      proposeBlock hs verifier ctx s blk := by
  unfold proposeBlock
  rw [publicHash_of_agree h]
  -- the proof is verified without the transactions
  have hverify : ∀ hash, verifyRollupProof hs verifier s { blk with transactions := txs } hash =
      verifyRollupProof hs verifier s blk hash := fun hash => rfl
  simp only [hverify, processTransactions_of_agree h]

end Agree

/-! ### Other fee words -/

section WithFees

variable {txs : List OnChainTransaction} {fees : List U256}

theorem agree_withFees (h : fees.length = txs.length) :
    List.Forall₂ OnChainTransaction.Agree (withFees txs fees) txs := by
  induction txs generalizing fees with
  | nil => exact .nil
  | cons txn txs ih =>
    cases fees with
    | nil => cases h
    | cons fee fees => exact .cons ⟨rfl, rfl, rfl⟩ (ih (Nat.succ.inj h))

theorem map_fee_withFees (h : fees.length = txs.length) :
    (withFees txs fees).map OnChainTransaction.fee = fees := by
  induction txs generalizing fees with
  | nil => exact (List.eq_nil_of_length_eq_zero h).symm
  | cons txn txs ih =>
    cases fees with
    | nil => cases h
    | cons fee fees => exact congrArg _ (ih (Nat.succ.inj h))

theorem length_withFees (h : fees.length = txs.length) :
    (withFees txs fees).length = txs.length := (agree_withFees h).length_eq

/-- `propose_block` does the same for every choice of the fee words. -/
theorem proposeBlock_withFees (hs : Hashes) (verifier : Verifier) (ctx : ProposeContext)
    (s : State) {blk : Block} (h : fees.length = blk.transactions.length) :
    proposeBlock hs verifier ctx s (blk.withFees fees) = proposeBlock hs verifier ctx s blk :=
  proposeBlock_of_agree (agree_withFees h)

/-- Lists of fee words of any positive length have every sum. -/
theorem exists_fees_sum {n : ℕ} (hn : 0 < n) (total : U256) :
    ∃ fees : List U256, fees.length = n ∧ fees.sum = total := by
  refine ⟨total :: List.replicate (n - 1) 0, ?_, ?_⟩
  · rw [List.length_cons, List.length_replicate]
    omega
  · rw [List.sum_cons]
    have hzero : (List.replicate (n - 1) (0 : U256)).sum = 0 := by
      induction n - 1 with
      | zero => rfl
      | succ m ih => rw [List.replicate_succ, List.sum_cons, ih]; rfl
    rw [hzero]
    exact BitVec.add_zero total

theorem U256.add_one_ne (x : U256) : x + 1 ≠ x := by
  intro h
  have hone := congrArg (· - x) h
  simp only [BitVec.add_comm x 1, BitVec.add_sub_cancel, BitVec.sub_self] at hone
  exact absurd hone (by decide)

end WithFees

theorem not_feesBoundByHash (sha256 : Bytes → U256) {txs : List OnChainTransaction}
    (h : txs ≠ []) : ¬FeesBoundByHash sha256 txs := by
  intro hbound
  obtain ⟨fees, hlen, hsum⟩ := exists_fees_sum (List.length_pos_iff.2 h)
    ((txs.map OnChainTransaction.fee).sum + 1)
  have hsame := hbound (withFees txs fees) (length_withFees hlen)
    (@publicHash_of_agree ⟨sha256, sha256⟩ _ _ (agree_withFees hlen))
  rw [map_fee_withFees hlen] at hsame
  exact U256.add_one_ne _ (hsum.symm.trans (congrArg List.sum hsame))

theorem not_feeSumChecked {hs : Hashes} {verifier : Verifier} {ctx : ProposeContext} {s s' : State}
    {blk : Block} (h : proposeBlock hs verifier ctx s blk = some s') :
    ¬FeeSumChecked hs verifier ctx s blk := by
  intro hchecked
  -- a block without transactions has no public hash
  have hne : blk.transactions ≠ [] := by
    intro hnil
    have hhash : publicHash hs.sha256 blk.transactions = none := by rw [hnil]; rfl
    unfold proposeBlock at h
    rw [hhash] at h
    simp only [Option.bind_eq_bind, Option.bind_eq_some_iff] at h
    obtain ⟨-, -, hash, hsome, -⟩ := h
    cases hsome
  obtain ⟨fees, hlen, hsum⟩ := exists_fees_sum (List.length_pos_iff.2 hne)
    (fromBytesBE (blk.rollupProof.take 32) + 1)
  have hadd := hchecked fees hlen (by
    rw [proposeBlock_withFees hs verifier ctx s hlen, h, Option.isSome_some])
  unfold Block.FeesAddUp Block.withFees at hadd
  rw [map_fee_withFees hlen] at hadd
  exact U256.add_one_ne _ (hsum.symm.trans hadd)

/-- **Fees are never bound.** -/
theorem fees_never_bound (hs : Hashes) (verifier : Verifier) (ctx : ProposeContext) (s : State) :
    (∀ txs : List OnChainTransaction, txs ≠ [] → ¬FeesBoundByHash hs.sha256 txs) ∧
      ∀ (blk : Block) (s' : State), proposeBlock hs verifier ctx s blk = some s' →
        ¬FeeSumChecked hs verifier ctx s blk :=
  ⟨fun _ h => not_feesBoundByHash hs.sha256 h, fun _ _ h => not_feeSumChecked h⟩

/-! ### A fee that is moved -/

/-- A transfer with the given commitment, nullifier and fee. -/
def sampleTransfer (commitment nullifier fee : U256) : OnChainTransaction :=
  ⟨fee, fun _ => commitment, fun _ => nullifier, 0⟩

/-- A block of two transfers with fees 1 and 2. -/
def transferBlock : Block where
  commitmentsRoot := 0
  nullifierRoot := 0
  commitmentsRootRoot := 0
  transactions := [sampleTransfer 5 6 1, sampleTransfer 7 8 2]
  rollupProof := toBytesBE 3 ++ List.replicate 256 0

/-- The outcome of `propose_block` on a contract that has the fees. -/
def proposeTransfers (blk : Block) : Option State :=
  proposeBlock sampleDeployment.hashes sampleDeployment.verifier sampleContext
    { sampleState with balance := 3 } blk

theorem proposeTransfers_isSome : (proposeTransfers transferBlock).isSome := by decide +kernel

theorem fees_never_bound_sample :
    ¬FeesBoundByHash byteSum transferBlock.transactions ∧
      ¬FeeSumChecked sampleDeployment.hashes sampleDeployment.verifier sampleContext
        { sampleState with balance := 3 } transferBlock := by
  obtain ⟨hhash, hsum⟩ := fees_never_bound sampleDeployment.hashes sampleDeployment.verifier
    sampleContext { sampleState with balance := 3 }
  obtain ⟨s', hs'⟩ := Option.isSome_iff_exists.1 proposeTransfers_isSome
  exact ⟨hhash _ (List.cons_ne_nil _ _), hsum _ s' hs'⟩

/-- The proposer charges each of the clients the fee of the other, with the same public hash and
the same outcome.  A block with fees that do not sum to `feeSum` has that outcome, too. -/
theorem moved_fee :
    publicHash byteSum (transferBlock.withFees [2, 1]).transactions =
        publicHash byteSum transferBlock.transactions ∧
      transferBlock.transactions.map OnChainTransaction.fee = [1, 2] ∧
      (transferBlock.withFees [2, 1]).transactions.map OnChainTransaction.fee = [2, 1] ∧
      (∃ s', proposeTransfers transferBlock = some s' ∧
        proposeTransfers (transferBlock.withFees [2, 1]) = some s' ∧
        proposeTransfers (transferBlock.withFees [100, 200]) = some s') ∧
      (transferBlock.withFees [2, 1]).FeesAddUp ∧
      ¬(transferBlock.withFees [100, 200]).FeesAddUp := by
  obtain ⟨s', hs'⟩ := Option.isSome_iff_exists.1 proposeTransfers_isSome
  refine ⟨by decide +kernel, rfl, rfl, ⟨s', hs', ?_, ?_⟩, ?_, ?_⟩
  · exact (proposeBlock_withFees _ _ _ _ rfl).trans hs'
  · exact (proposeBlock_withFees _ _ _ _ rfl).trans hs'
  · unfold Block.FeesAddUp
    decide +kernel
  · unfold Block.FeesAddUp
    decide +kernel

end Contract

end Nightfall
