import Nightfall.Contract.BlockHash
import Nightfall.Field.Bn254
import Nightfall.Semantics.Run
import Mathlib.Data.List.Nodup

/-!
# Proposing a block

`proposeBlock` checks the caller and the proof, redeems the deposits and records the withdraws of
the block, updates the roots and pays the proposer.  The call that pays the proposer comes after
these changes; what follows it is `finishProposal`.

Deposits are the subject of the results here.  `Redeems ws s s'` says that the deposits `ws`
are distinct, were escrowed and not redeemed in `s`, and are redeemed in `s'`, where nothing else
about deposits changed:

* `processTransactions_redeems` : a block redeems the words that it does not skip;
* `blockBacked_iff` : it redeems all its deposit words exactly if it skips none.
-/

namespace Nightfall

namespace Contract

open Evm

/-- What a call sees of its surroundings. -/
structure ProposeContext where
  sender : Address
  /-- The sender passes `onlyCertified`. -/
  certified : Bool
  currentProposer : Address
  /-- The proposer accepts the payment. -/
  accepts : Bool

/-- The verifier: of the accumulators, the proof and the hash of the public inputs.  Its call may
revert. -/
abbrev Verifier := Bytes → Bytes → Bytes → Option Bool

/-- `bs[i:j]`, which reverts when `j` is too large. -/
def slice (bs : Bytes) (i j : ℕ) : Option Bytes :=
  if i ≤ j ∧ j ≤ bs.length then some ((bs.take j).drop i) else none

/-- `splitToLowHigh`: the lower 248 bits and the upper 8. -/
def splitToLowHigh (value : U256) : List U256 :=
  [value &&& (((1 : U256) <<< 248) - 1), value >>> 248]

/-- `verify_rollup_proof`: the verdict and the sum of the fees. -/
def verifyRollupProof (hs : Hashes) (verifier : Verifier) (s : State) (blk : Block)
    (publicHash : U256) : Option (Bool × U256) := do
  let feeSum := fromBytesBE (← slice blk.rollupProof 0 32)
  let acc ← (List.range 8).mapM fun i =>
    (slice blk.rollupProof (32 + 32 * i) (64 + 32 * i)).map fromBytesBE
  let publicInputs := [feeSum, publicHash, s.commitmentRoot, blk.commitmentsRoot, s.nullifierRoot,
    blk.nullifierRoot, s.historicRootsRoot, blk.commitmentsRootRoot] ++ acc.flatMap splitToLowHigh
  let computed := BitVec.ofNat 256
    ((sha256AndShift hs.sha256 (abiEncode publicInputs)).toNat % frModulus)
  let accProof ← slice blk.rollupProof 32 288
  let proof ← slice blk.rollupProof 288 blk.rollupProof.length
  let verified ← verifier accProof proof (toBytesBE computed)
  return (verified, feeSum)

/-- The body of the loop over the words of a deposit; the state and the total fee. -/
def redeemWord (st : State × U256) (publicData : U256) : Option (State × U256) :=
  if publicData = 0 then some st
  else do
    let total ← checkedAdd st.2 (st.1.feeBinding publicData).fee
    if (st.1.feeBinding publicData).escrowed = 1 ∧ (st.1.feeBinding publicData).redeemed = 0 then
      some ({ st.1 with
        feeBinding := Function.update st.1.feeBinding publicData
          { st.1.feeBinding publicData with redeemed := 1 } }, total)
    else none

/-- The key of a withdraw. -/
def withdrawKey (keccak256 : Bytes → U256) (data : WithdrawData) : U256 :=
  keccak256 (abiEncode [data.nfTokenId, data.recipientAddress.toWord, data.value,
    data.withdrawFundSalt])

/-- The data of a withdraw transaction. -/
def OnChainTransaction.withdrawData (txn : OnChainTransaction) : WithdrawData where
  nfTokenId := txn.publicData 0
  recipientAddress := (txn.publicData 1).truncate 160
  value := txn.publicData 2
  withdrawFundSalt := txn.nullifiers 0

/-- Record a withdraw. -/
def includeWithdraw (hs : Hashes) (s : State) (txn : OnChainTransaction) : Option State :=
  if s.withdrawalIncluded (withdrawKey hs.keccak256 txn.withdrawData) = 0 then
    some { s with
      withdrawalIncluded :=
        Function.update s.withdrawalIncluded (withdrawKey hs.keccak256 txn.withdrawData) 1 }
  else none

/-- The body of the loop over the transactions. -/
def processTransaction (hs : Hashes) (st : State × U256) (txn : OnChainTransaction) :
    Option (State × U256) :=
  if txn.nullifiers 0 = 0 then
    -- a deposit; the test for padding looks at the first word only
    if txn.publicData 0 = 0 then some st
    else (List.ofFn txn.publicData).foldlM redeemWord st
  else if txn.commitments 0 = 0 then
    (includeWithdraw hs st.1 txn).map fun s => (s, st.2)
  else some st

/-- `propose_block` up to and including the payment of the proposer. -/
def proposeBlock (hs : Hashes) (verifier : Verifier) (ctx : ProposeContext) (s : State)
    (blk : Block) : Option State := do
  guard (ctx.certified ∧ ctx.currentProposer = ctx.sender)
  let hash ← publicHash hs.sha256 blk.transactions
  let (verified, feeSum) ← verifyRollupProof hs verifier s blk hash
  guard verified
  let (s, totalFee) ← blk.transactions.foldlM (processTransaction hs) (s, feeSum)
  guard (totalFee.toNat ≤ s.balance ∧ ctx.accepts)
  return { s with
    commitmentRoot := blk.commitmentsRoot
    nullifierRoot := blk.nullifierRoot
    historicRootsRoot := blk.commitmentsRootRoot
    balance := s.balance - totalFee.toNat }

/-- The rest of `propose_block`: the block number. -/
def finishProposal (s : State) : Option State :=
  if s.layer2BlockNumber + 1 < 2 ^ 255 then
    some { s with layer2BlockNumber := s.layer2BlockNumber + 1 }
  else none

/-- After the payment only the block number changes. -/
theorem finishProposal_eq {s s' : State} (h : finishProposal s = some s') :
    s' = { s with layer2BlockNumber := s.layer2BlockNumber + 1 } := by
  unfold finishProposal at h
  split_ifs at h
  cases h
  rfl

theorem finishProposal_feeBinding {s s' : State} (h : finishProposal s = some s') :
    s'.feeBinding = s.feeBinding := by rw [finishProposal_eq h]

theorem finishProposal_withdrawalIncluded {s s' : State} (h : finishProposal s = some s') :
    s'.withdrawalIncluded = s.withdrawalIncluded := by rw [finishProposal_eq h]

theorem finishProposal_balance {s s' : State} (h : finishProposal s = some s') :
    s'.balance = s.balance := by rw [finishProposal_eq h]

/-! ### Deposit words -/

/-- The non-zero words of a transaction's public data. -/
def OnChainTransaction.dataWords (txn : OnChainTransaction) : List U256 :=
  (List.ofFn txn.publicData).filter (· ≠ 0)

/-- The non-zero words of a deposit. -/
def OnChainTransaction.depositWords (txn : OnChainTransaction) : List U256 :=
  if txn.nullifiers 0 = 0 then txn.dataWords else []

/-- The words of a deposit that `propose_block` does not skip. -/
def OnChainTransaction.processedWords (txn : OnChainTransaction) : List U256 :=
  if txn.publicData 0 = 0 then [] else txn.depositWords

/-- The words of the deposits of a block. -/
def depositWords (txs : List OnChainTransaction) : List U256 :=
  txs.flatMap OnChainTransaction.depositWords

/-- The words of the deposits of a block that `propose_block` does not skip. -/
def processedWords (txs : List OnChainTransaction) : List U256 :=
  txs.flatMap OnChainTransaction.processedWords

/-- A padding deposit has no words: where the first word is zero, they all are. -/
def PaddingFirst (txs : List OnChainTransaction) : Prop :=
  ∀ txn ∈ txs, txn.nullifiers 0 = 0 → txn.publicData 0 = 0 → ∀ j, txn.publicData j = 0

/-- The deposits `ws` are distinct, escrowed and not redeemed in `s`; `s'` has them redeemed and is
otherwise like `s` about deposits. -/
structure Redeems (ws : List U256) (s s' : State) : Prop where
  nodup : ws.Nodup
  escrowed : ∀ k ∈ ws, (s.feeBinding k).escrowed = 1
  fresh : ∀ k ∈ ws, (s.feeBinding k).redeemed = 0
  feeBinding_eq : ∀ k, s'.feeBinding k =
    if k ∈ ws then { s.feeBinding k with redeemed := 1 } else s.feeBinding k

/-- Every deposit word of the block was escrowed and not redeemed just before it was handled, and
is redeemed afterwards. -/
structure BlockBacked (s s' : State) (txs : List OnChainTransaction) : Prop where
  /-- No word is handled twice, so just before a word is handled its flags are those of `s`. -/
  nodup : (depositWords txs).Nodup
  escrowed : ∀ k ∈ depositWords txs, (s.feeBinding k).escrowed = 1
  fresh : ∀ k ∈ depositWords txs, (s.feeBinding k).redeemed = 0
  redeemed : ∀ k ∈ depositWords txs, (s'.feeBinding k).redeemed = 1

namespace Redeems

variable {ws ws' : List U256} {s s' s'' : State}

theorem nil (h : s'.feeBinding = s.feeBinding) : Redeems [] s s' :=
  ⟨List.nodup_nil, by simp, by simp, fun k => by simp [h]⟩

theorem append (h : Redeems ws s s') (h' : Redeems ws' s' s'') : Redeems (ws ++ ws') s s'' := by
  have hdisj : ∀ k ∈ ws', k ∉ ws := by
    intro k hk' hk
    have hfresh := h'.fresh k hk'
    rw [h.feeBinding_eq k, if_pos hk] at hfresh
    exact (show (1 : BitVec 8) ≠ 0 by decide) hfresh
  have hkeep : ∀ k ∈ ws', s'.feeBinding k = s.feeBinding k := fun k hk => by
    rw [h.feeBinding_eq k, if_neg (hdisj k hk)]
  refine ⟨List.nodup_append'.2 ⟨h.nodup, h'.nodup, fun k hk hk' => hdisj k hk' hk⟩, ?_, ?_, ?_⟩
  · intro k hk
    rcases List.mem_append.1 hk with hk | hk
    · exact h.escrowed k hk
    · rw [← hkeep k hk]; exact h'.escrowed k hk
  · intro k hk
    rcases List.mem_append.1 hk with hk | hk
    · exact h.fresh k hk
    · rw [← hkeep k hk]; exact h'.fresh k hk
  · intro k
    rw [h'.feeBinding_eq k, h.feeBinding_eq k]
    simp only [List.mem_append]
    by_cases hk : k ∈ ws <;> by_cases hk' : k ∈ ws' <;> simp [hk, hk']

end Redeems

section Process

variable {hs : Hashes} {st st' : State × U256}

/-- What the loop over the words of a deposit does with a word. -/
theorem redeemWord_cases {w : U256} (h : redeemWord st w = some st') :
    (w = 0 ∧ st' = st) ∨
      w ≠ 0 ∧ (st.1.feeBinding w).escrowed = 1 ∧ (st.1.feeBinding w).redeemed = 0 ∧
        ∃ total, checkedAdd st.2 (st.1.feeBinding w).fee = some total ∧
          st' = ({ st.1 with
            feeBinding := Function.update st.1.feeBinding w
              { st.1.feeBinding w with redeemed := 1 } }, total) := by
  unfold redeemWord at h
  by_cases hw : w = 0
  · rw [if_pos hw] at h
    cases h
    exact .inl ⟨hw, rfl⟩
  · rw [if_neg hw, Option.bind_eq_bind, Option.bind_eq_some_iff] at h
    obtain ⟨total, htotal, h⟩ := h
    split_ifs at h with hflags
    cases h
    exact .inr ⟨hw, hflags.1, hflags.2, total, htotal, rfl⟩

/-- What the loop over the transactions does with a transaction. -/
theorem processTransaction_cases {txn : OnChainTransaction}
    (h : processTransaction hs st txn = some st') :
    (txn.nullifiers 0 = 0 ∧ txn.publicData 0 = 0 ∧ st' = st) ∨
      (txn.nullifiers 0 = 0 ∧ txn.publicData 0 ≠ 0 ∧
        (List.ofFn txn.publicData).foldlM redeemWord st = some st') ∨
      (txn.nullifiers 0 ≠ 0 ∧ txn.commitments 0 = 0 ∧
        ∃ s, includeWithdraw hs st.1 txn = some s ∧ st' = (s, st.2)) ∨
      txn.nullifiers 0 ≠ 0 ∧ txn.commitments 0 ≠ 0 ∧ st' = st := by
  unfold processTransaction at h
  split_ifs at h with hnull hdata hcomm
  · cases h
    exact .inl ⟨hnull, hdata, rfl⟩
  · exact .inr (.inl ⟨hnull, hdata, h⟩)
  · obtain ⟨s, hs', rfl⟩ := Option.map_eq_some_iff.1 h
    exact .inr (.inr (.inl ⟨hnull, hcomm, s, hs', rfl⟩))
  · cases h
    exact .inr (.inr (.inr ⟨hnull, hcomm, rfl⟩))

/-- A withdraw is recorded once, and nothing else changes. -/
theorem includeWithdraw_eq_some {s s' : State} {txn : OnChainTransaction}
    (h : includeWithdraw hs s txn = some s') :
    s.withdrawalIncluded (withdrawKey hs.keccak256 txn.withdrawData) = 0 ∧
      s' = { s with
        withdrawalIncluded :=
          Function.update s.withdrawalIncluded (withdrawKey hs.keccak256 txn.withdrawData) 1 } := by
  unfold includeWithdraw at h
  split_ifs at h with hfresh
  cases h
  exact ⟨hfresh, rfl⟩

section Rules

variable {R : List U256 → State × U256 → State × U256 → Prop} (hnil : ∀ st, R [] st st)
  (happend : ∀ {ws ws' st st' st''}, R ws st st' → R ws' st' st'' → R (ws ++ ws') st st'')
  (hredeem : ∀ st w st', redeemWord st w = some st' → R ([w].filter (· ≠ 0)) st st')
include hnil happend hredeem

theorem redeemWords_rule {ws : List U256} (h : ws.foldlM redeemWord st = some st') :
    R (ws.filter (· ≠ 0)) st st' := by
  have hwords : ws.flatMap (fun w => [w].filter (· ≠ 0)) = ws.filter (· ≠ 0) := by
    rw [← List.filter_flatMap, List.flatMap_singleton']
  rw [← hwords]
  exact foldlM_flatMap hnil happend hredeem h

/-- What holds of each word that is redeemed, and of recording a withdraw, holds of a block. -/
theorem processTransactions_rule {txs : List OnChainTransaction}
    (hinclude : ∀ st s txn, includeWithdraw hs st.1 txn = some s → R [] st (s, st.2))
    (h : txs.foldlM (processTransaction hs) st = some st') : R (processedWords txs) st st' := by
  refine foldlM_flatMap hnil happend (fun st txn st' hstep => ?_) h
  unfold OnChainTransaction.processedWords OnChainTransaction.depositWords
  rcases processTransaction_cases hstep with ⟨hnull, hdata, rfl⟩ | ⟨hnull, hdata, hwords⟩ |
    ⟨hnull, -, s, hs', rfl⟩ | ⟨hnull, -, rfl⟩
  · rw [if_pos hdata]
    exact hnil _
  · rw [if_neg hdata, if_pos hnull]
    exact redeemWords_rule hnil happend hredeem hwords
  · rw [if_neg hnull, ite_self]
    exact hinclude _ _ _ hs'
  · rw [if_neg hnull, ite_self]
    exact hnil _

end Rules

theorem redeemWord_redeems {w : U256} (h : redeemWord st w = some st') :
    Redeems ([w].filter (· ≠ 0)) st.1 st'.1 := by
  rcases redeemWord_cases h with ⟨hw, rfl⟩ | ⟨hw, hescrowed, hredeemed, total, -, rfl⟩
  · simpa [hw] using Redeems.nil rfl
  · rw [List.filter_cons_of_pos (by simpa using hw), List.filter_nil]
    refine ⟨List.nodup_singleton w, by simpa using hescrowed, by simpa using hredeemed, fun k => ?_⟩
    by_cases hk : k = w
    · subst hk; simp
    · simp [hk]

theorem processTransactions_redeems {txs : List OnChainTransaction}
    (h : txs.foldlM (processTransaction hs) st = some st') :
    Redeems (processedWords txs) st.1 st'.1 := by
  refine @processTransactions_rule hs st st' (fun ws st st' => Redeems ws st.1 st'.1)
    (fun _ => .nil rfl) .append (fun _ _ _ => redeemWord_redeems) txs (fun _ _ _ h => ?_) h
  obtain ⟨-, rfl⟩ := includeWithdraw_eq_some h
  exact .nil rfl

theorem proposeBlock_redeems {verifier : Verifier} {ctx : ProposeContext} {s s' : State}
    {blk : Block} (h : proposeBlock hs verifier ctx s blk = some s') :
    Redeems (processedWords blk.transactions) s s' := by
  simp only [proposeBlock, Option.bind_eq_bind, Option.bind_eq_some_iff, Option.pure_def,
    Option.some.injEq] at h
  obtain ⟨-, -, hash, -, ⟨verified, feeSum⟩, -, -, -, ⟨s₁, totalFee⟩, hrun, -, -, rfl⟩ := h
  have hred := processTransactions_redeems hrun
  exact ⟨hred.nodup, hred.escrowed, hred.fresh, hred.feeBinding_eq⟩

end Process

/-! ### Skipped words -/

theorem OnChainTransaction.mem_dataWords {txn : OnChainTransaction} {k : U256} :
    k ∈ txn.dataWords ↔ k ≠ 0 ∧ ∃ j, txn.publicData j = k := by
  simp only [OnChainTransaction.dataWords, List.mem_filter, List.mem_ofFn, ne_eq,
    decide_not, Bool.not_eq_eq_eq_not, Bool.not_true, decide_eq_false_iff_not]
  exact and_comm

theorem OnChainTransaction.processedWords_eq {txn : OnChainTransaction}
    (h : txn.nullifiers 0 = 0 → txn.publicData 0 = 0 → ∀ j, txn.publicData j = 0) :
    txn.processedWords = txn.depositWords := by
  unfold OnChainTransaction.processedWords OnChainTransaction.depositWords
  split_ifs with hdata hnull
  · refine (List.eq_nil_iff_forall_not_mem.2 fun k hk => ?_).symm
    obtain ⟨hk0, j, rfl⟩ := mem_dataWords.1 hk
    exact hk0 (h hnull hdata j)
  all_goals rfl

theorem processedWords_eq_of_paddingFirst {txs : List OnChainTransaction} (h : PaddingFirst txs) :
    processedWords txs = depositWords txs :=
  List.flatMap_congr fun txn htxn => OnChainTransaction.processedWords_eq (h txn htxn)

/-- A block whose padding has no words redeems all its deposit words. -/
theorem Redeems.blockBacked {s s' : State} {txs : List OnChainTransaction}
    (h : Redeems (processedWords txs) s s') (hp : PaddingFirst txs) : BlockBacked s s' txs := by
  rw [processedWords_eq_of_paddingFirst hp] at h
  exact ⟨h.nodup, h.escrowed, h.fresh, fun k hk => by rw [h.feeBinding_eq, if_pos hk]⟩

theorem processedWords_subset (txs : List OnChainTransaction) :
    processedWords txs ⊆ depositWords txs := by
  intro k hk
  obtain ⟨txn, htxn, hk⟩ := List.mem_flatMap.1 hk
  refine List.mem_flatMap.2 ⟨txn, htxn, ?_⟩
  unfold OnChainTransaction.processedWords at hk
  split_ifs at hk
  · exact absurd hk List.not_mem_nil
  · exact hk

/-- A skipped word cannot be handled elsewhere in the block without appearing there twice. -/
theorem Redeems.paddingFirst {s s' : State} {txs : List OnChainTransaction}
    (h : Redeems (processedWords txs) s s') (hb : BlockBacked s s' txs) : PaddingFirst txs := by
  intro txn htxn hnull hdata j
  by_contra hj
  have hk : txn.publicData j ∈ txn.depositWords := by
    rw [OnChainTransaction.depositWords, if_pos hnull]
    exact OnChainTransaction.mem_dataWords.2 ⟨hj, j, rfl⟩
  have hmem : txn.publicData j ∈ depositWords txs := List.mem_flatMap.2 ⟨txn, htxn, hk⟩
  have hproc : txn.publicData j ∈ processedWords txs := by
    by_contra hnot
    have hred := hb.redeemed _ hmem
    rw [h.feeBinding_eq, if_neg hnot, hb.fresh _ hmem] at hred
    exact (show (0 : BitVec 8) ≠ 1 by decide) hred
  obtain ⟨l₁, l₂, rfl⟩ := List.append_of_mem htxn
  have hnodup := hb.nodup
  have hskip : txn.processedWords = [] := if_pos hdata
  simp only [depositWords, processedWords, List.flatMap_append, List.flatMap_cons, hskip,
    List.nil_append] at hnodup hproc
  obtain ⟨-, hright, hleft⟩ := List.nodup_append'.1 hnodup
  rcases List.mem_append.1 hproc with hproc | hproc
  · exact hleft (processedWords_subset l₁ hproc) (List.mem_append_left _ hk)
  · exact (List.nodup_append'.1 hright).2.2 hk (processedWords_subset l₂ hproc)

/-- An accepted block is backed exactly if its padding has no words. -/
theorem blockBacked_iff {hs : Hashes} {verifier : Verifier} {ctx : ProposeContext} {s s' : State}
    {blk : Block} (h : proposeBlock hs verifier ctx s blk = some s') :
    BlockBacked s s' blk.transactions ↔ PaddingFirst blk.transactions :=
  ⟨(proposeBlock_redeems h).paddingFirst, (proposeBlock_redeems h).blockBacked⟩

end Contract

end Nightfall
