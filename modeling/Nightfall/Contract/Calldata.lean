import Nightfall.Contract.DescrowFunds
import Nightfall.Evm.Calldata
import Nightfall.Evm.Memory

/-!
# `propose_block` on calldata

The contract hashes the transactions of a block as compiled code reads them, but looks at them
through offsets of its own, which start at the address of the block.  The key of a withdraw is
hashed from memory by assembly.
-/

namespace Nightfall

namespace Contract

open Evm Merkle

/-! ### The decoder -/

section

variable (calldata : Bytes)

/-- The size of a transaction. -/
def transactionSize : U256 := 0x1A0

/-- Four words. -/
def loadWords (addr : U256) (j : Fin 4) : U256 := load calldata (addr + BitVec.ofNat 256 (0x20 * j))

/-- The transaction at an address. -/
def transactionAt (addr : U256) : OnChainTransaction where
  fee := load calldata addr
  commitments := loadWords calldata (addr + 0x20)
  nullifiers := loadWords calldata (addr + 0xA0)
  publicData := loadWords calldata (addr + 0x120)

/-- `blk.transactions`: the address of the first transaction and the length. -/
def transactionsArray (blk : U256) : Option (U256 × U256) :=
  accessCalldataTail calldata transactionSize blk (blk + 0x60)

/-- `blk.transactions[i]`. -/
def transactionOf (blk i : U256) : Option OnChainTransaction := do
  let array ← transactionsArray calldata blk
  let addr ← indexAccess transactionSize array i
  return transactionAt calldata addr

/-- `blk.rollup_proof`. -/
def rollupProofOf (blk : U256) : Option Bytes := do
  let proof ← accessCalldataTail calldata 1 blk (blk + 0x80)
  return (calldata.drop proof.1.toNat).take proof.2.toNat

/-- The transactions of an array. -/
def transactionsOf (array : U256 × U256) : List OnChainTransaction :=
  (List.range array.2.toNat).map fun i =>
    transactionAt calldata (array.1 + BitVec.ofNat 256 i * transactionSize)

/-- The block at an address, as the decoder sees it. -/
def decodeBlock (blk : U256) : Option Block := do
  let array ← transactionsArray calldata blk
  let proof ← rollupProofOf calldata blk
  return {
    commitmentsRoot := load calldata blk
    nullifierRoot := load calldata (blk + 0x20)
    commitmentsRootRoot := load calldata (blk + 0x40)
    transactions := transactionsOf calldata array
    rollupProof := proof }

/-! ### The words that the assembly loads -/

/-- `block_transactions_length`. -/
def blockTransactionsLength (blk : U256) : U256 :=
  load calldata (blk + load calldata (blk + 0x60))

/-- The word at `offset` from where the length of the transactions would be for index `i`. -/
def wordOf (blk i offset : U256) : U256 :=
  load calldata (blk + ((load calldata (blk + 0x60) + i * 0x1A0) + offset))

/-- `is_deposit`. -/
def isDeposit (blk i : U256) : Bool := wordOf calldata blk i 0xC0 = 0

/-- `is_dummy_deposit`. -/
def isDummyDeposit (blk i : U256) : Bool := wordOf calldata blk i 0x140 = 0

/-- `publicData`. -/
def publicDataOf (blk i j : U256) : U256 :=
  load calldata (blk + ((load calldata (blk + 0x60) + (0x20 + i * 0x1A0)) + (0x120 + j * 0x20)))

/-- `is_withdraw`. -/
def isWithdraw (blk i : U256) : Bool :=
  wordOf calldata blk i 0x40 = 0 && !(wordOf calldata blk i 0xC0 = 0)

end

/-! ### The key of a withdraw -/

/-- The free pointer lies behind the words that are reserved. -/
def FreeBehind (mem : Memory) : Prop := ∀ free, mem.mload 0x40 = some free → 0x80 ≤ free.toNat

/-- The memory of a contract that allocates. -/
def Heap := { mem : Memory // FreeBehind mem }

/-- `WithdrawData(..)`: the address of the new structure, and the memory. -/
def newWithdrawData (mem : Memory) (data : WithdrawData) : Option (U256 × Memory) := do
  let ptr ← mem.mload 0x40
  let mem ← mem.mstore 0x40 (ptr + 0x80)
  let mem ← mem.mstore ptr data.nfTokenId
  let mem ← mem.mstore (ptr + 0x20) data.recipientAddress.toWord
  let mem ← mem.mstore (ptr + 0x40) data.value
  let mem ← mem.mstore (ptr + 0x60) data.withdrawFundSalt
  return (ptr, mem)

/-- `key`: the structure is copied behind what is allocated, and hashed there. -/
def withdrawKeyOf (keccak256 : Bytes → U256) (mem : Memory) (data : U256) :
    Option (U256 × Memory) := do
  let memPtr ← mem.mload 0x40
  let mem ← mem.mstore memPtr (← mem.mload data)
  let mem ← mem.mstore (memPtr + 32) (← mem.mload (data + 32))
  let mem ← mem.mstore (memPtr + 64) (← mem.mload (data + 64))
  let mem ← mem.mstore (memPtr + 96) (← mem.mload (data + 96))
  let key ← mem.keccak256 keccak256 memPtr 128
  return (key, mem)

/-- `withdraw_processed`. -/
def withdrawProcessed (hs : Hashes) (s : State) (data : WithdrawData) : Bool :=
  s.withdrawalIncluded (withdrawKey hs.keccak256 data) = 1

/-! ### The call -/

/-- What the loop over the transactions changes. -/
structure LoopState where
  state : State
  totalFee : U256
  mem : Memory

section

variable (hs : Hashes) (calldata : Bytes) (blk : U256)

/-- The body of the loop, for the index `i`. -/
def processTransactionOf (st : LoopState) (i : U256) : Option LoopState :=
  if isDeposit calldata blk i then
    if isDummyDeposit calldata blk i then some st
    else do
      let redeemed ← (List.finRange 4).foldlM (fun acc j =>
        redeemWord acc (publicDataOf calldata blk i (BitVec.ofNat 256 j))) (st.state, st.totalFee)
      return { st with state := redeemed.1, totalFee := redeemed.2 }
  else if isWithdraw calldata blk i then do
    let txn ← transactionOf calldata blk i
    let data ← newWithdrawData st.mem txn.withdrawData
    let key ← withdrawKeyOf hs.keccak256 data.2 data.1
    guard (st.state.withdrawalIncluded key.1 = 0)
    return { st with
      state := { st.state with
        withdrawalIncluded := Function.update st.state.withdrawalIncluded key.1 1 }
      mem := key.2 }
  else some st

/-- `transaction_hashes`. -/
def transactionHashesOf : Option (List U256) := do
  let length := blockTransactionsLength calldata blk
  -- the allocation of the array
  guard (length ≤ maxLength)
  (List.range length.toNat).mapM fun i => do
    return hashTransaction hs.sha256 (← transactionOf calldata blk (BitVec.ofNat 256 i))

/-- `transaction_hashes[0]` after the rounds, for the array of the hashes. -/
def foldHashes (hashes : List U256) : Option U256 :=
  if hashes.length = 0 then none
  else some (foldRounds (hashPair hs.sha256) hashes.length (hashes.getD · 0) 0)

/-- `propose_block` up to and including the payment of the proposer; `heap` is the memory where the
loop over the transactions starts. -/
def proposeBlockCall (verifier : Verifier) (ctx : ProposeContext) (s : State) (heap : Heap) :
    Option State := do
  let blk ← decodeStruct calldata 0xA0
  guard (ctx.certified ∧ ctx.currentProposer = ctx.sender)
  let hashes ← transactionHashesOf hs calldata blk
  let hash ← foldHashes hs hashes
  let rollupProof ← rollupProofOf calldata blk
  let head : Block := {
    commitmentsRoot := load calldata blk
    nullifierRoot := load calldata (blk + 0x20)
    commitmentsRootRoot := load calldata (blk + 0x40)
    -- `verify_rollup_proof` does not read them
    transactions := []
    rollupProof := rollupProof }
  let (verified, feeSum) ← verifyRollupProof hs verifier s head hash
  guard verified
  let st ← (List.range (blockTransactionsLength calldata blk).toNat).foldlM
    (fun st i => processTransactionOf hs calldata blk st (BitVec.ofNat 256 i))
    ⟨s, feeSum, heap.1⟩
  guard (st.totalFee.toNat ≤ st.state.balance ∧ ctx.accepts)
  return { st.state with
    commitmentRoot := head.commitmentsRoot
    nullifierRoot := head.nullifierRoot
    historicRootsRoot := head.commitmentsRootRoot
    balance := st.state.balance - st.totalFee.toNat }

end

/-! ### The key is the one of the encoded data -/

section

variable {mem mem' : Memory} {data : WithdrawData} {ptr key : U256} {keccak256 : Bytes → U256}

/-- The words of a structure in memory. -/
def WithdrawData.words (data : WithdrawData) : List U256 :=
  [data.nfTokenId, data.recipientAddress.toWord, data.value, data.withdrawFundSalt]

/-- The words of the new structure, behind what was allocated. -/
theorem stored_newWithdrawData (hmem : FreeBehind mem)
    (h : newWithdrawData mem data = some (ptr, mem')) :
    mem'.Stored ptr.toNat data.words ∧ mem'.mload 0x40 = some (ptr + 0x80) ∧
      0x80 ≤ ptr.toNat ∧ Memory.Payable ptr 32 := by
  simp only [newWithdrawData, Option.bind_eq_bind, Option.bind_eq_some_iff, Option.pure_def,
    Option.some.injEq, Prod.mk.injEq] at h
  obtain ⟨free, hfree, m₀, h₀, m₁, h₁, m₂, h₂, m₃, h₃, m₄, h₄, rfl, rfl⟩ := h
  have hge := hmem free hfree
  have hpay : Memory.Payable free 32 := (Memory.mstore_eq_some.1 h₁).1
  have h32 : (free + 0x20).toNat = free.toNat + 32 := hpay.toNat_add (by norm_num)
  have h64 : (free + 0x40).toNat = free.toNat + 64 := hpay.toNat_add (by norm_num)
  have h96 : (free + 0x60).toNat = free.toNat + 96 := hpay.toNat_add (by norm_num)
  have hslot : (0x40 : U256).toNat = 64 := rfl
  refine ⟨?_, ?_, hge, hpay⟩
  · have hs₁ : m₁.Stored free.toNat _ := Memory.Stored.nil.mstore (by simp) h₁
    exact ((hs₁.mstore h32 h₂).mstore h64 h₃).mstore h96 h₄
  · -- the free pointer lies before all of them
    obtain ⟨hpay₀, rfl⟩ := Memory.mstore_eq_some.1 h₀
    rw [Memory.mload_mstore_of_le h₄ (by omega), Memory.mload_mstore_of_le h₃ (by omega),
      Memory.mload_mstore_of_le h₂ (by omega), Memory.mload_mstore_of_le h₁ (by omega)]
    exact Memory.mload_write mem hpay₀

/-- **The key that the assembly computes** is the hash of the encoded data. -/
theorem withdrawKeyOf_eq (hmem : FreeBehind mem) (hnew : newWithdrawData mem data = some (ptr, mem'))
    {mem'' : Memory} (h : withdrawKeyOf keccak256 mem' ptr = some (key, mem'')) :
    key = withdrawKey keccak256 data ∧ FreeBehind mem'' := by
  obtain ⟨hstored, hfree, hge, hpay⟩ := stored_newWithdrawData hmem hnew
  simp only [withdrawKeyOf, Option.bind_eq_bind, Option.bind_eq_some_iff, Option.pure_def,
    Option.some.injEq, Prod.mk.injEq] at h
  obtain ⟨memPtr, hmemPtr, v₁, hv₁, m₁, h₁, v₂, hv₂, m₂, h₂, v₃, hv₃, m₃, h₃, v₄, hv₄, m₄, h₄,
    _, hkey, rfl, rfl⟩ := h
  obtain rfl : ptr + 0x80 = memPtr := Option.some.inj (hfree.symm.trans hmemPtr)
  -- no pointer wraps around
  have hto : (ptr + 0x80).toNat = ptr.toNat + 128 := hpay.toNat_add (by norm_num)
  have hpay' : Memory.Payable (ptr + 0x80) 32 := (Memory.mstore_eq_some.1 h₁).1
  have hsrc {k : ℕ} (hk : k ≤ 2 ^ 64) : (ptr + BitVec.ofNat 256 k).toNat = ptr.toNat + k :=
    hpay.toNat_add hk
  have hdst {k : ℕ} (hk : k ≤ 2 ^ 64) :
      (ptr + 0x80 + BitVec.ofNat 256 k).toNat = (ptr + 0x80).toNat + k := hpay'.toNat_add hk
  have hlen : ptr.toNat + 32 * data.words.length ≤ (ptr + 0x80).toNat := by
    rw [hto]
    exact le_rfl
  obtain ⟨hs₁, hd₁⟩ := Memory.Stored.copy [] hstored Memory.Stored.nil hlen (by simp)
    (by simp) hv₁ h₁
  obtain ⟨hs₂, hd₂⟩ := Memory.Stored.copy [_] hs₁ hd₁ hlen (hsrc (by norm_num))
    (hdst (by norm_num)) hv₂ h₂
  obtain ⟨hs₃, hd₃⟩ := Memory.Stored.copy [_, _] hs₂ hd₂ hlen (hsrc (by norm_num))
    (hdst (by norm_num)) hv₃ h₃
  obtain ⟨-, hd₄⟩ := Memory.Stored.copy [_, _, _] hs₃ hd₃ hlen (hsrc (by norm_num))
    (hdst (by norm_num)) hv₄ h₄
  constructor
  · obtain ⟨-, rfl⟩ := Memory.keccak256_eq_some.1 hkey
    exact congrArg keccak256 hd₄
  · intro free hload
    have hslot : (0x40 : U256).toNat = 64 := rfl
    have h32 : (ptr + 0x80 + 32).toNat = (ptr + 0x80).toNat + 32 := hdst (by norm_num)
    have h64 : (ptr + 0x80 + 64).toNat = (ptr + 0x80).toNat + 64 := hdst (by norm_num)
    have h96 : (ptr + 0x80 + 96).toNat = (ptr + 0x80).toNat + 96 := hdst (by norm_num)
    rw [Memory.mload_mstore_of_le h₄ (by omega), Memory.mload_mstore_of_le h₃ (by omega),
      Memory.mload_mstore_of_le h₂ (by omega), Memory.mload_mstore_of_le h₁ (by omega), hfree,
      Option.some.injEq] at hload
    rw [← hload]
    omega

end

/-! ### The words are those of the decoded transactions -/

section

variable {hs : Hashes} {calldata : Bytes} {blk : U256} {array : U256 × U256}

theorem length_transactionsArray (h : transactionsArray calldata blk = some array) :
    array.2 = blockTransactionsLength calldata blk ∧ array.2 ≤ maxLength :=
  (eq_of_accessCalldataTail h).2

/-- An offset from the length of the array, and one from the transaction. -/
theorem wordOf_eq (h : transactionsArray calldata blk = some array) (i offset : U256) :
    wordOf calldata blk i (0x20 + offset) =
      load calldata (array.1 + i * transactionSize + offset) := by
  rw [wordOf, (eq_of_accessCalldataTail h).1, transactionSize]
  congr 1
  ring

theorem publicDataOf_eq (h : transactionsArray calldata blk = some array) (i : U256) (j : Fin 4) :
    publicDataOf calldata blk i (BitVec.ofNat 256 j) =
      (transactionAt calldata (array.1 + i * transactionSize)).publicData j := by
  have hj : BitVec.ofNat 256 j * 0x20 = BitVec.ofNat 256 (0x20 * j) := by
    rw [Nat.mul_comm, BitVec.ofNat_mul]
    rfl
  simp only [publicDataOf, transactionAt, loadWords, hj, (eq_of_accessCalldataTail h).1,
    transactionSize]
  congr 1
  ring

/-- The words that the assembly loads for index `i` are those of `txn`. -/
structure Reads (calldata : Bytes) (blk i : U256) (txn : OnChainTransaction) : Prop where
  isDeposit_iff : isDeposit calldata blk i = true ↔ txn.nullifiers 0 = 0
  isDummyDeposit_iff : isDummyDeposit calldata blk i = true ↔ txn.publicData 0 = 0
  publicData_eq : ∀ j : Fin 4, publicDataOf calldata blk i (BitVec.ofNat 256 j) = txn.publicData j
  isWithdraw_iff : isWithdraw calldata blk i = true ↔
    txn.commitments 0 = 0 ∧ txn.nullifiers 0 ≠ 0

theorem reads_transactionAt (h : transactionsArray calldata blk = some array) (i : U256) :
    Reads calldata blk i (transactionAt calldata (array.1 + i * transactionSize)) := by
  -- the first word of a field
  have hzero (addr : U256) : loadWords calldata addr 0 = load calldata addr :=
    congrArg (load calldata) (BitVec.add_zero addr)
  have hnullifier : wordOf calldata blk i 0xC0 =
      (transactionAt calldata (array.1 + i * transactionSize)).nullifiers 0 :=
    (wordOf_eq h i 0xA0).trans (hzero _).symm
  have hcommitment : wordOf calldata blk i 0x40 =
      (transactionAt calldata (array.1 + i * transactionSize)).commitments 0 :=
    (wordOf_eq h i 0x20).trans (hzero _).symm
  have hdata : wordOf calldata blk i 0x140 =
      (transactionAt calldata (array.1 + i * transactionSize)).publicData 0 :=
    (wordOf_eq h i 0x120).trans (hzero _).symm
  refine ⟨?_, ?_, publicDataOf_eq h i, ?_⟩
  · rw [isDeposit, hnullifier, decide_eq_true_iff]
  · rw [isDummyDeposit, hdata, decide_eq_true_iff]
  · rw [isWithdraw, hnullifier, hcommitment]
    simp

theorem transactionOf_eq_some {i : U256} {txn : OnChainTransaction}
    (h : transactionsArray calldata blk = some array) :
    transactionOf calldata blk i = some txn ↔
      i < array.2 ∧ transactionAt calldata (array.1 + i * transactionSize) = txn := by
  simp only [transactionOf, h, Option.bind_eq_bind, Option.bind_some, Option.bind_eq_some_iff,
    Option.pure_def, Option.some.injEq, indexAccess_eq_some]
  constructor
  · rintro ⟨_, ⟨hi, rfl⟩, rfl⟩
    exact ⟨hi, rfl⟩
  · rintro ⟨hi, rfl⟩
    exact ⟨_, ⟨hi, rfl⟩, rfl⟩

theorem length_transactionsOf : (transactionsOf calldata array).length = array.2.toNat := by
  simp [transactionsOf]

/-- The entries of the array are what its elements decode to. -/
theorem transactionOf_of_getElem? {i : ℕ} {txn : OnChainTransaction}
    (h : transactionsArray calldata blk = some array)
    (htxn : (transactionsOf calldata array)[i]? = some txn) :
    transactionOf calldata blk (BitVec.ofNat 256 i) = some txn ∧
      Reads calldata blk (BitVec.ofNat 256 i) txn := by
  simp only [transactionsOf, List.getElem?_map, Option.map_eq_some_iff, List.getElem?_eq_some_iff,
    List.length_range, List.getElem_range] at htxn
  obtain ⟨_, ⟨hi, rfl⟩, rfl⟩ := htxn
  refine ⟨(transactionOf_eq_some h).2 ⟨?_, rfl⟩, reads_transactionAt h _⟩
  rw [BitVec.lt_def, BitVec.toNat_ofNat, Nat.mod_eq_of_lt (hi.trans array.2.isLt)]
  exact hi

/-! ### The loop -/

/-- A step on calldata is a step on the transaction. -/
theorem processTransaction_of_processTransactionOf {st st' : LoopState} {i : U256}
    (h : transactionsArray calldata blk = some array) (hmem : FreeBehind st.mem)
    (hstep : processTransactionOf hs calldata blk st i = some st') :
    processTransaction hs (st.state, st.totalFee)
        (transactionAt calldata (array.1 + i * transactionSize)) = some (st'.state, st'.totalFee) ∧
      FreeBehind st'.mem := by
  have hreads := reads_transactionAt h i
  rw [processTransactionOf] at hstep
  rw [processTransaction]
  split_ifs at hstep with hdeposit hdummy hwithdraw
  · -- a deposit that is padding
    rw [if_pos (hreads.isDeposit_iff.1 hdeposit), if_pos (hreads.isDummyDeposit_iff.1 hdummy)]
    cases hstep
    exact ⟨rfl, hmem⟩
  · rw [if_pos (hreads.isDeposit_iff.1 hdeposit), if_neg (mt hreads.isDummyDeposit_iff.2 hdummy)]
    simp only [Option.bind_eq_bind, Option.bind_eq_some_iff, Option.pure_def,
      Option.some.injEq] at hstep
    obtain ⟨redeemed, hredeemed, rfl⟩ := hstep
    refine ⟨?_, hmem⟩
    have hwords : List.ofFn (transactionAt calldata (array.1 + i * transactionSize)).publicData =
        (List.finRange 4).map fun j => publicDataOf calldata blk i (BitVec.ofNat 256 j) := by
      rw [List.ofFn_eq_map]
      exact List.map_congr_left fun j _ => (hreads.publicData_eq j).symm
    rw [hwords, List.foldlM_map]
    exact hredeemed
  · rw [if_neg (mt hreads.isDeposit_iff.2 hdeposit), if_pos (hreads.isWithdraw_iff.1 hwithdraw).1]
    simp only [Option.bind_eq_bind, Option.bind_eq_some_iff, Option.pure_def,
      Option.some.injEq] at hstep
    obtain ⟨txn, htxn, data, hdata, key, hkey, _, hfresh, rfl⟩ := hstep
    obtain ⟨-, rfl⟩ := (transactionOf_eq_some h).1 htxn
    obtain ⟨hkey, hmem'⟩ := withdrawKeyOf_eq hmem hdata hkey
    refine ⟨?_, hmem'⟩
    rw [hkey] at hfresh
    rw [includeWithdraw, if_pos (by simpa [guard] using hfresh), hkey]
    rfl
  · -- a transfer
    have hcommitment : (transactionAt calldata (array.1 + i * transactionSize)).commitments 0 ≠ 0 :=
      fun hc => hwithdraw (hreads.isWithdraw_iff.2 ⟨hc, mt hreads.isDeposit_iff.2 hdeposit⟩)
    rw [if_neg (mt hreads.isDeposit_iff.2 hdeposit), if_neg hcommitment]
    cases hstep
    exact ⟨rfl, hmem⟩

theorem processTransactions_of_processTransactionOf {st st' : LoopState}
    (h : transactionsArray calldata blk = some array) (hmem : FreeBehind st.mem)
    (hrun : (List.range array.2.toNat).foldlM
      (fun st i => processTransactionOf hs calldata blk st (BitVec.ofNat 256 i)) st = some st') :
    (transactionsOf calldata array).foldlM (processTransaction hs) (st.state, st.totalFee) =
      some (st'.state, st'.totalFee) := by
  rw [transactionsOf]
  -- a run over any indices
  generalize List.range array.2.toNat = is at hrun ⊢
  induction is generalizing st with
  | nil =>
    cases hrun
    rfl
  | cons i is ih =>
    rw [List.foldlM_cons, Option.bind_eq_bind, Option.bind_eq_some_iff] at hrun
    obtain ⟨st₁, hstep, hrun⟩ := hrun
    obtain ⟨hstep, hmem⟩ := processTransaction_of_processTransactionOf h hmem hstep
    rw [List.map_cons, List.foldlM_cons, hstep]
    exact ih hmem hrun

/-- The block, where both of its arrays are found. -/
theorem decodeBlock_eq {proof : Bytes} (h : transactionsArray calldata blk = some array)
    (hproof : rollupProofOf calldata blk = some proof) :
    decodeBlock calldata blk = some {
      commitmentsRoot := load calldata blk
      nullifierRoot := load calldata (blk + 0x20)
      commitmentsRootRoot := load calldata (blk + 0x40)
      transactions := transactionsOf calldata array
      rollupProof := proof } := by
  rw [decodeBlock, h, hproof]
  rfl

/-! ### The call -/

/-- What a list of computations gives if each gives `g` where it succeeds. -/
theorem eq_map_of_mapM {α β : Type} {f : α → Option β} {g : α → β}
    (hf : ∀ a b, f a = some b → b = g a) {l : List α} {bs : List β} (h : l.mapM f = some bs) :
    bs = l.map g ∧ ∀ a ∈ l, ∃ b, f a = some b := by
  induction l generalizing bs with
  | nil =>
    cases h
    exact ⟨rfl, fun a ha => absurd ha List.not_mem_nil⟩
  | cons a l ih =>
    simp only [List.mapM_cons, Option.bind_eq_bind, Option.bind_eq_some_iff, Option.pure_def,
      Option.some.injEq] at h
    obtain ⟨b, hb, bs, hbs, rfl⟩ := h
    obtain ⟨rfl, hl⟩ := ih hbs
    exact ⟨by rw [hf a b hb, List.map_cons], List.forall_mem_cons.2 ⟨⟨b, hb⟩, hl⟩⟩

/-- Where there is a first hash, the array of the transactions was decoded. -/
theorem exists_array_of_transactionHashesOf {hashes : List U256}
    (h : transactionHashesOf hs calldata blk = some hashes) (hne : hashes.length ≠ 0) :
    ∃ array, transactionsArray calldata blk = some array ∧
      hashes = (transactionsOf calldata array).map (hashTransaction hs.sha256) := by
  simp only [transactionHashesOf, Option.bind_eq_bind, Option.bind_eq_some_iff] at h
  obtain ⟨-, -, h⟩ := h
  cases harray : transactionsArray calldata blk with
  | none =>
    -- then no transaction is read
    have hnone (i : U256) : transactionOf calldata blk i = none := by
      rw [transactionOf, harray]
      rfl
    obtain ⟨rfl, hall⟩ := eq_map_of_mapM (g := fun _ => 0)
      (fun i b hb => by simp [hnone] at hb) h
    rw [List.length_map, List.length_range] at hne
    obtain ⟨b, hb⟩ := hall 0 (List.mem_range.2 (Nat.pos_of_ne_zero hne))
    simp [hnone] at hb
  | some array =>
    refine ⟨array, rfl, ?_⟩
    rw [transactionsOf, List.map_map, (length_transactionsArray harray).1]
    refine (eq_map_of_mapM (fun i b hb => ?_) h).1
    rw [Option.bind_eq_some_iff] at hb
    obtain ⟨txn, htxn, hb⟩ := hb
    cases hb
    rw [← ((transactionOf_eq_some harray).1 htxn).2]
    rfl

theorem foldHashes_map (txs : List OnChainTransaction) :
    foldHashes hs (txs.map (hashTransaction hs.sha256)) = publicHash hs.sha256 txs := by
  rw [foldHashes, publicHash, List.length_map]
  rfl

/-- The verifier gets the proof and the roots of a block. -/
theorem verifyRollupProof_congr {verifier : Verifier} {s : State} {blk blk' : Block} (hash : U256)
    (hproof : blk.rollupProof = blk'.rollupProof)
    (hcommitments : blk.commitmentsRoot = blk'.commitmentsRoot)
    (hnullifier : blk.nullifierRoot = blk'.nullifierRoot)
    (hroots : blk.commitmentsRootRoot = blk'.commitmentsRootRoot) :
    verifyRollupProof hs verifier s blk hash = verifyRollupProof hs verifier s blk' hash := by
  simp only [verifyRollupProof, hproof, hcommitments, hnullifier, hroots]

/-- **The contract executes the block that it hashes.**  A call that does not revert has calldata with
a block in it; the length and the words that the assembly loads are those of the transactions of the
block, whose hashes are taken; and the call does to the state what `proposeBlock` does for the block.
The key of a withdraw is the one under which it is looked up later. -/
theorem proposeBlock_of_proposeBlockCall {verifier : Verifier} {ctx : ProposeContext} {s s' : State}
    {heap : Heap} (h : proposeBlockCall hs calldata verifier ctx s heap = some s') :
    (∃ ptr blk, decodeStruct calldata 0xA0 = some ptr ∧ decodeBlock calldata ptr = some blk ∧
      (blockTransactionsLength calldata ptr).toNat = blk.transactions.length ∧
      transactionHashesOf hs calldata ptr =
        some (blk.transactions.map (hashTransaction hs.sha256)) ∧
      (∀ i txn, blk.transactions[i]? = some txn →
        transactionOf calldata ptr (BitVec.ofNat 256 i) = some txn ∧
          Reads calldata ptr (BitVec.ofNat 256 i) txn) ∧
      proposeBlock hs verifier ctx s blk = some s') ∧
    ∀ data mem mem' mem'' ptr key, FreeBehind mem → newWithdrawData mem data = some (ptr, mem') →
      withdrawKeyOf hs.keccak256 mem' ptr = some (key, mem'') →
      key = withdrawKey hs.keccak256 data ∧
        (∀ call : DescrowCall, call.data = data → call.key hs = key) ∧
        ∀ s : State, withdrawProcessed hs s data = decide (s.withdrawalIncluded key = 1) := by
  refine ⟨?_, fun data mem mem' mem'' ptr key hmem hnew hkey => ?_⟩
  · simp only [proposeBlockCall, Option.bind_eq_bind, Option.bind_eq_some_iff, Option.pure_def,
      Option.some.injEq] at h
    obtain ⟨ptr, hptr, _, hctx, hashes, hhashes, hash, hhash, proof, hproof, ⟨verified, feeSum⟩,
      hverify, _, hverified, st, hrun, _, hpaid, rfl⟩ := h
    have hne : hashes.length ≠ 0 := by
      intro hzero
      simp [foldHashes, hzero] at hhash
    obtain ⟨array, harray, hmap⟩ := exists_array_of_transactionHashesOf hhashes hne
    have hlength := (length_transactionsArray harray).1
    rw [← hlength] at hrun
    have hfree : FreeBehind (⟨s, feeSum, heap.1⟩ : LoopState).mem := heap.2
    have hrun := processTransactions_of_processTransactionOf harray hfree hrun
    refine ⟨ptr, _, hptr, decodeBlock_eq harray hproof, ?_, ?_,
      fun i txn => transactionOf_of_getElem? harray, ?_⟩
    · rw [length_transactionsOf, hlength]
    · rw [hhashes, hmap]
    · rw [hmap, foldHashes_map] at hhash
      simp only [proposeBlock, Option.bind_eq_bind, Option.bind_eq_some_iff]
      refine ⟨_, hctx, hash, hhash, (verified, feeSum), ?_, _, hverified, _, hrun, _, hpaid, rfl⟩
      rw [← hverify]
      exact verifyRollupProof_congr hash rfl rfl rfl rfl
  · obtain ⟨rfl, -⟩ := withdrawKeyOf_eq hmem hnew hkey
    exact ⟨rfl, fun call hcall => by rw [DescrowCall.key, hcall], fun s => rfl⟩

end

/-! ### A call -/

/-- The calldata of a block with one transaction, a withdraw. -/
def withdrawCalldata : Bytes :=
  [0, 0, 0, 0] ++ abiEncode ([0x20, 1, 2, 3, 0xA0, 0x260] ++
    [1, 0, 0, 0, 0, 0, 9, 0, 0, 0, 5, 6, 7, 0] ++ 288 :: List.replicate 9 0)

/-- The memory after the preamble of a contract. -/
def freshHeap : Heap :=
  ⟨Memory.empty.write (0x40 : U256).toNat (toBytesBE 0x80), fun free h => by
    rw [Memory.mload_write _ (by decide), Option.some.injEq] at h
    rw [← h]
    decide⟩

/-- A contract without deposits and withdraws. -/
def freshState : State := ⟨fun _ => ⟨0, 0, 0⟩, fun _ => 0, fun _ => ⟨0, 0⟩, 0, 0, 0, 0, 0, 0⟩

/-- A call with `withdrawCalldata` that does not revert, and whose key is found later. -/
theorem proposeBlock_of_proposeBlockCall_withdraw :
    let hs : Hashes := ⟨fun _ => 0, fun bs => BitVec.ofNat 256 bs.length⟩
    let ctx : ProposeContext := ⟨0, true, 0, true⟩
    ∃ s' ptr blk,
      proposeBlockCall hs withdrawCalldata (fun _ _ _ => true) ctx freshState freshHeap = some s' ∧
      decodeBlock withdrawCalldata ptr = some blk ∧
      proposeBlock hs (fun _ _ _ => true) ctx freshState blk = some s' := by
  have hsome : (proposeBlockCall ⟨fun _ => 0, fun bs => BitVec.ofNat 256 bs.length⟩ withdrawCalldata
      (fun _ _ _ => true) ⟨0, true, 0, true⟩ freshState freshHeap).isSome := by decide +kernel
  obtain ⟨s', hs'⟩ := Option.isSome_iff_exists.1 hsome
  obtain ⟨⟨ptr, blk, -, hdecode, -, -, -, hpropose⟩, -⟩ := proposeBlock_of_proposeBlockCall hs'
  exact ⟨s', ptr, blk, hs', hdecode, hpropose⟩

end Contract

end Nightfall
