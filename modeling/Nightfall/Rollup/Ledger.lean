import Nightfall.Contract.Roots
import Nightfall.Contract.Deposits
import Nightfall.Rollup.Honest
import Mathlib.Data.List.Iterate

/-!
# The trees behind the contract

The contract stores three roots and sees no leaf.  The verifier binds a block to a satisfied recursion
with the eight public inputs of the block (`Proven`); what the recursion accounts for then carries over
to the contract:

* `rollupBlock_binds` : the public inputs bind the transactions of a block, up to the signs of the
  ephemeral keys;
* `trees_only_grow` : along every run, in which calls may interleave with each other as they like, the
  stored roots are those of trees to which leaves were added at empty places only.  Subtrees of
  commitments that were inserted stay, and so does the root of every block in the tree of the historic
  roots.
-/

namespace Nightfall

namespace Rollup

open Plonk Evm Contract Merkle Trees

/-! ### One block -/

section Block

variable {maps : FieldMaps} {sha256 : Bytes → U256} {lib : TreeLibrary} {rootMProofLength m : ℕ}
  {ts : List (Fin 18 → Fr254)} {out : Fin 8 → Fr254} {cs ns : List Insertion}
  {path : List (PathElement Fr254)}

/-- The hash of a block is the public hash of the transactions of its client proofs. -/
theorem RollupBlock.exists_publicHash
    (h : RollupBlock maps sha256 lib rootMProofLength m ts out cs ns path) :
    ∃ txs, List.Forall₂ Presents ts txs ∧ txs.length = 2 ^ (2 * (m + 2)) ∧
      publicHash sha256 txs = some (toWord (out 1)) := by
  obtain ⟨haccounts, -⟩ := h.accounts lib.enforces_true
  obtain ⟨txs, htxs, hhash⟩ := haccounts.hash
  have hlength : txs.length = 2 ^ (2 * (m + 2)) := htxs.length_eq.symm.trans haccounts.length
  have hout : out 1 = ofWord (blockHash sha256 (2 * (m + 2)) txs) := hhash
  refine ⟨txs, htxs, hlength, ?_⟩
  rw [hout, toWord_ofWord (blockHash_lt_frModulus (by omega) txs), publicHash_eq_blockHash hlength]

/-- **The public inputs of a block bind its transactions and the sum of their fees**: the hash is the
public hash that the contract computes for the client proofs of the recursion, and of no other block of
that length, as long as the hash has no collision. -/
theorem rollupBlock_binds (h : RollupBlock maps sha256 lib rootMProofLength m ts out cs ns path) :
    ts.length = 4 ^ (m + 2) ∧
    ((ts.map fun t => (t 0).val).sum < frModulus → (out 0).val = (ts.map fun t => (t 0).val).sum) ∧
    ∃ txs, List.Forall₂ Presents ts txs ∧ publicHash sha256 txs = some (toWord (out 1)) ∧
      ∀ txs', txs'.length = txs.length → publicHash sha256 txs' = some (toWord (out 1)) →
        Set.InjOn (sha256AndShift sha256)
          (publicHashInputs sha256 txs ∪ publicHashInputs sha256 txs') →
        List.Forall₂ OnChainTransaction.Agree txs txs' := by
  obtain ⟨haccounts, -⟩ := h.accounts lib.enforces_true
  obtain ⟨txs, htxs, hlength, hpublic⟩ := h.exists_publicHash
  refine ⟨by rw [haccounts.length, pow_mul]; rfl, haccounts.fees, txs, htxs, hpublic, ?_⟩
  intro txs' hlength' hpublic' hinj
  exact boundByProof_two_pow _ sha256 txs txs' hlength (hlength'.trans hlength) hinj
    (hpublic.trans hpublic'.symm)

/-! #### A hash without collisions -/

/-- A hash that numbers pairs of words, and the strings of a list. -/
def pairHash (known : List Bytes) (bs : Bytes) : U256 :=
  BitVec.ofNat 256 (if bs.length = 64 then
      2 * Nat.pair (fromBytesBE (bs.take 32)).toNat (fromBytesBE (bs.drop 32)).toNat + 1
    else 2 * known.idxOf bs) <<< 4

section PairHash

variable {known : List Bytes}

theorem toNat_shifted {n : ℕ} (h : n < 2 ^ 252) :
    ((BitVec.ofNat 256 n <<< 4 : U256) >>> 4).toNat = n := by
  have hn : (BitVec.ofNat 256 n).toNat = n := by
    rw [BitVec.toNat_ofNat]
    exact Nat.mod_eq_of_lt (h.trans (by norm_num))
  rw [shiftLeft_shiftRight_four (by rwa [hn]), hn]

theorem pairHash_pair {x y : U256} {k : ℕ} (hx : x.toNat < 2 ^ k) (hy : y.toNat < 2 ^ k)
    (hk : k ≤ 125) :
    (hashPair (pairHash known) x y).toNat = 2 * Nat.pair x.toNat y.toNat + 1 ∧
      (hashPair (pairHash known) x y).toNat < 2 ^ (2 * k + 1) := by
  have hpair : Nat.pair x.toNat y.toNat < (2 ^ k) ^ 2 :=
    (Nat.pair_lt_max_add_one_sq _ _).trans_le (Nat.pow_le_pow_left (max_lt hx hy) 2)
  rw [← pow_mul, Nat.mul_comm] at hpair
  have hlarge : (2 : ℕ) ^ (2 * k) ≤ 2 ^ 250 := Nat.pow_le_pow_right two_pos (by omega)
  have hlen : (abiEncode [x, y]).length = 64 := length_abiEncode _
  have htake : (abiEncode [x, y]).take 32 = toBytesBE x := by simp [abiEncode]
  have hdrop : (abiEncode [x, y]).drop 32 = toBytesBE y := by simp [abiEncode]
  have hvalue : (hashPair (pairHash known) x y).toNat = 2 * Nat.pair x.toNat y.toNat + 1 := by
    rw [Contract.hashPair, sha256AndShift, pairHash, if_pos hlen, htake, hdrop, fromBytesBE_toBytesBE,
      fromBytesBE_toBytesBE]
    exact toNat_shifted (by omega)
  exact ⟨hvalue, by rw [hvalue, pow_succ]; omega⟩

theorem pairHash_known {bs : Bytes} (h : bs.length ≠ 64) (hknown : known.length < 2 ^ 250) :
    (sha256AndShift (pairHash known) bs).toNat = 2 * known.idxOf bs := by
  rw [sha256AndShift, pairHash, if_neg h]
  have hle := List.idxOf_le_length (a := bs) (l := known)
  exact toNat_shifted (by omega)

/-- The numbers double their length from row to row. -/
theorem foldPairs_small {k n : ℕ} {f : ℕ → U256} (hf : ∀ i, (f i).toNat < 2 ^ k)
    (hk : (k + 1) * n ≤ 126) : ∀ q ∈ foldPairs (hashPair (pairHash known)) n f,
      q.1.toNat < 2 ^ 62 ∧ q.2.toNat < 2 ^ 62 := by
  induction n using Nat.strong_induction_on generalizing k f with
  | _ n ih =>
    rcases Nat.lt_or_ge 1 n with hn | hn
    · have hk62 : k ≤ 62 := by nlinarith
      have hlt : ∀ i, (f i).toNat < 2 ^ 62 := fun i =>
        (hf i).trans_le (Nat.pow_le_pow_right two_pos hk62)
      rw [foldPairs_of_lt hn]
      rintro q (⟨i, -, rfl⟩ | hq)
      · exact ⟨hlt _, hlt _⟩
      · refine ih (n / 2) (by omega) (fun i => (pairHash_pair (hf _) (hf _) (by omega)).2) ?_ q hq
        calc (2 * k + 1 + 1) * (n / 2) = (k + 1) * (2 * (n / 2)) := by ring
          _ ≤ (k + 1) * n := Nat.mul_le_mul_left _ (by omega)
          _ ≤ 126 := hk
    · rw [foldPairs_of_le hn]
      exact fun q hq => absurd hq (Set.notMem_empty q)

/-- No two of these strings collide. -/
theorem injOn_pairHash (hlength : ∀ bs ∈ known, bs.length ≠ 64) (hknown : known.length < 2 ^ 250) :
    Set.InjOn (sha256AndShift (pairHash known)) ({bs | bs ∈ known} ∪
      {bs | ∃ x y : U256, x.toNat < 2 ^ 62 ∧ y.toNat < 2 ^ 62 ∧ bs = abiEncode [x, y]}) := by
  -- strings of the list have even numbers, and pairs have odd ones
  rintro a (ha | ⟨x, y, hx, hy, rfl⟩) b (hb | ⟨x', y', hx', hy', rfl⟩) he
  all_goals replace he := congrArg BitVec.toNat he
  · rw [pairHash_known (hlength a ha) hknown, pairHash_known (hlength b hb) hknown] at he
    exact (List.idxOf_inj ha).1 (by omega)
  · have hpair := (@pairHash_pair known x' y' 62 hx' hy' (by norm_num)).1
    rw [Contract.hashPair, ← he, pairHash_known (hlength a ha) hknown] at hpair
    omega
  · have hpair := (@pairHash_pair known x y 62 hx hy (by norm_num)).1
    rw [Contract.hashPair, he, pairHash_known (hlength b hb) hknown] at hpair
    omega
  · have hpair := (@pairHash_pair known x y 62 hx hy (by norm_num)).1
    have hpair' := (@pairHash_pair known x' y' 62 hx' hy' (by norm_num)).1
    rw [Contract.hashPair] at hpair hpair'
    obtain ⟨h₁, h₂⟩ := Nat.pair_eq_pair.1 (show Nat.pair x.toNat y.toNat = Nat.pair x'.toNat y'.toNat by
      omega)
    rw [BitVec.eq_of_toNat_eq h₁, BitVec.eq_of_toNat_eq h₂]

/-- The strings that are hashed for sixteen transactions of the list. -/
theorem publicHashInputs_pairHash {txs : List OnChainTransaction} (hlen : txs.length = 16)
    (hlength : ∀ bs ∈ known, bs.length ≠ 64) (hfour : known.length ≤ 4)
    (htxs : ∀ tx ∈ txs, abiEncode tx.words ∈ known) :
    publicHashInputs (pairHash known) txs ⊆ {bs | bs ∈ known} ∪
      {bs | ∃ x y : U256, x.toNat < 2 ^ 62 ∧ y.toNat < 2 ^ 62 ∧ bs = abiEncode [x, y]} := by
  have hrow : ∀ i, (transactionHashes (pairHash known) txs i).toNat < 2 ^ 3 := by
    intro i
    rcases Nat.lt_or_ge i txs.length with hi | hi
    · have hmem := htxs _ (List.getElem_mem hi)
      rw [transactionHashes_of_lt hi, hashTransaction, pairHash_known (hlength _ hmem)
        (hfour.trans_lt (by norm_num))]
      have hlt := List.idxOf_lt_length_of_mem hmem
      omega
    · rw [transactionHashes, List.getD_eq_default _ _ (by rwa [List.length_map])]
      exact Nat.two_pow_pos 3
  rintro bs (⟨tx, htx, rfl⟩ | ⟨q, hq, rfl⟩)
  · exact Or.inl (htxs tx htx)
  · obtain ⟨h₁, h₂⟩ := foldPairs_small hrow (by rw [hlen]; norm_num) q hq
    exact Or.inr ⟨_, _, h₁, h₂, rfl⟩

end PairHash

/-- The encodings of the transactions of a block with a transfer: of either sign. -/
def sampleEncodings : List Bytes :=
  [abiEncode (onChain transferInputs false).words, abiEncode (onChain transferInputs true).words,
    abiEncode (onChain paddingInputs false).words, abiEncode (onChain paddingInputs true).words]

theorem exists_presented {ts : List (Fin 18 → Fr254)} {txs : List OnChainTransaction}
    (h : List.Forall₂ Presents ts txs) {tx : OnChainTransaction} (htx : tx ∈ txs) :
    ∃ pis ∈ ts, Presents pis tx := by
  obtain ⟨i, hi, rfl⟩ := List.mem_iff_getElem.1 htx
  have hi' : i < ts.length := h.length_eq ▸ hi
  exact ⟨ts[i], List.getElem_mem hi', (List.forall₂_iff_get.1 h).2 i hi' hi⟩

theorem mem_sampleEncodings {pis : Fin 18 → Fr254} {tx : OnChainTransaction}
    (hpis : pis ∈ sampleTransactions) (h : Presents pis tx) : abiEncode tx.words ∈ sampleEncodings := by
  obtain ⟨bit, rfl⟩ := h
  rcases List.mem_cons.1 hpis with rfl | hpis
  · cases bit <;> simp [sampleEncodings]
  · obtain rfl := List.eq_of_mem_replicate hpis
    cases bit <;> simp [sampleEncodings]

theorem length_sampleEncodings : ∀ bs ∈ sampleEncodings, bs.length ≠ 64 := by
  simp only [sampleEncodings, List.forall_mem_cons, length_abiEncode,
    length_words]
  decide

/-- A block with a transfer binds its transactions among all blocks of such transactions, and its
fee. -/
theorem rollupBlock_binds_sample : ∃ (out : Fin 8 → Fr254) (txs : List OnChainTransaction),
    (out 0).val = 5 ∧ List.Forall₂ Presents sampleTransactions txs ∧
      publicHash (pairHash sampleEncodings) txs = some (toWord (out 1)) ∧
      ∀ txs', txs'.length = 16 → (∀ tx ∈ txs', abiEncode tx.words ∈ sampleEncodings) →
        publicHash (pairHash sampleEncodings) txs' = some (toWord (out 1)) →
        List.Forall₂ OnChainTransaction.Agree txs txs' := by
  obtain ⟨out, hblock, hfee, -⟩ := exists_sample_block (pairHash sampleEncodings)
  obtain ⟨-, -, txs, htxs, hpublic, hbinds⟩ := rollupBlock_binds hblock
  have hlen : txs.length = 16 := htxs.length_eq.symm
  refine ⟨out, txs, hfee, htxs, hpublic, fun txs' hlen' htxs' hpublic' => ?_⟩
  refine hbinds txs' (hlen'.trans hlen.symm) hpublic' ?_
  refine (injOn_pairHash length_sampleEncodings (by decide)).mono (Set.union_subset ?_ ?_)
  · refine publicHashInputs_pairHash hlen length_sampleEncodings le_rfl fun tx htx => ?_
    obtain ⟨pis, hpis, h⟩ := exists_presented htxs htx
    exact mem_sampleEncodings hpis h
  · exact publicHashInputs_pairHash hlen' length_sampleEncodings le_rfl htxs'

end Block

/-! ### Roots -/

theorem ofWord_toWord (x : Fr254) : ofWord (toWord x) = x := by
  have hlt : x.val < 2 ^ 256 := (ZMod.val_lt x).trans (by norm_num [frModulus])
  rw [ofWord, toWord, BitVec.toNat_ofNat, Nat.mod_eq_of_lt hlt, ZMod.natCast_zmod_val]

/-- Words of field elements are different. -/
theorem toWord_injective : Function.Injective (toWord : Fr254 → U256) :=
  Function.LeftInverse.injective ofWord_toWord

/-- The eight public inputs of a block that speak of fees, transactions and roots. -/
def blockInputs (s : State) (blk : Block) (hash : U256) : List U256 :=
  [fromBytesBE (blk.rollupProof.take 32), hash, s.commitmentRoot, blk.commitmentsRoot, s.nullifierRoot,
    blk.nullifierRoot, s.historicRootsRoot, blk.commitmentsRootRoot]

/-- What a block does to the trees, which the contract does not see: the insertions into both trees,
and the path in the tree of the historic roots. -/
structure Receipt where
  commitments : List Insertion
  nullifiers : List Insertion
  path : List (PathElement Fr254)

/-- A block whose public inputs in `s` are the outputs of a satisfied recursion, with the insertions and
the path of `r`. -/
def Proven (maps : FieldMaps) (hs : Hashes) (lib : TreeLibrary) (rootMProofLength : ℕ) (s : State)
    (blk : Block) (r : Receipt) : Prop :=
  ∃ m ts out hash,
    RollupBlock maps hs.sha256 lib rootMProofLength m ts out r.commitments r.nullifiers r.path ∧
    publicHash hs.sha256 blk.transactions = some hash ∧
    blockInputs s blk hash = List.ofFn fun j => toWord (out j)

/-- The new leaf of the tree of the historic roots: the commitment root of the block, in the place of a
zero. -/
def Receipt.leaf (r : Receipt) (blk : Block) : Replacement Fr254 := ⟨r.path, 0, ofWord blk.commitmentsRoot⟩

/-- The insertions of a block as replacements of empty subtrees. -/
theorem replacementChain_of_appends {poseidon : List Fr254 → Fr254} {cs : List Insertion}
    {root last : Fr254} (hcs : ∀ i ∈ cs, i.Appends poseidon)
    (h : RootsChain Insertion.oldRoot Insertion.newRoot root cs last) :
    ReplacementChain (nodeHash poseidon) commitmentTreeHeight root
      (cs.map (Insertion.replacement poseidon)) last := by
  induction cs generalizing root with
  | nil => exact h
  | cons i cs ih =>
    obtain ⟨hi, hcs⟩ := List.forall_mem_cons.1 hcs
    refine ⟨hi.length, hi.oldRoot.trans h.1, ?_⟩
    rw [hi.newRoot]
    exact ih hcs h.2

/-- The insertions `cs` and `ns` and the new leaves `leaves` lead from three roots to those of `s`. -/
structure Leads (lib : TreeLibrary) (nullifiers : Insertion → Prop) (height : ℕ)
    (commitmentRoot nullifierRoot historicRoot : Fr254) (s : State) (cs ns : List Insertion)
    (leaves : List (Replacement Fr254)) : Prop where
  commitmentTree : ∃ r, s.commitmentRoot = toWord r ∧ ReplacementChain (nodeHash lib.poseidon)
    commitmentTreeHeight commitmentRoot (cs.map (Insertion.replacement lib.poseidon)) r
  nullifierTree : ∃ r, s.nullifierRoot = toWord r ∧
    RootsChain Insertion.oldRoot Insertion.newRoot nullifierRoot ns r
  historicTree : ∃ r, s.historicRootsRoot = toWord r ∧
    ReplacementChain (nodeHash lib.poseidon) height historicRoot leaves r
  enforced : ∀ i ∈ ns, nullifiers i
  empty : ∀ r ∈ leaves, r.old = 0

section Steps

variable {maps : FieldMaps} {hs : Hashes} {lib : TreeLibrary} {rootMProofLength height : ℕ}
  {nullifiers : Insertion → Prop} {rc rn rh : Fr254} {s s' : State} {cs ns : List Insertion}
  {leaves : List (Replacement Fr254)} {blk : Block} {r : Receipt}

/-- The new leaf is the commitment root of the block. -/
theorem Proven.toWord_leaf (h : Proven maps hs lib rootMProofLength s blk r) :
    toWord (r.leaf blk).new = blk.commitmentsRoot := by
  obtain ⟨m, ts, out, hash, -, -, hinputs⟩ := h
  simp only [blockInputs, List.ofFn_succ, List.cons.injEq] at hinputs
  obtain ⟨-, -, -, hc, -⟩ := hinputs
  rw [Receipt.leaf, hc, ofWord_toWord]

/-- **A proven block** inserts into both trees, and appends its root to the historic roots. -/
theorem Leads.accept (hlib : lib.Enforces (Insertion.Appends lib.poseidon) nullifiers)
    (hreads : lib.ReadsProofs rootMProofLength height)
    (h : Leads lib nullifiers height rc rn rh s cs ns leaves)
    (hproven : Proven maps hs lib rootMProofLength s blk r) (hroots : HasRoots s' blk) :
    Leads lib nullifiers height rc rn rh s' (cs ++ r.commitments) (ns ++ r.nullifiers)
      (leaves ++ [r.leaf blk]) := by
  obtain ⟨m, ts, out, hash, hblock, -, hinputs⟩ := hproven
  obtain ⟨hcomm, hnull, hhist⟩ := hroots
  obtain ⟨haccounts, hold, hnew, hlength⟩ := hblock.accounts hlib
  simp only [blockInputs, List.ofFn_succ, List.cons.injEq] at hinputs
  obtain ⟨-, -, hc, hc', hn, hn', hh, hh', -⟩ := hinputs
  obtain ⟨root, hr, hchain⟩ := h.commitmentTree
  obtain ⟨q, hq, hchain'⟩ := h.nullifierTree
  obtain ⟨p, hp, hchain''⟩ := h.historicTree
  -- the recursion starts from the roots that the contract stores
  obtain rfl : root = out 2 := toWord_injective (hr.symm.trans hc)
  obtain rfl : q = out 4 := toWord_injective (hq.symm.trans hn)
  obtain rfl : p = out 6 := toWord_injective (hp.symm.trans hh)
  -- the new leaf of the historic tree is the commitment root, where the circuit found a zero
  have hleaf : r.leaf blk = ⟨r.path, 0, out 3⟩ := by
    rw [Receipt.leaf, hc']
    exact congrArg _ (ofWord_toWord _)
  refine ⟨⟨out 3, hcomm.trans hc', ?_⟩, ⟨out 5, hnull.trans hn', ?_⟩, ⟨out 7, hhist.trans hh', ?_⟩,
    ?_, ?_⟩
  · rw [List.map_append]
    exact hchain.append (replacementChain_of_appends haccounts.commitments haccounts.commitmentRoots)
  · exact rootsChain_append hchain' haccounts.nullifierRoots
  · rw [hleaf]
    exact hchain''.append ⟨hlength height hreads, hold, hnew⟩
  · exact List.forall_mem_append.2 ⟨h.enforced, haccounts.nullifiers⟩
  · exact List.forall_mem_append.2 ⟨h.empty, by simp [Receipt.leaf]⟩

theorem Leads.keep (h : Leads lib nullifiers height rc rn rh s cs ns leaves) (hkeep : KeepsRoots s s') :
    Leads lib nullifiers height rc rn rh s' cs ns leaves := by
  obtain ⟨hc, hn, hh⟩ := hkeep
  exact ⟨hc ▸ h.commitmentTree, hn ▸ h.nullifierTree, hh ▸ h.historicTree, h.enforced, h.empty⟩

end Steps

/-- After the replacements the leaves that were not empty are still there, and so are the new ones that
are not empty. -/
structure GrowsTo (f : ℕ → Fr254) (rs : List (Replacement Fr254)) : Prop where
  keep : ∀ i, f i ≠ 0 → replaced f rs i = f i
  hold : ∀ r ∈ rs, r.new ≠ 0 → replaced f rs r.index = r.new

/-- A chain of replacements of empty leaves leads to the root of a tree that has grown. -/
theorem growsTo_of_chain {h : Fr254 → Fr254 → Fr254} {n : ℕ} {f : ℕ → Fr254}
    {rs : List (Replacement Fr254)} {last : Fr254} {D : Set (Fr254 × Fr254)} (hD : CollisionFree h D)
    (hf : treePairs h n f ⊆ D) (hrs : ∀ r ∈ rs, r.pairs h ⊆ D) (hempty : ∀ r ∈ rs, r.old = 0)
    (hchain : ReplacementChain h n (treeRoot h n f) rs last) :
    last = treeRoot h n (replaced f rs) ∧ GrowsTo f rs := by
  obtain ⟨hlast, hreplaces, -⟩ := hchain.treeRoot_eq hD hf hrs
  exact ⟨hlast, fun _ hi => hreplaces.keep hempty hi, fun _ hr hnew => hreplaces.hold hempty hr hnew⟩

/-! ### Runs -/

/-- The accepted blocks of a run with their receipts, the oldest first. -/
def acceptedReceipts (receipts : Event → Receipt) (trace : List Event) : List (Block × Receipt) :=
  trace.reverse.filterMap fun e => e.action.block?.map fun blk => (blk, receipts e)

/-- What a run inserted into the commitment tree. -/
def insertedCommitments (receipts : Event → Receipt) (trace : List Event) : List Insertion :=
  (acceptedReceipts receipts trace).flatMap fun b => b.2.commitments

/-- What a run inserted into the nullifier tree. -/
def insertedNullifiers (receipts : Event → Receipt) (trace : List Event) : List Insertion :=
  (acceptedReceipts receipts trace).flatMap fun b => b.2.nullifiers

/-- What a run appended to the tree of the historic roots. -/
def appendedRoots (receipts : Event → Receipt) (trace : List Event) : List (Replacement Fr254) :=
  (acceptedReceipts receipts trace).map fun b => b.2.leaf b.1

/-- The accepted blocks of a run are those of satisfied recursions, with the given receipts. -/
def AllProven (maps : FieldMaps) (D : Deployment) (lib : TreeLibrary) (rootMProofLength : ℕ)
    (receipts : Event → Receipt) (trace : List Event) : Prop :=
  ∀ e ∈ trace, ∀ blk, e.action = .accepted blk →
    Proven maps D.hashes lib rootMProofLength e.before blk (receipts e)

/-- The contract stores the roots of the trees with the leaves `f` and `g` after the replacements, and
both trees have grown. -/
structure HoldsGrown (poseidon : List Fr254 → Fr254) (height : ℕ) (f g : ℕ → Fr254) (s : State)
    (cs leaves : List (Replacement Fr254)) : Prop where
  commitmentRoot : s.commitmentRoot =
    toWord (treeRoot (nodeHash poseidon) commitmentTreeHeight (replaced f cs))
  historicRootsRoot : s.historicRootsRoot =
    toWord (treeRoot (nodeHash poseidon) height (replaced g leaves))
  commitments : GrowsTo f cs
  historicRoots : GrowsTo g leaves

section Runs

variable {maps : FieldMaps} {D : Deployment} {lib : TreeLibrary} {rootMProofLength height : ℕ}
  {nullifiers : Insertion → Prop} {c₀ c : Config} {trace : List Event} {receipts : Event → Receipt}
  {rc rn rh : Fr254}

theorem acceptedReceipts_cons (e : Event) (trace : List Event) :
    acceptedReceipts receipts (e :: trace) = acceptedReceipts receipts trace ++
      (e.action.block?.map fun blk => (blk, receipts e)).toList := by
  rw [acceptedReceipts, List.reverse_cons, List.filterMap_append]
  cases h : e.action.block? <;> simp [acceptedReceipts, h]

/-- Whatever calls come in, and in whatever order: the blocks lead from the first roots to the last. -/
theorem run_leads (hlib : lib.Enforces (Insertion.Appends lib.poseidon) nullifiers)
    (hreads : lib.ReadsProofs rootMProofLength height) (hrun : (contractFrom D c₀).Run trace c)
    (hproven : AllProven maps D lib rootMProofLength receipts trace)
    (hrc : c₀.state.commitmentRoot = toWord rc) (hrn : c₀.state.nullifierRoot = toWord rn)
    (hrh : c₀.state.historicRootsRoot = toWord rh) :
    Leads lib nullifiers height rc rn rh c.state (insertedCommitments receipts trace)
        (insertedNullifiers receipts trace) (appendedRoots receipts trace) ∧
      (appendedRoots receipts trace).map (fun r => toWord r.new) =
        (acceptedBlocks trace).map Block.commitmentsRoot := by
  refine hrun.invariant (I := fun trace c => Leads lib nullifiers height rc rn rh c.state
      (insertedCommitments receipts trace) (insertedNullifiers receipts trace)
      (appendedRoots receipts trace) ∧
    (appendedRoots receipts trace).map (fun r => toWord r.new) =
      (acceptedBlocks trace).map Block.commitmentsRoot) hproven ?_ ?_
  · rintro c rfl
    exact ⟨⟨⟨rc, hrc, rfl⟩, ⟨rn, hrn, rfl⟩, ⟨rh, hrh, rfl⟩, List.forall_mem_nil _,
      List.forall_mem_nil _⟩, rfl⟩
  · rintro trace c e c' hproven ⟨hleads, hroots⟩ ⟨_, hexec⟩
    obtain ⟨before, action, after⟩ := e
    obtain ⟨rfl, rfl, hst⟩ := exec_step hexec
    dsimp only at hst hproven ⊢
    -- only an accepted block changes the roots
    cases hblk : action.block? with
    | none =>
      have hkeep := hst.keepsRoots fun blk hblock => by simp [hblock, Action.block?] at hblk
      simp only [insertedCommitments, insertedNullifiers, appendedRoots, acceptedReceipts_cons,
        acceptedBlocks_cons, hblk, Option.map_none, Option.toList_none, List.append_nil] at hleads hroots ⊢
      exact ⟨hleads.keep hkeep, hroots⟩
    | some blk =>
      obtain rfl := Action.eq_accepted hblk
      have hblock := hproven blk rfl
      simp only [insertedCommitments, insertedNullifiers, appendedRoots, acceptedReceipts_cons,
        acceptedBlocks_cons, hblk, Option.map_some, Option.toList_some, List.flatMap_append,
        List.flatMap_singleton, List.map_append, List.map_singleton] at hleads hroots ⊢
      refine ⟨hleads.accept hlib hreads hblock hst.roots_of_accepted, ?_⟩
      rw [hroots, hblock.toWord_leaf]

/-- **The trees behind the contract only grow.**  Along any run whose accepted blocks are those of
satisfied recursions, what these recursions insert leads from the first roots to the stored ones, and the
new leaves of the tree of the historic roots are the commitment roots of the blocks.  Where the hash of
the trees has no collision among the pairs that were hashed, the stored roots are those of the trees with
these insertions; whatever was in one of the trees, or was inserted, and is not empty, is still there. -/
theorem trees_only_grow (hlib : lib.Enforces (Insertion.Appends lib.poseidon) nullifiers)
    (hreads : lib.ReadsProofs rootMProofLength height) (hrun : (contractFrom D c₀).Run trace c)
    (hproven : AllProven maps D lib rootMProofLength receipts trace) {f g : ℕ → Fr254}
    (hf : c₀.state.commitmentRoot =
      toWord (treeRoot (nodeHash lib.poseidon) commitmentTreeHeight f))
    (hg : c₀.state.historicRootsRoot = toWord (treeRoot (nodeHash lib.poseidon) height g))
    (hrn : c₀.state.nullifierRoot = toWord rn) :
    (appendedRoots receipts trace).map (fun r => toWord r.new) =
        (acceptedBlocks trace).map Block.commitmentsRoot ∧
      (∀ i ∈ insertedNullifiers receipts trace, nullifiers i) ∧
      (∃ r, c.state.nullifierRoot = toWord r ∧
        RootsChain Insertion.oldRoot Insertion.newRoot rn (insertedNullifiers receipts trace) r) ∧
      ∀ D' : Set (Fr254 × Fr254), CollisionFree (nodeHash lib.poseidon) D' →
        treePairs (nodeHash lib.poseidon) commitmentTreeHeight f ⊆ D' →
        treePairs (nodeHash lib.poseidon) height g ⊆ D' →
        (∀ r ∈ (insertedCommitments receipts trace).map (Insertion.replacement lib.poseidon) ++
          appendedRoots receipts trace, r.pairs (nodeHash lib.poseidon) ⊆ D') →
        HoldsGrown lib.poseidon height f g c.state
          ((insertedCommitments receipts trace).map (Insertion.replacement lib.poseidon))
          (appendedRoots receipts trace) := by
  obtain ⟨hleads, hroots⟩ := run_leads hlib hreads hrun hproven hf hrn hg
  obtain ⟨⟨r, hr, hchain⟩, hnull, ⟨q, hq, hchain'⟩, henforced, hempty⟩ := hleads
  refine ⟨hroots, henforced, hnull, fun D' hD hpairs hpairs' hrs => ?_⟩
  obtain ⟨hcs, hleaves⟩ := List.forall_mem_append.1 hrs
  have hzero : ∀ r ∈ (insertedCommitments receipts trace).map (Insertion.replacement lib.poseidon),
      r.old = 0 := by
    intro r hr
    obtain ⟨i, -, rfl⟩ := List.mem_map.1 hr
    rfl
  obtain ⟨rfl, hgrows⟩ := growsTo_of_chain hD hpairs hcs hzero hchain
  obtain ⟨rfl, hgrows'⟩ := growsTo_of_chain hD hpairs' hleaves hempty hchain'
  exact ⟨hr, hq, hgrows, hgrows'⟩

end Runs

/-! ### A block with a transfer on a new contract -/

section Sample

/-- A block of the transactions, whose fees are 5. -/
def transferBlock (txs : List OnChainTransaction) : Block where
  commitmentsRoot := toWord (rootOf (7 : ℕ))
  nullifierRoot := toWord (rootOf (11 : ℕ))
  commitmentsRootRoot := toWord (rootOf (7 : ℕ) * rootOf (7 : ℕ))
  transactions := txs
  rollupProof := toBytesBE 5 ++ List.replicate 256 0

/-- A new contract with the fees of the block. -/
def fundedState : State := { sampleState with balance := 5 }

theorem foldlM_of_forall {α β : Type} {f : β → α → Option β} {b : β} {l : List α}
    (h : ∀ x ∈ l, f b x = some b) : l.foldlM f b = some b := by
  induction l with
  | nil => rfl
  | cons x l ih =>
    obtain ⟨hx, hl⟩ := List.forall_mem_cons.1 h
    rw [List.foldlM_cons, hx]
    exact ih hl

/-- No transaction of the block redeems a deposit or withdraws. -/
theorem processTransaction_sample {hs : Hashes} {st : State × U256} {pis : Fin 18 → Fr254}
    {tx : OnChainTransaction} (hpis : pis ∈ sampleTransactions) (h : Presents pis tx) :
    processTransaction hs st tx = some st := by
  obtain ⟨bit, rfl⟩ := h
  rcases List.mem_cons.1 hpis with rfl | hpis
  · have hnull : toWord (11 : Fr254) ≠ 0 := by decide +kernel
    have hcomm : toWord (7 : Fr254) ≠ 0 := by decide +kernel
    exact (if_neg hnull).trans (if_neg hcomm)
  · obtain rfl := List.eq_of_mem_replicate hpis
    have hzero : toWord (0 : Fr254) = 0 := by decide +kernel
    exact (if_pos hzero).trans (if_pos hzero)

/-- The contract accepts it. -/
theorem proposeBlock_transfer {txs : List OnChainTransaction} {hash : U256}
    (htxs : List.Forall₂ Presents sampleTransactions txs)
    (hhash : publicHash sampleDeployment.hashes.sha256 txs = some hash) :
    (proposeBlock sampleDeployment.hashes sampleDeployment.verifier sampleContext fundedState
      (transferBlock txs)).isSome := by
  have hverify : verifyRollupProof sampleDeployment.hashes sampleDeployment.verifier fundedState
      (transferBlock txs) hash = some (true, 5) := by
    have hfee : (slice (toBytesBE 5 ++ List.replicate 256 0) 0 32).map fromBytesBE = some 5 := by
      decide +kernel
    have hacc : ((List.range 8).mapM fun i =>
        (slice (toBytesBE 5 ++ List.replicate 256 0) (32 + 32 * i) (64 + 32 * i)).map fromBytesBE) =
          some (List.replicate 8 0) := by decide +kernel
    have haccProof : slice (toBytesBE 5 ++ List.replicate 256 0) 32 288 =
        some (List.replicate 256 0) := by decide +kernel
    have hproof : slice (toBytesBE 5 ++ List.replicate 256 0) 288 288 = some [] := by
      decide +kernel
    have hlen : (toBytesBE 5 ++ List.replicate 256 0).length = 288 := by
      rw [List.length_append, length_toBytesBE, List.length_replicate]
    obtain ⟨fee, hfee, hfive⟩ := Option.map_eq_some_iff.1 hfee
    simp only [verifyRollupProof, transferBlock, hfee, hacc, haccProof, hlen, hproof, hfive,
      Option.bind_eq_bind, Option.bind_some]
    rfl
  have hfold : txs.foldlM (processTransaction sampleDeployment.hashes) (fundedState, 5) =
      some (fundedState, 5) := by
    refine foldlM_of_forall fun tx htx => ?_
    obtain ⟨pis, hpis, h⟩ := exists_presented htxs htx
    exact processTransaction_sample hpis h
  have hhash' : publicHash sampleDeployment.hashes.sha256 (transferBlock txs).transactions = some hash :=
    hhash
  have hfold' : (transferBlock txs).transactions.foldlM (processTransaction sampleDeployment.hashes)
      (fundedState, 5) = some (fundedState, 5) := hfold
  simp only [proposeBlock, hhash', hverify, hfold', Option.bind_eq_bind, Option.bind_some]
  rfl

/-- The squares along the path of the subtree of the block, and zero. -/
def sampleChain : List Fr254 := 0 :: List.iterate (fun x => x * x) (7 ^ 8 : ℕ) 30

/-- The pairs that are hashed for the trees of the block. -/
def samplePairs : Set (Fr254 × Fr254) := {q | q.2 = 0 ∧ q.1 ∈ sampleChain}

theorem collisionFree_samplePairs : CollisionFree (nodeHash squareHash) samplePairs := by
  have hnodup : (sampleChain.map fun x => x * x).Nodup := by decide +kernel
  rintro ⟨a, x⟩ ⟨rfl, ha⟩ ⟨b, y⟩ ⟨rfl, hb⟩ he
  have hsquare : a * a + 0 = b * b + 0 := he
  rw [add_zero, add_zero] at hsquare
  exact congrArg (·, 0) (List.inj_on_of_nodup_map hnodup ha hb hsquare)

theorem treePairs_zero (n : ℕ) : treePairs (nodeHash squareHash) n (fun _ => 0) ⊆ samplePairs := by
  induction n with
  | zero => exact Set.empty_subset _
  | succ n ih =>
    refine Set.union_subset ?_ ih
    rintro q ⟨i, -, rfl⟩
    exact ⟨rfl, List.mem_cons_self⟩

theorem treeRoot_zero (n : ℕ) : treeRoot (nodeHash squareHash) n (fun _ => 0) = 0 := by
  induction n with
  | zero => rfl
  | succ n ih => exact ih

theorem mem_sampleChain {m : ℕ} (hm : m < 30) :
    (fun x : Fr254 => x * x)^[m] (7 ^ 8) ∈ sampleChain := by
  have hstart : ((7 ^ 8 : ℕ) : Fr254) = 7 ^ 8 := Nat.cast_pow 7 8
  exact List.mem_cons_of_mem _ (List.mem_iterate.2 ⟨m, hm, by rw [hstart]⟩)

theorem zero_mem_sampleChain (m : ℕ) : (fun x : Fr254 => x * x)^[m] 0 ∈ sampleChain := by
  have hzero : (fun x : Fr254 => x * x)^[m] 0 = 0 := Function.iterate_fixed (f := fun x => x * x) (mul_zero 0) m
  rw [hzero]
  exact List.mem_cons_self

/-- The pairs along a path with zeros on its right are squares. -/
theorem pathPairs_zeros {n : ℕ} {x : Fr254} (h : ∀ m < n, (fun x => x * x)^[m] x ∈ sampleChain) :
    pathPairs (nodeHash squareHash) (List.replicate n ⟨false, 0⟩) x ⊆ samplePairs := by
  induction n generalizing x with
  | zero => exact Set.empty_subset _
  | succ n ih =>
    have hsquare : nodeHash squareHash x 0 = x * x := add_zero (x * x)
    have hrest : pathPairs (nodeHash squareHash) (List.replicate n ⟨false, 0⟩)
        (nodeHash squareHash x 0) ⊆ samplePairs := by
      rw [hsquare]
      exact ih fun m hm => h (m + 1) (by omega)
    exact Set.insert_subset ⟨rfl, h 0 (Nat.succ_pos n)⟩ hrest

theorem pairs_firstInsertion :
    ((firstInsertion 7).replacement squareHash).pairs (nodeHash squareHash) ⊆ samplePairs := by
  have hpath : (firstInsertion 7).siblingPath = List.replicate 29 ⟨false, 0⟩ := by decide +kernel
  have hnew : ((firstInsertion 7).replacement squareHash).new = 7 ^ 8 := by decide +kernel
  have hpairs : ∀ x : Fr254, (∀ m < 29, (fun x => x * x)^[m] x ∈ sampleChain) →
      pathPairs (nodeHash squareHash) (firstInsertion 7).siblingPath x ⊆ samplePairs := by
    intro x hx
    rw [hpath]
    exact pathPairs_zeros hx
  refine Set.union_subset (hpairs 0 fun m _ => zero_mem_sampleChain m) ?_
  rw [hnew]
  exact hpairs _ fun m hm => mem_sampleChain (by omega)

theorem pairs_nextInsertion :
    ((nextInsertion 7).replacement squareHash).pairs (nodeHash squareHash) ⊆ samplePairs := by
  have hpath : (nextInsertion 7).siblingPath = ⟨true, 7 ^ 8⟩ :: List.replicate 28 ⟨false, 0⟩ := by
    decide +kernel
  have hnew : ((nextInsertion 7).replacement squareHash).new = 0 := by decide +kernel
  have hsquare : nodeHash squareHash (7 ^ 8) 0 = 7 ^ 8 * 7 ^ 8 := add_zero _
  have hpairs : pathPairs (nodeHash squareHash) (nextInsertion 7).siblingPath 0 ⊆ samplePairs := by
    have hrest : pathPairs (nodeHash squareHash) (List.replicate 28 ⟨false, 0⟩)
        (nodeHash squareHash (7 ^ 8) 0) ⊆ samplePairs := by
      rw [hsquare]
      exact pathPairs_zeros fun m hm => mem_sampleChain (m := m + 1) (by omega)
    rw [hpath]
    exact Set.insert_subset ⟨rfl, mem_sampleChain (m := 0) (by omega)⟩ hrest
  refine Set.union_subset hpairs ?_
  rw [hnew]
  exact hpairs

theorem pairs_sampleLeaf : (⟨[⟨false, 0⟩], 0, rootOf 7⟩ : Replacement Fr254).pairs (nodeHash squareHash) ⊆
    samplePairs := by
  have hroot : rootOf 7 = (fun x => x * x)^[29] (7 ^ 8) := by decide +kernel
  refine Set.union_subset (Set.insert_subset ⟨rfl, List.mem_cons_self⟩ (Set.empty_subset _)) ?_
  exact Set.insert_subset ⟨rfl, hroot ▸ mem_sampleChain (by omega)⟩ (Set.empty_subset _)

/-- One block with a transfer, proposed on a new contract: the subtree with its commitment is stored. -/
theorem trees_only_grow_sample : ∃ (trace : List Event) (c : Config) (receipts : Event → Receipt),
    (contractFrom sampleDeployment ⟨fundedState, []⟩).Run trace c ∧
      (acceptedBlocks trace).length = 1 ∧
      insertedCommitments receipts trace = sampleInsertions 7 ∧
      insertedNullifiers receipts trace = sampleInsertions 11 ∧
      HoldsGrown squareHash 1 (fun _ => 0) (fun _ => 0) c.state
        ((insertedCommitments receipts trace).map (Insertion.replacement squareHash))
        (appendedRoots receipts trace) ∧
      replaced (fun _ => 0) ((insertedCommitments receipts trace).map
        (Insertion.replacement squareHash)) 0 = 7 ^ 8 := by
  obtain ⟨out, hblock, hfee, hroots⟩ := exists_sample_block byteSum
  obtain ⟨txs, htxs, -, hpublic⟩ := hblock.exists_publicHash
  obtain ⟨s', hs'⟩ := Option.isSome_iff_exists.1 (proposeBlock_transfer htxs hpublic)
  let e : Event := ⟨fundedState, .accepted (transferBlock txs), s'⟩
  let receipts : Event → Receipt := fun _ =>
    ⟨sampleInsertions 7, sampleInsertions 11, [⟨false, 0⟩]⟩
  have hrun : (contractFrom sampleDeployment ⟨fundedState, []⟩).Run [e] ⟨s', [.proposeBlock]⟩ :=
    .step (.init rfl) ⟨.proposeBlock sampleContext (transferBlock txs), by
      simp only [exec, hs', Option.map_some]
      rfl⟩
  have hproven : AllProven .byValue sampleDeployment (appendLibrary squareHash) 3 receipts [e] := by
    intro e' he' blk hblk
    obtain rfl := List.mem_singleton.1 he'
    obtain rfl : transferBlock txs = blk := Action.accepted.inj hblk
    refine ⟨0, _, out, _, hblock, hpublic, ?_⟩
    have hat := fun j => congrFun hroots j
    have hfive : fromBytesBE ((toBytesBE 5 ++ List.replicate 256 0).take 32) = toWord (out 0) := by
      rw [toWord, hfee]
      decide +kernel
    have hzero : toWord (0 : Fr254) = 0 := by decide +kernel
    have h₂ : out 2 = 0 := hat 0
    have h₃ : out 3 = rootOf 7 := hat 1
    have h₄ : out 4 = 0 := hat 2
    have h₅ : out 5 = rootOf 11 := hat 3
    have h₆ : out 6 = 0 := hat 4
    have h₇ : out 7 = rootOf 7 * rootOf 7 := hat 5
    simp only [blockInputs, transferBlock, Nat.cast_ofNat, hfive, List.ofFn_succ, List.ofFn_zero]
    change [toWord (out 0), toWord (out 1), 0, _, 0, _, 0, _] = [toWord (out 0), toWord (out 1),
      toWord (out 2), toWord (out 3), toWord (out 4), toWord (out 5), toWord (out 6), toWord (out 7)]
    rw [h₂, h₃, h₄, h₅, h₆, h₇, hzero]
  have hroot : ∀ n, (0 : U256) = toWord (treeRoot (nodeHash squareHash) n fun _ => 0) := by
    intro n
    rw [treeRoot_zero]
    decide +kernel
  obtain ⟨-, -, -, hgrown⟩ := trees_only_grow appendLibrary_enforces
    appendLibrary_readsPaths.reads hrun hproven (hroot _) (hroot _)
    (by decide +kernel : (0 : U256) = toWord (0 : Fr254))
  have hcs : insertedCommitments receipts [e] = sampleInsertions 7 := List.append_nil _
  have hns : insertedNullifiers receipts [e] = sampleInsertions 11 := List.append_nil _
  have hleaves : appendedRoots receipts [e] = [⟨[⟨false, 0⟩], 0, rootOf 7⟩] :=
    congrArg (fun x => [(⟨[⟨false, 0⟩], 0, x⟩ : Replacement Fr254)]) (ofWord_toWord _)
  have hholds := hgrown samplePairs collisionFree_samplePairs (treePairs_zero _) (treePairs_zero _) (by
    rw [hcs, hleaves]
    intro r hr
    rcases List.mem_append.1 hr with hr | hr
    · obtain ⟨i, hi, rfl⟩ := List.mem_map.1 hr
      rcases List.mem_cons.1 hi with rfl | hi
      · exact pairs_firstInsertion
      · obtain rfl := List.eq_of_mem_replicate hi
        exact pairs_nextInsertion
    · obtain rfl := List.mem_singleton.1 hr
      exact pairs_sampleLeaf)
  refine ⟨[e], _, receipts, hrun, rfl, hcs, hns, hholds, ?_⟩
  -- the subtree of the first insertion is at the first place
  have hnew : ((firstInsertion 7).replacement squareHash).new = 7 ^ 8 := by decide +kernel
  have hindex : ((firstInsertion 7).replacement squareHash).index = 0 := by decide +kernel
  have hstored := hholds.commitments.hold ((firstInsertion 7).replacement squareHash)
    (List.mem_map_of_mem (hcs ▸ List.mem_cons_self)) (by rw [hnew]; decide +kernel)
  rw [hindex, hnew] at hstored
  exact hstored

end Sample

end Rollup

end Nightfall
