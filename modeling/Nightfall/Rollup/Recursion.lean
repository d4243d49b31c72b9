import Nightfall.Plonk.Runs
import Nightfall.Rollup.CircuitSpecs
import Nightfall.Trees.InsertionShapes

/-!
# The recursion of a rollup

The proofs of a block are joined by a tree of circuits: a base circuit over each four client proofs,
then, level by level, two grumpkin merge circuits and a bn254 merge circuit over each four results, and
two grumpkin merge circuits and the decider at the top.  The values that a circuit returns are the
public inputs of the next one, carried from field to field (`FieldMaps`); all other variables of a
circuit are chosen by the prover.

`Part` and `RollupBlock` are the satisfied circuits below a result and below the decider.  Whatever
the prover chooses, the result accounts for the transactions and the insertions below it
(`Part.accounts`):

* the hash is the root of the contract over the transactions, whose commitments, nullifiers and public
  data are those of the client proofs, up to the signs of the ephemeral keys;
* the fee sum is the sum of the fees, as long as that is below the modulus;
* the insertions into each tree lead from the first root to the last.
-/

namespace Nightfall

namespace Rollup

open Plonk Evm Contract Merkle Trees

/-! ### Circuits that are satisfied -/

/-- How public inputs go from a circuit over one field to a circuit over the other. -/
structure FieldMaps where
  frToFq : Fr254 → Fq254
  fqToFr : Fq254 → Fr254
  val_frToFq : ∀ x, (frToFq x).val = x.val
  val_fqToFr : ∀ y, y.val < frModulus → (fqToFr y).val = y.val

section Levels

variable (maps : FieldMaps) (sha256 : Bytes → U256) (lib : TreeLibrary)

/-- A base grumpkin circuit over two client proofs returns `out`. -/
def BaseGrumpkin (pis : Fin 2 → Fin 18 → Fr254) (out : Fin 36 → Fq254) : Prop :=
  ∃ w specificPis r, (∀ i j, w (specificPis i j) = maps.frToFq (pis i j)) ∧
    Satisfied (baseGrumpkinChecks specificPis) w r ∧ ∀ j, out j = w (r j)

/-- A base bn254 circuit returns `out`: the roots of its extra checks, the fee sum and the hash.  It
verifies the insertions `cs` and `ns`. -/
def BaseBn254 (pis : Fin 2 → Fin 36 → Fq254) (out : Fin 6 → Fr254) (cs ns : List Insertion) : Prop :=
  ∃ w specificPis b extraPis l₁ l₂ l₃ e,
    (∀ i j, w (specificPis i j) = maps.fqToFr (pis i j)) ∧
    Satisfied (baseBn254Checks sha256 specificPis) w b ∧
    Satisfied (baseBn254ExtraChecks lib extraPis l₁ l₂ l₃) w e ∧
    out = ![w (e.returned 0), w (e.returned 1), w (e.returned 2), w (e.returned 3),
      w (b.returned 0), w (b.returned 1)] ∧
    cs = List.ofFn (fun i => (e.halves i).commitments.eval w) ∧
    ns = List.ofFn (fun i => (e.halves i).nullifiers.eval w)

/-- A grumpkin merge circuit over two results returns `out`. -/
def GrumpkinMerge (pis : Fin 2 → Fin 6 → Fr254) (out : Fin 7 → Fq254) : Prop :=
  ∃ w specificPis r, (∀ i j, w (specificPis i j) = maps.frToFq (pis i j)) ∧
    Satisfied (grumpkinMergeCircuitChecks specificPis) w r ∧ ∀ j, out j = w (r j)

/-- A bn254 merge circuit over two results returns `out`. -/
def Bn254Merge (pis : Fin 2 → Fin 7 → Fq254) (out : Fin 6 → Fr254) : Prop :=
  ∃ w specificPis r, (∀ i j, w (specificPis i j) = maps.fqToFr (pis i j)) ∧
    Satisfied (bn254MergeCircuitChecks sha256 specificPis) w r ∧ ∀ j, out j = w (r j)

/-- The decider circuit over two results returns `out`; `path` is its path in the tree of the historic
roots. -/
def Decider (rootMProofLength : ℕ) (pis : Fin 2 → Fin 7 → Fq254) (out : Fin 8 → Fr254)
    (path : List (PathElement Fr254)) : Prop :=
  ∃ w specificPis deciderPis r, (∀ i j, w (specificPis i j) = maps.fqToFr (pis i j)) ∧
    Satisfied (deciderCircuitChecks sha256 lib specificPis deciderPis rootMProofLength) w r ∧
    (∀ j, out j = w (r.returned j)) ∧
    path = (MembershipProofVar.eval w r.mProofVar).siblingPath

/-- Four results, merged by two grumpkin circuits. -/
def Merged (o : Fin 4 → Fin 6 → Fr254) (g : Fin 2 → Fin 7 → Fq254) : Prop :=
  GrumpkinMerge maps ![o 0, o 1] (g 0) ∧ GrumpkinMerge maps ![o 2, o 3] (g 1)

/-- The concatenation of four lists. -/
def concat {α : Type} (l : Fin 4 → List α) : List α := l 0 ++ l 1 ++ (l 2 ++ l 3)

/-- The satisfied circuits below a bn254 circuit at level `m` that returns `out`: the public inputs of
the client proofs at the bottom, and the insertions into both trees. -/
inductive Part : ℕ → List (Fin 18 → Fr254) → (Fin 6 → Fr254) → List Insertion → List Insertion → Prop
  | base {pis : Fin 4 → Fin 18 → Fr254} {g : Fin 2 → Fin 36 → Fq254} {out : Fin 6 → Fr254}
      {cs ns : List Insertion} :
      BaseGrumpkin maps ![pis 0, pis 1] (g 0) → BaseGrumpkin maps ![pis 2, pis 3] (g 1) →
      BaseBn254 maps sha256 lib g out cs ns → Part 0 (List.ofFn pis) out cs ns
  | merge {m : ℕ} {ts : Fin 4 → List (Fin 18 → Fr254)} {o : Fin 4 → Fin 6 → Fr254}
      {cs ns : Fin 4 → List Insertion} {g : Fin 2 → Fin 7 → Fq254} {out : Fin 6 → Fr254} :
      (∀ i, Part m (ts i) (o i) (cs i) (ns i)) → Merged maps o g → Bn254Merge maps sha256 g out →
      Part (m + 1) (concat ts) out (concat cs) (concat ns)

/-- The satisfied circuits of a block of `4 ^ (m + 2)` transactions. -/
structure RollupBlock (rootMProofLength m : ℕ) (ts : List (Fin 18 → Fr254)) (out : Fin 8 → Fr254)
    (cs ns : List Insertion) (path : List (PathElement Fr254)) : Prop where
  exists_parts : ∃ (ts' : Fin 4 → List (Fin 18 → Fr254)) (o : Fin 4 → Fin 6 → Fr254)
    (cs' ns' : Fin 4 → List Insertion) (g : Fin 2 → Fin 7 → Fq254),
    (∀ i, Part maps sha256 lib m (ts' i) (o i) (cs' i) (ns' i)) ∧ Merged maps o g ∧
      Decider maps sha256 lib rootMProofLength g out path ∧
      ts = concat ts' ∧ cs = concat cs' ∧ ns = concat ns'

end Levels

/-! ### Lists of four parts -/

section Concat

variable {α β : Type} {l : Fin 4 → List α}

theorem length_concat {n : ℕ} (h : ∀ i, (l i).length = n) : (concat l).length = 4 * n := by
  simp only [concat, List.length_append, h]
  omega

theorem mem_concat {x : α} : x ∈ concat l ↔ ∃ i, x ∈ l i := by
  simp only [concat, List.mem_append, Fin.exists_fin_succ, Fin.exists_fin_zero, or_false, or_assoc]
  rfl

theorem forall₂_concat {R : α → β → Prop} {l' : Fin 4 → List β}
    (h : ∀ i, List.Forall₂ R (l i) (l' i)) : List.Forall₂ R (concat l) (concat l') :=
  List.rel_append (List.rel_append (h 0) (h 1)) (List.rel_append (h 2) (h 3))

theorem sum_concat (f : α → ℕ) : ((concat l).map f).sum = ∑ i, ((l i).map f).sum := by
  simp only [concat, List.map_append, List.sum_append, Fin.sum_univ_four, Nat.add_assoc]

end Concat

section Chain

variable {F ι : Type} {oldRoot newRoot : ι → F}

theorem rootsChain_append {is is' : List ι} {root mid last : F}
    (h : RootsChain oldRoot newRoot root is mid) (h' : RootsChain oldRoot newRoot mid is' last) :
    RootsChain oldRoot newRoot root (is ++ is') last := by
  induction is generalizing root with
  | nil =>
    cases h
    exact h'
  | cons i is ih => exact ⟨h.1, ih h.2⟩

/-- Four chains, each of which starts where the one before ended. -/
theorem rootsChain_concat {is : Fin 4 → List ι} {first last : Fin 4 → F}
    (h : ∀ i, RootsChain oldRoot newRoot (first i) (is i) (last i)) (h₁ : last 0 = first 1)
    (h₂ : last 1 = first 2) (h₃ : last 2 = first 3) :
    RootsChain oldRoot newRoot (first 0) (concat is) (last 3) := by
  have hleft := rootsChain_append (h₁ ▸ h 0) (h 1)
  have hright := rootsChain_append (h₃ ▸ h 2) (h 3)
  exact rootsChain_append (h₂ ▸ hleft) hright

end Chain

/-! ### Hashes of blocks -/

section Hash

variable {sha256 : Bytes → U256}

/-- The root of the contract over `2 ^ n` transactions. -/
def blockHash (sha256 : Bytes → U256) (n : ℕ) (txs : List OnChainTransaction) : U256 :=
  treeRoot (hashPair sha256) n (transactionHashes sha256 txs)

theorem blockHash_append {n : ℕ} {txs txs' : List OnChainTransaction} (h : txs.length = 2 ^ n) :
    blockHash sha256 (n + 1) (txs ++ txs') =
      hashPair sha256 (blockHash sha256 n txs) (blockHash sha256 n txs') := by
  rw [blockHash, treeRoot_succ]
  congr 1
  · refine treeRoot_congr fun i hi => ?_
    rw [transactionHashes, transactionHashes, List.map_append, List.getD_append]
    rwa [List.length_map, h]
  · refine treeRoot_congr fun i _ => ?_
    rw [transactionHashes, transactionHashes, List.map_append, List.getD_append_right]
    · rw [List.length_map, h, Nat.add_sub_cancel_left]
    · rw [List.length_map, h]
      exact Nat.le_add_right _ _

theorem blockHash_concat {n : ℕ} {txs : Fin 4 → List OnChainTransaction}
    (h : ∀ i, (txs i).length = 2 ^ n) :
    blockHash sha256 (n + 2) (concat txs) =
      fourHash sha256 fun i => blockHash sha256 n (txs i) := by
  have hleft : (txs 0 ++ txs 1).length = 2 ^ (n + 1) := by
    rw [List.length_append, h, h, pow_succ, Nat.mul_two]
  rw [concat, blockHash_append hleft, blockHash_append (h 0), blockHash_append (h 2)]
  rfl

/-- Above the transactions there are only shifted hashes. -/
theorem blockHash_lt_frModulus {n : ℕ} (hn : n ≠ 0) (txs : List OnChainTransaction) :
    (blockHash sha256 n txs).toNat < frModulus := by
  obtain ⟨n, rfl⟩ := Nat.exists_eq_succ_of_ne_zero hn
  rw [blockHash, treeRoot_succ]
  exact sha256AndShift_lt_frModulus sha256 _

/-- It is the public hash of the block. -/
theorem publicHash_eq_blockHash {n : ℕ} {txs : List OnChainTransaction} (h : txs.length = 2 ^ n) :
    publicHash sha256 txs = some (blockHash sha256 n txs) := by
  rw [publicHash_eq_treeRoot (by rw [h]; exact (Nat.two_pow_pos n).ne'), h,
    Nat.log_pow one_lt_two]
  rfl

end Hash

/-! ### Values through the levels -/

namespace FieldMaps

variable (maps : FieldMaps)

theorem frToFq_injective : Function.Injective maps.frToFq := by
  intro x y h
  have hval := congrArg ZMod.val h
  rw [maps.val_frToFq, maps.val_frToFq] at hval
  exact ZMod.val_injective frModulus hval

@[simp] theorem fqToFr_frToFq (x : Fr254) : maps.fqToFr (maps.frToFq x) = x := by
  refine ZMod.val_injective frModulus ?_
  have hlt : (maps.frToFq x).val < frModulus := (maps.val_frToFq x).trans_lt (ZMod.val_lt x)
  rw [maps.val_fqToFr _ hlt, maps.val_frToFq]

/-- A sum that is small enough is the same in both fields. -/
theorem val_fqToFr_add {x y : Fr254} (h : x.val + y.val < frModulus) :
    (maps.fqToFr (maps.frToFq x + maps.frToFq y)).val = x.val + y.val := by
  have hsum : (maps.frToFq x + maps.frToFq y).val = x.val + y.val := by
    rw [← maps.val_frToFq x, ← maps.val_frToFq y] at h ⊢
    exact ZMod.val_add_of_lt (h.trans frModulus_lt_fqModulus)
  rw [maps.val_fqToFr _ (hsum.trans_lt h), hsum]

/-- The sum of four fees on its way through the merge circuits. -/
def feeSum (fees : Fin 4 → Fr254) : Fr254 :=
  maps.fqToFr (maps.frToFq (fees 0) + maps.frToFq (fees 1)) +
    maps.fqToFr (maps.frToFq (fees 2) + maps.frToFq (fees 3))

theorem val_feeSum {fees : Fin 4 → Fr254} (h : ∑ i, (fees i).val < frModulus) :
    (maps.feeSum fees).val = ∑ i, (fees i).val := by
  rw [Fin.sum_univ_four] at h ⊢
  have hleft := maps.val_fqToFr_add (x := fees 0) (y := fees 1) (by omega)
  have hright := maps.val_fqToFr_add (x := fees 2) (y := fees 3) (by omega)
  rw [feeSum, ZMod.val_add_of_lt (by omega), hleft, hright, Nat.add_assoc _ (fees 2).val]

end FieldMaps

/-- Each of four results starts from the roots at which the one before ended. -/
structure Adjoin (o : Fin 4 → Fin 6 → Fr254) : Prop where
  commitments : o 0 1 = o 1 0 ∧ o 1 1 = o 2 0 ∧ o 2 1 = o 3 0
  nullifiers : o 0 3 = o 1 2 ∧ o 1 3 = o 2 2 ∧ o 2 3 = o 3 2

/-- The values that two grumpkin merge circuits return for four results. -/
def mergedValues (maps : FieldMaps) (o : Fin 4 → Fin 6 → Fr254) : Fin 2 → Fin 7 → Fr254 :=
  ![![o 0 0, o 1 1, o 0 2, o 1 3, maps.fqToFr (maps.frToFq (o 0 4) + maps.frToFq (o 1 4)), o 0 5,
      o 1 5],
    ![o 2 0, o 3 1, o 2 2, o 3 3, maps.fqToFr (maps.frToFq (o 2 4) + maps.frToFq (o 3 4)), o 2 5,
      o 3 5]]

section Values

variable {maps : FieldMaps} {sha256 : Bytes → U256} {lib : TreeLibrary}

/-- The client proofs of a base circuit keep their public inputs. -/
theorem BaseGrumpkin.values {pis : Fin 2 → Fin 18 → Fr254} {out : Fin 36 → Fq254}
    (h : BaseGrumpkin maps pis out) :
    out = Fin.append (maps.frToFq ∘ pis 0) (maps.frToFq ∘ pis 1) := by
  obtain ⟨w, specificPis, r, hpis, ⟨c, c', hrun, -⟩, hout⟩ := h
  cases hrun
  funext j
  rw [hout]
  refine Fin.addCases (m := 18) (n := 18) (fun i => ?_) (fun i => ?_) j
  · rw [Fin.append_left, Fin.append_left]
    exact hpis 0 i
  · rw [Fin.append_right, Fin.append_right]
    exact hpis 1 i

theorem GrumpkinMerge.values {pis : Fin 2 → Fin 6 → Fr254} {out : Fin 7 → Fq254}
    (h : GrumpkinMerge maps pis out) :
    @RootsMeet Fr254 2 pis ∧ out = ![maps.frToFq (pis 0 0), maps.frToFq (pis 1 1),
      maps.frToFq (pis 0 2), maps.frToFq (pis 1 3), maps.frToFq (pis 0 4) + maps.frToFq (pis 1 4),
      maps.frToFq (pis 0 5), maps.frToFq (pis 1 5)] := by
  obtain ⟨w, specificPis, r, hpis, hr, hout⟩ := h
  obtain ⟨hmeet, hr⟩ := hr.of_ensures
    (grumpkinMergeCircuitChecks_ensures hpis fun h => by cases h)
  exact ⟨⟨maps.frToFq_injective hmeet.1, maps.frToFq_injective hmeet.2⟩,
    funext fun j => (hout j).trans (hr j)⟩

/-- Two grumpkin circuits and the circuit above them join four results. -/
theorem Merged.values {o : Fin 4 → Fin 6 → Fr254} {g : Fin 2 → Fin 7 → Fq254}
    (h : Merged maps o g) (hmeet : @RootsMeet Fr254 3 fun i j => maps.fqToFr (g i j)) :
    Adjoin o ∧ (fun i j => maps.fqToFr (g i j)) = mergedValues maps o := by
  obtain ⟨⟨hc₀, hn₀⟩, hg₀⟩ := h.1.values
  obtain ⟨⟨hc₁, hn₁⟩, hg₁⟩ := h.2.values
  have hvalues : (fun i j => maps.fqToFr (g i j)) = mergedValues maps o := by
    funext i j
    fin_cases i
    · change maps.fqToFr (g 0 j) = _
      rw [hg₀]
      fin_cases j <;> simp [mergedValues]
    · change maps.fqToFr (g 1 j) = _
      rw [hg₁]
      fin_cases j <;> simp [mergedValues]
  rw [hvalues] at hmeet
  exact ⟨⟨⟨hc₀, hmeet.1, hc₁⟩, ⟨hn₀, hmeet.2, hn₁⟩⟩, hvalues⟩

/-- **What a bn254 merge circuit returns for four results.** -/
theorem Bn254Merge.values {o : Fin 4 → Fin 6 → Fr254} {g : Fin 2 → Fin 7 → Fq254}
    {out : Fin 6 → Fr254} (hmerged : Merged maps o g) (h : Bn254Merge maps sha256 g out) :
    Adjoin o ∧ out = ![o 0 0, o 3 1, o 0 2, o 3 3, maps.feeSum fun i => o i 4,
      ofWord (fourHash sha256 fun i => toWord (o i 5))] := by
  obtain ⟨w, specificPis, r, hpis, hr, hout⟩ := h
  obtain ⟨hmeet, hr⟩ := hr.of_ensures
    (bn254MergeCircuitChecks_ensures hpis fun h => by cases h)
  obtain ⟨hadjoin, hvalues⟩ := hmerged.values hmeet
  refine ⟨hadjoin, ?_⟩
  funext j
  have hi : ∀ i k, maps.fqToFr (g i k) = mergedValues maps o i k :=
    fun i k => congrFun (congrFun hvalues i) k
  rw [hout, hr]
  simp only [hi]
  rfl

/-- **What the decider circuit returns for four results.** -/
theorem Decider.values {rootMProofLength : ℕ} {o : Fin 4 → Fin 6 → Fr254}
    {g : Fin 2 → Fin 7 → Fq254} {out : Fin 8 → Fr254} {path : List (PathElement Fr254)}
    (hmerged : Merged maps o g) (h : Decider maps sha256 lib rootMProofLength g out path) :
    Adjoin o ∧ ![out 2, out 3, out 4, out 5, out 0, out 1] = ![o 0 0, o 3 1, o 0 2, o 3 3,
      maps.feeSum fun i => o i 4, ofWord (fourHash sha256 fun i => toWord (o i 5))] ∧
      foldPath (nodeHash lib.poseidon) path 0 = out 6 ∧
      foldPath (nodeHash lib.poseidon) path (out 3) = out 7 ∧
      ∀ height, lib.ReadsProofs rootMProofLength height → path.length = height := by
  obtain ⟨w, specificPis, deciderPis, r, hpis, hr, hout, rfl⟩ := h
  obtain ⟨hmeet, hfee, hsha, hr⟩ := hr.of_ensures
    (deciderCircuitChecks_ensures hpis deciderPis rootMProofLength)
  obtain ⟨hstart, hend, hnull, hnull', hold, hnew, hlength⟩ := hr
  obtain ⟨hadjoin, hvalues⟩ := hmerged.values hmeet
  have hi : ∀ i k, maps.fqToFr (g i k) = mergedValues maps o i k :=
    fun i k => congrFun (congrFun hvalues i) k
  simp only [hi] at hfee hsha hstart hend hnull hnull'
  refine ⟨hadjoin, ?_, hold.trans (hout 6).symm, ?_, fun height hheight => ?_⟩
  · simp only [hout, hfee, hsha, hstart, hend, hnull, hnull']
    rfl
  · rw [hout, hout, ← hnew, hend, hi]
  · exact (List.length_map _).trans (hlength height hheight)

end Values

/-! ### Accounts -/

/-- The transaction has the public inputs of the client proof; the sign of the ephemeral key is
free. -/
def Presents (pis : Fin 18 → Fr254) (tx : OnChainTransaction) : Prop := ∃ bit, tx = onChain pis bit

/-- The six values `out` account for the transactions `ts` and the insertions `cs` and `ns`: the roots
of both trees before and after, the fee sum and the hash. -/
structure Accounts (sha256 : Bytes → U256) (commitments nullifiers : Insertion → Prop) (k : ℕ)
    (ts : List (Fin 18 → Fr254)) (out : Fin 6 → Fr254) (cs ns : List Insertion) : Prop where
  length : ts.length = 2 ^ (2 * k)
  commitmentRoots : RootsChain Insertion.oldRoot Insertion.newRoot (out 0) cs (out 1)
  nullifierRoots : RootsChain Insertion.oldRoot Insertion.newRoot (out 2) ns (out 3)
  fees : (ts.map fun t => (t 0).val).sum < frModulus →
    (out 4).val = (ts.map fun t => (t 0).val).sum
  hash : ∃ txs, List.Forall₂ Presents ts txs ∧ out 5 = ofWord (blockHash sha256 (2 * k) txs)
  commitments : ∀ i ∈ cs, commitments i
  nullifiers : ∀ i ∈ ns, nullifiers i

section Accounts

variable {maps : FieldMaps} {sha256 : Bytes → U256} {lib : TreeLibrary}
  {commitments nullifiers : Insertion → Prop}

theorem val_sum {n : ℕ} {x : Fin n → Fr254} (h : ∑ i, (x i).val < frModulus) :
    (∑ i, x i).val = ∑ i, (x i).val := by
  have hcast : ((∑ i, (x i).val : ℕ) : Fr254) = ∑ i, x i := by
    rw [Nat.cast_sum]
    exact Finset.sum_congr rfl fun i _ => ZMod.natCast_zmod_val _
  rw [← hcast, ZMod.val_cast_of_lt h]

/-- The public inputs of the four client proofs reach the base bn254 circuit. -/
theorem piSlices_values {pis : Fin 4 → Fin 18 → Fr254} {g : Fin 2 → Fin 36 → Fq254}
    {w : Variable → Fr254} {specificPis : Fin 2 → Fin 36 → Variable}
    (h₀ : BaseGrumpkin maps ![pis 0, pis 1] (g 0)) (h₁ : BaseGrumpkin maps ![pis 2, pis 3] (g 1))
    (hpis : ∀ i j, w (specificPis i j) = maps.fqToFr (g i j)) :
    ∀ i j, w (piSlices specificPis i j) = pis i j := by
  intro i j
  fin_cases i
  · change w (specificPis 0 (j.castAdd 18)) = pis 0 j
    rw [hpis, h₀.values, Fin.append_left]
    exact maps.fqToFr_frToFq _
  · change w (specificPis 0 (j.natAdd 18)) = pis 1 j
    rw [hpis, h₀.values, Fin.append_right]
    exact maps.fqToFr_frToFq _
  · change w (specificPis 1 (j.castAdd 18)) = pis 2 j
    rw [hpis, h₁.values, Fin.append_left]
    exact maps.fqToFr_frToFq _
  · change w (specificPis 1 (j.natAdd 18)) = pis 3 j
    rw [hpis, h₁.values, Fin.append_right]
    exact maps.fqToFr_frToFq _

/-- A base circuit accounts for its four transactions. -/
theorem BaseBn254.accounts (hlib : lib.Enforces commitments nullifiers) {pis : Fin 4 → Fin 18 → Fr254}
    {g : Fin 2 → Fin 36 → Fq254} {out : Fin 6 → Fr254} {cs ns : List Insertion}
    (h₀ : BaseGrumpkin maps ![pis 0, pis 1] (g 0)) (h₁ : BaseGrumpkin maps ![pis 2, pis 3] (g 1))
    (h : BaseBn254 maps sha256 lib g out cs ns) :
    Accounts sha256 commitments nullifiers 1 (List.ofFn pis) out cs ns := by
  obtain ⟨w, specificPis, b, extraPis, l₁, l₂, l₃, e, hpis, hb, he, rfl, rfl, rfl⟩ := h
  obtain ⟨hfee, hsha⟩ := hb.of_ensures
    (baseBn254Checks_ensures (piSlices_values h₀ h₁ hpis))
  obtain ⟨hinsert, hc₀, hc₁, hc₂, hn₀, hn₁, hn₂⟩ := he.of_ensures
    (baseBn254ExtraChecks_ensures hlib extraPis l₁ l₂ l₃)
  refine ⟨List.length_ofFn, ⟨hc₀.symm, hc₁, hc₂.symm⟩, ⟨hn₀.symm, hn₁, hn₂.symm⟩, ?_, ?_, ?_, ?_⟩
  · intro hlt
    simp only [List.map_ofFn, List.sum_ofFn, Function.comp_apply] at hlt ⊢
    exact (congrArg ZMod.val hfee).trans (val_sum hlt)
  · -- the transactions are those with the bits that the circuit has chosen
    refine ⟨List.ofFn fun i => onChain (pis i) (decide (w (b.bits i).var = 1)), ?_, hsha⟩
    refine List.forall₂_iff_get.2 ⟨by rw [List.length_ofFn, List.length_ofFn], fun i _ _ => ?_⟩
    rw [List.get_ofFn, List.get_ofFn]
    exact ⟨_, rfl⟩
  · intro i hi
    obtain ⟨j, rfl⟩ := (List.mem_ofFn' ..).1 hi
    exact (hinsert j).1
  · intro i hi
    obtain ⟨j, rfl⟩ := (List.mem_ofFn' ..).1 hi
    exact (hinsert j).2

/-- **The step of the recursion**: four results that adjoin account for all that each accounts
for. -/
theorem Accounts.merge {k : ℕ} {ts : Fin 4 → List (Fin 18 → Fr254)} {o : Fin 4 → Fin 6 → Fr254}
    {cs ns : Fin 4 → List Insertion}
    (h : ∀ i, Accounts sha256 commitments nullifiers (k + 1) (ts i) (o i) (cs i) (ns i))
    (hadjoin : Adjoin o) :
    Accounts sha256 commitments nullifiers (k + 2) (concat ts)
      ![o 0 0, o 3 1, o 0 2, o 3 3, maps.feeSum fun i => o i 4,
        ofWord (fourHash sha256 fun i => toWord (o i 5))] (concat cs) (concat ns) where
  length := by
    rw [length_concat fun i => (h i).length, show 2 * (k + 2) = 2 * (k + 1) + 2 by omega, pow_add]
    exact Nat.mul_comm _ _
  commitmentRoots := rootsChain_concat (fun i => (h i).commitmentRoots) hadjoin.commitments.1
    hadjoin.commitments.2.1 hadjoin.commitments.2.2
  nullifierRoots := rootsChain_concat (fun i => (h i).nullifierRoots) hadjoin.nullifiers.1
    hadjoin.nullifiers.2.1 hadjoin.nullifiers.2.2
  fees hlt := by
    rw [sum_concat] at hlt ⊢
    -- no part is above the whole, so that none of the sums is reduced
    have hpart : ∀ i, (o i 4).val = ((ts i).map fun t => (t 0).val).sum := fun i =>
      (h i).fees ((Finset.single_le_sum (f := fun i => ((ts i).map fun t => (t 0).val).sum)
        (fun _ _ => Nat.zero_le _) (Finset.mem_univ i)).trans_lt hlt)
    simp only [← hpart] at hlt ⊢
    exact maps.val_feeSum hlt
  hash := by
    choose txs htxs hhash using fun i => (h i).hash
    have hlength : ∀ i, (txs i).length = 2 ^ (2 * (k + 1)) := fun i =>
      (htxs i).length_eq.symm.trans (h i).length
    refine ⟨concat txs, forall₂_concat htxs, ?_⟩
    -- the result of a part is the word of its hash
    have hword : ∀ i, toWord (o i 5) = blockHash sha256 (2 * (k + 1)) (txs i) := fun i => by
      rw [hhash, toWord_ofWord (blockHash_lt_frModulus (by omega) _)]
    rw [show 2 * (k + 2) = 2 * (k + 1) + 2 by omega, blockHash_concat hlength]
    simp only [← hword]
    rfl
  commitments i hi := by
    obtain ⟨j, hj⟩ := mem_concat.1 hi
    exact (h j).commitments i hj
  nullifiers i hi := by
    obtain ⟨j, hj⟩ := mem_concat.1 hi
    exact (h j).nullifiers i hj

/-- **Every result of the recursion accounts for what is below it**, by induction on the circuits. -/
theorem Part.accounts (hlib : lib.Enforces commitments nullifiers) {m : ℕ} {ts : List (Fin 18 → Fr254)}
    {out : Fin 6 → Fr254} {cs ns : List Insertion} (h : Part maps sha256 lib m ts out cs ns) :
    Accounts sha256 commitments nullifiers (m + 1) ts out cs ns := by
  induction h with
  | base h₀ h₁ hbase => exact hbase.accounts hlib h₀ h₁
  | merge _ hmerged hmerge ih =>
    obtain ⟨hadjoin, rfl⟩ := hmerge.values hmerged
    exact Accounts.merge ih hadjoin

theorem RollupBlock.accounts (hlib : lib.Enforces commitments nullifiers) {rootMProofLength m : ℕ}
    {ts : List (Fin 18 → Fr254)} {out : Fin 8 → Fr254} {cs ns : List Insertion}
    {path : List (PathElement Fr254)}
    (h : RollupBlock maps sha256 lib rootMProofLength m ts out cs ns path) :
    Accounts sha256 commitments nullifiers (m + 2) ts
        ![out 2, out 3, out 4, out 5, out 0, out 1] cs ns ∧
      foldPath (nodeHash lib.poseidon) path 0 = out 6 ∧
      foldPath (nodeHash lib.poseidon) path (out 3) = out 7 ∧
      ∀ height, lib.ReadsProofs rootMProofLength height → path.length = height := by
  obtain ⟨ts', o, cs', ns', g, hparts, hmerged, hdecider, rfl, rfl, rfl⟩ := h.exists_parts
  obtain ⟨hadjoin, hvalues, hhistoric⟩ := hdecider.values hmerged
  rw [hvalues]
  exact ⟨Accounts.merge (fun i => (hparts i).accounts hlib) hadjoin, hhistoric⟩

end Accounts

end Rollup

end Nightfall
