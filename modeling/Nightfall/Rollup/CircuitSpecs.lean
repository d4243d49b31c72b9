import Nightfall.Rollup.Circuits
import Nightfall.Merkle.Replacements

/-!
# What a rollup circuit enforces

One specification for each of the circuits of the recursion: what any assignment that satisfies the
circuit gives to the variables that it returns, as a function of the values of the variables that it
reads.  Hashes are read as the words of the contract: a hash that the circuit computes is
`sha256_and_shift` of the same words, and the hash of a transaction is `hash_transaction`, up to the
bit that the circuit creates (`baseBn254Checks_ensures`).
-/

namespace Nightfall

namespace Rollup

open Plonk Evm Contract Merkle

/-! ### Words and field elements -/

/-- The field element that a word stands for. -/
def ofWord (x : U256) : Fr254 := (x.toNat : Fr254)

theorem val_ofWord {x : U256} (h : x.toNat < frModulus) : (ofWord x).val = x.toNat :=
  ZMod.val_cast_of_lt h

theorem toWord_ofWord {x : U256} (h : x.toNat < frModulus) : toWord (ofWord x) = x := by
  rw [toWord, val_ofWord h]
  exact BitVec.eq_of_toNat_eq (by simp)

/-- A shifted hash is an element of the field. -/
theorem sha256AndShift_lt_frModulus (sha256 : Bytes → U256) (bs : Bytes) :
    (sha256AndShift sha256 bs).toNat < frModulus := by
  have hlt := (sha256 bs).isLt
  rw [sha256AndShift, BitVec.toNat_ushiftRight, Nat.shiftRight_eq_div_pow]
  have hmod : 2 ^ 252 < frModulus := by norm_num [frModulus]
  omega

section Hashes

variable {sha256 : Bytes → U256}

theorem shiftedSha256_eq (xs : List U256) :
    shiftedSha256 sha256 xs = ofWord (sha256AndShift sha256 (abiEncode xs)) := rfl

theorem shiftedSha256_pair (x y : U256) :
    shiftedSha256 sha256 [x, y] = ofWord (hashPair sha256 x y) := rfl

theorem toWord_hashPair (x y : U256) :
    toWord (ofWord (hashPair sha256 x y)) = hashPair sha256 x y :=
  toWord_ofWord (sha256AndShift_lt_frModulus sha256 _)

end Hashes

/-! ### The transaction of public inputs -/

/-- The index types of the results of a circuit and of the public inputs of a client proof. -/
scoped instance neZeroSix : NeZero 6 := ⟨by decide⟩

scoped instance neZeroEighteen : NeZero 18 := ⟨by decide⟩

/-- The transaction of the public inputs of a client proof, with `bit` for the sign of its ephemeral
key. -/
def onChain (pis : Fin 18 → Fr254) (bit : Bool) : OnChainTransaction where
  fee := toWord (pis 0)
  commitments := ![toWord (pis 5), toWord (pis 6), toWord (pis 7), toWord (pis 8)]
  nullifiers := ![toWord (pis 9), toWord (pis 10), toWord (pis 11), toWord (pis 12)]
  publicData := ![toWord (pis 13), toWord (pis 14), toWord (pis 15), setTopBit bit (toWord (pis 16))]

/-- The words that the circuit hashes for a transaction are those of the contract. -/
theorem words_onChain (pis : Fin 18 → Fr254) (bit : Bool) :
    (onChain pis bit).words = setLastBit bit [toWord (pis 5), toWord (pis 6), toWord (pis 7),
      toWord (pis 8), toWord (pis 9), toWord (pis 10), toWord (pis 11), toWord (pis 12),
      toWord (pis 13), toWord (pis 14), toWord (pis 15), toWord (pis 16)] := rfl

/-- The root over the hashes of four transactions. -/
def fourHash (sha256 : Bytes → U256) (x : Fin 4 → U256) : U256 :=
  hashPair sha256 (hashPair sha256 (x 0) (x 1)) (hashPair sha256 (x 2) (x 3))

/-! ### Gadgets -/

section Gadgets

variable {P : Prover} {w : Variable → Fr254} (sha256 : Bytes → U256)

theorem fullShiftedSha256Hash_ensures (ins : List Variable) :
    Ensures P w (fullShiftedSha256Hash sha256 ins) fun o =>
      w o = shiftedSha256 sha256 (ins.map fun v => toWord (w v)) :=
  (applyGate_ensures _ _).mono fun o ho => by
    rw [ho, List.map_map]
    rfl

theorem fullShiftedSha256HashWithBit_ensures (ins : List Variable) (bit : BoolVar) :
    Ensures P w (fullShiftedSha256HashWithBit sha256 ins bit) fun o =>
      w o = shiftedSha256 sha256
        (setLastBit (decide (w bit.var = 1)) (ins.map fun v => toWord (w v))) :=
  (applyGate_ensures _ _).mono fun o ho => by
    rw [ho]
    simp only [List.map_cons, List.map_map]
    rfl

/-- The hashes of two pairs and the hash of the results, in front of any program. -/
theorem fourHash_ensures {α : Type} (a b c d : Variable) {f : Variable → CircuitM Fr254 α}
    {Q : α → Prop} (hf : ∀ o, w o = ofWord (fourHash sha256
      ![toWord (w a), toWord (w b), toWord (w c), toWord (w d)]) → Ensures P w (f o) Q) :
    Ensures P w (do
      let left ← fullShiftedSha256Hash sha256 [a, b]
      let right ← fullShiftedSha256Hash sha256 [c, d]
      let final ← fullShiftedSha256Hash sha256 [left, right]
      f final) Q := by
  refine (fullShiftedSha256Hash_ensures sha256 _).bind fun left hleft => ?_
  refine (fullShiftedSha256Hash_ensures sha256 _).bind fun right hright => ?_
  refine (fullShiftedSha256Hash_ensures sha256 _).bind fun final hfinal => hf final ?_
  -- the two results are hashed as words again, and a hash is a field element
  simp only [List.map_cons, List.map_nil, shiftedSha256_pair] at hleft hright hfinal
  rw [hfinal, hleft, hright, toWord_hashPair, toWord_hashPair]
  rfl

end Gadgets

/-! ### Base circuits -/

section Base

variable {P : Prover} {w : Variable → Fr254} {sha256 : Bytes → U256}

theorem transactionHash_ensures {piSlice : Fin 18 → Variable} {pis : Fin 18 → Fr254}
    (hpis : ∀ j, w (piSlice j) = pis j) :
    Ensures P w (transactionHash sha256 piSlice) fun r =>
      w r.2 = ofWord (hashTransaction sha256 (onChain pis (decide (w r.1.var = 1)))) := by
  unfold transactionHash
  refine (witness_ensures _).bind fun x _ => ?_
  -- the last public input only suggests the bit; nothing ties them together
  refine (createBooleanVariable_ensures _).bind fun bit _ => ?_
  refine (fullShiftedSha256HashWithBit_ensures sha256 _ bit).bind fun o ho => .pure ?_
  rw [ho, shiftedSha256_eq, hashTransaction, words_onChain]
  simp only [fieldVars, List.map_cons, List.map_nil, hpis]

theorem feeSum_ensures (slices : Fin 4 → Fin 18 → Variable) :
    Ensures P w ((List.ofFn slices).foldlM (fun acc slice => add acc (slice 0)) zero) fun o =>
      w o = ∑ i, w (slices i 0) := by
  refine .const fun hzero _ => ?_
  simp only [List.ofFn_succ, List.ofFn_zero, List.foldlM_cons, List.foldlM_nil]
  refine (add_ensures _ _).bind fun a ha => ?_
  refine (add_ensures _ _).bind fun b hb => ?_
  refine (add_ensures _ _).bind fun c hc => ?_
  refine (add_ensures _ _).bind fun d hd => .pure ?_
  have hz : w zero = 0 := hzero
  rw [hd, hc, hb, ha, hz, zero_add, Fin.sum_univ_four]
  rfl

/-- **The base circuit sums the fees and hashes the four transactions**, each with a bit of its own
choice. -/
theorem baseBn254Checks_ensures {specificPis : Fin 2 → Fin 36 → Variable}
    {pis : Fin 4 → Fin 18 → Fr254} (hpis : ∀ i j, w (piSlices specificPis i j) = pis i j) :
    Ensures P w (baseBn254Checks sha256 specificPis) fun r =>
      w (r.returned 0) = ∑ i, pis i 0 ∧
        w (r.returned 1) = ofWord (fourHash sha256 fun i =>
          hashTransaction sha256 (onChain (pis i) (decide (w (r.bits i).var = 1)))) := by
  unfold baseBn254Checks
  refine (feeSum_ensures _).bind fun feeSum hfee => ?_
  refine (Ensures.forArray fun i => transactionHash_ensures (hpis i)).bind fun shaVars hsha => ?_
  refine fourHash_ensures sha256 _ _ _ _ fun finalSha hfinal => .pure ⟨?_, hfinal.trans ?_⟩
  · exact hfee.trans (by simp only [hpis])
  · simp only [hsha, toWord_ofWord (sha256AndShift_lt_frModulus sha256 _), hashTransaction, fourHash]
    rfl

end Base

/-! ### Merge circuits -/

/-- The roots of two results of `n` values fit together, in both trees. -/
def RootsMeet {F : Type} {n : ℕ} (pis : Fin 2 → Fin (n + 4) → F) : Prop :=
  pis 0 1 = pis 1 0 ∧ pis 0 3 = pis 1 2

section Merge

variable {P : Prover} {sha256 : Bytes → U256}

theorem bn254MergeCircuitChecks_ensures {w : Variable → Fr254}
    {specificPis : Fin 2 → Fin 7 → Variable} {pis : Fin 2 → Fin 7 → Fr254}
    (hpis : ∀ i j, w (specificPis i j) = pis i j) (hmeet : P = .honest → @RootsMeet Fr254 3 pis) :
    Ensures P w (bn254MergeCircuitChecks sha256 specificPis) fun r =>
      @RootsMeet Fr254 3 pis ∧ ∀ j, w (r j) = (![pis 0 0, pis 1 1, pis 0 2, pis 1 3,
        pis 0 4 + pis 1 4, ofWord (fourHash sha256 ![toWord (pis 0 5), toWord (pis 0 6),
          toWord (pis 1 5), toWord (pis 1 6)])] : Fin 6 → Fr254) j := by
  unfold bn254MergeCircuitChecks
  obtain rfl : (fun i j => w (specificPis i j)) = pis := funext₂ hpis
  refine (enforceEqual_ensures fun h => (hmeet h).1).bind fun _ hcomm => ?_
  refine (enforceEqual_ensures fun h => (hmeet h).2).bind fun _ hnull => ?_
  refine (add_ensures _ _).bind fun feeSum hfee => ?_
  refine fourHash_ensures sha256 _ _ _ _ fun finalSha hfinal => .pure ⟨⟨hcomm, hnull⟩, ?_⟩
  intro j
  fin_cases j
  · rfl
  · rfl
  · rfl
  · rfl
  · exact hfee
  · exact hfinal

theorem grumpkinMergeCircuitChecks_ensures {w : Variable → Fq254}
    {specificPis : Fin 2 → Fin 6 → Variable} {pis : Fin 2 → Fin 6 → Fq254}
    (hpis : ∀ i j, w (specificPis i j) = pis i j) (hmeet : P = .honest → @RootsMeet Fq254 2 pis) :
    Ensures P w (grumpkinMergeCircuitChecks specificPis) fun r =>
      @RootsMeet Fq254 2 pis ∧ ∀ j, w (r j) = (![pis 0 0, pis 1 1, pis 0 2, pis 1 3,
        pis 0 4 + pis 1 4, pis 0 5, pis 1 5] : Fin 7 → Fq254) j := by
  unfold grumpkinMergeCircuitChecks
  obtain rfl : (fun i j => w (specificPis i j)) = pis := funext₂ hpis
  refine (enforceEqual_ensures fun h => (hmeet h).1).bind fun _ hcomm => ?_
  refine (enforceEqual_ensures fun h => (hmeet h).2).bind fun _ hnull => ?_
  refine (add_ensures _ _).bind fun feeSum hfee => .pure ⟨⟨hcomm, hnull⟩, ?_⟩
  intro j
  fin_cases j <;> first | exact hfee | rfl

end Merge

/-! ### Trees -/

/-- The values of an insertion. -/
structure Insertion where
  oldRoot : Fr254
  newRoot : Fr254
  /-- The path from the subtree to the roots. -/
  siblingPath : List (PathElement Fr254)
  /-- The leaves of the subtree. -/
  leaves : List Fr254
  deriving DecidableEq

/-- The insertion that an assignment gives to the variables of one. -/
def InsertionVar.eval (w : Variable → Fr254) (v : InsertionVar) : Insertion where
  oldRoot := w v.oldRoot
  newRoot := w v.newRoot
  siblingPath := v.siblingPath.map (PathElementVar.eval w)
  leaves := v.leaves.map w

/-- Subtree roots are at this distance from the root of the commitment tree. -/
def commitmentTreeHeight : ℕ := 29

/-- The insertion as a replacement of an empty subtree in the row of subtree roots. -/
def Insertion.replacement (poseidon : List Fr254 → Fr254) (i : Insertion) : Replacement Fr254 where
  path := i.siblingPath
  old := 0
  new := treeRoot (nodeHash poseidon) (Nat.log 2 i.leaves.length) fun k => i.leaves.getD k 0

/-- The insertion of a subtree at an empty place. -/
structure Insertion.Appends (poseidon : List Fr254 → Fr254) (i : Insertion) : Prop where
  length : i.siblingPath.length = commitmentTreeHeight
  oldRoot : (i.replacement poseidon).oldRoot (nodeHash poseidon) = i.oldRoot
  newRoot : (i.replacement poseidon).newRoot (nodeHash poseidon) = i.newRoot

/-- What the insertion gadgets of the library enforce. -/
structure TreeLibrary.Enforces (lib : TreeLibrary) (commitments nullifiers : Insertion → Prop) :
    Prop where
  commitment : ∀ w xs, Ensures .malicious w (lib.commitmentInsertion xs) fun v =>
    commitments (v.eval w)
  nullifier : ∀ w xs, Ensures .malicious w (lib.nullifierInsertion xs) fun v => nullifiers (v.eval w)

/-- Something is enforced by every library. -/
theorem TreeLibrary.enforces_true (lib : TreeLibrary) :
    lib.Enforces (fun _ => True) fun _ => True :=
  ⟨fun _ _ _ _ _ _ hw => ⟨hw, trivial⟩, fun _ _ _ _ _ _ hw => ⟨hw, trivial⟩⟩

/-- Proofs read from `length` field elements have paths of length `height`. -/
def TreeLibrary.ReadsProofs (lib : TreeLibrary) (length height : ℕ) : Prop :=
  ∀ xs proof, xs.length = length → lib.membershipProof xs = some proof →
    proof.siblingPath.length = height

section Trees

variable {w : Variable → Fr254} {sha256 : Bytes → U256} {lib : TreeLibrary}

theorem orFail_ensures {α : Type} {P : Prover} {msg : String} {x : Option α} {Q : α → Prop}
    (h : ∀ a, x = some a → Q a) : Ensures P w (orFail msg x) Q := by
  cases x with
  | none => exact fail_ensures
  | some a => exact .pure (h a rfl)

theorem copyMembershipProof_ensures (vars : List Variable) :
    Ensures .malicious w (copyMembershipProof lib vars) fun p =>
      ∀ height, lib.ReadsProofs vars.length height → p.siblingPath.length = height := by
  unfold copyMembershipProof
  refine (Ensures.mapM fun v _ => witness_ensures v).bind fun xs hxs => ?_
  refine (orFail_ensures fun _ h => h).bind fun proof hproof => ?_
  refine (fromMembershipProof_ensures _).mono fun p hp height hheight => ?_
  rw [hp.2, hheight xs proof hxs.length_eq.symm hproof]

/-- The root that is checked is that of some path from the root of the client proof. -/
theorem checkRoot_ensures (leafRoot : Variable) (proof : List Variable) (root : Variable) :
    Ensures .malicious w (checkRoot lib leafRoot proof root) fun p =>
      foldPath (nodeHash lib.poseidon) (MembershipProofVar.eval w p).siblingPath (w leafRoot) =
        w root := by
  unfold checkRoot
  refine (copyMembershipProof_ensures _).bind fun p _ => ?_
  refine (verifyMembershipProof_ensures lib.poseidon p leafRoot root).bind fun b hb => ?_
  refine (enforceTrue_ensures fun h => by cases h).bind fun _ htrue => .pure ?_
  rw [hb, ofBool_eq_one, decide_eq_true_eq] at htrue
  exact htrue

theorem halfChecks_ensures {commitments nullifiers : Insertion → Prop}
    (hlib : lib.Enforces commitments nullifiers) (pi : ExtraPis Variable) :
    Ensures .malicious w (halfChecks lib pi) fun r =>
      (∀ i, foldPath (nodeHash lib.poseidon) (MembershipProofVar.eval w (r.proofs i)).siblingPath
        (w (pi.leafRoots i)) = w (pi.roots i)) ∧
          commitments (r.commitments.eval w) ∧ nullifiers (r.nullifiers.eval w) := by
  unfold halfChecks
  -- the gadgets read new variables: all that is known of them is what the library enforces
  refine (Ensures.forArray fun i => checkRoot_ensures _ _ _).bind fun proofs hproofs => ?_
  refine (mapM_witness_ensures _).bind fun xs _ => ?_
  refine (hlib.commitment w _).bind fun c hc => ?_
  refine (mapM_witness_ensures _).bind fun ys _ => ?_
  exact (hlib.nullifier w _).bind fun n hn => .pure ⟨hproofs, hc, hn⟩

/-- **The two halves of a base circuit insert one after the other.** -/
theorem baseBn254ExtraChecks_ensures {commitments nullifiers : Insertion → Prop}
    (hlib : lib.Enforces commitments nullifiers) (specificPis : List Variable) (l₁ l₂ l₃ : ℕ) :
    Ensures .malicious w (baseBn254ExtraChecks lib specificPis l₁ l₂ l₃) fun r =>
      (∀ i, commitments ((r.halves i).commitments.eval w) ∧
        nullifiers ((r.halves i).nullifiers.eval w)) ∧
      w (r.returned 0) = w (r.halves 0).commitments.oldRoot ∧
      w (r.halves 1).commitments.oldRoot = w (r.halves 0).commitments.newRoot ∧
      w (r.returned 1) = w (r.halves 1).commitments.newRoot ∧
      w (r.returned 2) = w (r.halves 0).nullifiers.oldRoot ∧
      w (r.halves 1).nullifiers.oldRoot = w (r.halves 0).nullifiers.newRoot ∧
      w (r.returned 3) = w (r.halves 1).nullifiers.newRoot := by
  unfold baseBn254ExtraChecks
  -- without enough public inputs there is no circuit
  refine (orFail_ensures fun _ _ => trivial).bind fun firstPis _ => ?_
  refine (orFail_ensures fun _ _ => trivial).bind fun secondPis _ => ?_
  refine (halfChecks_ensures hlib _).bind fun first hfirst => ?_
  refine (halfChecks_ensures hlib _).bind fun second hsecond => ?_
  refine (enforceEqual_ensures fun h => by cases h).bind fun _ hcomm => ?_
  refine (enforceEqual_ensures fun h => by cases h).bind fun _ hnull => ?_
  refine (checkCircuitSatisfiability_ensures _).bind fun _ _ => ?_
  refine .pure ⟨?_, rfl, hcomm, rfl, rfl, hnull, rfl⟩
  intro i
  fin_cases i
  · exact hfirst.2
  · exact hsecond.2

/-- **The decider circuit replaces zero by the new commitment root** at some path of the historic root
tree. -/
theorem deciderCircuitChecks_ensures {specificPis : Fin 2 → Fin 7 → Variable}
    {pis : Fin 2 → Fin 7 → Fr254} (hpis : ∀ i j, w (specificPis i j) = pis i j)
    (deciderPis : List Variable) (rootMProofLength : ℕ) :
    Ensures .malicious w (deciderCircuitChecks sha256 lib specificPis deciderPis rootMProofLength)
      fun r => @RootsMeet Fr254 3 pis ∧ w (r.returned 0) = pis 0 4 + pis 1 4 ∧
        w (r.returned 1) = ofWord (fourHash sha256 ![toWord (pis 0 5), toWord (pis 0 6),
          toWord (pis 1 5), toWord (pis 1 6)]) ∧
        w (r.returned 2) = pis 0 0 ∧ w (r.returned 3) = pis 1 1 ∧ w (r.returned 4) = pis 0 2 ∧
        w (r.returned 5) = pis 1 3 ∧
        foldPath (nodeHash lib.poseidon) (MembershipProofVar.eval w r.mProofVar).siblingPath 0 =
          w (r.returned 6) ∧
        foldPath (nodeHash lib.poseidon) (MembershipProofVar.eval w r.mProofVar).siblingPath
          (pis 1 1) = w (r.returned 7) ∧
        ∀ height, lib.ReadsProofs rootMProofLength height →
          r.mProofVar.siblingPath.length = height := by
  unfold deciderCircuitChecks
  obtain rfl : (fun i j => w (specificPis i j)) = pis := funext₂ hpis
  refine .const fun hzero _ => ?_
  refine (enforceEqual_ensures fun h => by cases h).bind fun _ hcomm => ?_
  refine (enforceEqual_ensures fun h => by cases h).bind fun _ hnull => ?_
  refine (add_ensures _ _).bind fun feeSum hfee => ?_
  refine fourHash_ensures sha256 _ _ _ _ fun finalSha hfinal => ?_
  refine (orFail_ensures fun _ h => h).bind fun oldRoot hsome => ?_
  refine (copyMembershipProof_ensures _).bind fun p hp => ?_
  refine (calculateNewRoot_ensures _ _ _).bind fun new hnew => ?_
  refine (calculateNewRoot_ensures _ _ _).bind fun old hold => ?_
  refine (enforceEqual_ensures fun h => by cases h).bind fun _ heq => ?_
  refine .pure ⟨⟨hcomm, hnull⟩, hfee, hfinal, rfl, rfl, rfl, rfl, ?_, hnew.symm, ?_⟩
  · have hz : w zero = 0 := hzero
    rw [hz] at hold
    exact hold.symm.trans heq
  · obtain ⟨hlt, -⟩ := List.getElem?_eq_some_iff.1 hsome
    rw [List.length_take_of_le hlt.le] at hp
    exact hp

end Trees

end Rollup

end Nightfall
