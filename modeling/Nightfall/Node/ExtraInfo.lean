import Nightfall.Data.ListCodec
import Nightfall.Node.Assembly
import Nightfall.Trees.InsertionShapes

/-!
# The witness of a block

The prover hands the recursion framework one list of field elements for each four transactions, and one
for the last circuit.  The framework takes the words off that hold lengths, and gives the rest to the
checks of the rollup, which cut it up again by these lengths.  No format is shared: the writer is
`prepareStateTransition`, the readers are `baseBn254ExtraChecks` and `historicRootChecks`.

What is read is what was written (`extraInfo_layout`).  What the gadgets enforce about it is left to
them.
-/

namespace Nightfall

namespace Node

open Evm Merkle Trees Stateful
open Client (PublicInputs)

/-! ### The readers -/

/-- The conversions of field elements to witnesses. -/
structure WitnessReader where
  /-- `MembershipProof::try_from`. -/
  membershipTryFrom : List Fr254 → Option (MembershipProof Fr254)
  /-- `CircuitInsertionInfo::from_slice`. -/
  insertionFromSlice : List Fr254 → ℕ → Option (CircuitInsertionInfo Fr254)
  /-- `IMTCircuitInsertionInfo::from_slice`. -/
  nullifierFromSlice : List Fr254 → ℕ → ℕ → Option (IMTCircuitInsertionInfo Fr254)

/-- A proof that is verified, for a leaf and a root. -/
structure MembershipCheck where
  proof : MembershipProof Fr254
  leaf : Fr254
  root : Fr254

/-- What the gadgets get for two transactions. -/
structure PairChecks where
  membership : List MembershipCheck
  commitmentInfo : CircuitInsertionInfo Fr254
  nullifierInfo : IMTCircuitInsertionInfo Fr254

/-- What the gadgets get for four transactions, and what is enforced to be equal and returned. -/
structure ExtraChecks where
  first : PairChecks
  second : PairChecks
  equal : List (Fr254 × Fr254)
  roots : List Fr254

section Readers

variable (reader : WitnessReader) (rootMProofLength commitmentInfoLength nullifierInfoLength : ℕ)

/-- The check of one historic root; the slices panic if the chunk is too short. -/
def readMembership (chunk : List Fr254) (leafRoot : Fr254) : Option MembershipCheck := do
  let fieldElems ← if chunk.length < rootMProofLength then none else some (chunk.take rootMProofLength)
  let membershipProof ← reader.membershipTryFrom fieldElems
  let root ← chunk[rootMProofLength]?
  pure ⟨membershipProof, leafRoot, root⟩

/-- One turn of the loop of `base_bn254_extra_checks`; the slices panic if there are too few
elements. -/
def readPair (pi : List Fr254) : Option PairChecks := do
  let commitmentStart := 8 * (rootMProofLength + 2)
  let nullifierStart := 8 * (rootMProofLength + 2) + commitmentInfoLength
  if pi.length < 8 then none
  else
    let membership ← (((chunks (rootMProofLength + 1) (pi.drop 8)).take 8).zip (pi.take 8)).mapM
      fun chunk => readMembership reader rootMProofLength chunk.1 chunk.2
    if pi.length < commitmentStart then none
    else
      let commInsertInfo ← reader.insertionFromSlice
        ((pi.drop commitmentStart).take commitmentInfoLength) 29
      if pi.length < nullifierStart then none
      else
        let nullifierInsertInfo ← reader.nullifierFromSlice
          ((pi.drop nullifierStart).take nullifierInfoLength) 32 8
        pure ⟨membership, commInsertInfo, nullifierInsertInfo⟩

/-- What is enforced and returned for two pairs of transactions. -/
def ExtraChecks.ofPairs (first second : PairChecks) : ExtraChecks where
  first := first
  second := second
  equal := [(second.commitmentInfo.oldRoot, first.commitmentInfo.newRoot),
    (second.nullifierInfo.oldRoot, first.nullifierInfo.circuitInfo.newRoot)]
  roots := [first.commitmentInfo.oldRoot, second.commitmentInfo.newRoot,
    first.nullifierInfo.oldRoot, second.nullifierInfo.circuitInfo.newRoot]

/-- `base_bn254_extra_checks`. -/
def baseBn254ExtraChecks (specificPis : List Fr254) : Option ExtraChecks := do
  let first ← readPair reader rootMProofLength commitmentInfoLength nullifierInfoLength
    (specificPis.take (specificPis.length / 2))
  let second ← readPair reader rootMProofLength commitmentInfoLength nullifierInfoLength
    (specificPis.drop (specificPis.length / 2))
  pure (.ofPairs first second)

/-- What `decider_circuit_checks` reads of the tree of historic roots: the path of the new root, and
the root before. -/
def historicRootChecks (specificPi : List Fr254) : Option (MembershipProof Fr254 × Fr254) := do
  let fieldElems ←
    if specificPi.length < rootMProofLength then none else some (specificPi.take rootMProofLength)
  let membershipProof ← reader.membershipTryFrom fieldElems
  let oldRoot ← specificPi[rootMProofLength]?
  pure (membershipProof, oldRoot)

end Readers

/-- How the recursion framework takes the lengths off: of the two halves of the extra information, and
of the information for the last circuit. -/
structure RecursionFramework where
  base : List Fr254 → Option (List Fr254 × ℕ × ℕ × ℕ)
  decider : List Fr254 → Option (List Fr254 × ℕ)

/-- The lengths that stand before a half. -/
def lengthWords (rootMProofLength commitmentInfoLength nullifierInfoLength : ℕ) : List Fr254 :=
  [(rootMProofLength : Fr254), (commitmentInfoLength : Fr254), (nullifierInfoLength : Fr254)]

/-- The framework takes the lengths off. -/
structure RecursionFramework.Strips (framework : RecursionFramework) : Prop where
  base : ∀ (l₁ l₂ l₃ : ℕ) (first second : List Fr254), l₁ < 2 ^ 64 → l₂ < 2 ^ 64 → l₃ < 2 ^ 64 →
    first.length = second.length →
      framework.base (lengthWords l₁ l₂ l₃ ++ first ++ (lengthWords l₁ l₂ l₃ ++ second)) =
        some (first ++ second, l₁, l₂, l₃)
  decider : ∀ (l : ℕ) (rest : List Fr254), l < 2 ^ 64 → framework.decider ((l : Fr254) :: rest) = some (rest, l)

/-- The circuit for four transactions reads its extra information. -/
def parseExtraInfo (framework : RecursionFramework) (reader : WitnessReader) (extraInfo : List Fr254) :
    Option ExtraChecks := do
  let stripped ← framework.base extraInfo
  baseBn254ExtraChecks reader stripped.2.1 stripped.2.2.1 stripped.2.2.2 stripped.1

/-- The last circuit reads its extra information. -/
def parseExtraDeciderInfo (framework : RecursionFramework) (reader : WitnessReader)
    (extraInfo : List Fr254) : Option (MembershipProof Fr254 × Fr254) := do
  let stripped ← framework.decider extraInfo
  historicRootChecks reader stripped.2 stripped.1

/-! ### One half -/

section Half

variable {P O : Type} {engine : RollupEngine P O} {reader : WitnessReader}
  {framework : RecursionFramework} {l₁ l₂ l₃ : ℕ} {currentRoot : Fr254}
  {proofs : Fr254 → MembershipProof Fr254}

/-- The readers read what the conversions of the prover write, for the heights of the trees: the
lengths depend on the heights only. -/
structure WitnessReader.ReadsBack (reader : WitnessReader) (engine : RollupEngine P O) (l₁ l₂ l₃ : ℕ) :
    Prop where
  membership : ListCodec.Reads ⟨engine.membershipVec, reader.membershipTryFrom⟩
    (MembershipProof.Fits 32) l₁
  insertion : ListCodec.Reads ⟨engine.insertionVec, fun l => reader.insertionFromSlice l 29⟩
    (CircuitInsertionInfo.Fits 29 8) l₂
  nullifier : ListCodec.Reads ⟨engine.nullifierVec, fun l => reader.nullifierFromSlice l 32 8⟩
    (IMTCircuitInsertionInfo.Fits 29 32 8) l₃
  membership_lt : l₁ < 2 ^ 64
  insertion_lt : l₂ < 2 ^ 64
  nullifier_lt : l₃ < 2 ^ 64

/-- The proof of one historic root, with the root of the tree. -/
def rootProofVec (engine : RollupEngine P O) (currentRoot : Fr254)
    (proofs : Fr254 → MembershipProof Fr254) (root : Fr254) : List Fr254 :=
  engine.membershipVec (proofs root) ++ [currentRoot]

theorem readMembership_eq (h : reader.ReadsBack engine l₁ l₂ l₃) {root : Fr254}
    (hfits : (proofs root).Fits 32) :
    readMembership reader l₁ (rootProofVec engine currentRoot proofs root) root =
      some ⟨proofs root, root, currentRoot⟩ := by
  obtain ⟨hlength, hread⟩ := h.membership _ hfits
  dsimp only at hlength hread
  have hlt : ¬ (rootProofVec engine currentRoot proofs root).length < l₁ := by
    rw [rootProofVec, List.length_append, hlength]
    omega
  have hroot : (rootProofVec engine currentRoot proofs root)[l₁]? = some currentRoot := by
    rw [rootProofVec, ← hlength, List.getElem?_concat_length]
  rw [readMembership, if_neg hlt, hroot, rootProofVec, List.take_left' hlength]
  simp only [Option.bind_eq_bind, Option.bind_some, hread]
  rfl

/-- The proofs of the eight roots. -/
theorem readMemberships_eq (h : reader.ReadsBack engine l₁ l₂ l₃) {leaves : List Fr254}
    (hfits : ∀ root ∈ leaves, (proofs root).Fits 32) :
    ((leaves.map (rootProofVec engine currentRoot proofs)).zip leaves).mapM
        (fun chunk => readMembership reader l₁ chunk.1 chunk.2) =
      some (leaves.map fun root => ⟨proofs root, root, currentRoot⟩) := by
  induction leaves with
  | nil => rfl
  | cons root leaves ih =>
    rw [List.forall_mem_cons] at hfits
    rw [List.map_cons, List.zip_cons_cons, List.mapM_cons, readMembership_eq h hfits.1, ih hfits.2]
    rfl

theorem length_rootProofVec (h : reader.ReadsBack engine l₁ l₂ l₃) {root : Fr254}
    (hfits : (proofs root).Fits 32) :
    (rootProofVec engine currentRoot proofs root).length = l₁ + 1 := by
  rw [rootProofVec, List.length_append, List.length_singleton]
  exact congrArg (· + 1) (h.membership _ hfits).1

/-- The elements for two transactions with the historic roots `leaves`. -/
def pairElems (engine : RollupEngine P O) (currentRoot : Fr254)
    (proofs : Fr254 → MembershipProof Fr254) (leaves : List Fr254)
    (commitmentInfo : CircuitInsertionInfo Fr254) (nullifierInfo : IMTCircuitInsertionInfo Fr254) :
    List Fr254 :=
  leaves ++ (leaves.map (rootProofVec engine currentRoot proofs)).flatten ++
    engine.insertionVec commitmentInfo ++ engine.nullifierVec nullifierInfo

/-- What has to be read from them. -/
def pairChecks (currentRoot : Fr254) (proofs : Fr254 → MembershipProof Fr254) (leaves : List Fr254)
    (commitmentInfo : CircuitInsertionInfo Fr254) (nullifierInfo : IMTCircuitInsertionInfo Fr254) :
    PairChecks :=
  ⟨leaves.map fun root => ⟨proofs root, root, currentRoot⟩, commitmentInfo, nullifierInfo⟩

section Pair

variable {leaves : List Fr254} {commitmentInfo : CircuitInsertionInfo Fr254}
  {nullifierInfo : IMTCircuitInsertionInfo Fr254}

variable (currentRoot) in
/-- Where the two insertions begin. -/
theorem length_roots (h : reader.ReadsBack engine l₁ l₂ l₃) (hleaves : leaves.length = 8)
    (hfits : ∀ root ∈ leaves, (proofs root).Fits 32) :
    (leaves ++ (leaves.map (rootProofVec engine currentRoot proofs)).flatten).length =
      8 * (l₁ + 2) := by
  have hparts : ∀ part ∈ leaves.map (rootProofVec engine currentRoot proofs),
      part.length = l₁ + 1 := by
    intro part hpart
    obtain ⟨root, hroot, rfl⟩ := List.mem_map.1 hpart
    exact length_rootProofVec h (hfits root hroot)
  rw [List.length_append, List.length_flatten, List.map_congr_left hparts, List.map_const',
    List.sum_replicate_nat, List.length_map, hleaves]
  ring

variable (currentRoot) in
theorem length_pairElems (h : reader.ReadsBack engine l₁ l₂ l₃) (hleaves : leaves.length = 8)
    (hfits : ∀ root ∈ leaves, (proofs root).Fits 32) (hcommitment : commitmentInfo.Fits 29 8)
    (hnullifier : nullifierInfo.Fits 29 32 8) :
    (pairElems engine currentRoot proofs leaves commitmentInfo nullifierInfo).length =
      8 * (l₁ + 2) + l₂ + l₃ := by
  rw [pairElems, List.length_append, List.length_append, length_roots currentRoot h hleaves hfits,
    (h.insertion _ hcommitment).1, (h.nullifier _ hnullifier).1]

/-- **Two transactions are read as they were written.** -/
theorem readPair_eq (h : reader.ReadsBack engine l₁ l₂ l₃) (hleaves : leaves.length = 8)
    (hfits : ∀ root ∈ leaves, (proofs root).Fits 32) (hcommitment : commitmentInfo.Fits 29 8)
    (hnullifier : nullifierInfo.Fits 29 32 8) :
    readPair reader l₁ l₂ l₃
        (pairElems engine currentRoot proofs leaves commitmentInfo nullifierInfo) =
      some (pairChecks currentRoot proofs leaves commitmentInfo nullifierInfo) := by
  obtain ⟨hlength₂, hread₂⟩ := h.insertion _ hcommitment
  obtain ⟨hlength₃, hread₃⟩ := h.nullifier _ hnullifier
  dsimp only at hlength₂ hread₂ hlength₃ hread₃
  have hlength := length_pairElems currentRoot h hleaves hfits hcommitment hnullifier
  have hstart := length_roots currentRoot h hleaves hfits
  set proofVecs := leaves.map (rootProofVec engine currentRoot proofs) with hvecs
  have hparts : ∀ part ∈ proofVecs, part.length = l₁ + 1 := by
    intro part hpart
    obtain ⟨root, hroot, rfl⟩ := List.mem_map.1 hpart
    exact length_rootProofVec h (hfits root hroot)
  have hcount : proofVecs.length = 8 := by rw [hvecs, List.length_map, hleaves]
  have hend : (leaves ++ proofVecs.flatten ++ engine.insertionVec commitmentInfo).length =
      8 * (l₁ + 2) + l₂ := by rw [List.length_append, hstart, hlength₂]
  set pi := pairElems engine currentRoot proofs leaves commitmentInfo nullifierInfo with helems
  have hpi : pi = leaves ++ proofVecs.flatten ++ engine.insertionVec commitmentInfo ++
    engine.nullifierVec nullifierInfo := rfl
  -- the eight roots come first, then their proofs
  have hroots : pi.take 8 = leaves := by
    rw [hpi, List.append_assoc, List.append_assoc, List.take_left' hleaves]
  have hchunks : (chunks (l₁ + 1) (pi.drop 8)).take 8 = proofVecs := by
    rw [hpi, List.append_assoc, List.append_assoc, List.drop_left' hleaves,
      chunks_flatten_append (Nat.succ_pos _) hparts, List.take_left' hcount]
  have hinsertion : (pi.drop (8 * (l₁ + 2))).take l₂ = engine.insertionVec commitmentInfo := by
    rw [hpi, List.append_assoc, List.drop_left' hstart, List.take_left' hlength₂]
  have hnullifiers : (pi.drop (8 * (l₁ + 2) + l₂)).take l₃ = engine.nullifierVec nullifierInfo := by
    rw [hpi, List.drop_left' hend, List.take_of_length_le hlength₃.le]
  rw [readPair, if_neg (by omega), hchunks, hroots, hvecs, readMemberships_eq h hfits]
  simp only [Option.bind_eq_bind, Option.bind_some, hinsertion, hnullifiers, hread₂, hread₃,
    if_neg (show ¬ pi.length < 8 * (l₁ + 2) by omega),
    if_neg (show ¬ pi.length < 8 * (l₁ + 2) + l₂ by omega)]
  rfl

end Pair

variable (currentRoot) in
/-- **Four transactions are read as they were written.** -/
theorem parseExtraInfo_eq (hframework : framework.Strips) (h : reader.ReadsBack engine l₁ l₂ l₃)
    {leaves leaves' : List Fr254} {commitmentInfo commitmentInfo' : CircuitInsertionInfo Fr254}
    {nullifierInfo nullifierInfo' : IMTCircuitInsertionInfo Fr254}
    (hleaves : leaves.length = 8) (hleaves' : leaves'.length = 8)
    (hfits : ∀ root ∈ leaves ++ leaves', (proofs root).Fits 32)
    (hcommitment : commitmentInfo.Fits 29 8) (hcommitment' : commitmentInfo'.Fits 29 8)
    (hnullifier : nullifierInfo.Fits 29 32 8) (hnullifier' : nullifierInfo'.Fits 29 32 8) :
    parseExtraInfo framework reader
        (lengthWords l₁ l₂ l₃ ++
            pairElems engine currentRoot proofs leaves commitmentInfo nullifierInfo ++
          (lengthWords l₁ l₂ l₃ ++
            pairElems engine currentRoot proofs leaves' commitmentInfo' nullifierInfo')) =
      some (.ofPairs (pairChecks currentRoot proofs leaves commitmentInfo nullifierInfo)
        (pairChecks currentRoot proofs leaves' commitmentInfo' nullifierInfo')) := by
  rw [List.forall_mem_append] at hfits
  have hlength := length_pairElems currentRoot h hleaves hfits.1 hcommitment
    hnullifier
  have hlength' := length_pairElems currentRoot h hleaves' hfits.2 hcommitment'
    hnullifier'
  have hsame := hlength.trans hlength'.symm
  have hhalf : (pairElems engine currentRoot proofs leaves commitmentInfo nullifierInfo ++
      pairElems engine currentRoot proofs leaves' commitmentInfo' nullifierInfo').length / 2 =
        (pairElems engine currentRoot proofs leaves commitmentInfo nullifierInfo).length := by
    rw [List.length_append, ← hsame]
    omega
  rw [parseExtraInfo, hframework.base _ _ _ _ _ h.membership_lt h.insertion_lt h.nullifier_lt hsame]
  simp only [Option.bind_eq_bind, Option.bind_some, baseBn254ExtraChecks]
  rw [hhalf, List.take_left' rfl, List.drop_left' rfl,
    readPair_eq h hleaves hfits.1 hcommitment hnullifier,
    readPair_eq h hleaves' hfits.2 hcommitment' hnullifier']
  rfl

/-- The information for the last circuit is read as it was written. -/
theorem parseExtraDeciderInfo_eq (hframework : framework.Strips)
    (h : reader.ReadsBack engine l₁ l₂ l₃) {proof : MembershipProof Fr254} (hfits : proof.Fits 32)
    (oldRoot : Fr254) :
    parseExtraDeciderInfo framework reader
        (((engine.membershipVec proof).length : Fr254) :: engine.membershipVec proof ++ [oldRoot]) =
      some (proof, oldRoot) := by
  obtain ⟨hlength, hread⟩ := h.membership _ hfits
  dsimp only at hlength hread
  have hlt : ¬ (engine.membershipVec proof ++ [oldRoot]).length < l₁ := by
    rw [List.length_append, hlength]
    omega
  have hroot : (engine.membershipVec proof ++ [oldRoot])[l₁]? = some oldRoot := by
    rw [← hlength, List.getElem?_concat_length]
  rw [List.cons_append, hlength, parseExtraDeciderInfo, hframework.decider _ _ h.membership_lt]
  simp only [Option.bind_eq_bind, Option.bind_some, historicRootChecks, if_neg hlt,
    List.take_left' hlength, hread, hroot]
  rfl

end Half

/-! ### All transactions -/

/-- The historic roots of some transactions. -/
def historicRoots (pis : List (PublicInputs Fr254)) : List Fr254 :=
  pis.flatMap fun pi => List.ofFn pi.roots

/-- What has to be read from the information for the transactions of two pairs. -/
def chunkChecks : List PairChecks → Option ExtraChecks
  | [first, second] => some (.ofPairs first second)
  | _ => none

section Blocks

variable {P O : Type} {engine : RollupEngine P O} {reader : WitnessReader}
  {framework : RecursionFramework} {l₁ l₂ l₃ l : ℕ} {currentRoot : Fr254}
  {proofs : Fr254 → MembershipProof Fr254}

/-- The proofs of the historic roots of one transaction. -/
def transactionProofVec (engine : RollupEngine P O) (currentRoot : Fr254)
    (proofs : Fr254 → MembershipProof Fr254) (pi : PublicInputs Fr254) : List Fr254 :=
  ((List.ofFn pi.roots).map (rootProofVec engine currentRoot proofs)).flatten

theorem extraInfoHalf_eq (lengths : List Fr254) (pi₀ pi₁ : PublicInputs Fr254)
    (commitmentInfo : CircuitInsertionInfo Fr254) (nullifierInfo : IMTCircuitInsertionInfo Fr254) :
    extraInfoHalf lengths pi₀ pi₁ (transactionProofVec engine currentRoot proofs pi₀)
        (transactionProofVec engine currentRoot proofs pi₁) (engine.insertionVec commitmentInfo)
        (engine.nullifierVec nullifierInfo) =
      lengths ++ pairElems engine currentRoot proofs (historicRoots [pi₀, pi₁]) commitmentInfo
        nullifierInfo := by
  have hroots : historicRoots [pi₀, pi₁] = List.ofFn pi₀.roots ++ List.ofFn pi₁.roots := by
    rw [historicRoots, List.flatMap_cons, List.flatMap_cons, List.flatMap_nil, List.append_nil]
  rw [hroots, extraInfoHalf, pairElems, List.map_append, List.flatten_append, transactionProofVec,
    transactionProofVec]
  simp only [List.append_assoc]

theorem length_historicRoots (pis : List (PublicInputs Fr254)) :
    (historicRoots pis).length = 4 * pis.length := by
  induction pis with
  | nil => rfl
  | cons pi pis ih =>
    rw [historicRoots, List.flatMap_cons, List.length_append, List.length_ofFn, ← historicRoots, ih,
      List.length_cons]
    ring

theorem chunks_two {α : Type} (a b : α) (as : List α) :
    chunks 2 (a :: b :: as) = [a, b] :: chunks 2 as := chunks_append (a := [a, b]) Nat.two_pos rfl as

/-- The information for the first four transactions comes first. -/
theorem blockExtraInfo_cons (pi₀ pi₁ pi₂ pi₃ : PublicInputs Fr254)
    (pis : List (PublicInputs Fr254)) (r₀ r₁ r₂ r₃ c₀ c₁ n₀ n₁ : List Fr254)
    (rs cs ns : List (List Fr254)) :
    blockExtraInfo l (pi₀ :: pi₁ :: pi₂ :: pi₃ :: pis) (r₀ :: r₁ :: r₂ :: r₃ :: rs)
        (c₀ :: c₁ :: cs) (n₀ :: n₁ :: ns) =
      (extraInfoChunk l [pi₀, pi₁, pi₂, pi₃] [r₀, r₁, r₂, r₃] [c₀, c₁] [n₀, n₁]).bind fun extra =>
        (blockExtraInfo l pis rs cs ns).bind fun extras => some (extra :: extras) := by
  have hpis : chunks 4 (pi₀ :: pi₁ :: pi₂ :: pi₃ :: pis) = [pi₀, pi₁, pi₂, pi₃] :: chunks 4 pis :=
    chunks_append (a := [pi₀, pi₁, pi₂, pi₃]) four_pos rfl pis
  have hrs : chunks 4 (r₀ :: r₁ :: r₂ :: r₃ :: rs) = [r₀, r₁, r₂, r₃] :: chunks 4 rs :=
    chunks_append (a := [r₀, r₁, r₂, r₃]) four_pos rfl rs
  rw [blockExtraInfo, hpis, hrs, chunks_two, chunks_two]
  simp only [List.zip_cons_cons, List.mapM_cons]
  rfl

theorem exists_two_of_length {α : Type} {as : List α} {k : ℕ} (h : as.length = k + 2) :
    ∃ a b rest, as = a :: b :: rest ∧ rest.length = k := by
  obtain ⟨a, as', rfl⟩ := List.exists_cons_of_length_eq_add_one h
  obtain ⟨b, rest, rfl⟩ := List.exists_cons_of_length_eq_add_one (Nat.succ.inj h)
  exact ⟨a, b, rest, rfl, Nat.succ.inj (Nat.succ.inj h)⟩

/-- **Reading back what was written for a list of transactions.** -/
theorem blockExtraInfo_layout (hframework : framework.Strips)
    (h : reader.ReadsBack engine l₁ l₂ l₃) {m : ℕ} {pis : List (PublicInputs Fr254)}
    {commitmentInfo : List (CircuitInsertionInfo Fr254)}
    {nullifierInfo : List (IMTCircuitInsertionInfo Fr254)} (hpis : pis.length = 4 * m)
    (hcommitments : commitmentInfo.length = 2 * m) (hnullifiers : nullifierInfo.length = 2 * m)
    (hl : pis ≠ [] → l = l₁) (hfits : ∀ root ∈ historicRoots pis, (proofs root).Fits 32)
    (hcommitment : ∀ info ∈ commitmentInfo, info.Fits 29 8)
    (hnullifier : ∀ info ∈ nullifierInfo, info.Fits 29 32 8) :
    ∃ extraInfo pairs,
      blockExtraInfo l pis (pis.map (transactionProofVec engine currentRoot proofs))
        (commitmentInfo.map engine.insertionVec) (nullifierInfo.map engine.nullifierVec) =
          some extraInfo ∧
      extraInfo.map (parseExtraInfo framework reader) = (chunks 2 pairs).map chunkChecks ∧
      pairs.map PairChecks.membership = (chunks 2 pis).map
        (fun pair => (historicRoots pair).map fun root => ⟨proofs root, root, currentRoot⟩) ∧
      pairs.map PairChecks.commitmentInfo = commitmentInfo ∧
      pairs.map PairChecks.nullifierInfo = nullifierInfo := by
  induction m generalizing pis commitmentInfo nullifierInfo with
  | zero =>
    obtain rfl := List.eq_nil_of_length_eq_zero hpis
    obtain rfl := List.eq_nil_of_length_eq_zero hcommitments
    obtain rfl := List.eq_nil_of_length_eq_zero hnullifiers
    exact ⟨[], [], rfl, rfl, rfl, rfl, rfl⟩
  | succ m ih =>
    obtain ⟨pi₀, pi₁, rest, hrest, hrestLength⟩ := exists_two_of_length (k := 4 * m + 2) hpis
    obtain ⟨pi₂, pi₃, pis, rfl, hpisLength⟩ := exists_two_of_length hrestLength
    subst hrest
    obtain ⟨c₀, c₁, commitmentInfo, rfl, hcLength⟩ := exists_two_of_length hcommitments
    obtain ⟨n₀, n₁, nullifierInfo, rfl, hnLength⟩ := exists_two_of_length hnullifiers
    obtain rfl := hl (List.cons_ne_nil _ _)
    rw [List.forall_mem_cons, List.forall_mem_cons] at hcommitment hnullifier
    have hroots : historicRoots (pi₀ :: pi₁ :: pi₂ :: pi₃ :: pis) =
        (historicRoots [pi₀, pi₁] ++ historicRoots [pi₂, pi₃]) ++ historicRoots pis := by
      simp only [historicRoots, List.flatMap_cons, List.flatMap_nil, List.append_nil,
        List.append_assoc]
    rw [hroots, List.forall_mem_append] at hfits
    obtain ⟨extraInfo, pairs, hwrite, hread, hmembership, hinfos, hinfos'⟩ :=
      ih hpisLength hcLength hnLength (fun _ => rfl) hfits.2 hcommitment.2.2 hnullifier.2.2
    have hparse := parseExtraInfo_eq currentRoot hframework h
      (length_historicRoots [pi₀, pi₁]) (length_historicRoots [pi₂, pi₃]) hfits.1 hcommitment.1
      hcommitment.2.1 hnullifier.1 hnullifier.2.1
    -- the lengths are those of the first half
    have hlengths : (engine.insertionVec c₀).length = l₂ := (h.insertion _ hcommitment.1).1
    have hlengths' : (engine.nullifierVec n₀).length = l₃ := (h.nullifier _ hnullifier.1).1
    refine ⟨(lengthWords l l₂ l₃ ++
        pairElems engine currentRoot proofs (historicRoots [pi₀, pi₁]) c₀ n₀ ++
      (lengthWords l l₂ l₃ ++
        pairElems engine currentRoot proofs (historicRoots [pi₂, pi₃]) c₁ n₁)) :: extraInfo,
      pairChecks currentRoot proofs (historicRoots [pi₀, pi₁]) c₀ n₀ ::
      pairChecks currentRoot proofs (historicRoots [pi₂, pi₃]) c₁ n₁ :: pairs, ?_, ?_, ?_, ?_, ?_⟩
    · simp only [List.map_cons]
      rw [blockExtraInfo_cons, hwrite, extraInfoChunk]
      rw [hlengths, hlengths', ← lengthWords, extraInfoHalf_eq, extraInfoHalf_eq]
      rfl
    · rw [List.map_cons, hparse, hread, chunks_two, List.map_cons]
      rfl
    · rw [List.map_cons, List.map_cons, hmembership, chunks_two, chunks_two, List.map_cons,
        List.map_cons]
      rfl
    · rw [List.map_cons, List.map_cons, hinfos]
      rfl
    · rw [List.map_cons, List.map_cons, hinfos']
      rfl

end Blocks

/-! ### The proofs of the historic roots -/

section RootProofs

variable {P O : Type} {engine : RollupEngine P O} {cfg : ProposerConfig P}
  {fault : AssemblyCall → Fault} {s s' : ProposerState P} {db db' : TreeDb Fr254} {l₁ : ℕ}
  {currentRoot : Fr254}

theorem run_withFault_eq_ok {α : Type} {f : Fault} {x : TreeM Fr254 α} {a : α}
    (h : (withFault f x).run db = .ok a db') : x.run db = .ok a db' := by
  cases f with
  | none => exact h
  | some f => cases h

/-- A call on the tree of historic roots that succeeds and leaves it. -/
theorem run_onHistoricRoots_eq_ok {α : Type} {call : AssemblyCall} {x : TreeM Fr254 α} {a : α}
    (h : (onHistoricRoots rollupTreeError (withFault (fault call) x)).run s = .ok a s')
    (hkeeps : ∀ {a db'}, x.run s.historicRoots = .ok a db' → db' = s.historicRoots) :
    x.run s.historicRoots = .ok a s.historicRoots ∧ s' = s := by
  obtain ⟨db', hrun, rfl⟩ := run_onTree_eq_ok.1 h
  have hrun := run_withFault_eq_ok hrun
  obtain rfl := hkeeps hrun
  exact ⟨hrun, rfl⟩

/-- A proof of a historic root leaves the tree, and has its height. -/
theorem run_historicMembershipProof {metadata : TreeMetadata Fr254} {root : Fr254}
    {proof : MembershipProof Fr254} (hmetadata : db.metadata = some metadata)
    (hheight : metadata.height = 32) (h : (historicMembershipProof root).run db = .ok proof db') :
    db' = db ∧ proof.Fits 32 := by
  rw [historicMembershipProof] at h
  split_ifs at h
  · exact ⟨(run_getMembershipProof_eq_ok hmetadata h).1,
      hheight ▸ fits_getMembershipProof hmetadata (by omega) h⟩
  · exact ⟨(run_getMembershipProof_eq_ok hmetadata h).1,
      hheight ▸ fits_getMembershipProof hmetadata (by omega) h⟩

/-- The proof that the tree has for a historic root. -/
def proofOf (db : TreeDb Fr254) (root : Fr254) : MembershipProof Fr254 :=
  match (historicMembershipProof root).run db with
  | .ok proof _ => proof
  | .error _ _ => ⟨[], 0, 0⟩

/-- The tree has a proof for the root. -/
def HasProof (db : TreeDb Fr254) (root : Fr254) : Prop :=
  (historicMembershipProof root).run db = .ok (proofOf db root) db

/-- The proofs that are known are those of the tree, and all of them have one length. -/
structure KnownProofs (engine : RollupEngine P O) (currentRoot : Fr254) (db : TreeDb Fr254) (l₁ : ℕ)
    (known : RootProofs) : Prop where
  proofs : ∀ root proof, known.1.lookup root = some proof →
    HasProof db root ∧ proof = rootProofVec engine currentRoot (proofOf db) root
  length : known.1 ≠ [] → known.2 = l₁

/-- One historic root. -/
theorem rootProof_spec
    (hfits : ∀ root, HasProof s.historicRoots root →
      (engine.membershipVec (proofOf s.historicRoots root)).length = l₁)
    (hkeeps : ∀ {root proof db'}, (historicMembershipProof root).run s.historicRoots = .ok proof db' →
      db' = s.historicRoots)
    {known : RootProofs} (hknown : KnownProofs engine currentRoot s.historicRoots l₁ known)
    {root : Fr254} {r : RootProofs × List Fr254}
    (h : (rootProof engine fault currentRoot known root).run s = .ok r s') :
    s' = s ∧ KnownProofs engine currentRoot s.historicRoots l₁ r.1 ∧ r.1.1 ≠ [] ∧
      HasProof s.historicRoots root ∧
      r.2 = rootProofVec engine currentRoot (proofOf s.historicRoots) root := by
  rw [rootProof] at h
  cases hlookup : known.1.lookup root with
  | some proof =>
    rw [hlookup] at h
    obtain ⟨rfl, rfl⟩ := run_pure_eq_ok.1 h
    obtain ⟨hproof, rfl⟩ := hknown.proofs _ _ hlookup
    refine ⟨rfl, hknown, ?_, hproof, rfl⟩
    intro hempty
    rw [hempty] at hlookup
    cases hlookup
  | none =>
    rw [hlookup] at h
    obtain ⟨proof, s₁, hproof, hreturn⟩ := run_bind_eq_ok.1 h
    obtain ⟨hrun, rfl⟩ := run_onHistoricRoots_eq_ok hproof hkeeps
    obtain ⟨rfl, rfl⟩ := run_pure_eq_ok.1 hreturn
    have hof : proofOf s₁.historicRoots root = proof := by rw [proofOf, hrun]
    have hhas : HasProof s₁.historicRoots root := by rw [HasProof, hof, hrun]
    refine ⟨rfl, ⟨fun other vec hother => ?_, fun _ => ?_⟩, List.cons_ne_nil _ _, hhas, ?_⟩
    · rw [List.lookup_cons] at hother
      split at hother
      · next heq =>
        obtain rfl : other = root := by simpa using heq
        obtain rfl := Option.some_inj.1 hother
        exact ⟨hhas, by rw [rootProofVec, hof]⟩
      · exact hknown.proofs _ _ hother
    · rw [← hof]
      exact hfits root hhas
    · rw [rootProofVec, hof]

/-- The roots of one transaction, one after the other. -/
theorem transactionRootProofs_spec
    (hfits : ∀ root, HasProof s.historicRoots root →
      (engine.membershipVec (proofOf s.historicRoots root)).length = l₁)
    (hkeeps : ∀ {root proof db'}, (historicMembershipProof root).run s.historicRoots = .ok proof db' →
      db' = s.historicRoots)
    {roots : List Fr254} {acc r : RootProofs × List Fr254}
    (hknown : KnownProofs engine currentRoot s.historicRoots l₁ acc.1)
    (h : (roots.foldlM (fun (acc : RootProofs × List Fr254) root => do
      let proof ← rootProof engine fault currentRoot acc.1 root
      pure (proof.1, acc.2 ++ proof.2)) acc).run s = .ok r s') :
    s' = s ∧ KnownProofs engine currentRoot s.historicRoots l₁ r.1 ∧
      (acc.1.1 ≠ [] ∨ roots ≠ [] → r.1.1 ≠ []) ∧
      (∀ root ∈ roots, HasProof s.historicRoots root) ∧
      r.2 = acc.2 ++
        (roots.map (rootProofVec engine currentRoot (proofOf s.historicRoots))).flatten := by
  induction roots generalizing acc with
  | nil =>
    obtain ⟨rfl, rfl⟩ := run_pure_eq_ok.1 h
    refine ⟨rfl, hknown, fun hne => hne.resolve_right fun hne => hne rfl, List.forall_mem_nil _, ?_⟩
    rw [List.map_nil, List.flatten_nil, List.append_nil]
  | cons root roots ih =>
    rw [List.foldlM_cons] at h
    obtain ⟨acc', s₁, hone, hrest⟩ := run_bind_eq_ok.1 h
    obtain ⟨proof, s₂, hproof, hreturn⟩ := run_bind_eq_ok.1 hone
    obtain ⟨rfl, rfl⟩ := run_pure_eq_ok.1 hreturn
    obtain ⟨rfl, hknown', hne, hhas, heq⟩ := rootProof_spec hfits hkeeps hknown hproof
    obtain ⟨hs, hlast, hnonempty, hall, hvec⟩ := @ih (proof.1, acc.2 ++ proof.2) hknown' hrest
    refine ⟨hs, hlast, fun _ => hnonempty (.inl hne), List.forall_mem_cons.2 ⟨hhas, hall⟩, ?_⟩
    rw [hvec, heq, List.map_cons, List.flatten_cons, List.append_assoc]

/-- **The proofs of all transactions.** -/
theorem blockRootProofs_spec
    (hfits : ∀ root, HasProof s.historicRoots root →
      (engine.membershipVec (proofOf s.historicRoots root)).length = l₁)
    (hkeeps : ∀ {root proof db'}, (historicMembershipProof root).run s.historicRoots = .ok proof db' →
      db' = s.historicRoots)
    {pis : List (PublicInputs Fr254)} {r : RootProofs × List (List Fr254)}
    (h : (blockRootProofs engine fault currentRoot pis).run s = .ok r s') :
    s' = s ∧ (pis ≠ [] → r.1.2 = l₁) ∧ (∀ root ∈ historicRoots pis, HasProof s.historicRoots root) ∧
      r.2 = pis.map (transactionProofVec engine currentRoot (proofOf s.historicRoots)) := by
  have hloop : ∀ (pis : List (PublicInputs Fr254)) (acc r : RootProofs × List (List Fr254)),
      KnownProofs engine currentRoot s.historicRoots l₁ acc.1 →
      (pis.foldlM (fun (acc : RootProofs × List (List Fr254)) pi => do
        let proofs ← transactionRootProofs engine fault currentRoot acc.1 pi
        pure (proofs.1, acc.2 ++ [proofs.2])) acc).run s = .ok r s' →
      s' = s ∧ (acc.1.1 ≠ [] ∨ pis ≠ [] → r.1.2 = l₁) ∧
        (∀ root ∈ historicRoots pis, HasProof s.historicRoots root) ∧
        r.2 = acc.2 ++ pis.map (transactionProofVec engine currentRoot (proofOf s.historicRoots)) := by
    intro pis
    induction pis with
    | nil =>
      intro acc r hknown hrun
      obtain ⟨rfl, rfl⟩ := run_pure_eq_ok.1 hrun
      refine ⟨rfl, fun hne => hknown.length (hne.resolve_right fun hne => hne rfl),
        List.forall_mem_nil _, ?_⟩
      rw [List.map_nil, List.append_nil]
    | cons pi pis ih =>
      intro acc r hknown hrun
      rw [List.foldlM_cons] at hrun
      obtain ⟨acc', s₁, hone, hrest⟩ := run_bind_eq_ok.1 hrun
      obtain ⟨proofs, s₂, hproofs, hreturn⟩ := run_bind_eq_ok.1 hone
      obtain ⟨rfl, rfl⟩ := run_pure_eq_ok.1 hreturn
      obtain ⟨rfl, hknown', hne, hall, hvec⟩ := transactionRootProofs_spec hfits hkeeps hknown hproofs
      have hroots : List.ofFn pi.roots ≠ [] := by
        rw [← List.length_pos_iff, List.length_ofFn]
        exact four_pos
      obtain ⟨hs, hlength, hrestAll, hrestVec⟩ := ih _ _ hknown' hrest
      refine ⟨hs, fun _ => hlength (.inl (hne (.inr hroots))), ?_, ?_⟩
      · rw [historicRoots, List.flatMap_cons, List.forall_mem_append]
        exact ⟨hall, hrestAll⟩
      · rw [hrestVec, hvec, List.nil_append, List.map_cons, List.append_assoc]
        rfl
  have hnone : KnownProofs engine currentRoot s.historicRoots l₁ ([], 0) :=
    ⟨fun root proof hlookup => absurd hlookup (by simp), fun hne => absurd rfl hne⟩
  obtain ⟨hs, hlength, hall, hvec⟩ := hloop pis _ _ hnone h
  exact ⟨hs, fun hne => hlength (.inr hne), hall, hvec⟩

end RootProofs

/-! ### The state transition -/

section Transition

variable {P O : Type} {engine : RollupEngine P O} {cfg : ProposerConfig P}
  {fault : AssemblyCall → Fault} {s s' : ProposerState P} {db db' : TreeDb Fr254}
  {deposits : List (P × PublicInputs Fr254)} {txs : List (ClientTransactionWithMetaData P)}
  {l₁ : ℕ}

theorem run_getRoot_eq_ok {root : Fr254} (h : getRoot.run db = .ok root db') :
    db' = db ∧ ∃ metadata, db.metadata = some metadata ∧ root = metadata.root := by
  obtain ⟨metadata, db₁, hget, hreturn⟩ := run_bind_eq_ok.1 h
  obtain ⟨hmetadata, rfl⟩ := run_getMetadata_eq_ok.1 hget
  obtain ⟨rfl, rfl⟩ := run_pure_eq_ok.1 hreturn
  exact ⟨rfl, metadata, hmetadata, rfl⟩

/-- A call on one tree that succeeds leaves the other trees. -/
theorem run_onCommitments_eq_ok {α : Type} {call : AssemblyCall} {x : TreeM Fr254 α} {a : α}
    (h : (onCommitments rollupTreeError (withFault (fault call) x)).run s = .ok a s') :
    x.run s.commitments = .ok a s'.commitments ∧ s'.nullifiers = s.nullifiers ∧
      s'.historicRoots = s.historicRoots := by
  obtain ⟨db', hrun, rfl⟩ := run_onTree_eq_ok.1 h
  exact ⟨run_withFault_eq_ok hrun, rfl, rfl⟩

theorem run_onNullifiers_eq_ok {α : Type} {call : AssemblyCall} {x : TreeM Fr254 α} {a : α}
    (h : (onNullifiers rollupTreeError (withFault (fault call) x)).run s = .ok a s') :
    x.run s.nullifiers = .ok a s'.nullifiers ∧ s'.commitments = s.commitments ∧
      s'.historicRoots = s.historicRoots := by
  obtain ⟨db', hrun, rfl⟩ := run_onTree_eq_ok.1 h
  exact ⟨run_withFault_eq_ok hrun, rfl, rfl⟩

/-- What a state transition that succeeds did, with the tree of historic roots at `metadata`. -/
structure Prepared (engine : RollupEngine P O) (cfg : ProposerConfig P) (l₁ : ℕ)
    (s : ProposerState P) (pis : List (PublicInputs Fr254)) (metadata : TreeMetadata Fr254)
    (prepared : RollupPreppedInfo O × Fr254 × Fr254 × Fr254)
    (commitmentInfo : List (CircuitInsertionInfo Fr254))
    (nullifierInfo : List (IMTCircuitInsertionInfo Fr254)) (historicProof : MembershipProof Fr254) :
    Prop where
  commitments : ∃ commitments,
    (batchInsertWithCircuitInfo cfg.treeHash (pis.flatMap fun pi => List.ofFn pi.commitments)).run
      s.commitments = .ok commitmentInfo commitments ∧
    getRoot.run commitments = .ok prepared.2.1 commitments
  nullifiers : ∃ nullifiers,
    (batchInsertNullifiersWithCircuitInfo cfg.treeHash cfg.leafHash
      (pis.flatMap fun pi => List.ofFn pi.nullifiers)).run s.nullifiers =
        .ok nullifierInfo nullifiers ∧
    getRoot.run nullifiers = .ok prepared.2.2.1 nullifiers
  historicRoots : ∃ updated historic historic',
    (appendSubTrees cfg.treeHash [prepared.2.1] false).run s.historicRoots = .ok updated historic ∧
    (getMembershipProof none (some metadata.subTreeCount)).run historic =
      .ok historicProof historic' ∧
    prepared.2.2.2 = updated.1
  extraInfo : ∃ l, (pis ≠ [] → l = l₁) ∧
    blockExtraInfo l pis
      (pis.map (transactionProofVec engine metadata.root (proofOf s.historicRoots)))
      (commitmentInfo.map engine.insertionVec) (nullifierInfo.map engine.nullifierVec) =
        some prepared.1.extraInfo
  proofs : ∀ root ∈ Node.historicRoots pis, HasProof s.historicRoots root
  extraDeciderInfo : prepared.1.extraDeciderInfo =
    ((engine.membershipVec historicProof).length : Fr254) :: engine.membershipVec historicProof ++
      [metadata.root]

/-- The calls of a state transition that succeeds, one after the other. -/
theorem prepared_of_ok {metadata : TreeMetadata Fr254}
    {prepared : RollupPreppedInfo O × Fr254 × Fr254 × Fr254}
    (hmetadata : s.historicRoots.metadata = some metadata) (hheight : metadata.height = 32)
    (hlength : ∀ proof, proof.Fits 32 → (engine.membershipVec proof).length = l₁)
    (h : (prepareStateTransition engine cfg fault deposits txs).run s = .ok prepared s') :
    ∃ commitmentInfo nullifierInfo historicProof, Prepared engine cfg l₁ s
      (blockPublicInputs deposits txs) metadata prepared commitmentInfo nullifierInfo
      historicProof := by
  have hroot : ∀ {a db'}, getRoot.run s.historicRoots = .ok a db' →
      db' = s.historicRoots := fun hrun => (run_getRoot_eq_ok hrun).1
  have hkeeps : ∀ {root proof db'},
      (historicMembershipProof root).run s.historicRoots = .ok proof db' → db' = s.historicRoots :=
    fun hrun => (run_historicMembershipProof hmetadata hheight hrun).1
  have hfits : ∀ root, HasProof s.historicRoots root →
      (engine.membershipVec (proofOf s.historicRoots root)).length = l₁ :=
    fun root hproof => hlength _ (run_historicMembershipProof hmetadata hheight hproof).2
  obtain ⟨outputs, s₁, houtputs, h⟩ := run_bind_eq_ok.1 h
  obtain ⟨currentRoot, s₂, hcurrent, h⟩ := run_bind_eq_ok.1 h
  obtain ⟨commitmentInfo, s₃, hcommitments, h⟩ := run_bind_eq_ok.1 h
  obtain ⟨nullifierInfo, s₄, hnullifiers, h⟩ := run_bind_eq_ok.1 h
  obtain ⟨commitmentRoot, s₅, hcommitmentRoot, h⟩ := run_bind_eq_ok.1 h
  obtain ⟨rootProofs, s₆, hrootProofs, h⟩ := run_bind_eq_ok.1 h
  obtain ⟨nullifierRoot, s₇, hnullifierRoot, h⟩ := run_bind_eq_ok.1 h
  obtain ⟨oldRoot, s₈, holdRoot, h⟩ := run_bind_eq_ok.1 h
  obtain ⟨metadata', s₉, hget, h⟩ := run_bind_eq_ok.1 h
  obtain ⟨updatedRoot, s₁₀, hupdated, h⟩ := run_bind_eq_ok.1 h
  obtain ⟨historicProof, s₁₁, hproof, h⟩ := run_bind_eq_ok.1 h
  obtain ⟨extraInfo, s₁₂, hextra, hreturn⟩ := run_bind_eq_ok.1 h
  obtain rfl : s₁ = s :=
    (preserves_recursiveOutputs (p := id) deposits txs).keeps s _ s₁ houtputs
  obtain ⟨hcurrentRun, rfl⟩ := run_onHistoricRoots_eq_ok hcurrent hroot
  obtain ⟨-, metadata₁, hmetadata₁, rfl⟩ := run_getRoot_eq_ok hcurrentRun
  obtain rfl := Option.some_inj.1 (hmetadata.symm.trans hmetadata₁)
  -- the leaves of the block
  obtain ⟨hinsert, hn₃, hh₃⟩ := run_onCommitments_eq_ok hcommitments
  obtain ⟨hinsert', hc₄, hh₄⟩ := run_onNullifiers_eq_ok hnullifiers
  obtain ⟨hnewRoot, hn₅, hh₅⟩ := run_onCommitments_eq_ok hcommitmentRoot
  have hc₅ := (run_getRoot_eq_ok hnewRoot).1
  rw [hn₃] at hinsert'
  rw [hc₅, hc₄] at hnewRoot
  -- the proofs of the historic roots
  have hs₅ : s₅.historicRoots = s₂.historicRoots := hh₅.trans (hh₄.trans hh₃)
  rw [← hs₅] at hfits hroot
  obtain ⟨rfl, hl, hproofs, hvecs⟩ := blockRootProofs_spec hfits
    (fun {root proof db'} hrun => by
      rw [hs₅] at hrun ⊢
      exact hkeeps hrun) hrootProofs
  obtain ⟨hnewRoot', hc₇, hh₇⟩ := run_onNullifiers_eq_ok hnullifierRoot
  have hn₇ := (run_getRoot_eq_ok hnewRoot').1
  rw [hn₇, hn₅] at hnewRoot'
  -- the tree of historic roots
  rw [← hh₇] at hroot
  obtain ⟨holdRun, rfl⟩ := run_onHistoricRoots_eq_ok holdRoot hroot
  obtain ⟨-, metadata₂, hmetadata₂, rfl⟩ := run_getRoot_eq_ok holdRun
  rw [hh₇, hs₅, hmetadata] at hmetadata₂
  obtain rfl := Option.some_inj.1 hmetadata₂
  obtain ⟨db₉, hgetRun, rfl⟩ := run_onTree_eq_ok.1 hget
  obtain ⟨hmetadata₃, rfl⟩ := run_getMetadata_eq_ok.1 (run_withFault_eq_ok hgetRun)
  rw [hh₇, hs₅, hmetadata] at hmetadata₃
  obtain rfl := Option.some_inj.1 hmetadata₃
  obtain ⟨historic, hdryRun, rfl⟩ := run_onTree_eq_ok.1 hupdated
  obtain ⟨historic', hpath, rfl⟩ := run_onTree_eq_ok.1 hproof
  have hdryRun := run_withFault_eq_ok hdryRun
  have hpath := run_withFault_eq_ok hpath
  rw [hh₇.trans hs₅] at hdryRun
  -- what is returned
  obtain ⟨hwrite, rfl⟩ := run_expect_eq_ok.1 hextra
  obtain ⟨rfl, -⟩ := run_pure_eq_ok.1 hreturn
  rw [hvecs, hs₅] at hwrite
  rw [hs₅] at hproofs
  exact ⟨commitmentInfo, nullifierInfo, historicProof, ⟨_, hinsert, hnewRoot⟩, ⟨_, hinsert', hnewRoot'⟩,
    ⟨updatedRoot, historic, historic', hdryRun, hpath, rfl⟩, ⟨_, hl, hwrite⟩, hproofs, rfl⟩

/-! ### The layout -/

/-- The circuits read the witness of a block: `pairs` for the transactions, and `historicProof` for the
new historic root. -/
structure WitnessLayout (framework : RecursionFramework) (reader : WitnessReader)
    (cfg : ProposerConfig P) (s : ProposerState P) (pis : List (PublicInputs Fr254))
    (prepared : RollupPreppedInfo O × Fr254 × Fr254 × Fr254) (metadata : TreeMetadata Fr254)
    (pairs : List PairChecks) (historicProof : MembershipProof Fr254) : Prop where
  historicTree : s.historicRoots.metadata = some metadata
  /-- Each list is read as two pairs of transactions. -/
  read : prepared.1.extraInfo.map (parseExtraInfo framework reader) =
    (chunks 2 pairs).map chunkChecks
  /-- The roots of each pair, in order, with the proofs that the tree has for them and its root. -/
  membership : pairs.map PairChecks.membership = (chunks 2 pis).map fun pair =>
    (historicRoots pair).map fun root => ⟨proofOf s.historicRoots root, root, metadata.root⟩
  proofs : ∀ root ∈ historicRoots pis, HasProof s.historicRoots root
  /-- The insertions, in order, lead from the root of the tree to the root that is returned. -/
  commitments : ∃ root db, getRoot.run s.commitments = .ok root s.commitments ∧
    (batchInsertWithCircuitInfo cfg.treeHash (pis.flatMap fun pi => List.ofFn pi.commitments)).run
      s.commitments = .ok (pairs.map PairChecks.commitmentInfo) db ∧
    RootsChain CircuitInsertionInfo.oldRoot CircuitInsertionInfo.newRoot root
      (pairs.map PairChecks.commitmentInfo) prepared.2.1
  nullifiers : ∃ root db, getRoot.run s.nullifiers = .ok root s.nullifiers ∧
    (batchInsertNullifiersWithCircuitInfo cfg.treeHash cfg.leafHash
      (pis.flatMap fun pi => List.ofFn pi.nullifiers)).run s.nullifiers =
        .ok (pairs.map PairChecks.nullifierInfo) db ∧
    RootsChain IMTCircuitInsertionInfo.oldRoot (fun info => info.circuitInfo.newRoot) root
      (pairs.map PairChecks.nullifierInfo) prepared.2.2.1
  /-- The path of the next leaf of the tree of historic roots, and the root of the tree. -/
  decider : parseExtraDeciderInfo framework reader prepared.1.extraDeciderInfo =
    some (historicProof, metadata.root)
  path : historicProof.leafIndex = metadata.subTreeCount ∧ historicProof.siblingPath =
    siblings s.historicRoots.getNode 32 (nodeIndex 32 metadata.subTreeCount)

theorem length_flatMap_ofFn (f : PublicInputs Fr254 → Fin 4 → Fr254)
    (pis : List (PublicInputs Fr254)) : (pis.flatMap fun pi => List.ofFn (f pi)).length = 4 * pis.length := by
  induction pis with
  | nil => rfl
  | cons pi pis ih =>
    rw [List.flatMap_cons, List.length_append, List.length_ofFn, ih, List.length_cons]
    ring

/-- The insertions of nullifiers into a reachable tree have one shape. -/
theorem fits_of_reachable {treeHash : Fr254 → Fr254 → Fr254}
    {hash : Fr254 → Fr254 → Fr254 → Fr254} (hzero : treeHash 0 0 = 0)
    (hdb : ReachableIndexed treeHash hash 29 3 db) {l : List Fr254}
    {infos : List (IMTCircuitInsertionInfo Fr254)}
    (hrun : (batchInsertNullifiersWithCircuitInfo treeHash hash l).run db = .ok infos db') :
    ∀ info ∈ infos, info.Fits 29 32 8 := by
  rcases hdb.state hzero (by omega) with ⟨t, ht, htree, hsub⟩ | ⟨n, hn, hshape⟩
  · have hheight : t.height ≤ 32 := by rw [NaiveTree.height, htree, hsub]
    have hshape := ht.hasShape
    rw [htree, hsub] at hshape
    exact fits_batchInsertNullifiers hshape (ht.smallIds hheight) (by omega) hrun
  · -- a tree beyond its capacity accepts no batch
    rw [batchInsertNullifiersWithCircuitInfo] at hrun
    split_ifs at hrun with hempty
    · obtain ⟨rfl, -⟩ := run_pure_eq_ok.1 hrun
      exact List.forall_mem_nil _
    · have hne : chunks 8 l ≠ [] := chunks_ne_nil fun hl => hempty (by rw [hl]; rfl)
      have hle := (hasShape_batches hrun hshape (.inr hne)).1
      omega

/-- **The circuits read what the prover wrote.**  For every list of transactions whose length is a
multiple of four, whatever the trees returned for them. -/
theorem extraInfo_layout {reader : WitnessReader} {framework : RecursionFramework} {l₂ l₃ n : ℕ}
    (hframework : framework.Strips) (h : reader.ReadsBack engine l₁ l₂ l₃)
    (hzero : cfg.treeHash 0 0 = 0) (hcommitments : ReachableAppends cfg.treeHash 29 3 s.commitments)
    (hnullifiers : ReachableIndexed cfg.treeHash cfg.leafHash 29 3 s.nullifiers)
    (hhistoric : HasShape s.historicRoots 32 0 n)
    (hlength : 4 ∣ (blockPublicInputs deposits txs).length)
    {prepared : RollupPreppedInfo O × Fr254 × Fr254 × Fr254}
    (hrun : (prepareStateTransition engine cfg fault deposits txs).run s = .ok prepared s') :
    ∃ metadata pairs historicProof, WitnessLayout framework reader cfg s
      (blockPublicInputs deposits txs) prepared metadata pairs historicProof := by
  obtain ⟨root, hmetadata⟩ := hhistoric
  obtain ⟨m, hm⟩ := hlength
  obtain ⟨commitmentInfo, nullifierInfo, historicProof, hprepared⟩ :=
    prepared_of_ok hmetadata rfl (fun proof hproof => (h.membership proof hproof).1) hrun
  obtain ⟨commitments, hinsert, hnewRoot⟩ := hprepared.commitments
  obtain ⟨nullifiers, hinsert', hnewRoot'⟩ := hprepared.nullifiers
  obtain ⟨updated, historic, historic', hdry, hpath, -⟩ := hprepared.historicRoots
  obtain ⟨l, hl, hwrite⟩ := hprepared.extraInfo
  -- the insertions into the two trees
  have hstate := hcommitments.state hzero
  obtain ⟨k, hshape⟩ := hstate.hasShape
  obtain ⟨-, metadata₁, root₁, last₁, hmetadata₁, hinfos, hroot₁, hlast₁, hchain⟩ :=
    commitmentChain_of_batch hzero hstate hinsert
  have hsub : metadata₁.subTreeHeight = 3 := by
    obtain ⟨root', hroot'⟩ := hshape
    rw [← Option.some_inj.1 (hroot'.symm.trans hmetadata₁)]
  obtain ⟨hinfos', root₂, last₂, hroot₂, hlast₂, hchain'⟩ :=
    nullifierChain hzero (by omega) hnullifiers hinsert'
  rw [hnewRoot] at hlast₁
  rw [hnewRoot'] at hlast₂
  obtain ⟨rfl, -⟩ := EStateM.Result.ok.inj hlast₁
  obtain ⟨rfl, -⟩ := EStateM.Result.ok.inj hlast₂
  have hcount (f : PublicInputs Fr254 → Fin 4 → Fr254) :
      (chunks 8 ((blockPublicInputs deposits txs).flatMap fun pi => List.ofFn (f pi))).length =
        2 * m := by
    have hlen := length_flatMap_ofFn f (blockPublicInputs deposits txs)
    rw [hm] at hlen
    rw [(chunks_spec (by omega) (by omega)).1]
    omega
  rw [hsub] at hinfos hchain
  obtain ⟨extraInfo, pairs, hextra, hread, hmembership, hpairs, hpairs'⟩ :=
    blockExtraInfo_layout hframework h hm (hinfos.trans (hcount _)) (hinfos'.trans (hcount _)) hl
      (fun root hroot => (run_historicMembershipProof hmetadata rfl (hprepared.proofs root hroot)).2)
      (fits_batchInsertWithCircuitInfo hshape (by omega) hinsert)
      (fits_of_reachable hzero hnullifiers hinsert')
  rw [hwrite] at hextra
  obtain rfl := Option.some_inj.1 hextra
  refine ⟨_, pairs, historicProof, hmetadata, hread, hmembership, hprepared.proofs, ?_, ?_, ?_, ?_⟩
  · rw [hpairs]
    exact ⟨root₁, commitments, hroot₁, hinsert, hchain.rootsChain hinfos⟩
  · rw [hpairs']
    exact ⟨root₂, nullifiers, hroot₂, hinsert', hchain'.rootsChain hinfos'⟩
  · have hfits : historicProof.Fits 32 :=
      fits_of_dryRun hmetadata rfl (show 32 + 0 ≤ 64 by omega) hdry hpath
    rw [hprepared.extraDeciderInfo]
    exact parseExtraDeciderInfo_eq hframework h hfits root
  · exact path_of_dryRun hmetadata rfl hdry hpath

end Transition

/-! ### A block of four transactions -/

section Sample

/-- A number as one element. -/
def natCodec : ListCodec Fr254 ℕ := ListCodec.word.comap (fun n => (n : Fr254)) fun a => some a.val

theorem val_natCast_of_lt {n : ℕ} (h : n < 2 ^ 64) : ((n : Fr254)).val = n := by
  have hmodulus : 2 ^ 64 < frModulus := by norm_num [frModulus]
  exact ZMod.val_natCast_of_lt (h.trans hmodulus)

theorem reads_natCodec : natCodec.Reads (· < 2 ^ 64) 1 :=
  ListCodec.reads_word.comap fun _ hn => ⟨trivial, congrArg some (val_natCast_of_lt hn)⟩

/-- One step of a path as two elements. -/
def pathElementCodec : ListCodec Fr254 (PathElement Fr254) :=
  (ListCodec.word.pair 1 ListCodec.word).comap (fun e => (if e.left then 1 else 0, e.value))
    fun a => some ⟨decide (a.1 = 1), a.2⟩

theorem reads_pathElementCodec : pathElementCodec.Reads (fun _ => True) 2 := by
  refine (ListCodec.reads_word.pair ListCodec.reads_word).comap fun e _ => ⟨⟨trivial, trivial⟩, ?_⟩
  obtain ⟨left, value⟩ := e
  cases left with
  | true => rfl
  | false => rfl

/-- The proofs of trees of the height `height`. -/
def membershipCodec (height : ℕ) : ListCodec Fr254 (MembershipProof Fr254) :=
  ((pathElementCodec.list 2).pair (height * 2) (natCodec.pair 1 ListCodec.word)).comap
    (fun proof => (proof.siblingPath, proof.leafIndex, proof.nodeValue))
    fun a => some ⟨a.1, a.2.1, a.2.2⟩

theorem reads_membershipCodec (height : ℕ) :
    (membershipCodec height).Reads (MembershipProof.Fits height) (height * 2 + (1 + 1)) :=
  ((reads_pathElementCodec.list Nat.two_pos height).pair
    (reads_natCodec.pair ListCodec.reads_word)).comap fun _ h =>
      ⟨⟨⟨h.length, fun _ _ => trivial⟩, h.leafIndex, trivial⟩, rfl⟩

/-- The insertions of sub-trees into the commitment tree. -/
def insertionCodec : ListCodec Fr254 (CircuitInsertionInfo Fr254) :=
  (ListCodec.word.pair 1 (ListCodec.word.pair 1 ((ListCodec.word.list 1).pair (8 * 1)
    ((membershipCodec 29).pair (29 * 2 + (1 + 1)) natCodec)))).comap
      (fun info => (info.oldRoot, info.newRoot, info.leaves, info.proof, info.leafCount))
      fun a => some ⟨a.1, a.2.1, a.2.2.1, a.2.2.2.1, a.2.2.2.2⟩

theorem reads_insertionCodec : insertionCodec.Reads (CircuitInsertionInfo.Fits 29 8) 71 :=
  (ListCodec.reads_word.pair (ListCodec.reads_word.pair
    ((ListCodec.reads_word.list Nat.one_pos 8).pair
      ((reads_membershipCodec 29).pair reads_natCodec)))).comap fun _ h =>
        ⟨⟨trivial, trivial, ⟨h.length, fun _ _ => trivial⟩, h.proof, h.leafCount⟩, rfl⟩

/-- The records of the nullifier tree. -/
def entryCodec : ListCodec Fr254 (LeafDBEntry Fr254) :=
  (ListCodec.word.pair 1 (natCodec.pair 1 (ListCodec.word.pair 1 ListCodec.word))).comap
    (fun entry => (entry.value, entry.index, entry.nextIndex, entry.nextValue))
    fun a => some ⟨a.1, a.2.1, a.2.2.1, a.2.2.2⟩

theorem reads_entryCodec : entryCodec.Reads (fun entry => entry.index < 2 ^ 32) 4 :=
  (ListCodec.reads_word.pair (reads_natCodec.pair
    (ListCodec.reads_word.pair ListCodec.reads_word))).comap fun _ h =>
      ⟨⟨trivial, h.trans (Nat.pow_lt_pow_right (by omega) (by omega)), trivial, trivial⟩, rfl⟩

/-- The insertions of sub-trees into the nullifier tree. -/
def nullifierCodec : ListCodec Fr254 (IMTCircuitInsertionInfo Fr254) :=
  (ListCodec.word.pair 1 (insertionCodec.pair 71 (natCodec.pair 1
    (((entryCodec.pair 4 (membershipCodec 32)).list 70).pair (8 * 70) (entryCodec.list 4))))).comap
      (fun info => (info.oldRoot, info.circuitInfo, info.firstIndex, info.lowNullifiers,
        info.pendingInserts))
      fun a => some ⟨a.1, a.2.1, a.2.2.1, a.2.2.2.1, a.2.2.2.2⟩

theorem reads_nullifierCodec :
    nullifierCodec.Reads (IMTCircuitInsertionInfo.Fits 29 32 8) 665 :=
  (ListCodec.reads_word.pair (reads_insertionCodec.pair (reads_natCodec.pair
    (((reads_entryCodec.pair (reads_membershipCodec 32)).list (by omega) 8).pair
      (reads_entryCodec.list (by omega) 8))))).comap fun _ h =>
        ⟨⟨trivial, h.circuitInfo, h.firstIndex.trans (Nat.pow_lt_pow_right (by omega) (by omega)),
          ⟨h.lowLength, h.lowNullifiers⟩, h.pendingLength, h.pendingInserts⟩, rfl⟩

/-- A prover with these conversions. -/
def sampleRollupEngine : RollupEngine (PlonkProof ℕ) ℕ where
  createDepositProof _ := .error "no proving key"
  recursiveOutput proof := .ok proof.proof
  recursiveProve _ := .ok []
  membershipVec := (membershipCodec 32).encode
  insertionVec := insertionCodec.encode
  nullifierVec := nullifierCodec.encode

/-- Circuits with these conversions. -/
def sampleReader : WitnessReader where
  membershipTryFrom := (membershipCodec 32).decode
  insertionFromSlice l _ := insertionCodec.decode l
  nullifierFromSlice l _ _ := nullifierCodec.decode l

theorem sampleReader_readsBack : sampleReader.ReadsBack sampleRollupEngine 66 71 665 where
  membership := reads_membershipCodec 32
  insertion := reads_insertionCodec
  nullifier := reads_nullifierCodec
  membership_lt := by norm_num
  insertion_lt := by norm_num
  nullifier_lt := by norm_num

/-- The framework. -/
def sampleFramework : RecursionFramework where
  base l := some (((l.take (l.length / 2)).drop 3) ++ (l.drop (l.length / 2)).drop 3,
    (l.getD 0 0).val, (l.getD 1 0).val, (l.getD 2 0).val)
  decider l := some (l.drop 1, (l.getD 0 0).val)

theorem sampleFramework_strips : sampleFramework.Strips where
  base l₁ l₂ l₃ first second h₁ h₂ h₃ hlength := by
    have hhalf : (lengthWords l₁ l₂ l₃ ++ first ++ (lengthWords l₁ l₂ l₃ ++ second)).length / 2 =
        (lengthWords l₁ l₂ l₃ ++ first).length := by
      simp only [List.length_append, hlength]
      omega
    rw [sampleFramework]
    dsimp only
    rw [hhalf, List.take_left' rfl, List.drop_left' rfl]
    simp [lengthWords, val_natCast_of_lt h₁, val_natCast_of_lt h₂, val_natCast_of_lt h₃]
  decider l rest h := by simp [sampleFramework, val_natCast_of_lt h]

/-- Deposits with commitments from `k` on. -/
def samplePublicInputs (k : ℕ) : PublicInputs Fr254 where
  fee := 0
  roots _ := 0
  commitments i := ((k + i.val : ℕ) : Fr254)
  nullifiers _ := 0
  compressedSecrets _ := 0

/-- The deposits of one block. -/
def sampleDeposits : List (PlonkProof ℕ × PublicInputs Fr254) :=
  [1, 5, 9, 13].map fun k => (⟨0, 0⟩, samplePublicInputs k)

/-- The tree that a computation makes. -/
def newTree (x : TreeM Fr254 Unit) : TreeDb Fr254 :=
  match x.run .empty with
  | .ok _ db => db
  | .error _ db => db

/-- A new proposer, with the root of the empty tree of commitments. -/
def newAssembler : ProposerState (PlonkProof ℕ) where
  commitments := newTree (newMutableTree 29 3)
  nullifiers := newTree (runIndexed sampleConfig.treeHash sampleConfig.leafHash 29 3 [])
  historicRoots := newTree do
    newMutableTree 32 0
    let _ ← appendSubTrees sampleConfig.treeHash [0] true
  expected := 0
  synchronised := true
  blocks := sampleProposer.blocks
  transactions := sampleProposer.transactions

/-- The state transition of the block succeeds. -/
def SampleSucceeds : Bool :=
  match (prepareStateTransition sampleRollupEngine sampleConfig (fun _ => .none) sampleDeposits
    []).run newAssembler with
  | .ok _ _ => true
  | .error _ _ => false

theorem extraInfo_layout_sample :
    ∃ prepared s', (prepareStateTransition sampleRollupEngine sampleConfig (fun _ => .none)
      sampleDeposits []).run newAssembler = .ok prepared s' ∧
        ∃ metadata pairs historicProof, WitnessLayout sampleFramework sampleReader sampleConfig
          newAssembler (blockPublicInputs sampleDeposits []) prepared metadata pairs
          historicProof := by
  obtain ⟨prepared, s', hrun⟩ : ∃ prepared s', (prepareStateTransition sampleRollupEngine
      sampleConfig (fun _ => .none) sampleDeposits []).run newAssembler = .ok prepared s' := by
    have hsucceeds : SampleSucceeds = true := by decide +kernel
    rw [SampleSucceeds] at hsucceeds
    split at hsucceeds
    · next prepared s' hrun => exact ⟨prepared, s', hrun⟩
    · cases hsucceeds
  have hcommitments : ReachableAppends sampleConfig.treeHash 29 3 newAssembler.commitments := by
    refine ⟨[], [], List.forall_mem_nil _, ?_⟩
    rfl
  have hnullifiers : ReachableIndexed sampleConfig.treeHash sampleConfig.leafHash 29 3
      newAssembler.nullifiers := by
    obtain ⟨db, hdb⟩ := Succeeds.exists
      (show Succeeds (runIndexed sampleConfig.treeHash sampleConfig.leafHash 29 3 []) .empty = true by
        decide +kernel)
    refine ⟨[], List.forall_mem_nil _, ?_⟩
    have hnew : newAssembler.nullifiers = db := by simp only [newAssembler, newTree, hdb]
    rw [hnew, hdb]
  have hhistoric : HasShape newAssembler.historicRoots 32 0 1 :=
    hasShape_iff.2 (by decide +kernel)
  exact ⟨prepared, s', hrun, extraInfo_layout sampleFramework_strips sampleReader_readsBack
    (by decide +kernel) hcommitments hnullifiers hhistoric ⟨1, rfl⟩ hrun⟩

end Sample

end Node

end Nightfall
