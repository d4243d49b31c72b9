import Nightfall.Rollup.Recursion

/-!
# What the recursion accepts

The circuits are complete.  From any four results that adjoin, an honest prover satisfies the merge
circuits, and the decider circuit as well if he has a path from zero to the historic root.  Together
with what the circuits enforce this says exactly which results they join (`part_succ_iff`,
`rollupBlock_iff`).  A base circuit is satisfied for any four client proofs, if the insertions adjoin and
the proofs for the roots fit (`exists_part_zero`).
-/

namespace Nightfall

namespace Rollup

open Plonk Evm Contract Merkle

/-! ### The checks run -/

section Checks

variable {c₀ : PlonkCircuit Fr254} {sha256 : Bytes → U256} {lib : TreeLibrary}

theorem fourHash_runs {α : Type} {a b c d : Variable} {f : Variable → CircuitM Fr254 α}
    {Q : PlonkCircuit Fr254 → α → Prop} (hins : ∀ v ∈ [a, b, c, d], v.Below c₀.numVars)
    (hf : ∀ c o, c₀.Le c → o.Below c.numVars → Runs c (f o) Q) :
    Runs c₀ (do
      let left ← fullShiftedSha256Hash sha256 [a, b]
      let right ← fullShiftedSha256Hash sha256 [c, d]
      let final ← fullShiftedSha256Hash sha256 [left, right]
      f final) Q := by
  simp only [List.forall_mem_cons] at hins
  obtain ⟨ha, hb, hc, hd, -⟩ := hins
  refine (Runs.applyGate (by simp [ha, hb])).bind fun c₁ left l₁ hleft => ?_
  refine (Runs.applyGate (by simp [hc.of_le l₁, hd.of_le l₁])).bind fun c₂ right l₂ hright => ?_
  refine (Runs.applyGate (by simp [hleft.of_le l₂, hright])).bind fun c₃ final l₃ hfinal => ?_
  exact hf c₃ final (l₁.trans (l₂.trans l₃)) hfinal

/-- The equations and the fee sum in front of the hashes of a merge. -/
theorem joined_runs {F α : Type} [CommRing F] [DecidableEq F] {c₀ : PlonkCircuit F} {k : ℕ}
    {specificPis : Fin 2 → Fin (k + 5) → Variable} (h : ∀ i j, (specificPis i j).Below c₀.numVars)
    {f : Variable → CircuitM F α} {Q : PlonkCircuit F → α → Prop}
    (hf : ∀ c o, c₀.Le c → Runs c (f o) Q) :
    Runs c₀ (do
      enforceEqual (specificPis 0 1) (specificPis 1 0)
      enforceEqual (specificPis 0 3) (specificPis 1 2)
      let feeSum ← add (specificPis 0 4) (specificPis 1 4)
      f feeSum) Q := by
  refine (Runs.enforce (by simp [h])).bind fun c₁ _ l₁ _ => ?_
  have h₁ : ∀ i j, (specificPis i j).Below c₁.numVars := fun i j => (h i j).of_le l₁
  refine (Runs.enforce (by simp [h₁])).bind fun c₂ _ l₂ _ => ?_
  have h₂ : ∀ i j, (specificPis i j).Below c₂.numVars := fun i j => (h₁ i j).of_le l₂
  refine (Runs.applyGate (by simp [h₂])).bind fun c₃ feeSum l₃ _ => ?_
  exact hf c₃ feeSum (l₁.trans (l₂.trans l₃))

theorem bn254MergeCircuitChecks_runs {specificPis : Fin 2 → Fin 7 → Variable}
    (h : ∀ i j, (specificPis i j).Below c₀.numVars) :
    Runs c₀ (bn254MergeCircuitChecks sha256 specificPis) fun _ _ => True := by
  unfold bn254MergeCircuitChecks
  refine @joined_runs _ _ _ _ _ 2 specificPis h _ _ fun c feeSum hc => ?_
  refine fourHash_runs (by simp [fun i j => (h i j).of_le hc]) fun c' _ hc' _ => ?_
  exact .pure fun _ _ => trivial

theorem grumpkinMergeCircuitChecks_runs {c₀ : PlonkCircuit Fq254}
    {specificPis : Fin 2 → Fin 6 → Variable} (h : ∀ i j, (specificPis i j).Below c₀.numVars) :
    Runs c₀ (grumpkinMergeCircuitChecks specificPis) fun _ _ => True := by
  unfold grumpkinMergeCircuitChecks
  exact @joined_runs _ _ _ _ _ 1 specificPis h _ _ fun _ _ _ => .pure fun _ _ => trivial

theorem orFail_runs {α : Type} {msg : String} {x : Option α} {a : α} (h : x = some a) :
    Runs c₀ (orFail msg x) fun _ b => b = a := by
  subst h
  exact .pure fun _ _ => rfl

theorem copyMembershipProof_runs {vars : List Variable}
    {proof : MembershipProof Fr254 (PathElement Fr254)} (h : ∀ v ∈ vars, v.Below c₀.numVars)
    (hproof : lib.membershipProof (vars.map c₀.value) = some proof) :
    Runs c₀ (copyMembershipProof lib vars) fun c p => p.Below c.numVars := by
  unfold copyMembershipProof
  refine (Runs.mapM_witness h).bind fun c xs _ hxs => ?_
  refine (orFail_runs (hxs ▸ hproof)).bind fun c' a _ _ => ?_
  exact .of_succeeds (Succeeds.fromMembershipProof a)

theorem deciderCircuitChecks_runs {specificPis : Fin 2 → Fin 7 → Variable}
    {deciderPis : List Variable} {rootMProofLength : ℕ} {proof : MembershipProof Fr254 (PathElement Fr254)}
    (h : ∀ i j, (specificPis i j).Below c₀.numVars) (hpis : ∀ v ∈ deciderPis, v.Below c₀.numVars)
    (hlength : rootMProofLength < deciderPis.length)
    (hproof : lib.membershipProof ((deciderPis.map c₀.value).take rootMProofLength) = some proof)
    (hzero : 2 ≤ c₀.numVars) :
    Runs c₀ (deciderCircuitChecks sha256 lib specificPis deciderPis rootMProofLength)
      fun _ _ => True := by
  unfold deciderCircuitChecks
  refine @joined_runs _ _ _ _ _ 2 specificPis h _ _ fun c₁ feeSum l₁ => ?_
  have h₁ : ∀ i j, (specificPis i j).Below c₁.numVars := fun i j => (h i j).of_le l₁
  refine fourHash_runs (by simp [h₁]) fun c₂ finalSha l₂ _ => ?_
  refine (orFail_runs (List.getElem?_eq_getElem hlength)).bind fun c₃ oldRoot l₃ hold => ?_
  have hle := l₁.trans l₂
  -- the proof is read from the values of the variables
  have hread : Runs c₀ (copyMembershipProof lib (deciderPis.take rootMProofLength)) fun c p =>
      p.Below c.numVars :=
    copyMembershipProof_runs (fun v hv => hpis v (List.mem_of_mem_take hv)) (List.map_take ▸ hproof)
  refine (hread.of_le (hle.trans l₃)).bind fun c₄ p l₄ hp => ?_
  -- the path is followed twice, from the last commitment root and from zero
  have hend : (specificPis 1 1).Below c₄.numVars := (h 1 1).of_le (hle.trans (l₃.trans l₄))
  refine (Runs.of_succeeds (Succeeds.calculateNewRoot hp hend)).bind fun c₅ new l₅ _ => ?_
  have hz : zero.Below c₅.numVars :=
    (zero_below hzero).of_le (hle.trans (l₃.trans (l₄.trans l₅)))
  refine (Runs.of_succeeds (Succeeds.calculateNewRoot (hp.mono l₅.witness.length_le) hz)).bind
    fun c₆ old l₆ hold' => ?_
  have hroot : oldRoot.Below c₆.numVars :=
    (hold ▸ hpis _ (List.getElem_mem hlength)).of_le (hle.trans (l₃.trans (l₄.trans (l₅.trans l₆))))
  refine (Runs.enforce (by simp [hold', hroot])).bind fun _ _ _ _ => ?_
  exact .pure fun _ _ => trivial

theorem transactionHash_succeeds {n : ℕ} {piSlice : Fin 18 → Variable} (h : ∀ j, (piSlice j).Below n) :
    Succeeds n (transactionHash sha256 piSlice) fun m r => r.2.Below m := by
  unfold transactionHash
  refine (Succeeds.witness (h 17)).bind fun m₁ x l₁ _ => ?_
  refine (Succeeds.createBooleanVariable _).bind fun m₂ bit l₂ hbit => ?_
  have h₂ : ∀ j, (piSlice j).Below m₂ := fun j => (h j).mono (l₁.trans l₂)
  refine (Succeeds.applyGate (by simp [fieldVars, h₂, hbit])).bind fun m₃ o _ ho => ?_
  exact .pure fun _ hm => ho.mono hm

theorem baseBn254Checks_runs {specificPis : Fin 2 → Fin 36 → Variable}
    (h : ∀ i j, (specificPis i j).Below c₀.numVars) (hzero : 2 ≤ c₀.numVars) :
    Runs c₀ (baseBn254Checks sha256 specificPis) fun _ _ => True := by
  have hslices : ∀ i j, (piSlices specificPis i j).Below c₀.numVars := by
    intro i j
    fin_cases i
    · exact h 0 (j.castAdd 18)
    · exact h 0 (j.natAdd 18)
    · exact h 1 (j.castAdd 18)
    · exact h 1 (j.natAdd 18)
  have hfees : Succeeds c₀.numVars ((List.ofFn (piSlices specificPis)).foldlM
      (fun acc slice => add acc (slice 0)) zero : CircuitM Fr254 Variable) fun m o => o.Below m := by
    simp only [List.ofFn_succ, List.ofFn_zero, List.foldlM_cons, List.foldlM_nil]
    refine (Succeeds.applyGate (by simp [hslices, zero_below hzero])).bind fun m₁ a l₁ ha => ?_
    have h₁ : ∀ i j, (piSlices specificPis i j).Below m₁ := fun i j => (hslices i j).mono l₁
    refine (Succeeds.applyGate (by simp [h₁, ha])).bind fun m₂ b l₂ hb => ?_
    have h₂ : ∀ i j, (piSlices specificPis i j).Below m₂ := fun i j => (h₁ i j).mono l₂
    refine (Succeeds.applyGate (by simp [h₂, hb])).bind fun m₃ c l₃ hc => ?_
    have h₃ : ∀ i j, (piSlices specificPis i j).Below m₃ := fun i j => (h₂ i j).mono l₃
    exact (Succeeds.applyGate (by simp [h₃, hc])).bind fun m₄ d _ hd => .pure fun _ hm => hd.mono hm
  unfold baseBn254Checks
  refine (Runs.of_succeeds hfees).bind fun c₁ feeSum l₁ _ => ?_
  have hshas : Succeeds c₁.numVars (forArray 4 fun i =>
      transactionHash sha256 (piSlices specificPis i)) fun m r => ∀ i, (r i).2.Below m :=
    Succeeds.forArray (fun _ _ _ hr hmk => hr.mono hmk) fun i m hm =>
      transactionHash_succeeds fun j => ((hslices i j).of_le l₁).mono hm
  refine (Runs.of_succeeds hshas).bind fun c₂ shaVars l₂ hvars => ?_
  exact fourHash_runs (by simp [hvars]) fun _ _ _ _ => .pure fun _ _ => trivial

/-- All variables are below `n`. -/
structure ExtraPis.Below (pi : ExtraPis Variable) (n : ℕ) : Prop where
  leafRoots : ∀ i, (pi.leafRoots i).Below n
  proofs : ∀ i, ∀ v ∈ pi.proofs i, v.Below n
  roots : ∀ i, (pi.roots i).Below n
  commitmentInfo : ∀ v ∈ pi.commitmentInfo, v.Below n
  nullifierInfo : ∀ v ∈ pi.nullifierInfo, v.Below n

/-- The values of variables. -/
def ExtraPis.eval (w : Variable → Fr254) (pi : ExtraPis Variable) : ExtraPis Fr254 where
  leafRoots i := w (pi.leafRoots i)
  proofs i := (pi.proofs i).map w
  roots i := w (pi.roots i)
  commitmentInfo := pi.commitmentInfo.map w
  nullifierInfo := pi.nullifierInfo.map w

/-- Each proof can be read, and leads from the root of a client proof to the root behind it. -/
def ExtraPis.Fits (lib : TreeLibrary) (pi : ExtraPis Fr254) : Prop :=
  ∀ i, ∃ proof, lib.membershipProof (pi.proofs i) = some proof ∧
    foldPath (nodeHash lib.poseidon) proof.siblingPath (pi.leafRoots i) = pi.roots i

/-- What the gadgets of the library make of field elements. -/
structure TreeLibrary.Makes (lib : TreeLibrary) (commitments nullifiers : List Fr254 → Insertion) :
    Prop where
  commitment_succeeds : ∀ n xs, 2 ≤ n → Succeeds n (lib.commitmentInsertion xs) fun m v =>
    v.oldRoot.Below m ∧ v.newRoot.Below m
  nullifier_succeeds : ∀ n xs, 2 ≤ n → Succeeds n (lib.nullifierInsertion xs) fun m v =>
    v.oldRoot.Below m ∧ v.newRoot.Below m
  commitment : ∀ w xs, Ensures .honest w (lib.commitmentInsertion xs) fun v =>
    v.eval w = commitments xs
  nullifier : ∀ w xs, Ensures .honest w (lib.nullifierInsertion xs) fun v =>
    v.eval w = nullifiers xs

theorem checkRoot_runs {leafRoot root : Variable} {vars : List Variable}
    {proof : MembershipProof Fr254 (PathElement Fr254)} (hleaf : leafRoot.Below c₀.numVars)
    (hvars : ∀ v ∈ vars, v.Below c₀.numVars) (hroot : root.Below c₀.numVars)
    (hproof : lib.membershipProof (vars.map c₀.value) = some proof) :
    Runs c₀ (checkRoot lib leafRoot vars root) fun _ _ => True := by
  unfold checkRoot
  refine (copyMembershipProof_runs hvars hproof).bind fun c₁ p l₁ hp => ?_
  refine (Runs.of_succeeds (Succeeds.verifyMembershipProof hp (hleaf.of_le l₁)
    (hroot.of_le l₁))).bind fun c₂ b _ hb => ?_
  refine (Runs.enforce (by simp [hb])).bind fun _ _ _ _ => ?_
  exact .pure fun _ _ => trivial

/-- The variables of the four roots are below `n`. -/
def HalfChecks.RootsBelow (r : HalfChecks) (n : ℕ) : Prop :=
  (r.commitments.oldRoot.Below n ∧ r.commitments.newRoot.Below n) ∧
    r.nullifiers.oldRoot.Below n ∧ r.nullifiers.newRoot.Below n

theorem halfChecks_runs {commitments nullifiers : List Fr254 → Insertion}
    (hlib : lib.Makes commitments nullifiers) {pi : ExtraPis Variable} (hzero : 2 ≤ c₀.numVars)
    (h : pi.Below c₀.numVars) (hfits : (pi.eval c₀.value).Fits lib) :
    Runs c₀ (halfChecks lib pi) fun c r => r.RootsBelow c.numVars := by
  unfold halfChecks
  have hproofs : Runs c₀ (forArray 8 fun i => checkRoot lib (pi.leafRoots i) (pi.proofs i)
      (pi.roots i)) fun _ _ => True := by
    refine .forArray fun i => ?_
    obtain ⟨proof, hproof, -⟩ := hfits i
    exact checkRoot_runs (h.leafRoots i) (h.proofs i) (h.roots i) hproof
  refine hproofs.bind fun c₁ _ l₁ _ => ?_
  refine ((Runs.mapM_witness h.commitmentInfo).of_le l₁).bind fun c₂ xs l₂ _ => ?_
  have htwo : ∀ c : PlonkCircuit Fr254, c₀.Le c → 2 ≤ c.numVars := fun c hc =>
    hzero.trans hc.witness.length_le
  refine (Runs.of_succeeds (hlib.commitment_succeeds _ xs (htwo c₂ (l₁.trans l₂)))).bind
    fun c₃ v l₃ hv => ?_
  have hle := l₁.trans (l₂.trans l₃)
  refine ((Runs.mapM_witness h.nullifierInfo).of_le hle).bind fun c₄ ys l₄ _ => ?_
  refine (Runs.of_succeeds (hlib.nullifier_succeeds _ ys (htwo c₄ (hle.trans l₄)))).bind
    fun c₅ u l₅ hu => ?_
  refine .pure fun c hc => ⟨⟨hv.1.of_le ?_, hv.2.of_le ?_⟩, hu.1.of_le hc, hu.2.of_le hc⟩
  · exact l₄.trans (l₅.trans hc)
  · exact l₄.trans (l₅.trans hc)

variable (lib) in
/-- The checks of both halves, up to the check of the circuit. -/
def insertionChecks (firstPis secondPis : ExtraPis Variable) :
    CircuitM Fr254 (HalfChecks × HalfChecks) := do
  let first ← halfChecks lib firstPis
  let second ← halfChecks lib secondPis
  enforceEqual second.commitments.oldRoot first.commitments.newRoot
  enforceEqual second.nullifiers.oldRoot first.nullifiers.newRoot
  return (first, second)

/-- What the extra checks return for two halves. -/
def BaseExtraChecks.ofHalves (firstPis secondPis : ExtraPis Variable)
    (halves : HalfChecks × HalfChecks) : BaseExtraChecks :=
  ⟨![firstPis, secondPis], ![halves.1, halves.2],
    ![halves.1.commitments.oldRoot, halves.2.commitments.newRoot, halves.1.nullifiers.oldRoot,
      halves.2.nullifiers.newRoot]⟩

theorem baseBn254ExtraChecks_eq {specificPis : List Variable} {l₁ l₂ l₃ : ℕ}
    {firstPis secondPis : ExtraPis Variable}
    (hfirst : ExtraPis.ofSlice l₁ l₂ l₃ (specificPis.take (specificPis.length / 2)) = some firstPis)
    (hsecond : ExtraPis.ofSlice l₁ l₂ l₃ (specificPis.drop (specificPis.length / 2)) =
      some secondPis) :
    baseBn254ExtraChecks lib specificPis l₁ l₂ l₃ = (do
      let halves ← insertionChecks lib firstPis secondPis
      checkCircuitSatisfiability []
      return .ofHalves firstPis secondPis halves) := by
  unfold baseBn254ExtraChecks insertionChecks
  simp only [List.splitAt_eq, hfirst, hsecond, orFail, pure_bind, bind_assoc]
  rfl

theorem insertionChecks_runs {commitments nullifiers : List Fr254 → Insertion}
    (hlib : lib.Makes commitments nullifiers) {firstPis secondPis : ExtraPis Variable}
    (hzero : 2 ≤ c₀.numVars) (hfirst : firstPis.Below c₀.numVars) (hsecond : secondPis.Below c₀.numVars)
    (hfits : (firstPis.eval c₀.value).Fits lib) (hfits' : (secondPis.eval c₀.value).Fits lib) :
    Runs c₀ (insertionChecks lib firstPis secondPis) fun _ _ => True := by
  unfold insertionChecks
  refine (halfChecks_runs hlib hzero hfirst hfits).bind fun c₁ first l₁ h₁ => ?_
  refine ((halfChecks_runs hlib hzero hsecond hfits').of_le l₁).bind fun c₂ second l₂ h₂ => ?_
  obtain ⟨⟨-, hcommitment⟩, -, hnullifier⟩ := h₁
  obtain ⟨⟨hcommitment', -⟩, hnullifier', -⟩ := h₂
  refine (Runs.enforce (by simp [hcommitment', hcommitment.of_le l₂])).bind fun c₃ _ l₃ _ => ?_
  refine (Runs.enforce (by simp [hnullifier'.of_le l₃,
    hnullifier.of_le (l₂.trans l₃)])).bind fun _ _ _ _ => ?_
  exact .pure fun _ _ => trivial

end Checks

/-! ### Merges that exist -/

section Exists

variable {maps : FieldMaps} {sha256 : Bytes → U256} {lib : TreeLibrary}

theorem RootsMeet.frToFq {pis : Fin 2 → Fin 6 → Fr254} (h : @RootsMeet Fr254 2 pis) :
    @RootsMeet Fq254 2 fun i j => maps.frToFq (pis i j) :=
  ⟨congrArg maps.frToFq h.1, congrArg maps.frToFq h.2⟩

theorem exists_grumpkinMerge {pis : Fin 2 → Fin 6 → Fr254} (h : @RootsMeet Fr254 2 pis) :
    ∃ out, GrumpkinMerge maps pis out := by
  obtain ⟨w, vars, r, hvalues, hr, -⟩ := exists_honest (createArrays_succeeds _)
    (createArrays_ensures fun i j => maps.frToFq (pis i j))
    (fun c vars _ hbelow _ => grumpkinMergeCircuitChecks_runs hbelow)
    (fun w vars hvars => grumpkinMergeCircuitChecks_ensures hvars fun _ => h.frToFq)
  exact ⟨fun j => w (r j), w, vars, r, hvalues, hr.satisfied, fun _ => rfl⟩

/-- The grumpkin circuits over four results that adjoin. -/
theorem Adjoin.exists_merged {o : Fin 4 → Fin 6 → Fr254} (h : Adjoin o) :
    ∃ g, Merged maps o g ∧ @RootsMeet Fr254 3 fun i j => maps.fqToFr (g i j) := by
  obtain ⟨g₀, hg₀⟩ : ∃ g, GrumpkinMerge maps ![o 0, o 1] g :=
    exists_grumpkinMerge ⟨h.commitments.1, h.nullifiers.1⟩
  obtain ⟨g₁, hg₁⟩ : ∃ g, GrumpkinMerge maps ![o 2, o 3] g :=
    exists_grumpkinMerge ⟨h.commitments.2.2, h.nullifiers.2.2⟩
  refine ⟨![g₀, g₁], ⟨hg₀, hg₁⟩, ?_⟩
  have hv₀ := hg₀.values.2
  have hv₁ := hg₁.values.2
  constructor
  · change maps.fqToFr (g₀ 1) = maps.fqToFr (g₁ 0)
    rw [hv₀, hv₁]
    exact congrArg (fun x => maps.fqToFr (maps.frToFq x)) h.commitments.2.1
  · change maps.fqToFr (g₀ 3) = maps.fqToFr (g₁ 2)
    rw [hv₀, hv₁]
    exact congrArg (fun x => maps.fqToFr (maps.frToFq x)) h.nullifiers.2.1

theorem exists_bn254Merge {g : Fin 2 → Fin 7 → Fq254}
    (h : @RootsMeet Fr254 3 fun i j => maps.fqToFr (g i j)) : ∃ out, Bn254Merge maps sha256 g out := by
  obtain ⟨w, vars, r, hvalues, hr, -⟩ := exists_honest (createArrays_succeeds _)
    (createArrays_ensures fun i j => maps.fqToFr (g i j))
    (fun c vars _ hbelow _ => bn254MergeCircuitChecks_runs hbelow)
    (fun w vars hvars => bn254MergeCircuitChecks_ensures hvars fun _ => h)
  exact ⟨fun j => w (r j), w, vars, r, hvalues, hr.satisfied, fun _ => rfl⟩

/-- **A bn254 circuit above the base circuits joins exactly the results that adjoin.** -/
theorem part_succ_iff {m : ℕ} {ts : List (Fin 18 → Fr254)} {out : Fin 6 → Fr254}
    {cs ns : List Insertion} :
    Part maps sha256 lib (m + 1) ts out cs ns ↔
      ∃ (ts' : Fin 4 → List (Fin 18 → Fr254)) (o : Fin 4 → Fin 6 → Fr254)
        (cs' ns' : Fin 4 → List Insertion),
        (∀ i, Part maps sha256 lib m (ts' i) (o i) (cs' i) (ns' i)) ∧ Adjoin o ∧
        out = ![o 0 0, o 3 1, o 0 2, o 3 3, maps.feeSum fun i => o i 4,
          ofWord (fourHash sha256 fun i => toWord (o i 5))] ∧
        ts = concat ts' ∧ cs = concat cs' ∧ ns = concat ns' := by
  constructor
  · intro h
    cases h with
    | merge hparts hmerged hmerge =>
      obtain ⟨hadjoin, hout⟩ := hmerge.values hmerged
      exact ⟨_, _, _, _, hparts, hadjoin, hout, rfl, rfl, rfl⟩
  · rintro ⟨ts', o, cs', ns', hparts, hadjoin, rfl, rfl, rfl, rfl⟩
    obtain ⟨g, hmerged, hmeet⟩ := hadjoin.exists_merged
    obtain ⟨out, hmerge⟩ := exists_bn254Merge hmeet
    rw [← (hmerge.values hmerged).2]
    exact .merge hparts hmerged hmerge

theorem orFail_honest {α : Type} {w : Variable → Fr254} {msg : String} {x : Option α} {a : α}
    (h : x = some a) : Ensures .honest w (orFail msg x) fun b => b = a :=
  orFail_ensures fun _ hb => Option.some_inj.1 (hb.symm.trans h)

/-- The variables of the decider circuit for the historic root tree. -/
structure HistoricVars (lib : TreeLibrary) (w : Variable → Fr254) (deciderPis : List Variable)
    (rootMProofLength : ℕ) (proof : MembershipProof Fr254 (PathElement Fr254)) : Prop where
  length : rootMProofLength < deciderPis.length
  reads : lib.membershipProof ((deciderPis.map w).take rootMProofLength) = some proof
  root : foldPath (nodeHash lib.poseidon) proof.siblingPath 0 =
    w (deciderPis.get ⟨rootMProofLength, length⟩)

theorem copyMembershipProof_honest {w : Variable → Fr254} {vars : List Variable}
    {proof : MembershipProof Fr254 (PathElement Fr254)}
    (h : lib.membershipProof (vars.map w) = some proof) :
    Ensures .honest w (copyMembershipProof lib vars) fun p => MembershipProofVar.eval w p = proof := by
  unfold copyMembershipProof
  refine (mapM_witness_ensures _).bind fun xs hxs => ?_
  refine (orFail_honest (hxs rfl ▸ h)).bind fun a ha => ?_
  exact (fromMembershipProof_ensures a).mono fun p hp => (hp.1 rfl).trans ha

theorem deciderCircuitChecks_honest {w : Variable → Fr254} {specificPis : Fin 2 → Fin 7 → Variable}
    {deciderPis : List Variable} {rootMProofLength : ℕ}
    {proof : MembershipProof Fr254 (PathElement Fr254)}
    (hmeet : @RootsMeet Fr254 3 fun i j => w (specificPis i j))
    (h : HistoricVars lib w deciderPis rootMProofLength proof) :
    Ensures .honest w (deciderCircuitChecks sha256 lib specificPis deciderPis rootMProofLength)
      fun r => (MembershipProofVar.eval w r.mProofVar).siblingPath = proof.siblingPath := by
  unfold deciderCircuitChecks
  refine .const fun hzero _ => ?_
  refine (enforceEqual_ensures fun _ => hmeet.1).bind fun _ _ => ?_
  refine (enforceEqual_ensures fun _ => hmeet.2).bind fun _ _ => ?_
  refine (add_ensures _ _).bind fun feeSum _ => ?_
  refine fourHash_ensures sha256 _ _ _ _ fun finalSha _ => ?_
  refine (orFail_honest (List.getElem?_eq_getElem h.length)).bind fun oldRoot hold => ?_
  refine (copyMembershipProof_honest (List.map_take ▸ h.reads)).bind fun p hp => ?_
  refine (calculateNewRoot_ensures _ _ _).bind fun new _ => ?_
  refine (calculateNewRoot_ensures _ _ _).bind fun old hold' => ?_
  refine (enforceEqual_ensures fun _ => ?_).bind fun _ _ => .pure (congrArg _ hp)
  have hz : w zero = 0 := hzero
  rw [hold', hz, hp, h.root, hold]
  rfl

/-- New variables for two results, and for what the proposer provides. -/
def createVars {k : ℕ} (values : Fin 2 → Fin k → Fr254) (provided : List Fr254) :
    CircuitM Fr254 ((Fin 2 → Fin k → Variable) × List Variable) := do
  let vars ← createArrays values
  let providedVars ← provided.mapM createVariable
  return (vars, providedVars)

theorem createVars_succeeds {k : ℕ} (values : Fin 2 → Fin k → Fr254) (provided : List Fr254) :
    Succeeds 2 (createVars values provided) fun m vars =>
      (∀ i j, (vars.1 i j).Below m) ∧ vars.2.length = provided.length ∧ ∀ v ∈ vars.2, v.Below m := by
  refine (createArrays_succeeds _).bind fun m vars _ hvars => ?_
  refine (Succeeds.mapM (fun _ _ _ hv hmk => hv.mono hmk) fun a _ _ _ =>
    Succeeds.createVariable a).bind fun k ds hk hds => .pure fun l hl => ⟨?_, hds.1, ?_⟩
  · exact fun i j => (hvars i j).mono (hk.trans hl)
  · exact fun v hv => (hds.2 v hv).mono hl

theorem createVars_ensures {k : ℕ} (values : Fin 2 → Fin k → Fr254) (provided : List Fr254)
    (w : Variable → Fr254) : Ensures .honest w (createVars values provided) fun vars =>
      (∀ i j, w (vars.1 i j) = values i j) ∧ vars.2.map w = provided := by
  refine (createArrays_ensures _ w).bind fun vars hvars => ?_
  refine (Ensures.mapM_honest fun a => createVariable_ensures a).bind fun ds hds => ?_
  exact .pure ⟨hvars, hds.1 rfl⟩

/-- The values of a proof and of the root that it leads to from zero. -/
theorem historicVars_of_values {w : Variable → Fr254} {vars : List Variable} {xs : List Fr254}
    {proof : MembershipProof Fr254 (PathElement Fr254)} (hproof : lib.membershipProof xs = some proof)
    (hvars : vars.map w = xs ++ [foldPath (nodeHash lib.poseidon) proof.siblingPath 0]) :
    HistoricVars lib w vars xs.length proof := by
  have hlen : xs.length < vars.length := by
    rw [← List.length_map w, hvars, List.length_append, List.length_singleton]
    exact Nat.lt_succ_self _
  refine ⟨hlen, ?_, ?_⟩
  · rw [hvars, List.take_left' rfl]
    exact hproof
  · have hget := congrArg (·[xs.length]?) hvars
    simp only [List.getElem?_map, List.getElem?_eq_getElem hlen, List.getElem?_concat_length] at hget
    exact (Option.some_inj.1 hget).symm

theorem exists_decider {g : Fin 2 → Fin 7 → Fq254} {xs : List Fr254}
    {proof : MembershipProof Fr254 (PathElement Fr254)}
    (h : @RootsMeet Fr254 3 fun i j => maps.fqToFr (g i j))
    (hproof : lib.membershipProof xs = some proof) :
    ∃ out, Decider maps sha256 lib xs.length g out proof.siblingPath := by
  obtain ⟨w, vars, r, hvars, hr, hpath⟩ := exists_honest
    (p := fun vars => deciderCircuitChecks sha256 lib vars.1 vars.2 xs.length)
    (Q := fun w _ r => (MembershipProofVar.eval w r.mProofVar).siblingPath = proof.siblingPath)
    (createVars_succeeds _ _)
    (createVars_ensures (fun i j => maps.fqToFr (g i j))
      (xs ++ [foldPath (nodeHash lib.poseidon) proof.siblingPath 0]))
    (fun c vars hc hbelow hvalues =>
      have hhistoric := historicVars_of_values hproof hvalues.2
      deciderCircuitChecks_runs hbelow.1 hbelow.2.2 hhistoric.length hhistoric.reads hc)
    (fun w vars hvalues => deciderCircuitChecks_honest
      ((funext₂ hvalues.1 : (fun i j => w (vars.1 i j)) = _) ▸ h)
      (historicVars_of_values hproof hvalues.2))
  exact ⟨fun j => w (r.returned j), w, vars.1, vars.2, r, hvars.1, hr.satisfied, fun _ => rfl, hpath.symm⟩

/-- The library reads paths of length `height`, and only such, from `length` field elements. -/
structure TreeLibrary.ReadsPaths (lib : TreeLibrary) (length height : ℕ) : Prop where
  reads : lib.ReadsProofs length height
  surjective : ∀ path, path.length = height → ∃ xs proof, xs.length = length ∧
    lib.membershipProof xs = some proof ∧ proof.siblingPath = path

/-- The eight values that a decider circuit returns for four results. -/
def deciderValues (maps : FieldMaps) (sha256 : Bytes → U256) (lib : TreeLibrary)
    (o : Fin 4 → Fin 6 → Fr254) (path : List (PathElement Fr254)) : Fin 8 → Fr254 :=
  ![maps.feeSum fun i => o i 4, ofWord (fourHash sha256 fun i => toWord (o i 5)), o 0 0, o 3 1, o 0 2,
    o 3 3, foldPath (nodeHash lib.poseidon) path 0, foldPath (nodeHash lib.poseidon) path (o 3 1)]

theorem Decider.out_eq {rootMProofLength : ℕ} {o : Fin 4 → Fin 6 → Fr254} {g : Fin 2 → Fin 7 → Fq254}
    {out : Fin 8 → Fr254} {path : List (PathElement Fr254)} (hmerged : Merged maps o g)
    (h : Decider maps sha256 lib rootMProofLength g out path) :
    out = deciderValues maps sha256 lib o path := by
  obtain ⟨-, hvalues, hold, hnew, -⟩ := h.values hmerged
  have hat := fun j => congrFun hvalues j
  have hend : out 3 = o 3 1 := hat 1
  rw [hend] at hnew
  funext j
  fin_cases j
  · exact hat 4
  · exact hat 5
  · exact hat 0
  · exact hat 1
  · exact hat 2
  · exact hat 3
  · exact hold.symm
  · exact hnew.symm

/-- Four parts that adjoin make a block, along any path. -/
theorem RollupBlock.of_adjoin {rootMProofLength height m : ℕ}
    (hlib : lib.ReadsPaths rootMProofLength height) {ts : Fin 4 → List (Fin 18 → Fr254)}
    {o : Fin 4 → Fin 6 → Fr254} {cs ns : Fin 4 → List Insertion} {path : List (PathElement Fr254)}
    (hparts : ∀ i, Part maps sha256 lib m (ts i) (o i) (cs i) (ns i)) (hadjoin : Adjoin o)
    (hlength : path.length = height) :
    RollupBlock maps sha256 lib rootMProofLength m (concat ts) (deciderValues maps sha256 lib o path)
      (concat cs) (concat ns) path := by
  obtain ⟨xs, proof, rfl, hproof, rfl⟩ := hlib.surjective path hlength
  obtain ⟨g, hmerged, hmeet⟩ := hadjoin.exists_merged
  obtain ⟨out, hdecider⟩ := exists_decider hmeet hproof
  rw [← hdecider.out_eq hmerged]
  exact ⟨_, _, _, _, g, hparts, hmerged, hdecider, rfl, rfl, rfl⟩

/-- **The decider circuit joins exactly the results that adjoin**, along any path from zero to the old
historic root. -/
theorem rollupBlock_iff {rootMProofLength height m : ℕ} (hlib : lib.ReadsPaths rootMProofLength height)
    {ts : List (Fin 18 → Fr254)} {out : Fin 8 → Fr254} {cs ns : List Insertion}
    {path : List (PathElement Fr254)} :
    RollupBlock maps sha256 lib rootMProofLength m ts out cs ns path ↔
      ∃ (ts' : Fin 4 → List (Fin 18 → Fr254)) (o : Fin 4 → Fin 6 → Fr254)
        (cs' ns' : Fin 4 → List Insertion),
        (∀ i, Part maps sha256 lib m (ts' i) (o i) (cs' i) (ns' i)) ∧ Adjoin o ∧
        path.length = height ∧ out = deciderValues maps sha256 lib o path ∧
        ts = concat ts' ∧ cs = concat cs' ∧ ns = concat ns' := by
  constructor
  · intro h
    obtain ⟨ts', o, cs', ns', g, hparts, hmerged, hdecider, rfl, rfl, rfl⟩ := h.exists_parts
    obtain ⟨hadjoin, -, -, -, hlength⟩ := hdecider.values hmerged
    exact ⟨ts', o, cs', ns', hparts, hadjoin, hlength height hlib.reads, hdecider.out_eq hmerged, rfl,
      rfl, rfl⟩
  · rintro ⟨ts', o, cs', ns', hparts, hadjoin, hlength, rfl, rfl, rfl, rfl⟩
    exact .of_adjoin hlib hparts hadjoin hlength

end Exists

/-! ### Base circuits that exist -/

section Base

variable {maps : FieldMaps} {sha256 : Bytes → U256} {lib : TreeLibrary} {w : Variable → Fr254}
  {commitments nullifiers : List Fr254 → Insertion}

theorem exists_baseGrumpkin (pis : Fin 2 → Fin 18 → Fr254) : ∃ out, BaseGrumpkin maps pis out := by
  obtain ⟨w, vars, r, hvalues, hr, -⟩ := exists_honest (createArrays_succeeds _)
    (createArrays_ensures fun i j => maps.frToFq (pis i j))
    (fun c vars _ _ _ => (.pure fun _ _ => trivial : Runs c (baseGrumpkinChecks vars) _))
    (fun w vars _ => (.pure trivial : Ensures .honest w (baseGrumpkinChecks vars) fun _ => True))
  exact ⟨fun j => w (r j), w, vars, r, hvalues, hr.satisfied, fun _ => rfl⟩

theorem checkRoot_honest {leafRoot root : Variable} {vars : List Variable}
    {proof : MembershipProof Fr254 (PathElement Fr254)}
    (hproof : lib.membershipProof (vars.map w) = some proof)
    (hroot : foldPath (nodeHash lib.poseidon) proof.siblingPath (w leafRoot) = w root) :
    Ensures .honest w (checkRoot lib leafRoot vars root) fun _ => True := by
  unfold checkRoot
  refine (copyMembershipProof_honest hproof).bind fun p hp => ?_
  refine (verifyMembershipProof_ensures lib.poseidon p leafRoot root).bind fun b hb => ?_
  refine (enforceTrue_ensures fun _ => ?_).bind fun _ _ => .pure trivial
  rw [hb, hp, ofBool_eq_one, decide_eq_true_eq]
  exact hroot

theorem halfChecks_honest (hlib : lib.Makes commitments nullifiers) {pi : ExtraPis Variable}
    (hfits : (pi.eval w).Fits lib) : Ensures .honest w (halfChecks lib pi) fun r =>
      r.commitments.eval w = commitments (pi.eval w).commitmentInfo ∧
        r.nullifiers.eval w = nullifiers (pi.eval w).nullifierInfo := by
  unfold halfChecks
  have hproofs : ∀ i, Ensures .honest w (checkRoot lib (pi.leafRoots i) (pi.proofs i) (pi.roots i))
      fun _ => True := by
    intro i
    obtain ⟨proof, hproof, hroot⟩ := hfits i
    exact checkRoot_honest hproof hroot
  refine (Ensures.forArray hproofs).bind fun _ _ => ?_
  refine (mapM_witness_ensures _).bind fun xs hxs => ?_
  refine (hlib.commitment w xs).bind fun v hv => ?_
  refine (mapM_witness_ensures _).bind fun ys hys => ?_
  refine (hlib.nullifier w ys).bind fun u hu => .pure ⟨?_, ?_⟩
  · rw [hv, hxs rfl]
    rfl
  · rw [hu, hys rfl]
    rfl

/-- The insertions of one half start from the roots at which those of the other ended. -/
structure HalvesMeet (commitments nullifiers : List Fr254 → Insertion)
    (firstPis secondPis : ExtraPis Fr254) : Prop where
  commitments_eq : (commitments secondPis.commitmentInfo).oldRoot =
    (commitments firstPis.commitmentInfo).newRoot
  nullifiers_eq : (nullifiers secondPis.nullifierInfo).oldRoot =
    (nullifiers firstPis.nullifierInfo).newRoot

theorem insertionChecks_honest (hlib : lib.Makes commitments nullifiers)
    {firstPis secondPis : ExtraPis Variable} (hfits : (firstPis.eval w).Fits lib)
    (hfits' : (secondPis.eval w).Fits lib)
    (hmeet : HalvesMeet commitments nullifiers (firstPis.eval w) (secondPis.eval w)) :
    Ensures .honest w (insertionChecks lib firstPis secondPis) fun r =>
      (r.1.commitments.eval w = commitments (firstPis.eval w).commitmentInfo ∧
        r.1.nullifiers.eval w = nullifiers (firstPis.eval w).nullifierInfo) ∧
      r.2.commitments.eval w = commitments (secondPis.eval w).commitmentInfo ∧
        r.2.nullifiers.eval w = nullifiers (secondPis.eval w).nullifierInfo := by
  unfold insertionChecks
  refine (halfChecks_honest hlib hfits).bind fun first hfirst => ?_
  refine (halfChecks_honest hlib hfits').bind fun second hsecond => ?_
  have hcommitments : w second.commitments.oldRoot = w first.commitments.newRoot :=
    (congrArg Insertion.oldRoot hsecond.1).trans
      (hmeet.commitments_eq.trans (congrArg Insertion.newRoot hfirst.1).symm)
  have hnullifiers : w second.nullifiers.oldRoot = w first.nullifiers.newRoot :=
    (congrArg Insertion.oldRoot hsecond.2).trans
      (hmeet.nullifiers_eq.trans (congrArg Insertion.newRoot hfirst.2).symm)
  refine (enforceEqual_ensures fun _ => hcommitments).bind fun _ _ => ?_
  refine (enforceEqual_ensures fun _ => hnullifiers).bind fun _ _ => ?_
  exact .pure ⟨hfirst, hsecond⟩

/-! #### Slices -/

theorem ExtraPis.eval_slice (hzero : w zero = 0) (l₁ l₂ l₃ : ℕ) (vars : List Variable) :
    (ExtraPis.slice zero l₁ l₂ l₃ vars).eval w = .slice 0 l₁ l₂ l₃ (vars.map w) := by
  simp only [ExtraPis.eval, ExtraPis.slice, ← hzero, List.getD_map, List.map_take, List.map_drop]

theorem ExtraPis.below_slice {n : ℕ} (hzero : 2 ≤ n) {vars : List Variable}
    (h : ∀ v ∈ vars, v.Below n) (l₁ l₂ l₃ : ℕ) :
    (ExtraPis.slice zero l₁ l₂ l₃ vars).Below n := by
  have hget : ∀ i, (vars.getD i zero).Below n := by
    intro i
    rcases lt_or_ge i vars.length with hi | hi
    · rw [List.getD_eq_getElem _ _ hi]
      exact h _ (List.getElem_mem hi)
    · rw [List.getD_eq_default _ _ hi]
      exact zero_below hzero
  exact ⟨fun i => hget i, fun i v hv => h v (List.mem_of_mem_drop (List.mem_of_mem_take hv)),
    fun i => hget _, fun v hv => h v (List.mem_of_mem_drop (List.mem_of_mem_take hv)),
    fun v hv => h v (List.mem_of_mem_drop (List.mem_of_mem_take hv))⟩

/-- What the proposer provides for a base circuit: both halves are long enough, their proofs fit, and
their insertions meet. -/
structure Provided (lib : TreeLibrary) (commitments nullifiers : List Fr254 → Insertion) (l₁ l₂ l₃ : ℕ)
    (provided : List Fr254) (firstPis secondPis : ExtraPis Fr254) : Prop where
  length : 8 * (l₁ + 2) + l₂ ≤ provided.length / 2
  first : .slice 0 l₁ l₂ l₃ (provided.take (provided.length / 2)) = firstPis
  second : .slice 0 l₁ l₂ l₃ (provided.drop (provided.length / 2)) = secondPis
  fits : firstPis.Fits lib
  fits' : secondPis.Fits lib
  meet : HalvesMeet commitments nullifiers firstPis secondPis

/-- **A base circuit is satisfied**, whatever the client proofs, if what the proposer provides fits. -/
theorem exists_baseBn254 (hlib : lib.Makes commitments nullifiers) {provided : List Fr254}
    {l₁ l₂ l₃ : ℕ} {firstPis secondPis : ExtraPis Fr254}
    (h : Provided lib commitments nullifiers l₁ l₂ l₃ provided firstPis secondPis)
    (g : Fin 2 → Fin 36 → Fq254) :
    ∃ out, BaseBn254 maps sha256 lib g out
        [commitments firstPis.commitmentInfo, commitments secondPis.commitmentInfo]
        [nullifiers firstPis.nullifierInfo, nullifiers secondPis.nullifierInfo] ∧
      ![out 0, out 1, out 2, out 3] = ![(commitments firstPis.commitmentInfo).oldRoot,
        (commitments secondPis.commitmentInfo).newRoot, (nullifiers firstPis.nullifierInfo).oldRoot,
        (nullifiers secondPis.nullifierInfo).newRoot] := by
  obtain ⟨hlength, rfl, rfl, hfits, hfits', hmeet⟩ := h
  -- the values of both halves are those of the variables
  have hslices : ∀ {w : Variable → Fr254} {vars : List Variable}, w zero = 0 → vars.map w = provided →
      vars.length = provided.length ∧
      (ExtraPis.slice zero l₁ l₂ l₃ (vars.take (provided.length / 2))).eval w =
        .slice 0 l₁ l₂ l₃ (provided.take (provided.length / 2)) ∧
      (ExtraPis.slice zero l₁ l₂ l₃ (vars.drop (provided.length / 2))).eval w =
        .slice 0 l₁ l₂ l₃ (provided.drop (provided.length / 2)) := by
    rintro w vars hzero rfl
    refine ⟨(List.length_map w).symm, ?_, ?_⟩
    · rw [ExtraPis.eval_slice hzero, List.map_take]
    · rw [ExtraPis.eval_slice hzero, List.map_drop]
  obtain ⟨w, vars, halves, ⟨hzero, hpis, hvalues⟩, hhonest, hcommitments, hnullifiers⟩ :=
    exists_honest
      (R := fun w vars => w zero = 0 ∧ (∀ i j, w (vars.1 i j) = maps.fqToFr (g i j)) ∧
        vars.2.map w = provided)
      (p := fun vars => do
        let _ ← baseBn254Checks sha256 vars.1
        insertionChecks lib (.slice zero l₁ l₂ l₃ (vars.2.take (provided.length / 2)))
          (.slice zero l₁ l₂ l₃ (vars.2.drop (provided.length / 2))))
      (createVars_succeeds _ _)
      (fun w => .const fun hzero _ =>
        (createVars_ensures (fun i j => maps.fqToFr (g i j)) provided w).mono fun _ h => ⟨hzero, h⟩)
      (fun c vars hc hbelow ⟨hzero, _, hvalues⟩ => by
        obtain ⟨-, hfirst, hsecond⟩ := hslices hzero hvalues
        refine (baseBn254Checks_runs hbelow.1 hc).bind fun c₁ _ hle _ => ?_
        refine (insertionChecks_runs hlib hc ?_ ?_ (hfirst ▸ hfits) (hsecond ▸ hfits')).of_le hle
        · exact ExtraPis.below_slice hc (fun v hv => hbelow.2.2 v (List.mem_of_mem_take hv)) _ _ _
        · exact ExtraPis.below_slice hc (fun v hv => hbelow.2.2 v (List.mem_of_mem_drop hv)) _ _ _)
      (fun w vars ⟨hzero, _, hvalues⟩ => by
        obtain ⟨-, hfirst, hsecond⟩ := hslices hzero hvalues
        refine (baseBn254Checks_ensures fun _ _ => rfl).bind fun _ _ => ?_
        exact insertionChecks_honest hlib (hfirst ▸ hfits) (hsecond ▸ hfits')
          (by rwa [hfirst, hsecond]))
  obtain ⟨hlen, hfirst, hsecond⟩ := hslices hzero hvalues
  rw [hfirst] at hcommitments
  rw [hsecond] at hnullifiers
  obtain ⟨hc₁, hn₁⟩ := hcommitments
  obtain ⟨hc₂, hn₂⟩ := hnullifiers
  obtain ⟨b, hb, hhonest⟩ := hhonest.bind
  -- the extra checks are those of the halves, and then the check of the circuit
  have hofSlice : ∀ l : List Variable, provided.length / 2 ≤ l.length →
      ExtraPis.ofSlice l₁ l₂ l₃ l = some (.slice zero l₁ l₂ l₃ l) := fun l hl =>
    if_pos (hlength.trans hl)
  rw [← hlen] at hhonest hofSlice
  have he := hhonest.check (BaseExtraChecks.ofHalves
    (.slice zero l₁ l₂ l₃ (vars.2.take (vars.2.length / 2)))
    (.slice zero l₁ l₂ l₃ (vars.2.drop (vars.2.length / 2))))
  rw [← baseBn254ExtraChecks_eq (hofSlice _ (by rw [List.length_take]; omega))
    (hofSlice _ (by rw [List.length_drop]; omega))] at he
  refine ⟨_, ⟨w, vars.1, b, vars.2, l₁, l₂, l₃, _, hpis, hb, he, rfl, ?_, ?_⟩, ?_⟩
  · rw [← hc₁, ← hc₂]
    rfl
  · rw [← hn₁, ← hn₂]
    rfl
  · rw [← hc₁, ← hc₂, ← hn₁, ← hn₂]
    rfl

/-- A part without merges. -/
theorem exists_part_zero (hlib : lib.Makes commitments nullifiers) {provided : List Fr254}
    {l₁ l₂ l₃ : ℕ} {firstPis secondPis : ExtraPis Fr254}
    (h : Provided lib commitments nullifiers l₁ l₂ l₃ provided firstPis secondPis)
    (pis : Fin 4 → Fin 18 → Fr254) :
    ∃ out, Part maps sha256 lib 0 (List.ofFn pis) out
        [commitments firstPis.commitmentInfo, commitments secondPis.commitmentInfo]
        [nullifiers firstPis.nullifierInfo, nullifiers secondPis.nullifierInfo] ∧
      ![out 0, out 1, out 2, out 3] = ![(commitments firstPis.commitmentInfo).oldRoot,
        (commitments secondPis.commitmentInfo).newRoot, (nullifiers firstPis.nullifierInfo).oldRoot,
        (nullifiers secondPis.nullifierInfo).newRoot] := by
  obtain ⟨g₀, h₀⟩ : ∃ g, BaseGrumpkin maps ![pis 0, pis 1] g := exists_baseGrumpkin _
  obtain ⟨g₁, h₁⟩ : ∃ g, BaseGrumpkin maps ![pis 2, pis 3] g := exists_baseGrumpkin _
  obtain ⟨out, hbase, hout⟩ := exists_baseBn254 hlib h ![g₀, g₁]
  exact ⟨out, .base h₀ h₁ hbase, hout⟩

end Base
/-! ### A library -/

section Library

/-- Public inputs carried by their values. -/
def FieldMaps.byValue : FieldMaps where
  frToFq x := (x.val : Fq254)
  fqToFr y := (y.val : Fr254)
  val_frToFq x := ZMod.val_cast_of_lt ((ZMod.val_lt x).trans frModulus_lt_fqModulus)
  val_fqToFr _ h := ZMod.val_cast_of_lt h

variable (poseidon : List Fr254 → Fr254)

/-- The path in front of the leaves: for each level 1 if the sibling is the left child, and the
sibling. -/
def insertionPath (xs : List Fr254) : List (PathElement Fr254) :=
  List.ofFn fun i : Fin commitmentTreeHeight =>
    ⟨decide (xs.getD (2 * i) 0 = 1), xs.getD (2 * i + 1) 0⟩

/-- The leaves behind the path. -/
def insertionLeaves (xs : List Fr254) : List Fr254 := xs.drop (2 * commitmentTreeHeight)

/-- The root of a subtree. -/
def subtreeRoot (leaves : List Fr254) : Fr254 :=
  treeRoot (nodeHash poseidon) (Nat.log 2 leaves.length) fun k => leaves.getD k 0

/-- The insertion of the leaves at the end of the path. -/
def insertionOf (xs : List Fr254) : Insertion where
  oldRoot := foldPath (nodeHash poseidon) (insertionPath xs) 0
  newRoot := foldPath (nodeHash poseidon) (insertionPath xs) (subtreeRoot poseidon (insertionLeaves xs))
  siblingPath := insertionPath xs
  leaves := insertionLeaves xs

/-- A gadget that verifies the insertion of a subtree at an empty place. -/
def insertSubtree (xs : List Fr254) : CircuitM Fr254 InsertionVar := do
  let path ← (insertionPath xs).mapM createPathElement
  let leaves ← (insertionLeaves xs).mapM createVariable
  let oldRoot ← calculateNewRoot poseidon ⟨zero, path⟩ zero
  let subtree ← applyGate leaves (subtreeRoot poseidon)
  let newRoot ← calculateNewRoot poseidon ⟨zero, path⟩ subtree
  return ⟨oldRoot, newRoot, path, leaves⟩

variable {poseidon} {P : Prover} {w : Variable → Fr254} {xs : List Fr254}

theorem insertSubtree_ensures : Ensures P w (insertSubtree poseidon xs) fun v =>
    (v.eval w).Appends poseidon ∧ (P = .honest → v.eval w = insertionOf poseidon xs) := by
  unfold insertSubtree
  refine .const fun hzero _ => ?_
  refine (Ensures.mapM_honest createPathElement_ensures).bind fun path hpath => ?_
  refine (Ensures.mapM_honest fun a => createVariable_ensures a).bind fun leaves hleaves => ?_
  refine (calculateNewRoot_ensures poseidon _ _).bind fun oldRoot hold => ?_
  refine (applyGate_ensures _ _).bind fun subtree hsubtree => ?_
  refine (calculateNewRoot_ensures poseidon _ _).bind fun newRoot hnew => .pure ?_
  have hz : w zero = 0 := hzero
  rw [hz] at hold
  rw [hsubtree] at hnew
  refine ⟨⟨?_, hold.symm, hnew.symm⟩, fun hP => ?_⟩
  · exact (List.length_map _).trans (hpath.2.trans List.length_ofFn)
  · simp only [MembershipProofVar.eval, hpath.1 hP, hleaves.1 hP] at hold hnew
    simp only [InsertionVar.eval, hold, hnew, hpath.1 hP, hleaves.1 hP, insertionOf]

theorem insertSubtree_succeeds {n : ℕ} (hn : 2 ≤ n) :
    Succeeds n (insertSubtree poseidon xs) fun m v => v.oldRoot.Below m ∧ v.newRoot.Below m := by
  unfold insertSubtree
  refine (Succeeds.mapM (S := fun m v => PathElementVar.Below v m) (fun _ _ _ h hmk => h.mono hmk)
    fun e _ _ _ => Succeeds.createPathElement e).bind fun m₁ path l₁ hpath => ?_
  refine (Succeeds.mapM (fun _ _ _ hv hmk => hv.mono hmk) fun a _ _ _ =>
    Succeeds.createVariable a).bind fun m₂ leaves l₂ hleaves => ?_
  have hz : ∀ m, m₂ ≤ m → zero.Below m := fun m hm => zero_below (hn.trans (l₁.trans (l₂.trans hm)))
  have hproof : ∀ m, m₂ ≤ m → MembershipProofVar.Below ⟨zero, path⟩ m := fun m hm =>
    ⟨hz m hm, fun e he => (hpath.2 e he).mono (l₂.trans hm)⟩
  refine (Succeeds.calculateNewRoot (hproof m₂ le_rfl) (hz m₂ le_rfl)).bind fun m₃ old l₃ hold => ?_
  refine (Succeeds.applyGate fun v hv => (hleaves.2 v hv).mono l₃).bind fun m₄ subtree l₄ hsub => ?_
  refine (Succeeds.calculateNewRoot (hproof m₄ (l₃.trans l₄)) hsub).bind fun m₅ new l₅ hnew => ?_
  exact .pure fun m hm => ⟨hold.mono (l₄.trans (l₅.trans hm)), hnew.mono hm⟩

variable (poseidon) in
/-- A library with this gadget for both trees, which reads paths of one step. -/
def appendLibrary : TreeLibrary where
  poseidon := poseidon
  membershipProof xs := some ⟨xs.getD 0 0, [⟨decide (xs.getD 1 0 = 1), xs.getD 2 0⟩]⟩
  commitmentInsertion := insertSubtree poseidon
  nullifierInsertion := insertSubtree poseidon

theorem appendLibrary_makes :
    (appendLibrary poseidon).Makes (insertionOf poseidon) (insertionOf poseidon) where
  commitment_succeeds _ _ hn := insertSubtree_succeeds hn
  nullifier_succeeds _ _ hn := insertSubtree_succeeds hn
  commitment _ _ := insertSubtree_ensures.mono fun _ h => h.2 rfl
  nullifier _ _ := insertSubtree_ensures.mono fun _ h => h.2 rfl

theorem appendLibrary_enforces :
    (appendLibrary poseidon).Enforces (Insertion.Appends poseidon) (Insertion.Appends poseidon) where
  commitment _ _ := insertSubtree_ensures.mono fun _ h => h.1
  nullifier _ _ := insertSubtree_ensures.mono fun _ h => h.1

theorem appendLibrary_readsPaths : (appendLibrary poseidon).ReadsPaths 3 1 := by
  refine ⟨fun xs proof _ h => ?_, fun path hpath => ?_⟩
  · cases h
    rfl
  · obtain ⟨⟨left, value⟩, rfl⟩ := List.length_eq_one_iff.1 hpath
    refine ⟨[0, ofBool left, value], _, rfl, rfl, ?_⟩
    cases left <;> simp [ofBool]

end Library

/-! ### A block with a transfer -/

section Sample

/-- A hash under which empty trees have the root zero. -/
def squareHash (xs : List Fr254) : Fr254 := xs.getD 0 0 * xs.getD 0 0 + xs.getD 1 0

/-- What is provided for two transactions: eight proofs for the root zero, and two insertions. -/
def halfElements (commitment nullifier : List Fr254) : List Fr254 :=
  List.replicate 40 0 ++ (commitment ++ nullifier)

/-- The leaf `x` in the first subtree of an empty tree. -/
def firstElements (x : Fr254) : List Fr254 :=
  List.replicate (2 * commitmentTreeHeight) 0 ++ x :: List.replicate 7 0

/-- An empty subtree beside the one with the root `y`. -/
def nextElements (y : Fr254) : List Fr254 :=
  1 :: y :: List.replicate (2 * commitmentTreeHeight + 6) 0

/-- The insertion of a leaf into an empty tree. -/
def firstInsertion (x : Fr254) : Insertion := insertionOf squareHash (firstElements x)

/-- The insertion of an empty subtree behind it. -/
def nextInsertion (x : Fr254) : Insertion :=
  insertionOf squareHash (nextElements (subtreeRoot squareHash (x :: List.replicate 7 0)))

theorem slice_halfElements {commitment nullifier : List Fr254} (hc : commitment.length = 66)
    (hn : nullifier.length = 66) :
    ExtraPis.slice 0 3 66 66 (halfElements commitment nullifier) =
      ⟨fun _ => 0, fun _ => [0, 0, 0], fun _ => 0, commitment, nullifier⟩ := by
  have hget : ∀ i < 40, (halfElements commitment nullifier).getD i 0 = 0 := by
    intro i hi
    rw [halfElements, List.getD_append _ _ _ _ (by rwa [List.length_replicate]),
      List.getD_replicate _ hi]
  have hproof : ∀ i : Fin 8, ((halfElements commitment nullifier).drop (8 + i * 4)).take 3 =
      [0, 0, 0] := by
    intro i
    rw [halfElements, List.drop_append_of_le_length (by rw [List.length_replicate]; omega),
      List.drop_replicate, List.take_append_of_le_length (by rw [List.length_replicate]; omega),
      List.take_replicate, Nat.min_eq_left (by omega)]
    rfl
  have hbehind : (halfElements commitment nullifier).drop 40 = commitment ++ nullifier := by
    rw [halfElements, List.drop_left' List.length_replicate]
  have hlast : (halfElements commitment nullifier).drop 106 = nullifier := by
    rw [show 106 = 40 + 66 from rfl, ← List.drop_drop, hbehind, List.drop_left' hc]
  unfold ExtraPis.slice
  congr 1
  · exact funext fun i => hget i (by omega)
  · exact funext hproof
  · exact funext fun i => hget _ (by omega)
  · exact (congrArg (List.take 66) hbehind).trans (List.take_left' hc)
  · exact (congrArg (List.take 66) hlast).trans (List.take_of_length_le hn.le)

/-- Both halves of what is provided for a base circuit. -/
theorem provided_halves {c n c' n' : List Fr254} (hc : c.length = 66) (hn : n.length = 66)
    (hc' : c'.length = 66) (hn' : n'.length = 66)
    (hmeet : (insertionOf squareHash c').oldRoot = (insertionOf squareHash c).newRoot)
    (hmeet' : (insertionOf squareHash n').oldRoot = (insertionOf squareHash n).newRoot) :
    Provided (appendLibrary squareHash) (insertionOf squareHash) (insertionOf squareHash) 3 66 66
      (halfElements c n ++ halfElements c' n')
      ⟨fun _ => 0, fun _ => [0, 0, 0], fun _ => 0, c, n⟩
      ⟨fun _ => 0, fun _ => [0, 0, 0], fun _ => 0, c', n'⟩ := by
  have hlength : ∀ {c n : List Fr254}, c.length = 66 → n.length = 66 →
      (halfElements c n).length = 172 := by
    intro c n hc hn
    rw [halfElements, List.length_append, List.length_append, hc, hn, List.length_replicate]
  have hhalf : (halfElements c n ++ halfElements c' n').length / 2 = 172 := by
    rw [List.length_append, hlength hc hn, hlength hc' hn']
  have hroot : foldPath (nodeHash squareHash) [⟨decide ((0 : Fr254) = 1), 0⟩] 0 = 0 := by
    decide +kernel
  have hfits : ∀ c n : List Fr254, ExtraPis.Fits (appendLibrary squareHash)
      ⟨fun _ => 0, fun _ => [0, 0, 0], fun _ => 0, c, n⟩ := fun c n i => ⟨_, rfl, hroot⟩
  refine ⟨by rw [hhalf]; decide, ?_, ?_, hfits c n, hfits c' n', ⟨hmeet, hmeet'⟩⟩
  · rw [hhalf, List.take_left' (hlength hc hn), slice_halfElements hc hn]
  · rw [hhalf, List.drop_left' (hlength hc hn), slice_halfElements hc' hn']

/-- The public inputs of a transfer with the fee 5. -/
def transferInputs (i : Fin 18) : Fr254 :=
  ((![5, 0, 0, 0, 0, 7, 0, 0, 0, 11, 0, 0, 0, 1, 2, 3, 4, 1] : Fin 18 → ℕ) i : Fr254)

/-- Public inputs of a transaction of padding. -/
def paddingInputs : Fin 18 → Fr254 := 0

/-- A transfer and padding. -/
def sampleTransactions : List (Fin 18 → Fr254) := transferInputs :: List.replicate 15 paddingInputs

/-- The leaf `x` in the first subtree, and empty subtrees behind it. -/
def sampleElements (x : Fr254) (i : Fin 4) : List Fr254 :=
  if i = 0 then firstElements x else nextElements (subtreeRoot squareHash (x :: List.replicate 7 0))

/-- The insertions of a block that inserts `x`. -/
def sampleInsertions (x : Fr254) : List Insertion := firstInsertion x :: List.replicate 7 (nextInsertion x)

/-- The root of the tree with the leaf `x`. -/
def rootOf (x : Fr254) : Fr254 := (firstInsertion x).newRoot

theorem length_sampleElements (x : Fr254) (i : Fin 4) : (sampleElements x i).length = 66 := by
  fin_cases i <;> rfl

/-- The roots of the insertions. -/
structure RootsOf (x : Fr254) : Prop where
  first : (firstInsertion x).oldRoot = 0
  next : (nextInsertion x).oldRoot = rootOf x
  last : (nextInsertion x).newRoot = rootOf x

theorem rootsOf_seven : RootsOf 7 :=
  ⟨by decide +kernel, by decide +kernel, by decide +kernel⟩

theorem rootsOf_eleven : RootsOf 11 :=
  ⟨by decide +kernel, by decide +kernel, by decide +kernel⟩

theorem RootsOf.meet {x : Fr254} (h : RootsOf x) (i : Fin 4) :
    (nextInsertion x).oldRoot = (insertionOf squareHash (sampleElements x i)).newRoot := by
  by_cases hi : i = 0
  · rw [sampleElements, if_pos hi]
    exact h.next
  · rw [sampleElements, if_neg hi]
    exact h.next.trans h.last.symm

/-- The first part starts from the empty tree, the others from the root behind it. -/
theorem RootsOf.start {x : Fr254} (h : RootsOf x) (i : Fin 4) :
    (insertionOf squareHash (sampleElements x i)).oldRoot = if i = 0 then 0 else rootOf x := by
  by_cases hi : i = 0
  · rw [sampleElements, if_pos hi, if_pos hi]
    exact h.first
  · rw [sampleElements, if_neg hi, if_neg hi]
    exact h.next

/-- The public inputs of the four parts. -/
def samplePart (i : Fin 4) : Fin 4 → Fin 18 → Fr254 :=
  if i = 0 then ![transferInputs, paddingInputs, paddingInputs, paddingInputs] else
    fun _ => paddingInputs

/-- **A block with a transfer**: its fee is 5, and it inserts a commitment and a nullifier into empty
trees. -/
theorem exists_sample_block (sha256 : Bytes → U256) :
    ∃ out, RollupBlock .byValue sha256 (appendLibrary squareHash) 3 0 sampleTransactions out
        (sampleInsertions 7) (sampleInsertions 11) [⟨false, 0⟩] ∧
      (out 0).val = 5 ∧ ![out 2, out 3, out 4, out 5, out 6, out 7] =
        ![0, rootOf 7, 0, rootOf 11, 0, rootOf 7 * rootOf 7] := by
  have hparts : ∀ i : Fin 4, ∃ out, Part .byValue sha256 (appendLibrary squareHash) 0
      (List.ofFn (samplePart i)) out
      [insertionOf squareHash (sampleElements 7 i), nextInsertion 7]
      [insertionOf squareHash (sampleElements 11 i), nextInsertion 11] ∧
      ![out 0, out 1, out 2, out 3] = ![if i = 0 then 0 else rootOf 7, rootOf 7,
        if i = 0 then 0 else rootOf 11, rootOf 11] := by
    intro i
    obtain ⟨out, hpart, hroots⟩ := exists_part_zero appendLibrary_makes
      (provided_halves (length_sampleElements 7 i) (length_sampleElements 11 i) rfl rfl
        (rootsOf_seven.meet i) (rootsOf_eleven.meet i)) (samplePart i)
    refine ⟨out, hpart, ?_⟩
    rw [← rootsOf_seven.start i, ← rootsOf_eleven.start i]
    nth_rewrite 1 [← rootsOf_seven.last]
    nth_rewrite 1 [← rootsOf_eleven.last]
    exact hroots
  choose o hpart hroots using hparts
  have hstart : ∀ i, i ≠ 0 → o i 0 = rootOf 7 := fun i hi => (congrFun (hroots i) 0).trans (if_neg hi)
  have hend : ∀ i, o i 1 = rootOf 7 := fun i => congrFun (hroots i) 1
  have hstart' : ∀ i, i ≠ 0 → o i 2 = rootOf 11 := fun i hi =>
    (congrFun (hroots i) 2).trans (if_neg hi)
  have hend' : ∀ i, o i 3 = rootOf 11 := fun i => congrFun (hroots i) 3
  have hadjoin : Adjoin o :=
    ⟨⟨(hend 0).trans (hstart 1 (by decide)).symm, (hend 1).trans (hstart 2 (by decide)).symm,
      (hend 2).trans (hstart 3 (by decide)).symm⟩,
      (hend' 0).trans (hstart' 1 (by decide)).symm, (hend' 1).trans (hstart' 2 (by decide)).symm,
      (hend' 2).trans (hstart' 3 (by decide)).symm⟩
  have hblock : RollupBlock .byValue sha256 (appendLibrary squareHash) 3 0 sampleTransactions
      (deciderValues .byValue sha256 (appendLibrary squareHash) o [⟨false, 0⟩])
      (sampleInsertions 7) (sampleInsertions 11) [⟨false, 0⟩] :=
    RollupBlock.of_adjoin appendLibrary_readsPaths hpart hadjoin rfl
  refine ⟨_, hblock, ?_, ?_⟩
  · obtain ⟨haccounts, -⟩ := hblock.accounts (TreeLibrary.enforces_true _)
    have hsum : (sampleTransactions.map fun t => (t 0).val).sum = 5 := by decide +kernel
    rw [← hsum]
    exact haccounts.fees (by rw [hsum]; decide +kernel)
  · have hzero : foldPath (nodeHash squareHash) [⟨false, 0⟩] 0 = 0 := by decide +kernel
    have hnew : foldPath (nodeHash squareHash) [⟨false, 0⟩] (o 3 1) = rootOf 7 * rootOf 7 := by
      rw [hend]
      exact add_zero _
    have hfirst : o 0 0 = 0 := congrFun (hroots 0) 0
    have hfirst' : o 0 2 = 0 := congrFun (hroots 0) 2
    change ![o 0 0, o 3 1, o 0 2, o 3 3, _, _] = _
    rw [hfirst, hend, hfirst', hend', ← hzero, ← hnew]
    rfl

/-- The parts of a block with a transfer. -/
theorem rollupBlock_iff_sample : ∃ (out : Fin 8 → Fr254) (ts : Fin 4 → List (Fin 18 → Fr254))
    (o : Fin 4 → Fin 6 → Fr254) (cs ns : Fin 4 → List Insertion),
    (∀ i, Part .byValue (fun bs => bs.length) (appendLibrary squareHash) 0 (ts i) (o i) (cs i) (ns i)) ∧
      Adjoin o ∧ out = deciderValues .byValue (fun bs => bs.length) (appendLibrary squareHash) o
        [⟨false, 0⟩] ∧
      sampleTransactions = concat ts ∧ sampleInsertions 7 = concat cs ∧ sampleInsertions 11 = concat ns ∧
      (out 0).val = 5 := by
  obtain ⟨out, hblock, hfee, -⟩ := exists_sample_block fun bs => bs.length
  obtain ⟨ts, o, cs, ns, hparts, hadjoin, -, hout, hts, hcs, hns⟩ :=
    (rollupBlock_iff appendLibrary_readsPaths).1 hblock
  exact ⟨out, ts, o, cs, ns, hparts, hadjoin, hout, hts, hcs, hns, hfee⟩

end Sample

end Rollup

end Nightfall
