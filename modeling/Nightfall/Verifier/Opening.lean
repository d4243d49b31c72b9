import Mathlib.Algebra.Module.Basic
import Nightfall.Data.BatchOpening
import Nightfall.Verifier.Identity

/-!
# The opening check

`verify_OpeningProof` sums up all commitments, with the scalars of the arrays, and compares one
pairing with another.  If the precompiled contracts compute in a group, and each commitment is the
value of its polynomial at a secret point, then its answer is one equation between these values
(`verifyOpeningProof_iff`).

So a proof that is accepted has the evaluations of its polynomials, and the identity holds for them,
or a challenge or the secret is one of few values; and the quotients of a right proof are accepted
(`verify_iff`).
-/

namespace Nightfall

namespace Verifier

open Evm UltraPlonk Merging
open Node (element)

/-! ### Sums of multiples -/

section

variable {A : Type} [AddCommGroup A] {pre : Precompiles} {point : G1Point → A}

/-- The precompiled contracts for points compute in a group; `negate_G1Point` reduces the coordinates
before it negates one of them. -/
structure Precompiles.Reads (pre : Precompiles) (point : G1Point → A) : Prop where
  add : ∀ p q r, pre.ecAdd p q = some r → point r = point p + point q
  mul : ∀ p s r, pre.ecMul p s = some r → point r = s.toNat • point p
  neg : ∀ p, (negateG1Point p).OnCurve → point (negateG1Point p) = -point p

theorem scalarMul_eq_ok {p r : G1Point} {s : U256} :
    scalarMul pre p s = .ok r ↔ pre.ecMul p s = some r := by
  unfold scalarMul
  cases pre.ecMul p s <;> simp

theorem add_eq_ok {p q r : G1Point} : Verifier.add pre p q = .ok r ↔ pre.ecAdd p q = some r := by
  unfold Verifier.add
  cases pre.ecAdd p q <;> simp

theorem foldlM_multiScalarMul (h : pre.Reads point) {rest : List (G1Point × U256)}
    {r result : G1Point}
    (hok : rest.foldlM (fun r term => do Verifier.add pre r (← scalarMul pre term.1 term.2)) r =
      .ok result) :
    point result = point r + Merging.total (fun base scalar => scalar.toNat • point base) rest := by
  induction rest generalizing r with
  | nil =>
    obtain rfl : r = result := Except.ok.inj hok
    simp [Merging.total]
  | cons term rest ih =>
    rw [List.foldlM_cons] at hok
    obtain ⟨sum, hsum, hok⟩ := bind_eq_ok.1 hok
    obtain ⟨multiple, hmultiple, hsum⟩ := bind_eq_ok.1 hsum
    rw [ih hok, h.add _ _ _ (add_eq_ok.1 hsum), h.mul _ _ _ (scalarMul_eq_ok.1 hmultiple)]
    simp [Merging.total, add_assoc]

/-- **A sum of multiples** is the one of the group. -/
theorem multiScalarMul_spec (h : pre.Reads point) {bases : List G1Point} {scalars : List U256}
    {result : G1Point} (hok : multiScalarMul pre bases scalars = .ok result) :
    point result = scalarSum point bases scalars := by
  obtain ⟨_, -, hok⟩ := bind_eq_ok.1 hok
  rw [scalarSum]
  cases hterms : bases.zip scalars with
  | nil =>
    rw [hterms] at hok
    cases hok
  | cons term rest =>
    rw [hterms] at hok
    obtain ⟨first, hfirst, hok⟩ := bind_eq_ok.1 hok
    rw [foldlM_multiScalarMul h hok, h.mul _ _ _ (scalarMul_eq_ok.1 hfirst)]
    simp [Merging.total]

end

/-! ### Commitments -/

section

variable {A : Type} [AddCommGroup A] [Module Fr254 A] {pre : Precompiles} {point : G1Point → A}
  {poly : G1Point → Polynomial Fr254} {tau : Fr254} {g : A}

theorem toNat_smul (s : U256) (a : A) : s.toNat • a = element s • a :=
  (Nat.cast_smul_eq_nsmul Fr254 s.toNat a).symm

theorem modulus_smul (a : A) : frModulus • a = 0 := by
  rw [← Nat.cast_smul_eq_nsmul Fr254, ZMod.natCast_self, zero_smul]

/-- A combination of commitments is a commitment to the combination. -/
theorem scalarSum_eq (hcommit : ∀ base, point base = (poly base).eval tau • g)
    (terms : List (U256 × G1Point)) :
    scalarSum point (terms.map Prod.snd) (terms.map Prod.fst) =
      (combine poly terms).eval tau • g := by
  rw [scalarSum, eval_combine]
  induction terms with
  | nil => simp [Merging.total]
  | cons t terms ih =>
    simp only [List.map_cons, List.zip_cons_cons, Merging.total, List.sum_cons, add_smul] at ih ⊢
    rw [ih, toNat_smul, hcommit, smul_smul]

theorem computeA_spec (h : pre.Reads point)
    (hcommit : ∀ base, point base = (poly base).eval tau • g) {chal : ChallengeTranscript}
    {proof : Proof} {a : G1Point} (hok : computeA pre chal proof = .ok a) :
    point a = ((poly proof.openingProof).eval tau +
      element chal.u * (poly proof.shiftedOpeningProof).eval tau) • g := by
  have hterms := scalarSum_eq hcommit
    [((1 : U256), proof.openingProof), (chal.u, proof.shiftedOpeningProof)]
  rw [multiScalarMul_spec h hok]
  refine hterms.trans ?_
  simp only [eval_combine, List.map_cons, List.map_nil, List.sum_cons, List.sum_nil, element_one,
    one_mul, add_zero]

/-- `compute_B`: three of the empty slots are filled. -/
theorem computeB_spec (h : pre.Reads point)
    (hcommit : ∀ base, point base = (poly base).eval tau • g) {chal : ChallengeTranscript}
    {proof : Proof} {vk : VerificationKey} {info : PcsInfo} {front : List (U256 × G1Point)}
    (hlength : info.commScalars.length = 58 ∧ info.commBases.length = 58)
    (hfront : front.length = 54)
    (hslots : info.commScalars.zip info.commBases = front ++ List.replicate 4 (0, .zero))
    {b : G1Point} (hok : computeB pre chal proof vk info = .ok b) (hb : b.OnCurve) :
    point b = -((combine poly front).eval tau +
      element chal.zeta * (poly proof.openingProof).eval tau +
      element chal.u * element info.nextEvalPoint * (poly proof.shiftedOpeningProof).eval tau -
      element info.eval * (poly vk.openKeyG).eval tau) • g := by
  have hscalars : info.commScalars = front.map Prod.fst ++ [0, 0, 0, 0] := by
    have hfst := congrArg (List.map Prod.fst) hslots
    rwa [List.map_fst_zip (by omega), List.map_append, List.map_replicate] at hfst
  have hbases : info.commBases = front.map Prod.snd ++ [.zero, .zero, .zero, .zero] := by
    have hsnd := congrArg (List.map Prod.snd) hslots
    rwa [List.map_snd_zip (by omega), List.map_append, List.map_replicate] at hsnd
  have hset {α : Type} {l : List α} (hl : l.length = 54) (w x y z : α) (w' x' y' : α) :
      (((l ++ [w, x, y, z]).set 54 w').set 55 x').set 56 y' = l ++ [w', x', y', z] := by
    rw [List.set_append_right _ _ (by omega), List.set_append_right _ _ (by omega),
      List.set_append_right _ _ (by omega), hl]
    rfl
  set last : List (U256 × G1Point) := [(chal.zeta, proof.openingProof),
    (mulmod chal.u info.nextEvalPoint rMod, proof.shiftedOpeningProof),
    (negateFr info.eval, vk.openKeyG), (0, .zero)] with hlast
  have hlen : ((front ++ last).map Prod.snd).length = ((front ++ last).map Prod.fst).length := by
    rw [List.length_map, List.length_map]
  obtain ⟨accumulated, haccumulated, hok⟩ := bind_eq_ok.1 hok
  obtain ⟨sum, hsum, hok⟩ := bind_eq_ok.1 hok
  obtain rfl : negateG1Point sum = b := Except.ok.inj hok
  -- the sum over merged bases is the one over all slots
  have hall : accumulateScalarWithSameBase ((front ++ last).map Prod.snd)
      ((front ++ last).map Prod.fst) = .ok accumulated := by
    rw [← haccumulated]
    simp only [Commitments.set, hscalars, hbases, hset (List.length_map _ ▸ hfront), hlast,
      List.map_append, List.map_cons, List.map_nil]
  rw [accumulateScalarWithSameBase_eq hlen] at hall
  obtain rfl := Except.ok.inj hall
  have hpoint := multiScalarMul_spec h hsum
  have hmerged (terms : List (G1Point × U256)) : (keys terms).zip (terms.map Prod.snd) = terms := by
    rw [keys, List.zip_map']
    exact List.map_id _
  rw [scalarSum, hmerged, total_merge fun base s t => addScalars_nsmul modulus_smul s t _] at hpoint
  have htotal := scalarSum_eq hcommit (front ++ last)
  rw [scalarSum] at htotal
  have hsplit : (combine poly (front ++ last)).eval tau = (combine poly front).eval tau +
      (combine poly last).eval tau := by
    simp only [eval_combine, List.map_append, List.sum_append]
  rw [h.neg _ hb, hpoint, htotal, neg_smul, hsplit, eval_combine _ _ last, hlast]
  simp only [List.map_cons, List.map_nil, List.sum_cons, List.sum_nil, element_mulmod,
    element_negateFr, element_zero, zero_mul, add_zero]
  ring_nf

/-! ### The equation -/

/-- The commitments that are opened at the challenge, or at the next point. -/
def openingsAt (proof : Proof) (vk : VerificationKey) (next : Bool) : List Opening :=
  (openings proof vk).filter fun o => o.next == next

/-- A polynomial, less the value that is claimed for it. -/
noncomputable def Opening.claim (poly : G1Point → Polynomial Fr254) (o : Opening) :
    Polynomial Fr254 :=
  poly o.base - Polynomial.C (element o.value)

/-- What the two opening proofs of a proof claim: the linearisation and its constant come first. -/
noncomputable def openingClaims (poly : G1Point → Polynomial Fr254) (chal : ChallengeTranscript)
    (proof : Proof) (vk : VerificationKey) (linear : List (U256 × G1Point)) (constant : Fr254) :
    BatchOpening.Claims Fr254 where
  zeta := element chal.zeta
  next := element chal.zeta * element vk.groupGen
  current := (combine poly linear + Polynomial.C constant) ::
    (openingsAt proof vk false).map (Opening.claim poly)
  shifted := (openingsAt proof vk true).map (Opening.claim poly)
  opening := poly proof.openingProof
  shiftedOpening := poly proof.shiftedOpeningProof

/-- The claims are made before the last two challenges are drawn. -/
theorem openingClaims_of_later {poly : G1Point → Polynomial Fr254} {chal : ChallengeTranscript}
    {proof : Proof} {vk : VerificationKey} {evalData : EvalData} {domain : EvalDomain}
    {inputs : List U256} {constant : Fr254} (v u : U256) :
    computeLinPolyConstantTerm { chal with v := v, u := u }.fill proof evalData domain inputs =
        computeLinPolyConstantTerm chal.fill proof evalData domain inputs ∧
      openingClaims poly { chal with v := v, u := u } proof vk
          (linearTerms { chal with v := v, u := u }.fill proof evalData domain vk) constant =
        openingClaims poly chal proof vk (linearTerms chal.fill proof evalData domain vk) constant :=
  ⟨rfl, rfl⟩

/-- The weights are the powers of the first challenge, apart from the slots of the next point. -/
theorem sum_openingWeights (v u : Fr254) (value : Opening → Fr254) (proof : Proof)
    (vk : VerificationKey) :
    (((openingWeights v u).zip (openings proof vk)).map fun t => t.1 * value t.2).sum =
      v * BatchOpening.horner v ((openingsAt proof vk false).map value) +
        u * BatchOpening.horner v ((openingsAt proof vk true).map value) := by
  have hrange11 : List.range 11 = [0, 1, 2, 3, 4, 5, 6, 7, 8, 9, 10] := rfl
  have hrange9 : List.range 9 = [0, 1, 2, 3, 4, 5, 6, 7, 8] := rfl
  have hrange6 : List.range 6 = [0, 1, 2, 3, 4, 5] := rfl
  have hfalse : (false == true) = false := rfl
  have htrue : (true == false) = false := rfl
  simp only [openingWeights, openingsAt, openings, hrange11, hrange9, hrange6, List.map_cons,
    List.map_nil, List.cons_append, List.nil_append, List.zip_cons_cons, List.zip_nil_right,
    List.sum_cons, List.sum_nil, List.filter_cons, List.filter_nil, BEq.rfl, hfalse, htrue, if_true,
    if_false, Bool.false_eq_true, BatchOpening.horner_cons, BatchOpening.horner_nil]
  ring

/-- The pairing with the two points of a key compares the second point with a secret multiple of the
first one. -/
def Precompiles.PairsWith (pre : Precompiles) (point : G1Point → A) (vk : VerificationKey)
    (tau : Fr254) : Prop :=
  ∀ (p q : G1Point) (out : Bool), p.OnCurve → q.OnCurve →
    pre.ecPairing [p.x, p.y, vk.betaH.x0, vk.betaH.x1, vk.betaH.y0, vk.betaH.y1, q.x, q.y, vk.h.x0,
      vk.h.x1, vk.h.y0, vk.h.y1] = some out → (out = true ↔ tau • point p + point q = 0)

theorem pairingProd2_spec {vk : VerificationKey} (hpair : pre.PairsWith point vk tau)
    {a b : G1Point} {out : Bool} (hok : pairingProd2 pre a vk.betaH b vk.h = .ok out) :
    b.OnCurve ∧ (out = true ↔ tau • point a + point b = 0) := by
  obtain ⟨_, ha, hok⟩ := bind_eq_ok.1 hok
  obtain ⟨_, hb, hok⟩ := bind_eq_ok.1 hok
  refine ⟨validateG1Point_eq_ok.1 hb, ?_⟩
  split at hok
  · rename_i result hresult
    obtain rfl : result = out := Except.ok.inj hok
    exact hpair a b _ (validateG1Point_eq_ok.1 ha) (validateG1Point_eq_ok.1 hb) hresult
  · cases hok

/-- **The opening check** asks whether the secret is a root of the defect. -/
theorem verifyOpeningProof_spec (h : pre.Reads point) {vk : VerificationKey}
    (hpair : pre.PairsWith point vk tau) (hgen : point vk.openKeyG ≠ 0)
    (hcommit : ∀ base, point base = (poly base).eval tau • point vk.openKeyG)
    {chal : ChallengeTranscript} {proof : Proof} {info : PcsInfo} {linear : List (U256 × G1Point)}
    {constant : Fr254} (hinfo : info.Holds chal proof vk linear constant) {out : Bool}
    (hok : verifyOpeningProof pre chal proof vk info = .ok out) :
    out = true ↔ ((openingClaims poly chal proof vk linear constant).defect (element chal.v)
      (element chal.u)).eval tau = 0 := by
  obtain ⟨a, ha, hok⟩ := bind_eq_ok.1 hok
  obtain ⟨b, hb, hok⟩ := bind_eq_ok.1 hok
  obtain ⟨hcurve, hout⟩ := pairingProd2_spec hpair hok
  have hscalars : (openingScalars chal).length = 27 := rfl
  have hfront : (linear ++ (openingScalars chal).zip ((openings proof vk).map Opening.base)).length =
      54 := by
    simp [hinfo.length_linear, hscalars, length_openings]
  have hone : (poly vk.openKeyG).eval tau = 1 := by
    have hsmul : ((poly vk.openKeyG).eval tau - 1) • point vk.openKeyG = 0 := by
      rw [sub_smul, one_smul, ← hcommit, sub_self]
    exact sub_eq_zero.1 ((smul_eq_zero.1 hsmul).resolve_right hgen)
  have hpointB := computeB_spec h hcommit ⟨hinfo.length_scalars, hinfo.length_bases⟩ hfront
    hinfo.slots hb hcurve
  -- the slots behind the linearisation have the weights
  have hslots : (combine poly (linear ++ (openingScalars chal).zip
      ((openings proof vk).map Opening.base))).eval tau = (combine poly linear).eval tau +
        (((openingWeights (element chal.v) (element chal.u)).zip (openings proof vk)).map
          fun t => t.1 * (poly t.2.base).eval tau).sum := by
    rw [← map_openingScalars, List.zip_map_left, List.zip_map_right, eval_combine, eval_combine,
      List.map_append, List.sum_append, List.map_map, List.map_map]
    rfl
  have heval := hinfo.eval
  rw [sum_openingWeights _ _ fun o => element o.value] at heval
  rw [hslots, sum_openingWeights _ _ fun o => (poly o.base).eval tau, hinfo.nextEvalPoint, hone,
    mul_one, eq_sub_of_add_eq heval] at hpointB
  have hclaims (next : Bool) : ((openingsAt proof vk next).map (Opening.claim poly)).map
      (Polynomial.eval tau) = (openingsAt proof vk next).map
        fun o => (poly o.base).eval tau - element o.value := by
    simp [Opening.claim, Function.comp_def]
  rw [hout, computeA_spec h hcommit ha, hpointB, smul_smul, ← add_smul,
    smul_eq_zero, or_iff_left hgen, ← neg_eq_zero]
  simp only [BatchOpening.Claims.eval_defect, BatchOpening.Claims.parts, openingClaims,
    BatchOpening.eval_rest, List.map_cons, hclaims, BatchOpening.horner_cons,
    BatchOpening.horner_nil, BatchOpening.horner_map_sub, Polynomial.eval_add, Polynomial.eval_C]
  refine iff_of_eq (congrArg (· = 0) ?_)
  ring

/-- What is claimed is right if the evaluations are those of the polynomials and the linearisation
has no remainder. -/
theorem right_openingClaims_iff {chal : ChallengeTranscript} {proof : Proof} {vk : VerificationKey}
    {linear : List (U256 × G1Point)} {constant : Fr254} :
    (openingClaims poly chal proof vk linear constant).Right ↔
      Evaluated proof (valuesAt poly vk proof (element chal.zeta))
        (valuesAt poly vk proof (element chal.zeta * element vk.groupGen)) ∧
      (combine poly linear).eval (element chal.zeta) + constant = 0 := by
  have hclaim (o : Opening) (x : Fr254) :
      (o.claim poly).eval x = 0 ↔ element o.value = (poly o.base).eval x := by
    rw [Opening.claim, Polynomial.eval_sub, Polynomial.eval_C, sub_eq_zero, eq_comm]
  rw [evaluated_iff]
  simp only [BatchOpening.Claims.Right, openingClaims, List.forall_mem_cons, List.forall_mem_map,
    hclaim, openingsAt, List.mem_filter, beq_iff_eq, Polynomial.eval_add, Polynomial.eval_C]
  constructor
  · rintro ⟨⟨hlinear, hcurrent⟩, hshifted⟩
    refine ⟨fun o ho => ?_, hlinear⟩
    cases hnext : o.next with
    | false => simpa [Opening.point, hnext] using hcurrent o ⟨ho, hnext⟩
    | true => simpa [Opening.point, hnext] using hshifted o ⟨ho, hnext⟩
  · rintro ⟨hopenings, hlinear⟩
    refine ⟨⟨hlinear, fun o ho => ?_⟩, fun o ho => ?_⟩
    · simpa [Opening.point, ho.2] using hopenings o ho.1
    · simpa [Opening.point, ho.2] using hopenings o ho.1

/-- No defect has more roots than the degrees allow. -/
theorem card_roots_defect_le {d : ℕ} (hdegree : ∀ base, (poly base).natDegree ≤ d)
    {chal : ChallengeTranscript} {proof : Proof} {vk : VerificationKey}
    {linear : List (U256 × G1Point)} {constant v u : Fr254} :
    ((openingClaims poly chal proof vk linear constant).defect v u).roots.card ≤ d + 1 := by
  have hclaim (o : Opening) : (o.claim poly).natDegree ≤ d := by
    rw [Opening.claim, Polynomial.natDegree_sub_C]
    exact hdegree o.base
  have hlinear : (combine poly linear).natDegree ≤ d := by
    induction linear with
    | nil => simp [combine]
    | cons t linear ih =>
      exact Polynomial.natDegree_add_le_of_degree_le
        ((Polynomial.natDegree_C_mul_le _ _).trans (hdegree t.2)) ih
  refine BatchOpening.Claims.card_roots_defect_le ?_ (List.forall_mem_map.2 fun o _ => hclaim o)
    (hdegree _) (hdegree _)
  refine List.forall_mem_cons.2 ⟨?_, List.forall_mem_map.2 fun o _ => hclaim o⟩
  rw [Polynomial.natDegree_add_C]
  exact hlinear

/-! ### The accumulators -/

/-- The `i`-th word of the accumulators. -/
def accWord (accProof : Bytes) (i : ℕ) : U256 := fromBytesBE ((accProof.drop (i * 32)).take 32)

/-- The secret multiple of each proof is its commitment. -/
def Accumulates (point : G1Point → A) (tau : Fr254) (accProof : Bytes) : Prop :=
  tau • point ⟨accWord accProof 2, accWord accProof 3⟩ =
      point ⟨accWord accProof 0, accWord accProof 1⟩ ∧
    tau • point ⟨accWord accProof 6, accWord accProof 7⟩ =
      point ⟨accWord accProof 4, accWord accProof 5⟩

theorem verifyAccumulation_spec (h : pre.Reads point) {vk : VerificationKey}
    (hpair : pre.PairsWith point vk tau) {accProof : Bytes} {out : Bool}
    (hok : verifyAccumulation pre vk accProof = .ok out) :
    out = true ↔ Accumulates point tau accProof := by
  obtain ⟨_, -, hok⟩ := bind_eq_ok.1 hok
  obtain ⟨res1, hres1, hok⟩ := bind_eq_ok.1 hok
  obtain ⟨res2, hres2, hok⟩ := bind_eq_ok.1 hok
  obtain rfl : (res1 && res2) = out := Except.ok.inj hok
  obtain ⟨hcurve1, hout1⟩ := pairingProd2_spec hpair hres1
  obtain ⟨hcurve2, hout2⟩ := pairingProd2_spec hpair hres2
  rw [h.neg _ hcurve1, ← sub_eq_add_neg, sub_eq_zero] at hout1
  rw [h.neg _ hcurve2, ← sub_eq_add_neg, sub_eq_zero] at hout2
  rw [Bool.and_eq_true, hout1, hout2]
  rfl

/-! ### The answer of the verifier -/

/-- **What an answer of the verifier means.**  If the precompiled contracts compute in a group and
each commitment is the value of its polynomial at a secret point, then a proof is accepted if and
only if the accumulators hold and the secret is a root of the defect of what is claimed.  The claims
are right if and only if the evaluations are those of the polynomials and the identity holds for
them.  They are right if the proof is accepted, unless one of the last two challenges, or the
secret, is one of a few values that don't depend on it (`openingClaims_of_later`), no more secrets
than the degrees of the polynomials and one; and right claims are accepted with their quotients, if
the accumulators hold. -/
theorem verify_iff (hreads : pre.Reads point) {vk : VerificationKey}
    (hpair : pre.PairsWith point vk tau) (hgen : point vk.openKeyG ≠ 0)
    (hcommit : ∀ base, point base = (poly base).eval tau • point vk.openKeyG)
    (hdomain : (newEvalDomain vk).Consistent) (hinv : Canonical vk.groupGenInv)
    {keccak256 : Bytes → U256} {call : VerifyCall} {proof : Proof} {hash : U256}
    {chal : ChallengeTranscript}
    (hproof : proof = deserializeProof (calldataload call.calldata) call.proofBytes.offset)
    (hhash : hash = calldataload call.calldata call.publicInputsHashBytes.offset)
    (hchal : chal = (computeChallengs keccak256 .new vk proof hash).challenges)
    (hzeta : element chal.zeta ≠ 0) (houtside : element chal.zeta ^ vk.domainSize.toNat ≠ 1)
    {out : Bool} (hok : verify pre vk keccak256 call = .ok out) :
    let a := valuesAt poly vk proof (element chal.zeta)
    let b := valuesAt poly vk proof (element chal.zeta * element vk.groupGen)
    let inputs := hash :: List.replicate (vk.numInputs.toNat - 1) 0
    ∃ evalData y, evalDataGen (newEvalDomain vk) chal.zeta inputs = .ok evalData ∧
      computeLinPolyConstantTerm chal.fill proof evalData (newEvalDomain vk) inputs = .ok y ∧
      let claims := openingClaims poly chal proof vk
        (linearTerms chal.fill proof evalData (newEvalDomain vk) vk) (element y)
      let v := element chal.v
      let u := element chal.u
      (out = true ↔ (claims.defect v u).eval tau = 0 ∧
        Accumulates point tau (call.accProof.bytes call.calldata)) ∧
      (claims.Right ↔ Evaluated proof a b ∧
        remainder (fieldChallenges vk chal) (domainValues vk chal.zeta) a b
          (element hash * (domainValues vk chal.zeta).lagrange1) = 0) ∧
      (out = true → claims.Right ∨ v ∈ claims.badV ∨ u ∈ claims.badU v ∨
        tau ∈ (claims.defect v u).roots) ∧
      (claims.badV.card ≤ 26 ∧ (claims.badU v).card ≤ 2 ∧
        ∀ d, (∀ base, (poly base).natDegree ≤ d) → (claims.defect v u).roots.card ≤ d + 1) ∧
      (claims.Right → claims.opening = BatchOpening.horner (Polynomial.C v) claims.current /ₘ
          (Polynomial.X - Polynomial.C claims.zeta) →
        claims.shiftedOpening = BatchOpening.horner (Polynomial.C v) claims.shifted /ₘ
          (Polynomial.X - Polynomial.C claims.next) →
        (out = true ↔ Accumulates point tau (call.accProof.bytes call.calldata))) := by
  intro a b inputs
  rw [verify, verifyWords, ← hproof, ← hhash] at hok
  obtain ⟨_, -, hok⟩ := bind_eq_ok.1 hok
  obtain ⟨_, -, hok⟩ := bind_eq_ok.1 hok
  dsimp only at hok
  -- a key without inputs reverts
  split at hok
  · cases hok
  rw [ok_bind, ← hchal] at hok
  obtain ⟨pcsInfo, hpcsInfo, hok⟩ := bind_eq_ok.1 hok
  obtain ⟨opened, hopened, hok⟩ := bind_eq_ok.1 hok
  obtain ⟨info, evalData, y, hinfoOk, hevalData, hy, hinfo, hidentity⟩ :=
    preparePcsInfo_eq_ok hdomain hinv hzeta houtside proof hash
      (List.replicate (vk.numInputs.toNat - 1) 0)
  obtain rfl : (chal.fill, info) = pcsInfo := Except.ok.inj (hinfoOk.symm.trans hpcsInfo)
  refine ⟨evalData, y, hevalData, hy, ?_⟩
  intro claims v u
  have hholds : info.Holds chal.fill proof vk _ _ :=
    ⟨hinfo.nextEvalPoint, hinfo.length_scalars, hinfo.length_bases, hinfo.length_linear,
      hinfo.slots, hinfo.eval⟩
  have hopening := verifyOpeningProof_spec hreads hpair hgen hcommit hholds hopened
  have hanswer : out = true ↔ (claims.defect v u).eval tau = 0 ∧
      Accumulates point tau (call.accProof.bytes call.calldata) := by
    refine Iff.trans ?_ (and_congr_left' hopening)
    cases opened with
    | false =>
      obtain rfl : false = out := Except.ok.inj hok
      simp
    | true => simpa using verifyAccumulation_spec hreads hpair hok
  have hright : claims.Right ↔ Evaluated proof a b ∧
      remainder (fieldChallenges vk chal) (domainValues vk chal.zeta) a b
        (element hash * (domainValues vk chal.zeta).lagrange1) = 0 := by
    refine right_openingClaims_iff.trans (and_congr_right fun hevaluated => ?_)
    rw [hidentity poly a b rfl hevaluated]
  refine ⟨hanswer, hright, fun hout => BatchOpening.Claims.right_of_eval_defect (hanswer.1 hout).1,
    ⟨claims.card_badV_le, claims.card_badU_le v, fun d hdegree => card_roots_defect_le hdegree⟩,
    fun hclaims hquotient hshifted => ?_⟩
  rw [hanswer, BatchOpening.Claims.defect_eq_zero_of_right hclaims hquotient hshifted,
    Polynomial.eval_zero]
  exact and_iff_right rfl

end

/-! ### An accepted proof -/

section Sample

/-- Points, and the multiples of the generator that they are: zero, the generator, the two opening
proofs, and the points that the opening check computes on its way. -/
def sampleMultiples : List (G1Point × ℕ) :=
  [(.zero, 0), (sampleG, 1),
    (sampleOpening, 12767583399426353450328999859112168330311492079777122110833246082202888548412),
    (sampleShiftedOpening,
      12797043126139880081752211625011645116920372887824671930970708089727145597564),
    (⟨9924647639383955546704732296449843789353561770886974497026706865189616788128,
      7251064526083461606928509763132981121062750458950470247368552649638979085574⟩,
      18474912371804086938723039089961897439160276297277993692474844817402149664601),
    (⟨3804409333249726016412897357068953037683726082166162596730853491698405516954,
      74203547814455865518421314435970567965114446190018767136550710450189096138⟩,
      9354252899391165166805633203816790680923403976639081459609886713029229717396),
    (⟨6933584068635101197873941153966244470232728745637451134592553610972799476746,
      8876973476622609982581017218846161044788561999378062089714564587312548975241⟩,
      1686536398217781823489874010519496467984764348108353047288659245277491083240),
    (⟨18890999198635528367729696545182882864428004109026491529265832604823462470386,
      13712492860544696594944241533140733451047555579299514374903572607714560199417⟩,
      7939954629292069129380841187813024648827830631620403947597145480716838528747),
    (⟨17874193682231085512618203132848076922037592452991889835415299738060204654323,
      7411777970071315717919224758788943025388567012756286976491625604555065442991⟩,
      21616004743720589436181323750741544652659173397326358808422286173610708601026),
    (⟨21341850757367541195034097768607813011283972350068521124147909887948041134870,
      12472051068228631941053593288313360789121539030159090387809482288759961621042⟩,
      9626491027509850952870715198332521116812594979728756994885804725994329611987)]

/-- The point with an index. -/
def samplePointAt (i : ℕ) : G1Point := (sampleMultiples.getD i (.zero, 0)).1

/-- A point, or its negation, as a multiple of the generator. -/
def samplePoint (p : G1Point) : Fr254 :=
  match sampleMultiples.lookup (negateG1Point p) with
  | some k => -(k : Fr254)
  | none =>
    match sampleMultiples.lookup (negateG1Point (negateG1Point p)) with
    | some k => (k : Fr254)
    | none => 0

/-- The sums of the opening check, by index. -/
def sampleSums : List (ℕ × ℕ × ℕ) := [(2, 4, 5), (6, 7, 9), (9, 8, 5), (5, 0, 5)]

/-- The multiples of the opening check, by index. -/
def sampleProducts : List (ℕ × U256 × ℕ) :=
  [(2, 1, 2), (3, 3697379612395559977301162004789935421304738206346518026263657882897245732690, 4),
    (1, 1686536398217781823489874010519496467984764348108353047288659245277491083240, 6),
    (2, 16453554167954977968259961002424433432405825568765388853005347059186694991287, 7),
    (3, 20980061510462137392251541508772253725791894684285039838128157350497879257259, 8),
    (0, 0, 0)]

/-- The precompiled contracts, on these inputs. -/
def samplePrecompiles : Precompiles where
  ecAdd p q := (sampleSums.find? fun e => samplePointAt e.1 = p ∧ samplePointAt e.2.1 = q).map
    fun e => samplePointAt e.2.2
  ecMul p s := (sampleProducts.find? fun e => samplePointAt e.1 = p ∧ e.2.1 = s).map
    fun e => samplePointAt e.2.2
  ecPairing words := ([5, 1].find? fun i =>
      let p := samplePointAt i
      let q := negateG1Point p
      [p.x, p.y, sampleH.x0, sampleH.x1, sampleH.y0, sampleH.y1, q.x, q.y, sampleH.x0, sampleH.x1,
        sampleH.y0, sampleH.y1] = words).map fun _ => true

/-- The words of the call: accumulators, the proof, and the public input. -/
def sampleWords : List U256 :=
  [1, 2, 1, 2, 1, 2, 1, 2] ++ (sampleProof sampleShiftedOpening).words ++ [7]

theorem length_sampleWords : (abiEncode sampleWords).length = 2304 := length_abiEncode sampleWords

theorem le_length_sampleWords {m n : ℕ} (h : m + n ≤ 2304) :
    m + n ≤ (abiEncode sampleWords).length := h.trans_eq length_sampleWords.symm

/-- A call with these words. -/
def sampleCall : VerifyCall where
  calldata := abiEncode sampleWords
  accProof := ⟨0, 256⟩
  proofBytes := ⟨256, 2016⟩
  publicInputsHashBytes := ⟨2272, 32⟩
  accProof_le := le_length_sampleWords (by decide)
  proofBytes_le := le_length_sampleWords (by decide)
  publicInputsHashBytes_le := le_length_sampleWords (by decide)

theorem deserializeProof_sampleCall :
    deserializeProof (calldataload sampleCall.calldata) sampleCall.proofBytes.offset =
      sampleProof sampleShiftedOpening := by
  refine Proof.words_injective ?_
  have hload : ∀ i ∈ List.range 63, calldataload (abiEncode sampleWords) (256 + i * 0x20) =
      (sampleProof sampleShiftedOpening).words.getD i 0 := by
    intro i hi
    rw [List.mem_range] at hi
    have hlen : sampleWords.length = 72 := rfl
    have hoffset : 256 + i * 0x20 = 32 * (8 + i) := by omega
    rw [hoffset, calldataload_abiEncode sampleWords (by omega)]
    interval_cases i <;> rfl
  rw [words_deserializeProof]
  exact (List.map_congr_left hload).trans rfl

theorem hash_sampleCall :
    calldataload sampleCall.calldata sampleCall.publicInputsHashBytes.offset = 7 :=
  calldataload_abiEncode sampleWords (show 71 < sampleWords.length by decide)

theorem accProof_sampleCall : sampleCall.accProof.bytes sampleCall.calldata =
    abiEncode [1, 2, 1, 2, 1, 2, 1, 2] := by
  have hwords : abiEncode sampleWords = abiEncode [1, 2, 1, 2, 1, 2, 1, 2] ++
      abiEncode ((sampleProof sampleShiftedOpening).words ++ [7]) := by
    rw [← abiEncode_append, ← List.append_assoc]
    rfl
  have hlength : (abiEncode [1, 2, 1, 2, 1, 2, 1, 2]).length = 256 := length_abiEncode _
  have hbytes : sampleCall.accProof.bytes sampleCall.calldata =
      ((abiEncode sampleWords).drop 0).take 256 := rfl
  rw [hbytes, List.drop_zero, hwords, List.take_left' hlength]

theorem verifyWords_sample : verifyWords samplePrecompiles (sampleProof sampleShiftedOpening) sampleVk
    sampleKeccak 7 (abiEncode [1, 2, 1, 2, 1, 2, 1, 2]) = .ok true := by
  decide +kernel

theorem verify_sampleCall : verify samplePrecompiles sampleVk sampleKeccak sampleCall = .ok true := by
  rw [verify, deserializeProof_sampleCall, hash_sampleCall, accProof_sampleCall]
  exact verifyWords_sample

theorem umod_pMod {a : U256} (ha : a.toNat < fqModulus) : a % pMod = a := by
  refine BitVec.eq_of_toNat_eq ?_
  rw [BitVec.toNat_umod, toNat_pMod, Nat.mod_eq_of_lt ha]

theorem toNat_pMod_sub {a : U256} (ha : a.toNat < fqModulus) :
    (pMod - a).toNat = fqModulus - a.toNat := by
  have hle : a ≤ pMod := by
    rw [BitVec.le_def, toNat_pMod]
    exact ha.le
  rw [BitVec.toNat_sub_of_le hle, toNat_pMod]

theorem negateG1Point_mk {x y : U256} (hx : x.toNat < fqModulus) (hy : y.toNat < fqModulus)
    (hfinite : ¬(x = 0 ∧ y = 0)) : negateG1Point ⟨x, y⟩ = ⟨x, if y = 0 then 0 else pMod - y⟩ := by
  have hinf : isInfinity ⟨x, y⟩ = false := by simpa [isInfinity] using hfinite
  rw [negateG1Point, hinf]
  simp [umod_pMod hx, umod_pMod hy]

theorem negateG1Point_negateG1Point {q : G1Point} (h : q.OnCurve) :
    negateG1Point (negateG1Point q) = q := by
  obtain ⟨x, y⟩ := q
  have hx : x.toNat < fqModulus := h.x_lt
  have hy : y.toNat < fqModulus := h.y_lt
  have hfinite : ¬(x = 0 ∧ y = 0) := by
    rintro ⟨rfl, rfl⟩
    exact h.ne_zero rfl
  rw [negateG1Point_mk hx hy hfinite]
  -- a point on the axis is its own negation
  by_cases hzero : y = 0
  · rw [if_pos hzero, ← hzero, negateG1Point_mk hx hy hfinite, if_pos hzero, ← hzero]
  · have htoNat : (0 : U256).toNat = 0 := rfl
    have hpos : 0 < y.toNat := by
      refine Nat.pos_of_ne_zero fun h => hzero (BitVec.eq_of_toNat_eq ?_)
      rw [h, htoNat]
    have hlt : (pMod - y).toNat < fqModulus := by
      rw [toNat_pMod_sub hy]
      omega
    have hne : pMod - y ≠ 0 := by
      intro h
      have hnat := congrArg BitVec.toNat h
      rw [toNat_pMod_sub hy, htoNat] at hnat
      omega
    rw [if_neg hzero, negateG1Point_mk hx hlt fun h => hne h.2, if_neg hne]
    refine congrArg (G1Point.mk x) (BitVec.eq_of_toNat_eq ?_)
    rw [toNat_pMod_sub hlt, toNat_pMod_sub hy]
    omega

theorem samplePrecompiles_reads : samplePrecompiles.Reads samplePoint where
  add p q r h := by
    obtain ⟨e, he, rfl⟩ := Option.map_eq_some_iff.1 h
    obtain ⟨rfl, rfl⟩ : samplePointAt e.1 = p ∧ samplePointAt e.2.1 = q := by
      simpa using List.find?_some he
    have hall : ∀ e ∈ sampleSums, samplePoint (samplePointAt e.2.2) =
        samplePoint (samplePointAt e.1) + samplePoint (samplePointAt e.2.1) := by
      decide +kernel
    exact hall e (List.mem_of_find?_eq_some he)
  mul p s r h := by
    obtain ⟨e, he, rfl⟩ := Option.map_eq_some_iff.1 h
    obtain ⟨rfl, rfl⟩ : samplePointAt e.1 = p ∧ e.2.1 = s := by
      simpa using List.find?_some he
    have hall : ∀ e ∈ sampleProducts, samplePoint (samplePointAt e.2.2) =
        element e.2.1 * samplePoint (samplePointAt e.1) := by
      decide +kernel
    rw [nsmul_eq_mul]
    exact hall e (List.mem_of_find?_eq_some he)
  neg p h := by
    -- a point and its negation are not both in the list, but for zero
    have hall : ∀ e ∈ sampleMultiples, (sampleMultiples.lookup (negateG1Point e.1)).getD 0 = 0 := by
      decide +kernel
    have hmem {q : G1Point} {k : ℕ} (hk : sampleMultiples.lookup q = some k) :
        (sampleMultiples.lookup (negateG1Point q)).getD 0 = 0 := by
      obtain ⟨before, after, hsplit, -⟩ := List.lookup_eq_some_iff.1 hk
      exact hall (q, k) (by rw [hsplit]; simp)
    have hthree := negateG1Point_negateG1Point h
    unfold samplePoint
    rw [hthree]
    cases hfirst : sampleMultiples.lookup (negateG1Point p) with
    | none => cases hsecond : sampleMultiples.lookup (negateG1Point (negateG1Point p)) <;> simp
    | some k =>
      cases hsecond : sampleMultiples.lookup (negateG1Point (negateG1Point p)) with
      | none => simp
      | some m =>
        have hk := hmem hsecond
        have hm := hmem hfirst
        rw [hthree, hfirst, Option.getD_some] at hk
        rw [hsecond, Option.getD_some] at hm
        simp [hk, hm]

theorem samplePrecompiles_pairsWith : samplePrecompiles.PairsWith samplePoint sampleVk 1 := by
  intro p q out _ _ hok
  obtain ⟨i, hi, rfl⟩ := Option.map_eq_some_iff.1 hok
  have hwords := List.find?_some hi
  simp only [decide_eq_true_eq, List.cons.injEq] at hwords
  obtain ⟨hpx, hpy, -, -, -, -, hqx, hqy, -⟩ := hwords
  have hp : p = samplePointAt i := by
    rw [show p = ⟨p.x, p.y⟩ from rfl, ← hpx, ← hpy]
  have hq : q = negateG1Point (samplePointAt i) := by
    rw [show q = ⟨q.x, q.y⟩ from rfl, ← hqx, ← hqy]
  have hall : ∀ i ∈ [5, 1], 1 * samplePoint (samplePointAt i) +
      samplePoint (negateG1Point (samplePointAt i)) = 0 := by
    decide +kernel
  rw [hp, hq, smul_eq_mul]
  exact iff_of_true rfl (hall i (List.mem_of_find?_eq_some hi))

/-- The points are commitments to constant polynomials, and the proof is accepted. -/
theorem verify_iff_sample :
    let proof := sampleProof sampleShiftedOpening
    let chal := (computeChallengs sampleKeccak .new sampleVk proof 7).challenges
    ∃ evalData y, evalDataGen (newEvalDomain sampleVk) chal.zeta [7] = .ok evalData ∧
      let defect := (openingClaims (fun base => Polynomial.C (samplePoint base)) chal proof sampleVk
        (linearTerms chal.fill proof evalData (newEvalDomain sampleVk) sampleVk)
        (element y)).defect (element chal.v) (element chal.u)
      (defect.eval 1 = 0 ∧ defect.roots.card ≤ 1) ∧
        Accumulates samplePoint 1 (sampleCall.accProof.bytes sampleCall.calldata) := by
  intro proof chal
  have hgen : samplePoint sampleVk.openKeyG = 1 := by decide +kernel
  have hcommit (base : G1Point) : samplePoint base =
      (Polynomial.C (samplePoint base)).eval 1 • samplePoint sampleVk.openKeyG := by
    rw [hgen, Polynomial.eval_C, smul_eq_mul, mul_one]
  have hinv : Canonical sampleVk.groupGenInv := by decide +kernel
  have hzeta : element chal.zeta ≠ 0 := by decide +kernel
  have hsquare : element chal.zeta * element chal.zeta ≠ 1 := by decide +kernel
  have houtside : element chal.zeta ^ sampleVk.domainSize.toNat ≠ 1 := by
    rwa [show sampleVk.domainSize.toNat = 2 from rfl, sq]
  obtain ⟨evalData, y, heval, -, hanswer, -, -, ⟨-, -, hroots⟩, -⟩ :=
    verify_iff samplePrecompiles_reads samplePrecompiles_pairsWith (by rw [hgen]; exact one_ne_zero)
      hcommit sampleDomain_consistent hinv deserializeProof_sampleCall.symm hash_sampleCall.symm rfl
      hzeta houtside verify_sampleCall
  obtain ⟨hdefect, haccumulates⟩ := hanswer.1 rfl
  exact ⟨evalData, y, heval, ⟨hdefect, hroots 0 fun base => (Polynomial.natDegree_C _).le⟩,
    haccumulates⟩

end Sample

end Verifier


end Nightfall
