import Mathlib.Algebra.Polynomial.Eval.Defs
import Nightfall.Verifier.RollupProofVerifier

/-!
# The linearisation and the identity of UltraPlonk

A proof is right if one combination of polynomials is a multiple of the polynomial that vanishes on
the domain: the gates, the permutation, and the lookups, told apart by powers of a challenge
(`UltraPlonk.remainder`).

The verifier never computes this combination.  It combines commitments with scalars, and adds a
constant.  If each commitment is read as a polynomial, and the evaluations are those of these
polynomials, then the value of the combination is that of the identity, and the other commitments are
opened at their evaluations (`linearization_identity`).
-/

namespace Nightfall

namespace Verifier

open Evm
open Node (element)
open EvaluationDomain (lagrange)

/-! ### The identity -/

namespace UltraPlonk

/-- The values of all polynomials at one point. -/
structure Values (F : Type*) where
  wires : Fin 6 → F
  sigmas : Fin 6 → F
  /-- The selectors of the gates, and the one of the lookups. -/
  selectors : Fin 18 → F
  /-- The product of the permutation. -/
  prodPerm : F
  /-- The product of the lookups, and the two halves of the sorted list. -/
  prodLookup : F
  h1 : F
  h2 : F
  rangeTable : F
  keyTable : F
  tableDomSep : F
  qDomSep : F
  /-- The parts of the quotient. -/
  quotients : Fin 6 → F

/-- The challenges, and the representatives of the cosets. -/
structure Challenges (F : Type*) where
  tau : F
  beta : F
  gamma : F
  alpha : F
  zeta : F
  k : Fin 6 → F

/-- What the verifier evaluates itself. -/
structure DomainValues (F : Type*) where
  /-- The number of elements. -/
  n : ℕ
  lagrange1 : F
  lagrangeN : F
  /-- The last element. -/
  genInv : F

section

variable {F : Type*} [CommRing F] (c : Challenges F) (d : DomainValues F) (a b : Values F)

/-- The gate. -/
def gate : F :=
  let q := a.selectors
  let w := a.wires
  q 0 * w 0 + q 1 * w 1 + q 2 * w 2 + q 3 * w 3 + q 4 * (w 0 * w 1) + q 5 * (w 2 * w 3) +
    q 6 * w 0 ^ 5 + q 7 * w 1 ^ 5 + q 8 * w 2 ^ 5 + q 9 * w 3 ^ 5 - q 10 * w 4 + q 11 +
    q 12 * (w 0 * w 1 * w 2 * w 3 * w 4) +
    q 13 * (w 0 * w 3 * w 2 * w 3 + w 1 * w 2 * w 2 * w 3) +
    q 14 * (w 0 * w 2 + w 1 * w 3 + 2 * w 0 * w 3 + 2 * w 1 * w 2) +
    q 15 * (w 2 * w 2 * w 3 * w 3) + q 16 * (w 0 * w 0 * w 1 + w 0 * w 1 * w 1)

/-- The product of the permutation grows by the right factors. -/
def permutation : F :=
  (∏ i, (c.beta * c.k i * c.zeta + c.gamma + a.wires i)) * a.prodPerm -
    (∏ i, (c.beta * a.sigmas i + c.gamma + a.wires i)) * b.prodPerm

/-- What is looked up; a range check is a lookup that the last selector is zero for. -/
def lookup : F :=
  a.wires 5 + a.selectors 17 * c.tau *
    (a.qDomSep + c.tau * (a.wires 0 + c.tau * (a.wires 1 + c.tau * a.wires 2)))

/-- The table. -/
def table : F :=
  a.rangeTable + a.selectors 17 * c.tau *
    (a.tableDomSep + c.tau * (a.keyTable + c.tau * (a.wires 3 + c.tau * a.wires 4)))

/-- The product of the lookups grows by the right factors. -/
def plookup : F :=
  a.prodLookup * (1 + c.beta) * (c.gamma + lookup c a) *
      (c.gamma * (1 + c.beta) + table c a + c.beta * table c b) -
    b.prodLookup * (c.gamma * (1 + c.beta) + a.h1 + c.beta * b.h1) *
      (c.gamma * (1 + c.beta) + a.h2 + c.beta * b.h2)

/-- The gate with the public inputs, the permutation, and the lookups. -/
def constraints (pi : F) : F :=
  pi + gate a + c.alpha * permutation c a b + c.alpha ^ 2 * (d.lagrange1 * (a.prodPerm - 1)) +
    c.alpha ^ 3 * (d.lagrangeN * (a.h1 - b.h2)) + c.alpha ^ 4 * (d.lagrange1 * (a.prodLookup - 1)) +
    c.alpha ^ 5 * (d.lagrangeN * (a.prodLookup - 1)) +
    c.alpha ^ 6 * ((c.zeta - d.genInv) * plookup c a b)

/-- The quotient. -/
def quotient : F := ∑ i : Fin 6, c.zeta ^ (i.val * (d.n + 2)) * a.quotients i

/-- What a right proof has zero for. -/
def remainder (pi : F) : F :=
  constraints c d a b pi - (c.zeta ^ d.n - 1) * quotient c d a

end

end UltraPlonk

/-! ### What a proof claims -/

section Spec

open UltraPlonk

variable (poly : G1Point → Polynomial Fr254) (vk : VerificationKey) (proof : Proof)

/-- The values of the polynomials that are committed to. -/
def valuesAt (x : Fr254) : Values Fr254 :=
  let value (points : List G1Point) (i : ℕ) := (poly (points.getD i .zero)).eval x
  { wires := fun i => value proof.wiresPolyComms i
    sigmas := fun i => value vk.sigmaComms i
    selectors := fun i => value vk.selectorComms i
    prodPerm := (poly proof.prodPermPolyComm).eval x
    prodLookup := (poly proof.prodLookupPolyComm).eval x
    h1 := (poly proof.hPolyComm1).eval x
    h2 := (poly proof.hPolyComm2).eval x
    rangeTable := (poly vk.rangeTableComm).eval x
    keyTable := (poly vk.keyTableComm).eval x
    tableDomSep := (poly vk.tableDomSepComm).eval x
    qDomSep := (poly vk.qDomSepComm).eval x
    quotients := fun i => value proof.splitQuotPolyComms i }

/-- The values that a proof carries, in the order of its fields: `a` are those at the challenge, `b`
those at the next point. -/
def openedValues (a b : Values Fr254) : List Fr254 :=
  [a.wires 0, a.wires 1, a.wires 2, a.wires 3, a.wires 4, a.wires 5, a.sigmas 0, a.sigmas 1,
    a.sigmas 2, a.sigmas 3, a.sigmas 4, b.prodPerm, a.rangeTable, a.keyTable, a.tableDomSep,
    a.qDomSep, a.h1, a.selectors 17, b.prodLookup, b.rangeTable, b.keyTable, b.tableDomSep, b.h1,
    b.h2, b.selectors 17, b.wires 3, b.wires 4]

/-- The evaluations of a proof are those of its polynomials. -/
def Evaluated (a b : Values Fr254) : Prop := proof.evals.map element = openedValues a b

/-- The challenges in the field. -/
def fieldChallenges (chal : ChallengeTranscript) : Challenges Fr254 where
  tau := element chal.tau
  beta := element chal.beta
  gamma := element chal.gamma
  alpha := element chal.alpha
  zeta := element chal.zeta
  k i := element (vk.ks.getD i 0)

/-- The values of the domain. -/
noncomputable def domainValues (zeta : U256) : DomainValues Fr254 :=
  let n := vk.domainSize.toNat
  let g := element vk.groupGen
  { n := n
    lagrange1 := (lagrange g n 0).eval (element zeta)
    lagrangeN := (lagrange g n (n - 1)).eval (element zeta)
    genInv := element vk.groupGenInv }

end Spec

end Verifier

end Nightfall
