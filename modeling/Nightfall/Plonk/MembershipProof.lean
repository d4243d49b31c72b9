import Nightfall.Plonk.Gadgets
import Nightfall.Merkle.Tree

/-!
# Membership proofs in a circuit

A membership proof is a node value and the path from it to the root.  `calculateNewRoot` is the
node that the path leads to from a given variable; its specification is `Merkle.foldPath` on the
path that the assignment gives to the variables.
-/

namespace Nightfall

namespace Plonk

open Merkle (PathElement foldPath)

/-- The variables of one step of a path. -/
structure PathElementVar where
  /-- True when the sibling is the left child. -/
  direction : BoolVar
  /-- The sibling. -/
  value : Variable
  deriving DecidableEq, Repr

/-- A membership proof, with field elements or variables for the nodes. -/
structure MembershipProof (V E : Type) where
  /-- The node the proof was made for. -/
  nodeValue : V
  /-- The path from the node upwards. -/
  siblingPath : List E
  deriving DecidableEq, Repr

/-- The variables of a membership proof. -/
abbrev MembershipProofVar := MembershipProof Variable PathElementVar

variable {F : Type} [CommRing F] [DecidableEq F]

/-- The hash of a node of a tree of field elements. -/
def nodeHash (poseidon : List F → F) (l r : F) : F := poseidon [l, r]

/-- The step that an assignment gives to a step variable. -/
def PathElementVar.eval (w : Variable → F) (e : PathElementVar) : PathElement F :=
  ⟨decide (w e.direction.var ≠ 0), w e.value⟩

/-- The proof that an assignment gives to a proof variable. -/
def MembershipProofVar.eval (w : Variable → F) (p : MembershipProofVar) :
    MembershipProof F (PathElement F) :=
  ⟨w p.nodeValue, p.siblingPath.map (PathElementVar.eval w)⟩

/-- The variables of a step. -/
def createPathElement (e : PathElement F) : CircuitM F PathElementVar := do
  let direction ← createBooleanVariable e.left
  let value ← createVariable e.value
  return ⟨direction, value⟩

/-- The variables of a membership proof. -/
def fromMembershipProof (p : MembershipProof F (PathElement F)) :
    CircuitM F MembershipProofVar := do
  let nodeValue ← createVariable p.nodeValue
  let siblingPath ← p.siblingPath.mapM createPathElement
  return ⟨nodeValue, siblingPath⟩

/-- The parent of `x` on a path. -/
def parentNode (poseidon : List F → F) (x : Variable) (e : PathElementVar) :
    CircuitM F Variable := do
  let l ← conditionalSelect e.direction x e.value
  let r ← conditionalSelect e.direction e.value x
  poseidonHash poseidon [l, r]

/-- The node that the path of the proof leads to from `x`. -/
def calculateNewRoot (poseidon : List F → F) (p : MembershipProofVar) (x : Variable) :
    CircuitM F Variable :=
  p.siblingPath.foldlM (parentNode poseidon) x

/-- Whether the path leads from `x` to `root`. -/
def verifyMembershipProof (poseidon : List F → F) (p : MembershipProofVar) (x root : Variable) :
    CircuitM F BoolVar := do
  let calculated ← calculateNewRoot poseidon p x
  isEqual calculated root

variable {P : Prover} {w : Variable → F}

theorem createPathElement_ensures [Nontrivial F] (e : PathElement F) :
    Ensures P w (createPathElement e) fun v => P = .honest → v.eval w = e := by
  unfold createPathElement
  refine (createBooleanVariable_ensures _).bind fun b hb => ?_
  refine (createVariable_ensures _).bind fun v hv => ?_
  refine .pure fun hP => ?_
  rw [PathElementVar.eval, hb.2 hP, hv hP]
  cases e with
  | mk left value => cases left <;> simp

theorem fromMembershipProof_ensures [Nontrivial F] (p : MembershipProof F (PathElement F)) :
    Ensures P w (fromMembershipProof p) fun v =>
      (P = .honest → MembershipProofVar.eval w v = p) ∧
        v.siblingPath.length = p.siblingPath.length := by
  unfold fromMembershipProof
  refine (createVariable_ensures _).bind fun x hx => ?_
  refine (Ensures.mapM_honest createPathElement_ensures).bind fun l hl => ?_
  refine .pure ⟨fun hP => ?_, hl.2⟩
  rw [MembershipProofVar.eval, hx hP, hl.1 hP]

theorem parentNode_ensures (poseidon : List F → F) (x : Variable) (e : PathElementVar) :
    Ensures P w (parentNode poseidon x e) fun v =>
      w v = nodeHash poseidon ((e.eval w).pair (w x)).1 ((e.eval w).pair (w x)).2 := by
  unfold parentNode
  refine (conditionalSelect_ensures _ _ _).bind fun l hl => ?_
  refine (conditionalSelect_ensures _ _ _).bind fun r hr => ?_
  refine (poseidonHash_ensures poseidon _).mono fun v hv => ?_
  rw [hv, List.map_cons, List.map_cons, List.map_nil, hl, hr, nodeHash]
  by_cases h : w e.direction.var = 0 <;> simp [PathElementVar.eval, PathElement.pair, h]

theorem calculateNewRoot_ensures (poseidon : List F → F) (p : MembershipProofVar) (x : Variable) :
    Ensures P w (calculateNewRoot poseidon p x) fun v =>
      w v = foldPath (nodeHash poseidon) (MembershipProofVar.eval w p).siblingPath (w x) := by
  obtain ⟨nodeValue, path⟩ := p
  simp only [calculateNewRoot, MembershipProofVar.eval]
  induction path generalizing x with
  | nil => exact .pure rfl
  | cons e path ih =>
    rw [List.foldlM_cons]
    refine (parentNode_ensures poseidon x e).bind fun y hy => ?_
    refine (ih y).mono fun v hv => ?_
    rw [hv, hy, List.map_cons, foldPath]

theorem verifyMembershipProof_ensures (poseidon : List F → F) (p : MembershipProofVar)
    (x root : Variable) :
    Ensures P w (verifyMembershipProof poseidon p x root) fun b =>
      w b.var = ofBool (decide (foldPath (nodeHash poseidon)
        (MembershipProofVar.eval w p).siblingPath (w x) = w root)) := by
  unfold verifyMembershipProof
  refine (calculateNewRoot_ensures poseidon p x).bind fun v hv => ?_
  exact (isEqual_ensures _ _).mono fun b hb => by rw [hb, hv]

/-! ### Success -/

/-- The variables of the step are below `n`. -/
def PathElementVar.Below (e : PathElementVar) (n : ℕ) : Prop :=
  e.direction.var.Below n ∧ e.value.Below n

theorem PathElementVar.Below.mono {e : PathElementVar} {n m : ℕ} (h : e.Below n) (hnm : n ≤ m) :
    e.Below m :=
  ⟨h.1.mono hnm, h.2.mono hnm⟩

/-- The variables of the membership proof are below `n`. -/
def MembershipProofVar.Below (p : MembershipProofVar) (n : ℕ) : Prop :=
  p.nodeValue.Below n ∧ ∀ e ∈ p.siblingPath, e.Below n

theorem MembershipProofVar.Below.mono {p : MembershipProofVar} {n m : ℕ} (h : p.Below n)
    (hnm : n ≤ m) : p.Below m :=
  ⟨h.1.mono hnm, fun e he => (h.2 e he).mono hnm⟩

namespace Succeeds

variable {n : ℕ}

theorem createPathElement (e : PathElement F) :
    Succeeds n (createPathElement e) fun m v => v.Below m := by
  refine (createBooleanVariable _).bind fun m b _ hb => ?_
  refine (createVariable _).bind fun k v hk hv => ?_
  exact .pure fun j hj => .mono ⟨hb.mono hk, hv⟩ hj

theorem fromMembershipProof (p : MembershipProof F (PathElement F)) :
    Succeeds n (fromMembershipProof p) fun m v => v.Below m := by
  refine (createVariable _).bind fun m x _ hx => ?_
  refine (mapM (S := fun m v => PathElementVar.Below v m) (fun _ _ _ h hmk => h.mono hmk)
    fun e _ _ _ => createPathElement e).bind fun k l hk hl => ?_
  exact .pure fun j hj => .mono ⟨hx.mono hk, hl.2⟩ hj

theorem parentNode {poseidon : List F → F} {x : Variable} {e : PathElementVar} (hx : x.Below n)
    (he : e.Below n) : Succeeds n (parentNode poseidon x e) fun m v => v.Below m := by
  refine (applyGate (by simp [hx, he.1, he.2])).bind fun m l hm hl => ?_
  have he' := he.mono hm
  refine (applyGate (by simp [hx.mono hm, he'.1, he'.2])).bind fun k r hk hr => ?_
  exact applyGate (by simp [hr, hl.mono hk])

theorem calculateNewRoot {poseidon : List F → F} {p : MembershipProofVar} {x : Variable}
    (hp : p.Below n) (hx : x.Below n) :
    Succeeds n (calculateNewRoot poseidon p x) fun m v => v.Below m := by
  obtain ⟨nodeValue, path⟩ := p
  obtain ⟨-, hpath⟩ := hp
  simp only at hpath
  simp only [Plonk.calculateNewRoot]
  induction path generalizing n x with
  | nil => exact .pure fun m hm => hx.mono hm
  | cons e path ih =>
    rw [List.foldlM_cons]
    obtain ⟨he, hpath⟩ := List.forall_mem_cons.1 hpath
    exact (parentNode hx he).bind fun m y hm hy => ih hy fun e' he' => (hpath e' he').mono hm

theorem verifyMembershipProof {poseidon : List F → F} {p : MembershipProofVar} {x root : Variable}
    (hp : p.Below n) (hx : x.Below n) (hr : root.Below n) :
    Succeeds n (verifyMembershipProof poseidon p x root) fun m b => b.var.Below m :=
  (calculateNewRoot hp hx).bind fun m v hm hv => applyBoolGate (by simp [hv, hr.mono hm])

end Succeeds

end Plonk

end Nightfall
