import Nightfall.Plonk.Logic
import Mathlib.Data.ZMod.Basic

/-!
# Gadgets

The operations of the constraint-system library that the circuits call, each with its documented
meaning: the value of the variable it returns as a function of the values of its arguments, or
the relation it enforces between them.  Every gadget has one specification lemma
(`*_ensures`), which is all that the proofs about circuits use.
-/

namespace Nightfall

namespace Plonk

/-- A point in affine coordinates: of field elements, or of the variables that hold them. -/
structure Point (F : Type) where
  x : F
  y : F
  deriving DecidableEq, Repr

/-- The variables of a point. -/
abbrev PointVariable := Point Variable

/-- Apply `f` to both coordinates. -/
def Point.map {F G : Type} (f : F → G) (Q : Point F) : Point G := ⟨f Q.x, f Q.y⟩

@[simp] theorem Point.map_x {F G : Type} (f : F → G) (Q : Point F) : (Q.map f).x = f Q.x := rfl

@[simp] theorem Point.map_y {F G : Type} (f : F → G) (Q : Point F) : (Q.map f).y = f Q.y := rfl

/-- The variables of the point are below `n`. -/
@[grind] def Point.Below (Q : PointVariable) (n : ℕ) : Prop := Q.x.Below n ∧ Q.y.Below n

theorem Point.Below.mono {Q : PointVariable} {n m : ℕ} (h : Q.Below n) (hnm : n ≤ m) :
    Q.Below m :=
  ⟨h.1.mono hnm, h.2.mono hnm⟩

variable {F : Type} [CommRing F]

/-- The neutral point of a twisted Edwards curve. -/
def Point.neutral : Point F := ⟨0, 1⟩

/-- 1 for true and 0 for false. -/
def ofBool (b : Bool) : F := if b then 1 else 0

@[simp] theorem ofBool_true : (ofBool true : F) = 1 := rfl

@[simp] theorem ofBool_false : (ofBool false : F) = 0 := rfl

@[simp] theorem ofBool_eq_one [Nontrivial F] {b : Bool} : (ofBool b : F) = 1 ↔ b = true := by
  cases b <;> simp [ofBool]

variable [DecidableEq F]

/-! ### Arithmetic -/

/-- `a + b`. -/
def add (a b : Variable) : CircuitM F Variable :=
  applyGate [a, b] fun
    | [x, y] => x + y
    | _ => 0

/-- `a - b`. -/
def sub (a b : Variable) : CircuitM F Variable :=
  applyGate [a, b] fun
    | [x, y] => x - y
    | _ => 0

/-- `q₀ a + q₁ b + q₂ c + q₃ d + m₀ a b + m₁ c d + k` for `wires = [a, b, c, d]`. -/
def quadPoly (wires q m : List F) (k : F) : F :=
  match wires, q, m with
  | [a, b, c, d], [q₀, q₁, q₂, q₃], [m₀, m₁] =>
    q₀ * a + q₁ * b + q₂ * c + q₃ * d + m₀ * (a * b) + m₁ * (c * d) + k
  | _, _, _ => 0

/-- A variable holding the value of a general quadratic polynomial. -/
def genQuadPoly (wires : List Variable) (q m : List F) (k : F) : CircuitM F Variable :=
  applyGate wires fun xs => quadPoly xs q m k

/-- `q₀ a + q₁ b + q₂ c + q₃ d = e` for `wires = [a, b, c, d, e]`. -/
def lcGate (wires : List Variable) (q : List F) : CircuitM F Unit :=
  enforce wires fun xs => decide (quadPoly (xs.take 4) q [0, 0] 0 = xs.getD 4 0)

/-- `q₀ a + q₁ b + q₂ c + q₃ d + m₀ a b + m₁ c d + k = o e` for `wires = [a, b, c, d, e]`. -/
def quadPolyGate (wires : List Variable) (q m : List F) (o k : F) : CircuitM F Unit :=
  enforce wires fun xs => decide (quadPoly (xs.take 4) q m k = o * xs.getD 4 0)

/-- The two variables have the same value. -/
def enforceEqual (a b : Variable) : CircuitM F Unit :=
  enforce [a, b] fun
    | [x, y] => decide (x = y)
    | _ => false

/-- The variable has value 1. -/
def enforceTrue (a : Variable) : CircuitM F Unit :=
  enforce [a] fun
    | [x] => decide (x = 1)
    | _ => false

/-- A new variable constrained to the constant `x`. -/
def createConstantVariable (x : F) : CircuitM F Variable :=
  applyGate [] fun _ => x

variable {P : Prover} {w : Variable → F}

theorem add_ensures (a b : Variable) : Ensures P w (add a b) fun o => w o = w a + w b :=
  applyGate_ensures _ _

theorem sub_ensures (a b : Variable) : Ensures P w (sub a b) fun o => w o = w a - w b :=
  applyGate_ensures _ _

theorem genQuadPoly_ensures (a b c d : Variable) (q₀ q₁ q₂ q₃ m₀ m₁ k : F) :
    Ensures P w (genQuadPoly [a, b, c, d] [q₀, q₁, q₂, q₃] [m₀, m₁] k) fun o =>
      w o = q₀ * w a + q₁ * w b + q₂ * w c + q₃ * w d + m₀ * (w a * w b) + m₁ * (w c * w d) + k :=
  applyGate_ensures _ _

theorem lcGate_ensures {a b c d e : Variable} {q₀ q₁ q₂ q₃ : F}
    (h : P = .honest → q₀ * w a + q₁ * w b + q₂ * w c + q₃ * w d = w e) :
    Ensures P w (lcGate [a, b, c, d, e] [q₀, q₁, q₂, q₃]) fun _ =>
      q₀ * w a + q₁ * w b + q₂ * w c + q₃ * w d = w e :=
  enforce_ensures_iff (by simp [quadPoly]) h

theorem quadPolyGate_ensures {a b c d e : Variable} {q₀ q₁ q₂ q₃ m₀ m₁ o k : F}
    (h : P = .honest → q₀ * w a + q₁ * w b + q₂ * w c + q₃ * w d + m₀ * (w a * w b) +
      m₁ * (w c * w d) + k = o * w e) :
    Ensures P w (quadPolyGate [a, b, c, d, e] [q₀, q₁, q₂, q₃] [m₀, m₁] o k) fun _ =>
      q₀ * w a + q₁ * w b + q₂ * w c + q₃ * w d + m₀ * (w a * w b) + m₁ * (w c * w d) + k =
        o * w e :=
  enforce_ensures_iff (by simp [quadPoly]) h

theorem enforceEqual_ensures {a b : Variable} (h : P = .honest → w a = w b) :
    Ensures P w (enforceEqual a b) fun _ => w a = w b :=
  enforce_ensures_iff (by simp) h

theorem enforceTrue_ensures {a : Variable} (h : P = .honest → w a = 1) :
    Ensures P w (enforceTrue a) fun _ => w a = 1 :=
  enforce_ensures_iff (by simp) h

theorem createConstantVariable_ensures (x : F) :
    Ensures P w (createConstantVariable x) fun o => w o = x :=
  applyGate_ensures _ _

/-- `applyGate` for a function with values 0 and 1. -/
def applyBoolGate (wires : List Variable) (f : List F → F) : CircuitM F BoolVar := do
  let o ← applyGate wires f
  return ⟨o⟩

/-- A new variable constrained to be 0 or 1. -/
def createBooleanVariable (b : Bool) : CircuitM F BoolVar := do
  let v ← createVariable (ofBool b)
  enforce [v] fun
    | [x] => decide (x = 0) || decide (x = 1)
    | _ => false
  return ⟨v⟩

/-- Whether the value is 0. -/
def isZero (a : Variable) : CircuitM F BoolVar :=
  applyBoolGate [a] fun
    | [x] => ofBool (decide (x = 0))
    | _ => 0

/-- Whether the two values are equal. -/
def isEqual (a b : Variable) : CircuitM F BoolVar :=
  applyBoolGate [a, b] fun
    | [x, y] => ofBool (decide (x = y))
    | _ => 0

/-- `1 - a`. -/
def logicNeg (a : BoolVar) : CircuitM F BoolVar :=
  applyBoolGate [a.var] fun
    | [x] => 1 - x
    | _ => 0

/-- `a` or `b` is true. -/
def logicOrGate (a b : BoolVar) : CircuitM F Unit :=
  enforce [a.var, b.var] fun
    | [x, y] => decide (x = 1) || decide (y = 1)
    | _ => false

/-- The value of `x₀` if `b` is 0, that of `x₁` if `b` is 1. -/
def conditionalSelect (b : BoolVar) (x₀ x₁ : Variable) : CircuitM F Variable :=
  applyGate [b.var, x₀, x₁] fun
    | [b, y₀, y₁] => if b = 0 then y₀ else y₁
    | _ => 0

theorem applyBoolGate_ensures (wires : List Variable) (f : List F → F) :
    Ensures P w (applyBoolGate wires f) fun o => w o.var = f (wires.map w) :=
  (applyGate_ensures wires f).bind fun _ h => .pure h

theorem createBooleanVariable_ensures (b : Bool) :
    Ensures P w (createBooleanVariable b) fun o =>
      (w o.var = 0 ∨ w o.var = 1) ∧ (P = .honest → w o.var = ofBool b) := by
  unfold createBooleanVariable
  refine (createVariable_ensures _).bind fun v hv => ?_
  have hbit : P = .honest → w v = 0 ∨ w v = 1 := fun hP => by
    rw [hv hP]
    cases b <;> simp
  exact (enforce_ensures_iff (by simp) hbit).bind fun _ h => .pure ⟨h, hv⟩

theorem isZero_ensures (a : Variable) :
    Ensures P w (isZero a) fun o => w o.var = ofBool (decide (w a = 0)) :=
  applyBoolGate_ensures _ _

theorem isEqual_ensures (a b : Variable) :
    Ensures P w (isEqual a b) fun o => w o.var = ofBool (decide (w a = w b)) :=
  applyBoolGate_ensures _ _

theorem logicNeg_ensures (a : BoolVar) :
    Ensures P w (logicNeg a) fun o => w o.var = 1 - w a.var :=
  applyBoolGate_ensures _ _

theorem logicOrGate_ensures {a b : BoolVar} (h : P = .honest → w a.var = 1 ∨ w b.var = 1) :
    Ensures P w (logicOrGate a b) fun _ => w a.var = 1 ∨ w b.var = 1 :=
  enforce_ensures_iff (by simp) h

theorem conditionalSelect_ensures (b : BoolVar) (x₀ x₁ : Variable) :
    Ensures P w (conditionalSelect b x₀ x₁) fun o =>
      w o = if w b.var = 0 then w x₀ else w x₁ :=
  applyGate_ensures _ _

/-! ### Ranges -/

section Range

variable {P : Prover} {n : ℕ} {w : Variable → ZMod n}

/-- The value is below `2 ^ bits`. -/
def enforceInRange (a : Variable) (bits : ℕ) : CircuitM (ZMod n) Unit :=
  enforce [a] fun
    | [x] => decide (x.val < 2 ^ bits)
    | _ => false

/-- Whether the first value is the smaller one as an integer. -/
def isLt (a b : Variable) : CircuitM (ZMod n) BoolVar :=
  applyBoolGate [a, b] fun
    | [x, y] => ofBool (decide (x.val < y.val))
    | _ => 0

theorem enforceInRange_ensures {a : Variable} {bits : ℕ} (h : P = .honest → (w a).val < 2 ^ bits) :
    Ensures P w (enforceInRange a bits) fun _ => (w a).val < 2 ^ bits :=
  enforce_ensures_iff (by simp) h

theorem isLt_ensures (a b : Variable) :
    Ensures P w (isLt a b) fun o => w o.var = ofBool (decide ((w a).val < (w b).val)) :=
  applyBoolGate_ensures _ _

end Range

/-! ### Curve points -/

/-- A new point variable; nothing makes it a point of a curve. -/
def createPointVariable (Q : Point F) : CircuitM F PointVariable := do
  let x ← createVariable Q.x
  let y ← createVariable Q.y
  return ⟨x, y⟩

/-- A new point variable constrained to the constant `Q`. -/
def createConstantPointVariable (Q : Point F) : CircuitM F PointVariable := do
  let x ← createConstantVariable Q.x
  let y ← createConstantVariable Q.y
  return ⟨x, y⟩

/-- The product of a point and a scalar, for the scalar multiplication `mul` of a curve. -/
def variableBaseScalarMul (mul : F → Point F → Point F) (k : Variable) (Q : PointVariable) :
    CircuitM F PointVariable := do
  let x ← applyGate [k, Q.x, Q.y] fun
    | [k, x, y] => (mul k ⟨x, y⟩).x
    | _ => 0
  let y ← applyGate [k, Q.x, Q.y] fun
    | [k, x, y] => (mul k ⟨x, y⟩).y
    | _ => 0
  return ⟨x, y⟩

/-- Whether the point is the neutral point. -/
def isNeutralPoint (Q : PointVariable) : CircuitM F BoolVar :=
  applyBoolGate [Q.x, Q.y] fun
    | [x, y] => ofBool (decide ((⟨x, y⟩ : Point F) = .neutral))
    | _ => 0

omit [DecidableEq F] in
theorem createPointVariable_ensures (Q : Point F) :
    Ensures P w (createPointVariable Q) fun R => P = .honest → R.map w = Q := by
  unfold createPointVariable
  refine (createVariable_ensures _).bind fun x hx => ?_
  refine (createVariable_ensures _).bind fun y hy => ?_
  exact .pure fun hP => by rw [Point.map, hx hP, hy hP]

theorem createConstantPointVariable_ensures (Q : Point F) :
    Ensures P w (createConstantPointVariable Q) fun R => R.map w = Q := by
  unfold createConstantPointVariable
  refine (createConstantVariable_ensures _).bind fun x hx => ?_
  refine (createConstantVariable_ensures _).bind fun y hy => ?_
  exact .pure (by rw [Point.map, hx, hy])

theorem variableBaseScalarMul_ensures (mul : F → Point F → Point F) (k : Variable)
    (Q : PointVariable) :
    Ensures P w (variableBaseScalarMul mul k Q) fun R => R.map w = mul (w k) (Q.map w) := by
  unfold variableBaseScalarMul
  refine (applyGate_ensures _ _).bind fun x hx => ?_
  refine (applyGate_ensures _ _).bind fun y hy => ?_
  refine .pure ?_
  simp only [List.map_cons, List.map_nil] at hx hy
  rw [Point.map, hx, hy]
  rfl

theorem isNeutralPoint_ensures (Q : PointVariable) :
    Ensures P w (isNeutralPoint Q) fun o => w o.var = ofBool (decide (Q.map w = Point.neutral)) :=
  applyBoolGate_ensures _ _

/-! ### Poseidon -/

/-- The Poseidon hash of the values, for the hash function `poseidon`. -/
def poseidonHash (poseidon : List F → F) (ins : List Variable) : CircuitM F Variable :=
  applyGate ins poseidon

theorem poseidonHash_ensures (poseidon : List F → F) (ins : List Variable) :
    Ensures P w (poseidonHash poseidon ins) fun o => w o = poseidon (ins.map w) :=
  applyGate_ensures _ _

/-! ### Success

Gadgets succeed when the variables they are given exist. -/

theorem zero_below {n : ℕ} (h : 2 ≤ n) : zero.Below n := Nat.lt_of_lt_of_le Nat.two_pos h

theorem one_below {n : ℕ} (h : 2 ≤ n) : one.Below n := Nat.lt_of_lt_of_le Nat.one_lt_two h

namespace Succeeds

variable {n : ℕ}

omit [CommRing F] in
theorem applyBoolGate {wires : List Variable} {f : List F → F} (h : ∀ v ∈ wires, v.Below n) :
    Succeeds n (applyBoolGate wires f) fun m o => o.var.Below m :=
  (applyGate h).bind fun _ _ _ ho => .pure fun _ hm => ho.mono hm

theorem createBooleanVariable (b : Bool) :
    Succeeds n (createBooleanVariable b : CircuitM F BoolVar) fun m o => o.var.Below m := by
  refine (createVariable _).bind fun m v _ hv => ?_
  exact (enforce (by simpa using hv)).bind fun k _ hk _ => .pure fun j hj => hv.mono (hk.trans hj)

omit [CommRing F] [DecidableEq F] in
theorem createPointVariable (Q : Point F) :
    Succeeds n (createPointVariable Q) fun m R => R.Below m := by
  refine (createVariable _).bind fun m x _ hx => ?_
  refine (createVariable _).bind fun k y hk hy => ?_
  exact .pure fun j hj => .mono ⟨hx.mono hk, hy⟩ hj

omit [CommRing F] in
theorem createConstantPointVariable (Q : Point F) :
    Succeeds n (createConstantPointVariable Q) fun m R => R.Below m := by
  refine (applyGate (by simp)).bind fun m x _ hx => ?_
  refine (applyGate (by simp)).bind fun k y hk hy => ?_
  exact .pure fun j hj => .mono ⟨hx.mono hk, hy⟩ hj

theorem variableBaseScalarMul {mul : F → Point F → Point F} {k : Variable} {Q : PointVariable}
    (hk : k.Below n) (hQ : Q.Below n) :
    Succeeds n (variableBaseScalarMul mul k Q) fun m R => R.Below m := by
  refine (applyGate (by simp [hk, hQ.1, hQ.2])).bind fun m x hm hx => ?_
  have hQ' := hQ.mono hm
  refine (applyGate (by simp [hk.mono hm, hQ'.1, hQ'.2])).bind fun l y hl hy => ?_
  exact .pure fun j hj => .mono ⟨hx.mono hl, hy⟩ hj

end Succeeds

end Plonk

end Nightfall
