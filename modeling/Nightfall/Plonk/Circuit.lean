import Mathlib.Algebra.Ring.Basic
import Mathlib.Data.List.Infix
import Mathlib.Data.Fin.Tuple.Basic

/-!
# Constraint systems under construction

A PlonK circuit is built by a program that creates variables, giving each the value the honest
prover would assign, and inserts gates.  `PlonkCircuit` is the state of such a program and
`CircuitM` the monad it runs in; a gate is a relation on the values of its wires.

The prover is not bound by the values the program suggested: an *assignment* is any map from
variables to field elements, and `PlonkCircuit.Satisfies` says that all gates hold of it.  So a
value that the program reads with `witness` and writes into a new variable leaves no constraint
behind.

* `PlonkCircuit` : witness values, gates, public variables; every wire is an existing variable;
* `CircuitM` : programs, which only ever add to the circuit (`CircuitM.grows`);
* `createVariable`, `insertGate`, `witness`, `setVariablePublic` : the primitive operations;
* `applyGate` : a new variable constrained to a function of others, and `enforce` : a relation
  between existing variables; all gadgets are instances of these two.
-/

namespace Nightfall

namespace Plonk

/-- The index of a witness value. -/
abbrev Variable := ℕ

/-- The variable is one of the first `n`. -/
@[grind] def Variable.Below (v : Variable) (n : ℕ) : Prop := @LT.lt ℕ _ v n

theorem Variable.Below.mono {v : Variable} {n m : ℕ} (h : v.Below n) (hnm : n ≤ m) : v.Below m :=
  Nat.lt_of_lt_of_le h hnm

/-- A variable whose value is 0 or 1. -/
structure BoolVar where
  /-- The underlying variable. -/
  var : Variable
  deriving DecidableEq, Repr

/-- Errors of circuit construction. -/
inductive CircuitError
  | varIndexOutOfBound
  | unsatisfied
  | parameterError (msg : String)
  deriving DecidableEq, Repr

/-- A gate: a relation on the values of its wires. -/
structure Gate (F : Type) where
  /-- The variables the gate connects. -/
  wires : List Variable
  /-- The relation on their values. -/
  rel : List F → Bool

variable {F : Type}

/-- The gate holds of an assignment. -/
def Gate.Holds (g : Gate F) (w : Variable → F) : Prop := g.rel (g.wires.map w) = true

instance (g : Gate F) (w : Variable → F) : Decidable (g.Holds w) :=
  inferInstanceAs (Decidable (_ = true))

/-- A circuit under construction. -/
structure PlonkCircuit (F : Type) where
  /-- The value suggested for each variable. -/
  witness : List F
  /-- The gates. -/
  gates : List (Gate F)
  /-- The public variables, in the order in which they were made public. -/
  publicInput : List Variable
  /-- Gates connect existing variables. -/
  wires_lt : ∀ g ∈ gates, ∀ v ∈ g.wires, v < witness.length

namespace PlonkCircuit

/-- The number of variables. -/
def numVars (c : PlonkCircuit F) : ℕ := c.witness.length

/-- `c'` has all that `c` has, in the same places. -/
structure Le (c c' : PlonkCircuit F) : Prop where
  witness : c.witness <+: c'.witness
  gates : c.gates <+: c'.gates
  publicInput : c.publicInput <+: c'.publicInput

theorem Le.refl (c : PlonkCircuit F) : c.Le c :=
  ⟨List.prefix_rfl, List.prefix_rfl, List.prefix_rfl⟩

theorem Le.trans {c c' c'' : PlonkCircuit F} (h : c.Le c') (h' : c'.Le c'') : c.Le c'' :=
  ⟨h.witness.trans h'.witness, h.gates.trans h'.gates, h.publicInput.trans h'.publicInput⟩

section Values

variable [Zero F]

/-- The value suggested for `v`. -/
def value (c : PlonkCircuit F) (v : Variable) : F := c.witness.getD v 0

variable [One F]

/-- Assignment `w` satisfies the circuit: the default variables `zero()` and `one()` hold their
constants, and every gate holds. -/
def Satisfies (c : PlonkCircuit F) (w : Variable → F) : Prop :=
  w 0 = 0 ∧ w 1 = 1 ∧ ∀ g ∈ c.gates, g.Holds w

instance [DecidableEq F] (c : PlonkCircuit F) (w : Variable → F) : Decidable (c.Satisfies w) :=
  inferInstanceAs (Decidable (_ ∧ _ ∧ _))

theorem Satisfies.of_le {c c' : PlonkCircuit F} {w : Variable → F} (h : c'.Satisfies w)
    (hc : c.Le c') : c.Satisfies w :=
  ⟨h.1, h.2.1, fun g hg => h.2.2 g (hc.gates.subset hg)⟩

/-- Satisfaction depends on the values of the circuit's own variables only. -/
theorem Satisfies.congr {c : PlonkCircuit F} {w w' : Variable → F} (h : c.Satisfies w)
    (h0 : w' 0 = w 0) (h1 : w' 1 = w 1) (hw : ∀ v < c.numVars, w' v = w v) :
    c.Satisfies w' := by
  refine ⟨h0.trans h.1, h1.trans h.2.1, fun g hg => ?_⟩
  have hmap : g.wires.map w' = g.wires.map w :=
    List.map_congr_left fun v hv => hw v (c.wires_lt g hg v hv)
  unfold Gate.Holds
  rw [hmap]
  exact h.2.2 g hg

end Values

/-- `PlonkCircuit::new_ultra_plonk`: the two default variables and nothing else. -/
def newUltraPlonk (F : Type) [Zero F] [One F] : PlonkCircuit F :=
  ⟨[0, 1], [], [], fun _ h => absurd h List.not_mem_nil⟩

/-- `c` with a further variable of suggested value `x`. -/
def pushWitness (c : PlonkCircuit F) (x : F) : PlonkCircuit F where
  witness := c.witness ++ [x]
  gates := c.gates
  publicInput := c.publicInput
  wires_lt g hg v hv := by
    rw [List.length_append]
    exact Nat.lt_add_right _ (c.wires_lt g hg v hv)

/-- `c` with a further gate. -/
def pushGate (c : PlonkCircuit F) (g : Gate F) (h : ∀ v ∈ g.wires, v < c.witness.length) :
    PlonkCircuit F where
  witness := c.witness
  gates := c.gates ++ [g]
  publicInput := c.publicInput
  wires_lt g' hg' := by
    rcases List.mem_append.1 hg' with hg' | hg'
    · exact c.wires_lt g' hg'
    · rw [List.mem_singleton.1 hg']; exact h

/-- `c` with `v` appended to the public inputs. -/
def pushPublic (c : PlonkCircuit F) (v : Variable) : PlonkCircuit F :=
  { c with publicInput := c.publicInput ++ [v] }

end PlonkCircuit

/-! ### Programs -/

/-- A circuit-building program: it fails or returns a result and a circuit that has all the given
one had. -/
structure CircuitM (F α : Type) where
  /-- Run the program on a circuit. -/
  run : PlonkCircuit F → Except CircuitError (α × PlonkCircuit F)
  /-- A program removes nothing. -/
  grows : ∀ {c a c'}, run c = .ok (a, c') → c.Le c'

namespace CircuitM

variable {α β : Type}

/-- Run `p`, then `f` on its result. -/
def andThen (p : CircuitM F α) (f : α → CircuitM F β) : CircuitM F β where
  run c := match p.run c with
    | .ok (a, c') => (f a).run c'
    | .error e => .error e
  grows {c b c''} h := by
    split at h
    · rename_i a c' hp
      exact (p.grows hp).trans ((f a).grows h)
    · cases h

instance : Monad (CircuitM F) where
  pure a := ⟨fun c => .ok (a, c), fun h => by cases h; exact .refl _⟩
  bind := andThen

theorem ext {p q : CircuitM F α} (h : ∀ c, p.run c = q.run c) : p = q := by
  obtain ⟨run, _⟩ := p
  obtain rfl : run = q.run := funext h
  rfl

theorem run_bind (p : CircuitM F α) (f : α → CircuitM F β) (c : PlonkCircuit F) :
    (p >>= f).run c = match p.run c with
      | .ok (a, c') => (f a).run c'
      | .error e => .error e :=
  rfl

instance : LawfulMonad (CircuitM F) := LawfulMonad.mk' (CircuitM F)
  (fun p => ext fun c => by
    change (match p.run c with
      | .ok (a, c') => .ok (a, c')
      | .error e => .error e) = p.run c
    cases p.run c <;> rfl)
  (fun _ _ => rfl)
  (fun p f g => ext fun c => by
    simp only [run_bind]
    cases p.run c <;> rfl)

theorem run_bind_ok {p : CircuitM F α} {f : α → CircuitM F β} {c c'' : PlonkCircuit F} {b : β}
    (h : (p >>= f).run c = .ok (b, c'')) :
    ∃ a c', p.run c = .ok (a, c') ∧ (f a).run c' = .ok (b, c'') := by
  rw [run_bind] at h
  split at h
  · rename_i a c' hp
    exact ⟨a, c', hp, h⟩
  · cases h

/-- Run a program for each index of an array and collect the results. -/
def forArray : (n : ℕ) → (Fin n → CircuitM F α) → CircuitM F (Fin n → α)
  | 0, _ => pure Fin.elim0
  | n + 1, f => do
    let a ← f 0
    let as ← forArray n fun i => f i.succ
    return Fin.cons a as

end CircuitM

export CircuitM (forArray)

/-! ### Primitive operations -/

/-- `zero()`: the variable that holds the constant 0. -/
def zero : Variable := 0

/-- `one()`: the variable that holds the constant 1. -/
def one : Variable := 1

/-- A new variable with suggested value `x` and no constraint. -/
def createVariable (x : F) : CircuitM F Variable where
  run c := .ok (c.numVars, c.pushWitness x)
  grows h := by cases h; exact ⟨List.prefix_append _ _, List.prefix_rfl, List.prefix_rfl⟩

/-- The suggested value of a variable. -/
def witness (v : Variable) : CircuitM F F where
  run c := if h : v < c.witness.length then .ok (c.witness[v], c) else .error .varIndexOutOfBound
  grows h := by
    split at h
    · cases h; exact .refl _
    · cases h

/-- A relation between existing variables. -/
def enforce (wires : List Variable) (rel : List F → Bool) : CircuitM F Unit where
  run c :=
    if h : ∀ v ∈ wires, v < c.witness.length then .ok ((), c.pushGate ⟨wires, rel⟩ h)
    else .error .varIndexOutOfBound
  grows h := by
    split at h
    · cases h; exact ⟨List.prefix_rfl, List.prefix_append _ _, List.prefix_rfl⟩
    · cases h

/-- Append `v` to the public inputs. -/
def setVariablePublic (v : Variable) : CircuitM F Unit where
  run c := if v < c.witness.length then .ok ((), c.pushPublic v) else .error .varIndexOutOfBound
  grows h := by
    split at h
    · cases h; exact ⟨List.prefix_rfl, List.prefix_rfl, List.prefix_append _ _⟩
    · cases h

/-- Fail with `e`. -/
def fail {α : Type} (e : CircuitError) : CircuitM F α := ⟨fun _ => .error e, fun h => by cases h⟩

/-- A list of known length as an array; fails with `msg` on other lists. -/
def toArray {α : Type} (n : ℕ) (msg : String) (l : List α) : CircuitM F (Fin n → α) :=
  if h : l.length = n then pure fun i => l.get (i.cast h.symm) else fail (.parameterError msg)

section Ring

variable [Zero F] [One F] [DecidableEq F]

/-- `check_circuit_satisfiability`: fail unless the suggested values satisfy the gates and the
public variables hold the values `pub`. -/
def checkCircuitSatisfiability (pub : List F) : CircuitM F Unit where
  run c :=
    if c.Satisfies c.value ∧ c.publicInput.map c.value = pub then .ok ((), c)
    else .error .unsatisfied
  grows h := by
    split at h
    · cases h; exact .refl _
    · cases h

end Ring

/-- A new variable constrained to be `f` of the values of `wires`. -/
def applyGate [DecidableEq F] (wires : List Variable) (f : List F → F) :
    CircuitM F Variable := do
  let xs ← wires.mapM witness
  let o ← createVariable (f xs)
  enforce (o :: wires) fun
    | z :: ys => decide (z = f ys)
    | [] => false
  return o

end Plonk

end Nightfall
