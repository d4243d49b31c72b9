import Nightfall.Plonk.Logic
import Mathlib.Data.List.GetD

/-!
# Circuits that are satisfied

`Satisfied p w a` says that a circuit with the program `p` inside is satisfied by `w`; then all that
`p` enforces holds of `w`.  To show that there is such a circuit takes an honest prover: a program that
runs, on the values that it reads (`Runs`), and whose suggested values meet its specification
(`exists_honest`).  Such a circuit also passes the check that a program makes of it before it goes on
(`Honest.check`).
-/

namespace Nightfall

namespace Plonk

/-- A circuit with the checks `p` inside is satisfied by `w`; the checks returned `a`. -/
def Satisfied {F α : Type} [Zero F] [One F] (p : CircuitM F α) (w : Variable → F) (a : α) : Prop :=
  ∃ c c', p.run c = .ok (a, c') ∧ c'.Satisfies w

theorem Satisfied.of_ensures {F α : Type} [Zero F] [One F] {p : CircuitM F α} {w : Variable → F} {a : α}
    {Q : α → Prop} (h : Satisfied p w a) (hp : Ensures .malicious w p Q) : Q a := by
  obtain ⟨c, c', hrun, hw⟩ := h
  exact hp.sound hrun hw

/-! ### Values that are read -/

section Runs

variable {F α β : Type} {c₀ : PlonkCircuit F}

/-- `p` returns a result with property `Q` on every circuit that has all that `c₀` has, and makes
nothing public. -/
def Runs (c₀ : PlonkCircuit F) (p : CircuitM F α) (Q : PlonkCircuit F → α → Prop) : Prop :=
  ∀ c, c₀.Le c → ∃ a c', p.run c = .ok (a, c') ∧ c'.publicInput = c.publicInput ∧ Q c' a

theorem Runs.of_succeeds {p : CircuitM F α} {Q : ℕ → α → Prop} (h : Succeeds c₀.numVars p Q) :
    Runs c₀ p fun c' a => Q c'.numVars a :=
  fun c hc => h c hc.witness.length_le

theorem Runs.of_le {p : CircuitM F α} {Q : PlonkCircuit F → α → Prop} {c : PlonkCircuit F}
    (h : Runs c₀ p Q) (hc : c₀.Le c) : Runs c p Q :=
  fun c' hc' => h c' (hc.trans hc')

theorem Runs.pure {a : α} {Q : PlonkCircuit F → α → Prop} (h : ∀ c, c₀.Le c → Q c a) :
    Runs c₀ (Pure.pure a) Q :=
  fun c hc => ⟨a, c, rfl, rfl, h c hc⟩

theorem Runs.bind {p : CircuitM F α} {f : α → CircuitM F β} {Q : PlonkCircuit F → α → Prop}
    {R : PlonkCircuit F → β → Prop} (hp : Runs c₀ p Q)
    (hf : ∀ c a, c₀.Le c → Q c a → Runs c (f a) R) : Runs c₀ (p >>= f) R := by
  intro c hc
  obtain ⟨a, c', hrun, hpub, ha⟩ := hp c hc
  have hle := hc.trans (p.grows hrun)
  obtain ⟨b, c'', hrun', hpub', hb⟩ := hf c' a hle ha c' (.refl c')
  refine ⟨b, c'', ?_, hpub'.trans hpub, hb⟩
  rw [CircuitM.run_bind, hrun]
  exact hrun'

theorem Runs.forArray {n : ℕ} {f : Fin n → CircuitM F α} (hf : ∀ i, Runs c₀ (f i) fun _ _ => True) :
    Runs c₀ (forArray n f) fun _ _ => True := by
  induction n with
  | zero => exact .pure fun _ _ => trivial
  | succ n ih =>
    refine (hf 0).bind fun c a hc _ => ?_
    refine ((ih fun i => hf i.succ).of_le hc).bind fun _ _ _ _ => ?_
    exact .pure fun _ _ => trivial

theorem PlonkCircuit.Le.value_eq [Zero F] {c : PlonkCircuit F} (h : c₀.Le c) {v : Variable}
    (hv : v.Below c₀.numVars) : c.value v = c₀.value v := by
  have hv' : v < c₀.witness.length := hv
  obtain ⟨l, hl⟩ := h.witness
  rw [PlonkCircuit.value, PlonkCircuit.value, ← hl, List.getD_append _ _ _ _ hv']

theorem Variable.Below.of_le {c : PlonkCircuit F} {v : Variable} (h : v.Below c₀.numVars)
    (hc : c₀.Le c) : v.Below c.numVars :=
  h.mono hc.witness.length_le

theorem Runs.enforce {wires : List Variable} {rel : List F → Bool}
    (h : ∀ v ∈ wires, v.Below c₀.numVars) : Runs c₀ (enforce wires rel) fun _ _ => True :=
  .of_succeeds (Succeeds.enforce h)

theorem Runs.applyGate [DecidableEq F] {wires : List Variable} {f : List F → F}
    (h : ∀ v ∈ wires, v.Below c₀.numVars) :
    Runs c₀ (applyGate wires f) fun c o => o.Below c.numVars :=
  .of_succeeds (Succeeds.applyGate h)

/-- The values that are read are those of the circuit. -/
theorem Runs.mapM_witness [Zero F] {vars : List Variable} (h : ∀ v ∈ vars, v.Below c₀.numVars) :
    Runs c₀ (vars.mapM witness) fun _ xs => xs = vars.map c₀.value := by
  induction vars with
  | nil =>
    rw [List.mapM_nil]
    exact .pure fun _ _ => rfl
  | cons v vars ih =>
    obtain ⟨hv, hvars⟩ := List.forall_mem_cons.1 h
    intro c hc
    have hv' : v < c.witness.length := hv.mono hc.witness.length_le
    obtain ⟨xs, c', hrun, hpub, hxs⟩ := ih hvars c hc
    refine ⟨c.witness[v] :: xs, c', ?_, hpub, ?_⟩
    · rw [List.mapM_cons, CircuitM.run_bind]
      simp only [witness, dif_pos hv']
      rw [CircuitM.run_bind, hrun]
      rfl
    · have hvalue : c.witness[v] = c.value v := List.getElem_eq_getD 0
      rw [hxs, hvalue, hc.value_eq hv, List.map_cons]

end Runs

/-! ### Honest provers -/

section Honest

variable {F α β : Type} [Zero F] [One F]

/-- A circuit with the checks `p` inside, with nothing public, is satisfied by the suggested values,
which are `w`; the checks returned `a`. -/
def Honest (p : CircuitM F α) (w : Variable → F) (a : α) : Prop :=
  ∃ c c', p.run c = .ok (a, c') ∧ c'.publicInput = [] ∧ c'.Satisfies c'.value ∧ w = c'.value

section

variable {p : CircuitM F α} {w : Variable → F} {a : α}

theorem Honest.satisfied (h : Honest p w a) : Satisfied p w a := by
  obtain ⟨c, c', hrun, -, hw, rfl⟩ := h
  exact ⟨c, c', hrun, hw⟩

theorem Honest.bind {f : α → CircuitM F β} {b : β} (h : Honest (p >>= f) w b) :
    ∃ a, Satisfied p w a ∧ Honest (f a) w b := by
  obtain ⟨c, c'', hrun, hpub, hw, rfl⟩ := h
  obtain ⟨a, c', hp, hf⟩ := CircuitM.run_bind_ok hrun
  exact ⟨a, ⟨c, c', hp, hw.of_le ((f a).grows hf)⟩, c', c'', hf, hpub, hw, rfl⟩

/-- The check passes on the circuit of an honest prover. -/
theorem Honest.check [DecidableEq F] (h : Honest p w a) (f : α → β) :
    Satisfied (do
      let a ← p
      checkCircuitSatisfiability []
      return f a) w (f a) := by
  obtain ⟨c, c', hrun, hpub, hw, rfl⟩ := h
  have hcheck : (checkCircuitSatisfiability []).run c' = .ok ((), c') :=
    if_pos ⟨hw, by rw [hpub, List.map_nil]⟩
  refine ⟨c, c', ?_, hw⟩
  rw [CircuitM.run_bind, hrun]
  dsimp only
  rw [CircuitM.run_bind, hcheck]
  rfl

end

/-- **An honest prover satisfies a circuit**: a program `pre` makes variables with the property `R`, and
`p` runs on such variables and meets its honest specification. -/
theorem exists_honest {pre : CircuitM F β} {p : β → CircuitM F α} {B : ℕ → β → Prop}
    {R : (Variable → F) → β → Prop} {Q : (Variable → F) → β → α → Prop}
    (hbelow : Succeeds 2 pre B) (hvalues : ∀ w, Ensures .honest w pre (R w))
    (hruns : ∀ c vars, 2 ≤ c.numVars → B c.numVars vars → R c.value vars →
      Runs c (p vars) fun _ _ => True)
    (hensures : ∀ w vars, R w vars → Ensures .honest w (p vars) (Q w vars)) :
    ∃ w vars a, R w vars ∧ Honest (p vars) w a ∧ Q w vars a := by
  obtain ⟨vars, c, hrun, hpub, hB⟩ := hbelow (.newUltraPlonk F) le_rfl
  have hle := pre.grows hrun
  have hnew : ∀ c' : PlonkCircuit F, c.Le c' → (PlonkCircuit.newUltraPlonk F).Satisfies c'.value :=
    fun c' hc' => PlonkCircuit.newUltraPlonk_satisfies (c'.agrees_value.of_le (hle.trans hc'))
  obtain ⟨-, hR⟩ := Ensures.complete hrun (hvalues c.value) (hnew c (.refl c))
  obtain ⟨a, c', hrun', hpub', -⟩ := hruns c vars hle.witness.length_le hB hR c (.refl c)
  have hle' := (p vars).grows hrun'
  -- the suggested values satisfy one part after the other
  obtain ⟨hsat, hR'⟩ := hvalues c'.value _ _ _ hrun ⟨c'.agrees_value.of_le hle', hnew c' hle'⟩
  obtain ⟨hsat', hQ⟩ := Ensures.complete hrun' (hensures c'.value vars hR') hsat
  exact ⟨c'.value, vars, a, hR', ⟨c, c', hrun', hpub'.trans hpub, hsat', rfl⟩, hQ⟩

/-- New variables for an array of values. -/
def createArrays {n k : ℕ} (values : Fin n → Fin k → F) : CircuitM F (Fin n → Fin k → Variable) :=
  forArray n fun i => forArray k fun j => createVariable (values i j)

omit [Zero F] [One F] in
theorem createArrays_succeeds {n k : ℕ} (values : Fin n → Fin k → F) :
    Succeeds 2 (createArrays values) fun m vars => ∀ i j, (vars i j).Below m :=
  Succeeds.forArray (fun _ _ _ h hmk j => (h j).mono hmk) fun _ _ _ =>
    Succeeds.forArray (fun _ _ _ h hmk => h.mono hmk) fun _ _ _ => Succeeds.createVariable _

theorem createArrays_ensures {n k : ℕ} (values : Fin n → Fin k → F) (w : Variable → F) :
    Ensures .honest w (createArrays values) fun vars => ∀ i j, w (vars i j) = values i j :=
  Ensures.forArray fun _ => Ensures.forArray fun _ =>
    (createVariable_ensures _).mono fun _ h => h rfl

end Honest

end Plonk

end Nightfall
