import Nightfall.Plonk.Gadgets

/-!
# Extending assignments

A third judgement on a program `p`.  `Extends n w p Q` : on a circuit with at least `n` variables
that `w` satisfies, `p` returns a result, and there is an assignment that satisfies the circuit
then, gives the old variables the values that `w` gives them, and has property `Q`.

So the values of the variables that `p` creates without a constraint may be chosen, as a malicious
prover does; those of the outputs of gates may not.
-/

namespace Nightfall

namespace Plonk

variable {F α β : Type}

/-- `w'` gives the first `n` variables the values that `w` gives them. -/
def AgreesBelow (n : ℕ) (w w' : Variable → F) : Prop := ∀ v : Variable, v.Below n → w' v = w v

theorem AgreesBelow.mono {n m : ℕ} {w w' : Variable → F} (h : AgreesBelow m w w') (hnm : n ≤ m) :
    AgreesBelow n w w' := fun v hv => h v (hv.mono hnm)

theorem AgreesBelow.trans {n : ℕ} {w w' w'' : Variable → F} (h : AgreesBelow n w w')
    (h' : AgreesBelow n w' w'') : AgreesBelow n w w'' := fun v hv => (h' v hv).trans (h v hv)

theorem AgreesBelow.map_eq {n : ℕ} {w w' : Variable → F} (h : AgreesBelow n w w')
    {l : List Variable} (hl : ∀ v ∈ l, v.Below n) : l.map w' = l.map w :=
  List.map_congr_left fun v hv => h v (hl v hv)

theorem map_eq_of_forall₂ {w : Variable → F} {xs : List F} {vars : List Variable}
    (h : List.Forall₂ (fun x v => w v = x) xs vars) : vars.map w = xs := by
  induction h with
  | nil => rfl
  | cons hv _ ih => rw [List.map_cons, hv, ih]

variable [Zero F] [One F]

/-- An assignment of the circuit can be extended to the variables of `p`, with property `Q`. -/
def Extends (n : ℕ) (w : Variable → F) (p : CircuitM F α)
    (Q : ℕ → (Variable → F) → α → Prop) : Prop :=
  ∀ c : PlonkCircuit F, n ≤ c.numVars → c.Satisfies w →
    ∃ a c' w', p.run c = .ok (a, c') ∧ AgreesBelow c.numVars w w' ∧ c'.Satisfies w' ∧
      Q c'.numVars w' a

/-- A property of the first variables that stays true when there are more of them. -/
def Stable (S : ℕ → (Variable → F) → α → Prop) : Prop :=
  ∀ m k w w' a, S m w a → m ≤ k → AgreesBelow m w w' → S k w' a

namespace Extends

variable {n : ℕ} {w : Variable → F} {p : CircuitM F α} {Q R : ℕ → (Variable → F) → α → Prop}

theorem pure {a : α} (h : ∀ m, n ≤ m → Q m w a) : Extends n w (Pure.pure a) Q :=
  fun c hc hsat => ⟨a, c, w, rfl, fun _ _ => rfl, hsat, h _ hc⟩

theorem bind {f : α → CircuitM F β} {S : ℕ → (Variable → F) → β → Prop} (hp : Extends n w p Q)
    (hf : ∀ m w' a, n ≤ m → AgreesBelow n w w' → Q m w' a → Extends m w' (f a) S) :
    Extends n w (p >>= f) S := by
  intro c hc hsat
  obtain ⟨a, c', w', hrun, hagree, hsat', ha⟩ := hp c hc hsat
  have hle : c.numVars ≤ c'.numVars := (p.grows hrun).witness.length_le
  obtain ⟨b, c'', w'', hrun', hagree', hsat'', hb⟩ :=
    hf c'.numVars w' a (hc.trans hle) (hagree.mono hc) ha c' le_rfl hsat'
  refine ⟨b, c'', w'', ?_, hagree.trans (hagree'.mono hle), hsat'', hb⟩
  rw [CircuitM.run_bind, hrun]
  exact hrun'

/-- The variables `zero()` and `one()` hold their constants. -/
theorem const (h : w 0 = 0 → w 1 = 1 → Extends n w p Q) : Extends n w p Q :=
  fun c hc hsat => h hsat.1 hsat.2.1 c hc hsat

/-- What holds of every assignment that satisfies the circuit holds of the extended one. -/
theorem and_ensures {R : (Variable → F) → α → Prop} (h : Extends n w p Q)
    (hR : ∀ w', Ensures .malicious w' p (R w')) : Extends n w p fun m w' a => Q m w' a ∧ R w' a := by
  intro c hc hsat
  obtain ⟨a, c', w', hrun, hagree, hsat', ha⟩ := h c hc hsat
  exact ⟨a, c', w', hrun, hagree, hsat', ha, (hR w').sound hrun hsat'⟩

theorem mapM {f : α → CircuitM F β} {S : α → ℕ → (Variable → F) → β → Prop} {l : List α}
    (hS : ∀ a, Stable (S a))
    (hf : ∀ a ∈ l, ∀ m w', n ≤ m → AgreesBelow n w w' → Extends m w' (f a) (S a)) :
    Extends n w (l.mapM f) fun m w' bs => List.Forall₂ (fun a b => S a m w' b) l bs := by
  induction l generalizing n w with
  | nil => rw [List.mapM_nil]; exact .pure fun _ _ => .nil
  | cons a l ih =>
    rw [List.mapM_cons]
    refine (hf a List.mem_cons_self n w le_rfl fun _ _ => rfl).bind fun m w' b hm hw' hb => ?_
    refine (ih fun a' ha' k w'' hk hw'' => hf a' (List.mem_cons_of_mem _ ha') k w'' (hm.trans hk)
      (hw'.trans (hw''.mono hm))).bind fun k w'' bs hk hw'' hbs => ?_
    refine .pure fun j hj => .cons (hS a _ _ _ _ _ hb (hk.trans hj) hw'') ?_
    exact hbs.imp fun a' b' hb' => hS a' _ _ _ _ _ hb' hj fun _ _ => rfl

/-- A loop that carries an accumulator. -/
theorem foldlM {f : β → α → CircuitM F β} {S : ℕ → (Variable → F) → β → Prop} {l : List α} {b : β}
    (hS : Stable S) (hb : S n w b)
    (hf : ∀ a ∈ l, ∀ m w' b, n ≤ m → AgreesBelow n w w' → S m w' b → Extends m w' (f b a) S) :
    Extends n w (l.foldlM f b) S := by
  induction l generalizing n w b with
  | nil => exact .pure fun m hm => hS _ _ _ _ _ hb hm fun _ _ => rfl
  | cons a l ih =>
    rw [List.foldlM_cons]
    refine (hf a List.mem_cons_self n w b le_rfl (fun _ _ => rfl) hb).bind
      fun m w' b' hm hw' hb' => ih hb' fun a' ha' k w'' b'' hk hw'' hb'' => ?_
    exact hf a' (List.mem_cons_of_mem _ ha') k w'' b'' (hm.trans hk) (hw'.trans (hw''.mono hm)) hb''

/-! ### Primitive operations -/

/-- A new variable may have any value. -/
theorem createVariable (hn : 2 ≤ n) (x y : F) :
    Extends n w (createVariable x) fun m w' v => v.Below m ∧ w' v = y := by
  intro c hc hsat
  have hagree : AgreesBelow c.numVars w (Function.update w c.numVars y) := fun v hv =>
    Function.update_of_ne (Nat.ne_of_lt hv) ..
  have h2 : 2 ≤ c.numVars := hn.trans hc
  have hsat' : c.Satisfies (Function.update w c.numVars y) :=
    hsat.congr (hagree 0 (Nat.lt_of_lt_of_le Nat.two_pos h2))
      (hagree 1 (Nat.lt_of_lt_of_le Nat.one_lt_two h2)) hagree
  refine ⟨_, _, _, rfl, hagree, ⟨hsat'.1, hsat'.2.1, hsat'.2.2⟩, ?_, Function.update_self ..⟩
  simp [Variable.Below, PlonkCircuit.numVars, PlonkCircuit.pushWitness]

theorem witness {v : Variable} (hv : v.Below n) :
    Extends n w (witness v) fun _ _ _ => True := by
  intro c hc hsat
  have hv' : v < c.witness.length := hv.mono hc
  refine ⟨c.witness[v], c, w, ?_, fun _ _ => rfl, hsat, trivial⟩
  simp only [Plonk.witness, dif_pos hv']

/-- A relation may be enforced that holds. -/
theorem enforce {wires : List Variable} {rel : List F → Bool} (h : ∀ v ∈ wires, v.Below n)
    (hrel : rel (wires.map w) = true) : Extends n w (enforce wires rel) fun _ _ _ => True := by
  intro c hc hsat
  have h' : ∀ v ∈ wires, v < c.witness.length := fun v hv => (h v hv).mono hc
  refine ⟨(), c.pushGate ⟨wires, rel⟩ h', w, ?_, fun _ _ => rfl, ?_, trivial⟩
  · simp only [Plonk.enforce, dif_pos h']
  · refine ⟨hsat.1, hsat.2.1, fun g hg => ?_⟩
    rcases List.mem_append.1 hg with hg | hg
    · exact hsat.2.2 g hg
    · rw [List.mem_singleton.1 hg]
      exact hrel

/-- The output of a gate is new. -/
theorem applyGate [DecidableEq F] (hn : 2 ≤ n) {wires : List Variable} {f : List F → F}
    (h : ∀ v ∈ wires, v.Below n) :
    Extends n w (applyGate wires f) fun m _ o => o.Below m := by
  unfold Plonk.applyGate
  refine (mapM (S := fun _ _ _ _ => True) (fun _ _ _ _ _ _ _ _ _ => trivial) fun v hv m w' hm _ =>
    witness ((h v hv).mono hm)).bind fun m w₁ xs hm hw₁ _ => ?_
  refine (createVariable (hn.trans hm) _ (f (wires.map w₁))).bind fun k w₂ o hk hw₂ ho => ?_
  have hwires : wires.map w₂ = wires.map w₁ := hw₂.map_eq fun v hv => (h v hv).mono hm
  refine (enforce ?_ ?_).bind fun j _ _ hj _ _ => .pure fun i hi => ?_
  · exact List.forall_mem_cons.2 ⟨ho.1, fun v hv => (h v hv).mono (hm.trans hk)⟩
  · simp [ho.2, hwires]
  · exact ho.1.mono (hj.trans hi)

end Extends

/-! ### Gadgets -/

namespace Extends

variable {F : Type} [CommRing F] [DecidableEq F] {n : ℕ} {w : Variable → F}

theorem enforceEqual {a b : Variable} (ha : a.Below n) (hb : b.Below n) (h : w a = w b) :
    Extends n w (enforceEqual a b) fun _ _ _ => True :=
  enforce (by simp [ha, hb]) (by simp [h])

end Extends

end Plonk

end Nightfall
