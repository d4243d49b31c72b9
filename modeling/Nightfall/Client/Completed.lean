import Nightfall.Client.Assignment

/-!
# The completed public inputs

The prover builds the circuit and checks that the suggested values satisfy it.  Then the public inputs
that it returns are those of the operation that the inputs suggest.

* `Attains` : what holds of the result of a program if the suggested values satisfy the circuit;
* `completed` : the public inputs of a circuit that its own values satisfy;
* `exists_completed` : inputs with integrity give such a circuit.
-/

namespace Nightfall

namespace Plonk

variable {F : Type} [Zero F] [One F] {α β : Type}

/-- After `p`, if the suggested values `w` satisfy the circuit, the result has property `Q`. -/
def Attains (w : Variable → F) (p : CircuitM F α) (Q : α → Prop) : Prop :=
  ∀ c a c', p.run c = .ok (a, c') → c'.Agrees w → c'.Satisfies w → Q a

namespace Attains

variable {w : Variable → F} {p : CircuitM F α} {Q R : α → Prop}

theorem pure {a : α} (h : Q a) : Attains w (Pure.pure a) Q := by
  rintro c a' c' hp - -
  cases hp
  exact h

theorem bind {f : α → CircuitM F β} {S : β → Prop} (hp : Attains w p Q)
    (hf : ∀ a, Q a → Attains w (f a) S) : Attains w (p >>= f) S := by
  intro c b c'' hrun hagrees hsat
  obtain ⟨a, c', hpc, hfc⟩ := CircuitM.run_bind_ok hrun
  have hgrow := (f a).grows hfc
  have ha := hp c a c' hpc (hagrees.of_le hgrow) (hsat.of_le hgrow)
  exact hf a ha c' b c'' hfc hagrees hsat

/-- A step of which nothing needs to be known. -/
theorem skip {f : α → CircuitM F β} {S : β → Prop} (hf : ∀ a, Attains w (f a) S) :
    Attains w (p >>= f) S :=
  bind (Q := fun _ => True) (fun _ _ _ _ _ _ => trivial) fun a _ => hf a

theorem forArray {n : ℕ} {f : Fin n → CircuitM F α} {S : Fin n → α → Prop}
    (hf : ∀ i, Attains w (f i) (S i)) :
    Attains w (forArray n f) fun as => ∀ i, S i (as i) := by
  induction n with
  | zero => exact pure fun i => i.elim0
  | succ n ih =>
    refine bind (hf 0) fun a ha => ?_
    refine bind (ih fun i => hf i.succ) fun as has => ?_
    exact pure (Fin.cases ha has)

end Attains

/-- What a program ensures for either prover it attains. -/
theorem Ensures.attains {P : Prover} {w : Variable → F} {p : CircuitM F α} {Q : α → Prop}
    (h : Ensures P w p Q) : Attains w p Q := by
  intro c a c' hrun hagrees hsat
  cases P with
  | honest => exact (h c a c' hrun ⟨hagrees, hsat.of_le (p.grows hrun)⟩).2
  | malicious => exact (h c a c' hrun hsat).2

end Plonk

namespace Client

open Plonk

section Attained

variable {w : Variable → Fr254}

/-- The operation that is proved is the suggested one. -/
theorem operationCircuit_attains (Pr : Primitives) (publicInputs : PublicInputs Fr254)
    (privateInputs : PrivateInputs) :
    Attains w (operationCircuit Pr publicInputs privateInputs) fun x =>
      x.operation w = suggested Pr publicInputs privateInputs := by
  unfold operationCircuit
  refine (createVariable_ensures (P := .honest) _).attains.bind fun fee hfee => ?_
  refine (createArray_ensures (P := .honest) _).attains.bind fun roots hroots => ?_
  refine (fromPrivateInputs_ensures (P := .honest) _).attains.bind fun x hx => ?_
  -- the ranges and the balances
  refine .skip fun _ => .skip fun _ => .skip fun _ => .skip fun _ => .skip fun _ => .skip fun _ =>
    .skip fun _ => ?_
  refine (createPointVariable_ensures (P := .honest) _).attains.bind fun pubPoint hpub => ?_
  -- the keys, the flags and the gadgets
  refine .skip fun _ => .skip fun _ => .skip fun _ => .skip fun _ => .skip fun _ => .skip fun _ =>
    .skip fun _ => .skip fun _ => .skip fun _ => .skip fun _ => .skip fun _ => .pure ?_
  rw [TransferWires.operation, suggested, hfee rfl, hroots rfl, hx.1 rfl, hpub rfl]

/-- The public inputs that are returned are the values of their variables. -/
theorem assessOperationIntegrity_attains (Pr : Primitives) (publicInputs : PublicInputs Fr254)
    (privateInputs : PrivateInputs) :
    Attains w (assessOperationIntegrity Pr publicInputs privateInputs) fun r =>
      r.2.2.operation w = suggested Pr publicInputs privateInputs ∧
        r.1 = r.2.2.publicInputs.map w := by
  have hpublish : ∀ v, Attains w (publish v) fun y => y = w v := fun v => by
    intro c y c' hrun hagrees hsat
    exact (publish_ensures (P := .honest) v).attains c y c' hrun hagrees hsat rfl
  unfold assessOperationIntegrity
  refine (operationCircuit_attains Pr _ _).bind fun x hx => ?_
  refine (hpublish _).bind fun fee hfee => ?_
  refine (Attains.forArray fun i => hpublish _).bind fun roots hroots => ?_
  refine (Attains.forArray fun i => hpublish _).bind fun commitments hcommitments => ?_
  refine (Attains.forArray fun i => hpublish _).bind fun nullifiers hnullifiers => ?_
  refine (Attains.forArray fun i => hpublish _).bind fun secrets hsecrets => ?_
  refine .pure ⟨hx, ?_⟩
  obtain rfl : roots = w ∘ x.publicInputs.roots := funext hroots
  obtain rfl : commitments = w ∘ x.publicInputs.commitments := funext hcommitments
  obtain rfl : nullifiers = w ∘ x.publicInputs.nullifiers := funext hnullifiers
  obtain rfl : secrets = w ∘ x.publicInputs.compressedSecrets := funext hsecrets
  rw [hfee]
  rfl

end Attained

/-- The public inputs of an operation. -/
structure Operation.Completes (Pr : Primitives) (o : Operation) (x : PublicInputs Fr254) : Prop where
  fee : x.fee = o.fee
  roots : x.roots = o.roots
  commitments : x.commitments = o.commitments Pr
  nullifiers : x.nullifiers = o.nullifiers Pr
  publicData : ∃ k, List.ofFn x.compressedSecrets = o.publicData Pr k

variable {Pr : Primitives} {publicInputs : PublicInputs Fr254} {privateInputs : PrivateInputs}

/-- **What the prover returns**: if the circuit is satisfied by its own values, the operation that the
inputs suggest has integrity, and the public inputs are its own. -/
theorem completed {r : PublicInputs Fr254 × PrivateInputs × TransferWires}
    {c : PlonkCircuit Fr254}
    (hrun : (assessOperationIntegrity Pr publicInputs privateInputs).run (.newUltraPlonk Fr254) =
      .ok (r, c)) (hsat : c.Satisfies c.value) :
    (suggested Pr publicInputs privateInputs).Integrity Pr ∧
      (suggested Pr publicInputs privateInputs).Completes Pr r.1 ∧
        c.publicInput.map c.value = r.1.toList := by
  obtain ⟨hoperation, hreturned⟩ := assessOperationIntegrity_attains Pr publicInputs privateInputs
    _ r c hrun c.agrees_value hsat
  let A : TransferAssignment Pr := ⟨publicInputs, privateInputs, r, c, hrun, c.value, hsat⟩
  have hchosen : A.operation = suggested Pr publicInputs privateInputs := hoperation
  have hvalues : r.1 = A.publicValues := hreturned
  refine ⟨hchosen ▸ A.integrity, ⟨?_, ?_, ?_, ?_, ?_⟩, ?_⟩
  · rw [hvalues, ← hchosen]
    rfl
  · rw [hvalues, ← hchosen]
    rfl
  · rw [hvalues, A.commitments_eq, hchosen]
  · rw [hvalues, A.nullifiers_eq, hchosen]
  · rw [hvalues, ← hchosen]
    exact A.publicData_eq
  · rw [hvalues]
    exact A.publicInput_eq

/-- Inputs with integrity give a circuit that its own values satisfy. -/
theorem exists_completed (h : (suggested Pr publicInputs privateInputs).Integrity Pr) :
    ∃ r c, (assessOperationIntegrity Pr publicInputs privateInputs).run (.newUltraPlonk Fr254) =
      .ok (r, c) ∧ c.Satisfies c.value := by
  obtain ⟨r, c, hrun, -⟩ := assessOperationIntegrity_run Pr publicInputs privateInputs
    (c := .newUltraPlonk Fr254) le_rfl
  have hagrees : (PlonkCircuit.newUltraPlonk Fr254).Agrees c.value :=
    c.agrees_value.of_le ((assessOperationIntegrity Pr publicInputs privateInputs).grows hrun)
  have hsat := (Ensures.complete hrun
    (assessOperationIntegrity_ensures Pr publicInputs privateInputs fun _ => h)
    (PlonkCircuit.newUltraPlonk_satisfies hagrees)).1
  exact ⟨r, c, hrun, hsat⟩

end Client

end Nightfall
