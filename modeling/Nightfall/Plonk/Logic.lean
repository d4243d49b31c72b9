import Nightfall.Plonk.Circuit
import Mathlib.Data.List.Forall2
import Mathlib.Data.List.OfFn

/-!
# Reasoning about circuit programs

Two judgements on a program `p`:

* `Ensures P w p Q` : after `p`, assignment `w` satisfies the circuit and the result has property
  `Q`.  For a *malicious* prover, `w` is any assignment that satisfies the circuit; for an
  *honest* one, `w` gives every variable its suggested value, and that it satisfies the circuit
  is to be proved.  The two provers differ only at a new variable, where the honest value is
  known, and at an enforced relation, which must hold of the honest values.  So a single
  specification of a gadget gives its soundness and its completeness.
* `Succeeds n p Q` : on circuits with at least `n` variables `p` returns a result, and makes
  nothing public.

There is one rule for each primitive operation and for sequencing, so that the specification of a
gadget is proved along its program text and used afterwards without unfolding it.
-/

namespace Nightfall

namespace Plonk

variable {F α β : Type}

/-- Who chose the assignment. -/
inductive Prover
  | /-- The values are the suggested ones. -/ honest
  | /-- The values are any that satisfy the circuit. -/ malicious
  deriving DecidableEq, Repr

/-- `w` gives the variables of `c` their suggested values. -/
def PlonkCircuit.Agrees (c : PlonkCircuit F) (w : Variable → F) : Prop :=
  ∀ v, (h : v < c.witness.length) → w v = c.witness[v]

theorem PlonkCircuit.Agrees.of_le {c c' : PlonkCircuit F} {w : Variable → F} (h : c'.Agrees w)
    (hc : c.Le c') : c.Agrees w := by
  intro v hv
  rw [h v (hv.trans_le hc.witness.length_le)]
  exact (hc.witness.getElem hv).symm

theorem PlonkCircuit.agrees_value [Zero F] (c : PlonkCircuit F) : c.Agrees c.value :=
  fun _ _ => (List.getElem_eq_getD 0).symm

section Ensures

variable [Zero F] [One F]

/-- What is known about `w` when a program turned `c` into `c'`. -/
def Prover.Knows (P : Prover) (w : Variable → F) (c c' : PlonkCircuit F) : Prop :=
  match P with
  | honest => c'.Agrees w ∧ c.Satisfies w
  | malicious => c'.Satisfies w

/-- After `p`, assignment `w` satisfies the circuit and the result has property `Q`. -/
def Ensures (P : Prover) (w : Variable → F) (p : CircuitM F α) (Q : α → Prop) : Prop :=
  ∀ c a c', p.run c = .ok (a, c') → P.Knows w c c' → c'.Satisfies w ∧ Q a

namespace Ensures

variable {P : Prover} {w : Variable → F} {p : CircuitM F α} {Q R : α → Prop}

theorem pure {a : α} (h : Q a) : Ensures P w (Pure.pure a) Q := by
  rintro c a' c' hp hw
  cases hp
  cases P with
  | honest => exact ⟨hw.2, h⟩
  | malicious => exact ⟨hw, h⟩

theorem bind {f : α → CircuitM F β} {S : β → Prop} (hp : Ensures P w p Q)
    (hf : ∀ a, Q a → Ensures P w (f a) S) : Ensures P w (p >>= f) S := by
  intro c b c'' hrun hw
  obtain ⟨a, c', hpc, hfc⟩ := CircuitM.run_bind_ok hrun
  have hgrow := (f a).grows hfc
  cases P with
  | honest =>
    obtain ⟨hsat, ha⟩ := hp c a c' hpc ⟨hw.1.of_le hgrow, hw.2⟩
    exact hf a ha c' b c'' hfc ⟨hw.1, hsat⟩
  | malicious =>
    obtain ⟨-, ha⟩ := hp c a c' hpc (hw.of_le hgrow)
    exact hf a ha c' b c'' hfc hw

theorem mono (h : Ensures P w p Q) (hQR : ∀ a, Q a → R a) : Ensures P w p R :=
  fun c a c' hp hw => ⟨(h c a c' hp hw).1, hQR a (h c a c' hp hw).2⟩

/-- The variables `zero()` and `one()` hold their constants. -/
theorem const (h : w 0 = 0 → w 1 = 1 → Ensures P w p Q) : Ensures P w p Q := by
  intro c a c' hp hw
  cases P with
  | honest => exact h hw.2.1 hw.2.2.1 c a c' hp hw
  | malicious => exact h hw.1 hw.2.1 c a c' hp hw

theorem mapM {f : α → CircuitM F β} {S : α → β → Prop} {l : List α}
    (hf : ∀ a ∈ l, Ensures P w (f a) (S a)) : Ensures P w (l.mapM f) (List.Forall₂ S l) := by
  induction l with
  | nil => rw [List.mapM_nil]; exact .pure .nil
  | cons a l ih =>
    rw [List.mapM_cons]
    refine (hf a List.mem_cons_self).bind fun b hb => ?_
    refine (ih fun a' ha' => hf a' (List.mem_cons_of_mem _ ha')).bind fun bs hbs => ?_
    exact .pure (.cons hb hbs)

/-- A list of new objects, each of which the honest assignment maps to what it was made for. -/
theorem mapM_honest {f : α → CircuitM F β} {g : β → α} {l : List α}
    (hf : ∀ a, Ensures P w (f a) fun b => P = .honest → g b = a) :
    Ensures P w (l.mapM f) fun bs => (P = .honest → bs.map g = l) ∧ bs.length = l.length := by
  refine (mapM (S := fun a b => P = .honest → g b = a) fun a _ => hf a).mono fun bs h =>
    ⟨fun hP => ?_, h.length_eq.symm⟩
  induction h with
  | nil => rfl
  | cons ha _ ih => rw [List.map_cons, ha hP, ih]

theorem forM {f : α → CircuitM F PUnit} {S : α → Prop} {l : List α}
    (hf : ∀ a ∈ l, Ensures P w (f a) fun _ => S a) :
    Ensures P w (l.forM f) fun _ => ∀ a ∈ l, S a := by
  induction l with
  | nil => exact .pure fun a ha => absurd ha List.not_mem_nil
  | cons a l ih =>
    change Ensures P w (f a >>= fun _ => l.forM f) _
    refine (hf a List.mem_cons_self).bind fun _ ha => ?_
    refine (ih fun a' ha' => hf a' (List.mem_cons_of_mem _ ha')).mono fun _ h => ?_
    exact List.forall_mem_cons.2 ⟨ha, h⟩

theorem forArray {n : ℕ} {f : Fin n → CircuitM F α} {S : Fin n → α → Prop}
    (hf : ∀ i, Ensures P w (f i) (S i)) : Ensures P w (forArray n f) fun as => ∀ i, S i (as i) := by
  induction n with
  | zero => exact .pure fun i => i.elim0
  | succ n ih =>
    refine (hf 0).bind fun a ha => ?_
    refine (ih fun i => hf i.succ).bind fun as has => ?_
    exact .pure (Fin.cases ha has)

end Ensures

/-- **Soundness**: any assignment that satisfies the circuit has the property. -/
theorem Ensures.sound {w : Variable → F} {p : CircuitM F α} {Q : α → Prop}
    (h : Ensures .malicious w p Q) {c c' : PlonkCircuit F} {a : α} (hrun : p.run c = .ok (a, c'))
    (hw : c'.Satisfies w) : Q a :=
  (h c a c' hrun hw).2

/-- **Completeness**: the suggested values satisfy the circuit. -/
theorem Ensures.complete {p : CircuitM F α} {Q : α → Prop} {c c' : PlonkCircuit F} {a : α}
    (hrun : p.run c = .ok (a, c')) (h : Ensures .honest c'.value p Q)
    (hc : c.Satisfies c'.value) : c'.Satisfies c'.value ∧ Q a :=
  h c a c' hrun ⟨c'.agrees_value, hc⟩

theorem PlonkCircuit.newUltraPlonk_satisfies {w : Variable → F}
    (h : (newUltraPlonk F).Agrees w) : (newUltraPlonk F).Satisfies w :=
  ⟨h 0 Nat.two_pos, h 1 Nat.one_lt_two, fun _ hg => absurd hg List.not_mem_nil⟩

/-! ### Primitive operations -/

section Primitive

variable {P : Prover} {w : Variable → F}

theorem createVariable_ensures (x : F) :
    Ensures P w (createVariable x) fun v => P = .honest → w v = x := by
  rintro c v c' hrun hw
  cases hrun
  cases P with
  | honest =>
    refine ⟨⟨hw.2.1, hw.2.2.1, hw.2.2.2⟩, fun _ => ?_⟩
    have hlen : c.numVars < (c.pushWitness x).witness.length := by
      simp [PlonkCircuit.pushWitness, PlonkCircuit.numVars]
    rw [hw.1 _ hlen]
    simp [PlonkCircuit.pushWitness, PlonkCircuit.numVars]
  | malicious => exact ⟨hw, fun h => nomatch h⟩

theorem witness_ensures (v : Variable) :
    Ensures P w (witness v) fun x => P = .honest → x = w v := by
  rintro c x c' hrun hw
  simp only [witness] at hrun
  split at hrun
  · rename_i hv
    cases hrun
    cases P with
    | honest => exact ⟨hw.2, fun _ => (hw.1 v hv).symm⟩
    | malicious => exact ⟨hw, fun h => nomatch h⟩
  · cases hrun

theorem enforce_ensures (wires : List Variable) (rel : List F → Bool)
    (h : P = .honest → rel (wires.map w) = true) :
    Ensures P w (enforce wires rel) fun _ => rel (wires.map w) = true := by
  rintro c ⟨⟩ c' hrun hw
  simp only [enforce] at hrun
  split at hrun
  · cases hrun
    cases P with
    | honest =>
      refine ⟨⟨hw.2.1, hw.2.2.1, fun g hg => ?_⟩, h rfl⟩
      rcases List.mem_append.1 hg with hg | hg
      · exact hw.2.2.2 g hg
      · rw [List.mem_singleton.1 hg]; exact h rfl
    | malicious =>
      exact ⟨hw, hw.2.2 _ (List.mem_append_right _ (List.mem_singleton_self _))⟩
  · cases hrun

theorem enforce_ensures_iff {wires : List Variable} {rel : List F → Bool} {R : Prop}
    (hrel : rel (wires.map w) = true ↔ R) (h : P = .honest → R) :
    Ensures P w (enforce wires rel) fun _ => R :=
  (enforce_ensures wires rel fun hP => hrel.2 (h hP)).mono fun _ => hrel.1

theorem setVariablePublic_ensures (v : Variable) :
    Ensures P w (setVariablePublic v) fun _ => True := by
  rintro c ⟨⟩ c' hrun hw
  simp only [setVariablePublic] at hrun
  split at hrun
  · cases hrun
    cases P with
    | honest => exact ⟨hw.2, trivial⟩
    | malicious => exact ⟨hw, trivial⟩
  · cases hrun

theorem fail_ensures {e : CircuitError} {Q : α → Prop} : Ensures P w (fail e) Q :=
  fun _ _ _ hrun _ => nomatch hrun

theorem toArray_ensures {n : ℕ} {msg : String} {l : List α} :
    Ensures P w (toArray n msg l : CircuitM F (Fin n → α)) fun a => List.ofFn a = l := by
  unfold toArray
  split
  · rename_i h
    subst h
    exact .pure (List.ofFn_get l)
  · exact fail_ensures

theorem checkCircuitSatisfiability_ensures [DecidableEq F] (pub : List F) :
    Ensures P w (checkCircuitSatisfiability pub) fun _ => True := by
  rintro c ⟨⟩ c' hrun hw
  simp only [checkCircuitSatisfiability] at hrun
  split at hrun
  · cases hrun
    cases P with
    | honest => exact ⟨hw.2, trivial⟩
    | malicious => exact ⟨hw, trivial⟩
  · cases hrun

theorem mapM_witness_ensures (l : List Variable) :
    Ensures P w (l.mapM witness) fun xs => P = .honest → xs = l.map w := by
  refine (Ensures.mapM fun v _ => witness_ensures v).mono fun xs hxs hP => ?_
  induction hxs with
  | nil => rfl
  | cons hx _ ih => rw [hx hP, ih, List.map_cons]

theorem applyGate_ensures [DecidableEq F] (wires : List Variable) (f : List F → F) :
    Ensures P w (applyGate wires f) fun o => w o = f (wires.map w) := by
  unfold applyGate
  refine (mapM_witness_ensures wires).bind fun xs hxs => ?_
  refine (createVariable_ensures _).bind fun o ho => ?_
  refine (enforce_ensures _ _ fun hP => ?_).bind fun _ h => ?_
  · simpa [← hxs hP] using ho hP
  · exact .pure (by simpa using h)

end Primitive

end Ensures

/-! ### Success -/

/-- On circuits with at least `n` variables `p` returns a result, which has property `Q` for the
number of variables there are then, and makes nothing public. -/
def Succeeds (n : ℕ) (p : CircuitM F α) (Q : ℕ → α → Prop) : Prop :=
  ∀ c : PlonkCircuit F, n ≤ c.numVars →
    ∃ a c', p.run c = .ok (a, c') ∧ c'.publicInput = c.publicInput ∧ Q c'.numVars a

namespace Succeeds

variable {n : ℕ} {p : CircuitM F α} {Q R : ℕ → α → Prop}

theorem pure {a : α} (h : ∀ m, n ≤ m → Q m a) : Succeeds n (Pure.pure a : CircuitM F α) Q :=
  fun c hc => ⟨a, c, rfl, rfl, h _ hc⟩

theorem bind {f : α → CircuitM F β} {S : ℕ → β → Prop} (hp : Succeeds n p Q)
    (hf : ∀ m a, n ≤ m → Q m a → Succeeds m (f a) S) : Succeeds n (p >>= f) S := by
  intro c hc
  obtain ⟨a, c', hrun, hpub, ha⟩ := hp c hc
  have hle : c.numVars ≤ c'.numVars := (p.grows hrun).witness.length_le
  obtain ⟨b, c'', hrun', hpub', hb⟩ := hf c'.numVars a (hc.trans hle) ha c' le_rfl
  refine ⟨b, c'', ?_, hpub'.trans hpub, hb⟩
  rw [CircuitM.run_bind, hrun]
  exact hrun'

theorem mono (h : Succeeds n p Q) (hQR : ∀ m a, n ≤ m → Q m a → R m a) : Succeeds n p R := by
  intro c hc
  obtain ⟨a, c', hrun, hpub, ha⟩ := h c hc
  exact ⟨a, c', hrun, hpub, hQR _ a (hc.trans (p.grows hrun).witness.length_le) ha⟩

theorem mapM {f : α → CircuitM F β} {S : ℕ → β → Prop} {l : List α}
    (hS : ∀ m k b, S m b → m ≤ k → S k b)
    (hf : ∀ a ∈ l, ∀ m, n ≤ m → Succeeds m (f a) S) :
    Succeeds n (l.mapM f) fun m bs => bs.length = l.length ∧ ∀ b ∈ bs, S m b := by
  induction l generalizing n with
  | nil => rw [List.mapM_nil]; exact .pure fun m _ => ⟨rfl, fun b hb => absurd hb List.not_mem_nil⟩
  | cons a l ih =>
    rw [List.mapM_cons]
    refine (hf a List.mem_cons_self n le_rfl).bind fun m b hm hb => ?_
    refine (ih fun a' ha' k hk => hf a' (List.mem_cons_of_mem _ ha') k (hm.trans hk)).bind
      fun k bs hk hbs => ?_
    refine .pure fun j hj => ⟨congrArg Nat.succ hbs.1, ?_⟩
    exact List.forall_mem_cons.2 ⟨hS _ _ _ hb (hk.trans hj), fun b' hb' => hS _ _ _ (hbs.2 b' hb') hj⟩

theorem forArray {k : ℕ} {f : Fin k → CircuitM F α} {S : ℕ → α → Prop}
    (hS : ∀ m k a, S m a → m ≤ k → S k a) (hf : ∀ i m, n ≤ m → Succeeds m (f i) S) :
    Succeeds n (forArray k f) fun m as => ∀ i, S m (as i) := by
  induction k generalizing n with
  | zero => exact .pure fun _ _ i => i.elim0
  | succ k ih =>
    refine (hf 0 n le_rfl).bind fun m a hm ha => ?_
    refine (ih fun i j hj => hf i.succ j (hm.trans hj)).bind fun j as hj has => ?_
    exact .pure fun i hi => Fin.cases (hS _ _ _ ha (hj.trans hi)) fun l => hS _ _ _ (has l) hi

theorem createVariable (x : F) : Succeeds n (createVariable x) fun m v => v.Below m := by
  refine fun c _ => ⟨_, _, rfl, rfl, ?_⟩
  simp [Variable.Below, PlonkCircuit.numVars, PlonkCircuit.pushWitness]

theorem witness {v : Variable} (hv : v.Below n) :
    Succeeds n (witness v : CircuitM F F) fun _ _ => True := by
  intro c hc
  have hv' : v < c.witness.length := hv.mono hc
  exact ⟨c.witness[v], c, by simp only [Plonk.witness, dif_pos hv'], rfl, trivial⟩

theorem enforce {wires : List Variable} {rel : List F → Bool} (h : ∀ v ∈ wires, v.Below n) :
    Succeeds n (enforce wires rel) fun _ _ => True := by
  intro c hc
  have h' : ∀ v ∈ wires, v < c.witness.length := fun v hv => (h v hv).mono hc
  exact ⟨(), c.pushGate ⟨wires, rel⟩ h', by simp only [Plonk.enforce, dif_pos h'], rfl, trivial⟩

theorem forM {f : α → CircuitM F PUnit} {l : List α}
    (hf : ∀ a ∈ l, ∀ m, n ≤ m → Succeeds m (f a) fun _ _ => True) :
    Succeeds n (l.forM f) fun _ _ => True := by
  induction l generalizing n with
  | nil => exact .pure fun _ _ => trivial
  | cons a l ih =>
    refine (hf a List.mem_cons_self n le_rfl).bind fun m _ hm _ => ?_
    exact ih fun a' ha' k hk => hf a' (List.mem_cons_of_mem _ ha') k (hm.trans hk)

theorem toArray {k : ℕ} {msg : String} {l : List Variable} (hl : l.length = k)
    (h : ∀ v ∈ l, v.Below n) :
    Succeeds n (toArray k msg l : CircuitM F (Fin k → Variable)) fun m a => ∀ i, (a i).Below m := by
  unfold Plonk.toArray
  rw [dif_pos hl]
  exact .pure fun m hm i => (h _ (List.get_mem _ _)).mono hm

theorem applyGate [DecidableEq F] {wires : List Variable} {f : List F → F}
    (h : ∀ v ∈ wires, v.Below n) : Succeeds n (applyGate wires f) fun m o => o.Below m := by
  unfold Plonk.applyGate
  refine (mapM (S := fun _ _ => True) (fun _ _ _ _ _ => trivial) fun v hv m hm =>
    witness ((h v hv).mono hm)).bind fun m xs hm _ => ?_
  refine (createVariable _).bind fun k o hk ho => ?_
  refine (enforce ?_).bind fun j _ hj _ => .pure fun i hi => ho.mono (hj.trans hi)
  exact List.forall_mem_cons.2 ⟨ho, fun v hv => (h v hv).mono (hm.trans hk)⟩

end Succeeds

/-! ### Publication -/

/-- Make a variable public and read its value. -/
def publish (v : Variable) : CircuitM F F := do
  setVariablePublic v
  witness v

theorem publish_ensures [Zero F] [One F] {P : Prover} {w : Variable → F} (v : Variable) :
    Ensures P w (publish v) fun x => P = .honest → x = w v :=
  (setVariablePublic_ensures v).bind fun _ _ => witness_ensures v

theorem publish_run {v : Variable} {c : PlonkCircuit F} (hv : v.Below c.numVars) :
    ∃ x, (publish v).run c = .ok (x, c.pushPublic v) := by
  have hv' : v < c.witness.length := hv
  refine ⟨c.witness[v], ?_⟩
  rw [publish, CircuitM.run_bind]
  simp only [setVariablePublic, if_pos hv', witness, PlonkCircuit.pushPublic, dif_pos hv']

/-- Publishing an array of variables adds them, and only them, to the public inputs. -/
theorem publishArray_run {n : ℕ} {v : Fin n → Variable} {c : PlonkCircuit F}
    (hv : ∀ i, (v i).Below c.numVars) :
    ∃ x c', (forArray n fun i => publish (v i)).run c = .ok (x, c') ∧
      c'.publicInput = c.publicInput ++ List.ofFn v ∧ c'.numVars = c.numVars := by
  induction n generalizing c with
  | zero => exact ⟨_, _, rfl, by simp, rfl⟩
  | succ n ih =>
    obtain ⟨x, hx⟩ := publish_run (hv 0)
    obtain ⟨xs, c', hxs, hpub, hnum⟩ := ih (v := fun i => v i.succ) (c := c.pushPublic (v 0))
      fun i => hv i.succ
    refine ⟨Fin.cons x xs, c', ?_, ?_, hnum⟩
    · rw [forArray, CircuitM.run_bind, hx]
      simp only
      rw [CircuitM.run_bind, hxs]
      rfl
    · rw [hpub, List.ofFn_succ]
      simp [PlonkCircuit.pushPublic]

end Plonk

end Nightfall
