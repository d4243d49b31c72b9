import Nightfall.Field.Bn254
import Nightfall.Plonk.Extension
import Mathlib.Algebra.BigOperators.Group.List.Basic
import Mathlib.Algebra.BigOperators.Ring.List
import Mathlib.Tactic.Ring

/-!
# The check of the verification key

`generate_vk_check_constraint` is given the value of the hash of the verification key, not the
variable that holds it, and constrains a new variable.  So the hash of the key is constrained only
by the rest of the circuit (`onlyAllowed_iff`).
-/

namespace Nightfall

namespace Rollup

open Plonk

section

variable {F : Type} [Field F] [DecidableEq F]

/-- One factor of the product: `acc * check_var - acc * const_var`. -/
def vkFactor (checkVar acc constVar : Variable) : CircuitM F Variable :=
  genQuadPoly [acc, checkVar, acc, constVar] [0, 0, 0, 0] [1, -1] 0

/-- `generate_vk_check_constraint`. -/
def generateVkCheckConstraint (checkHash : F) (vkHashes : List F) : CircuitM F Unit := do
  let constantVars ← vkHashes.mapM createConstantVariable
  let checkVar ← createVariable checkHash
  let prod ← constantVars.foldlM (vkFactor checkVar) one
  enforceEqual prod zero

/-- Every assignment that satisfies the circuit after the program has the property. -/
def Forces (c : PlonkCircuit F) (p : CircuitM F Unit) (Q : (Variable → F) → Prop) : Prop :=
  ∀ c', p.run c = .ok ((), c') → ∀ w, c'.Satisfies w → Q w

variable {P : Prover} {w : Variable → F} {vkHashes : List F}

theorem vkFactor_ensures (checkVar acc constVar : Variable) :
    Ensures P w (vkFactor checkVar acc constVar) fun o =>
      w o = w acc * (w checkVar - w constVar) := by
  refine (genQuadPoly_ensures acc checkVar acc constVar 0 0 0 0 1 (-1) 0).mono fun o ho => ?_
  rw [ho]
  ring

/-- The product is that of the differences. -/
theorem foldlM_vkFactor_ensures (checkVar acc : Variable) (constantVars : List Variable) :
    Ensures P w (constantVars.foldlM (vkFactor checkVar) acc) fun o =>
      w o = w acc * (constantVars.map fun v => w checkVar - w v).prod := by
  induction constantVars generalizing acc with
  | nil => exact .pure (by simp)
  | cons v constantVars ih =>
    rw [List.foldlM_cons]
    refine (vkFactor_ensures checkVar acc v).bind fun acc' hacc' => ?_
    refine (ih acc').mono fun o ho => ?_
    rw [ho, hacc', List.map_cons, List.prod_cons, mul_assoc]

omit [DecidableEq F] in
/-- A product of differences is zero if one of them is. -/
theorem prod_map_sub_eq_zero {x : F} : (vkHashes.map (x - ·)).prod = 0 ↔ x ∈ vkHashes := by
  rw [List.prod_eq_zero_iff, List.mem_map]
  constructor
  · rintro ⟨h, hh, hsub⟩
    exact sub_eq_zero.1 hsub ▸ hh
  · exact fun hx => ⟨x, hx, sub_self x⟩

/-- Some variable has one of the values, and there is one. -/
theorem generateVkCheckConstraint_ensures {checkHash : F}
    (h : P = .honest → checkHash ∈ vkHashes) :
    Ensures P w (generateVkCheckConstraint checkHash vkHashes) fun _ => vkHashes ≠ [] := by
  refine .const fun hzero hone => ?_
  unfold generateVkCheckConstraint
  refine (Ensures.mapM fun hash _ => createConstantVariable_ensures hash).bind fun vars hvars => ?_
  have hmap : vars.map w = vkHashes := map_eq_of_forall₂ hvars
  refine (createVariable_ensures checkHash).bind fun checkVar hcheck => ?_
  refine (foldlM_vkFactor_ensures checkVar one vars).bind fun prod hprod => ?_
  have hvalue : w prod = (vkHashes.map (w checkVar - ·)).prod := by
    rw [hprod, show w one = 1 from hone, one_mul, ← hmap, List.map_map]
    rfl
  refine (enforceEqual_ensures fun hP => ?_).mono fun _ heq => ?_
  · rw [hvalue, show w zero = 0 from hzero, prod_map_sub_eq_zero, hcheck hP]
    exact h hP
  · rw [hvalue, show w zero = 0 from hzero, prod_map_sub_eq_zero] at heq
    exact List.ne_nil_of_mem heq

/-- The new variable may have the value of any of the hashes, whatever the values of the others
are. -/
theorem generateVkCheckConstraint_extends {n : ℕ} {checkHash hash : F} (hn : 2 ≤ n)
    (hmem : hash ∈ vkHashes) :
    Extends n w (generateVkCheckConstraint checkHash vkHashes) fun _ _ _ => True := by
  unfold generateVkCheckConstraint
  have hconst : Extends n w (vkHashes.mapM createConstantVariable) fun m w' vars =>
      List.Forall₂ (fun h v => v.Below m ∧ w' v = h) vkHashes vars := by
    refine Extends.mapM (fun h m k w w' v hv hmk hw => ?_) fun h _ m w' hm _ => ?_
    · exact ⟨hv.1.mono hmk, (hw v hv.1).trans hv.2⟩
    · exact (Extends.applyGate (hn.trans hm) fun v hv => absurd hv List.not_mem_nil).and_ensures
        fun w' => createConstantVariable_ensures h
  refine hconst.bind fun m w₁ vars hm _ hvars => ?_
  refine (Extends.createVariable (hn.trans hm) _ hash).bind fun k w₂ check hk hw₂ hcheck => ?_
  obtain ⟨hbelow, hvalues⟩ := (List.forall₂_and_left _ _).1 hvars.flip
  have hprod : Extends k w₂ (vars.foldlM (vkFactor check) one) fun l w' o => o.Below l ∧
      w' o = w' one * (vars.map fun v => w' check - w' v).prod := by
    refine Extends.and_ensures ?_ fun w' => foldlM_vkFactor_ensures check one vars
    refine Extends.foldlM (fun _ _ _ _ v hv hmk _ => hv.mono hmk) (one_below (by omega)) ?_
    intro v hv l w' acc hl _ hacc
    have hv' := (hbelow v hv).mono (hk.trans hl)
    exact Extends.applyGate (by omega) (by simp [hacc, hv', hcheck.1.mono hl])
  refine hprod.bind fun l w₃ prod hl hw₃ hprod => .const fun hzero hone => ?_
  refine Extends.enforceEqual hprod.1 (zero_below (by omega)) ?_
  -- one of the factors is that of the chosen hash
  have hmap : vars.map w₃ = vkHashes := by
    rw [(hw₂.trans (hw₃.mono hk)).map_eq hbelow]
    exact map_eq_of_forall₂ hvalues.flip
  have hfactors : (vars.map fun v => w₃ check - w₃ v) = vkHashes.map (w₃ check - ·) := by
    rw [← hmap, List.map_map]
    rfl
  rw [hprod.2, hfactors, show w₃ one = 1 from hone, one_mul, show w₃ zero = 0 from hzero,
    prod_map_sub_eq_zero, hw₃ check hcheck.1, hcheck.2]
  exact hmem

/-- **The constraint leaves the hash of the key as free as it was, unless no key is allowed.** -/
theorem onlyAllowed_iff {c : PlonkCircuit F} (hc : (PlonkCircuit.newUltraPlonk F).Le c)
    {key : Variable} (hkey : key.Below c.numVars) :
    Forces c (generateVkCheckConstraint (c.value key) vkHashes) (fun w => w key ∈ vkHashes) ↔
      vkHashes = [] ∨ ∀ w, c.Satisfies w → w key ∈ vkHashes := by
  constructor
  · intro hforces
    refine or_iff_not_imp_left.2 fun hne w hw => ?_
    obtain ⟨hash, hmem⟩ := List.exists_mem_of_ne_nil _ hne
    obtain ⟨_, c', w', hrun, hagree, hsat, -⟩ :=
      generateVkCheckConstraint_extends hc.witness.length_le hmem c le_rfl hw
    exact hagree key hkey ▸ hforces c' hrun w' hsat
  · intro hcondition c' hrun w hw
    rcases hcondition with hnil | hall
    · exact absurd hnil ((generateVkCheckConstraint_ensures (by simp)).sound hrun hw)
    · exact hall w (hw.of_le ((generateVkCheckConstraint _ _).grows hrun))

end

/-! ### A key that is not allowed -/

/-- A circuit with a variable for the hash of the key, which the prover suggests to be 5. -/
def keyCircuit : PlonkCircuit Fr254 := (PlonkCircuit.newUltraPlonk Fr254).pushWitness 5

/-- The same circuit, in which the hash is constrained to be 5. -/
def fixedKeyCircuit : PlonkCircuit Fr254 :=
  keyCircuit.pushGate ⟨[2], fun xs => decide (xs = [5])⟩ (by simp [keyCircuit,
    PlonkCircuit.pushWitness, PlonkCircuit.newUltraPlonk])

theorem onlyAllowed_iff_sample :
    Forces fixedKeyCircuit (generateVkCheckConstraint (fixedKeyCircuit.value 2) [5, 8])
      fun w => w 2 ∈ [5, 8] := by
  have hkey : ∀ w, fixedKeyCircuit.Satisfies w → w 2 ∈ [5, 8] := by
    intro w hw
    have hgate := hw.2.2 _ (List.mem_append_right _ (List.mem_singleton_self _))
    have hvalue : [w 2] = [5] := of_decide_eq_true hgate
    simp [List.singleton_inj.1 hvalue]
  exact (onlyAllowed_iff ⟨⟨[5], rfl⟩, ⟨_, rfl⟩, ⟨[], rfl⟩⟩
    (show (2 : ℕ) < fixedKeyCircuit.numVars by decide)).2 (.inr hkey)

/-- The hash of the key is 6, and 5 and 8 are allowed. -/
theorem other_key_accepted : ∃ (c c' : PlonkCircuit Fr254) (key : Variable) (w : Variable → Fr254),
    (PlonkCircuit.newUltraPlonk Fr254).Le c ∧ key.Below c.numVars ∧ c.value key ∈ [5, 8] ∧
      (generateVkCheckConstraint (c.value key) [5, 8]).run c = .ok ((), c') ∧ c'.Satisfies w ∧
      w key ∉ [5, 8] := by
  have hkey : (2 : ℕ) < keyCircuit.numVars := by decide
  let w₀ : Variable → Fr254 := fun v => if v = 2 then 6 else if v = 1 then 1 else 0
  have hsat : keyCircuit.Satisfies w₀ := ⟨rfl, rfl, fun g hg => absurd hg List.not_mem_nil⟩
  have hextends : Extends 2 w₀ (generateVkCheckConstraint (keyCircuit.value 2) [5, 8])
      fun _ _ _ => True := generateVkCheckConstraint_extends le_rfl List.mem_cons_self
  obtain ⟨_, c', w, hrun, hagree, hw, -⟩ := hextends keyCircuit (by decide) hsat
  refine ⟨keyCircuit, c', 2, w, ⟨⟨[5], rfl⟩, ⟨[], rfl⟩, ⟨[], rfl⟩⟩, hkey, ?_, hrun, hw, ?_⟩
  · exact List.mem_cons_self
  · rw [hagree 2 hkey]
    decide +kernel

end Rollup

end Nightfall
