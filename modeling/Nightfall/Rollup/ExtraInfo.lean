import Nightfall.Node.ExtraInfo
import Nightfall.Rollup.Honest

/-!
# What a base circuit reads

`base_bn254_extra_checks` is modelled twice.  `Node.baseBn254ExtraChecks` is what it reads of the values
that the prover gives it, with the errors of its conversions; `baseBn254ExtraChecks` is the circuit that
it makes.  In a circuit that is satisfied the values that are checked are those that are read
(`baseBn254ExtraChecks_read`).
-/

namespace Nightfall

namespace Rollup

open Plonk Evm Contract Merkle Trees Node

/-- What the conversions make of the values for two transactions. -/
def ExtraPis.read (reader : WitnessReader) (pi : ExtraPis Fr254) : Option PairChecks := do
  let membership ← (List.finRange 8).mapM fun i => do
    let proof ← reader.membershipTryFrom (pi.proofs i)
    pure ⟨proof, pi.leafRoots i, pi.roots i⟩
  let commitmentInfo ← reader.insertionFromSlice pi.commitmentInfo 29
  let nullifierInfo ← reader.nullifierFromSlice pi.nullifierInfo 32 8
  pure ⟨membership, commitmentInfo, nullifierInfo⟩

variable {reader : WitnessReader} {l₁ l₂ l₃ : ℕ} {pi : List Fr254}

theorem readMembership_slice (h : 8 * (l₁ + 2) ≤ pi.length) (i : Fin 8) :
    readMembership reader l₁ (((pi.drop 8).drop (i * (l₁ + 1))).take (l₁ + 1)) (pi.getD i 0) = (do
      let proof ← reader.membershipTryFrom ((ExtraPis.slice 0 l₁ l₂ l₃ pi).proofs i)
      pure ⟨proof, (ExtraPis.slice 0 l₁ l₂ l₃ pi).leafRoots i,
        (ExtraPis.slice 0 l₁ l₂ l₃ pi).roots i⟩) := by
  have hi : i * (l₁ + 1) + (l₁ + 1) ≤ 8 * (l₁ + 1) := by
    rw [← Nat.succ_mul]
    exact Nat.mul_le_mul_right _ i.isLt
  rw [List.drop_drop, readMembership]
  have hlt : 8 + i * (l₁ + 1) + l₁ < pi.length := by omega
  have hlen : ((pi.drop (8 + i * (l₁ + 1))).take (l₁ + 1)).length = l₁ + 1 := by
    rw [List.length_take, List.length_drop]
    omega
  have hroot : ((pi.drop (8 + i * (l₁ + 1))).take (l₁ + 1))[l₁]? =
      some (pi.getD (8 + i * (l₁ + 1) + l₁) 0) := by
    rw [List.getElem?_take_of_lt (by omega), List.getElem?_drop, List.getElem?_eq_getElem hlt,
      List.getD_eq_getElem _ _ hlt]
  rw [if_neg (by omega), hroot, List.take_take, min_eq_left (by omega)]
  rfl

theorem zip_leafRoots (h : 8 * (l₁ + 2) ≤ pi.length) :
    ((chunks (l₁ + 1) (pi.drop 8)).take 8).zip (pi.take 8) = List.ofFn fun i : Fin 8 =>
      (((pi.drop 8).drop (i * (l₁ + 1))).take (l₁ + 1), pi.getD i 0) := by
  have hlen : 8 * (l₁ + 1) ≤ (pi.drop 8).length := by
    rw [List.length_drop]
    omega
  have hroots : pi.take 8 = List.ofFn fun i : Fin 8 => pi.getD i 0 := by
    refine List.ext_getElem (by rw [List.length_take, List.length_ofFn]; omega) fun i hi _ => ?_
    rw [List.length_take] at hi
    rw [List.getElem_take, List.getElem_ofFn, List.getD_eq_getElem _ _ (by omega)]
  rw [take_chunks (by omega) hlen, hroots, List.zip]
  exact List.ext_getElem (by simp) fun i _ _ => by simp

theorem readPair_slice (h : 8 * (l₁ + 2) + l₂ ≤ pi.length) :
    readPair reader l₁ l₂ l₃ pi = (ExtraPis.slice 0 l₁ l₂ l₃ pi).read reader := by
  rw [readPair, zip_leafRoots (by omega), List.ofFn_eq_map, List.mapM_map]
  have hmembership := @readMembership_slice reader l₁ l₂ l₃ pi (by omega)
  have hlt : ¬pi.length < 8 * (l₁ + 2) := by omega
  have hlt' : ¬pi.length < 8 * (l₁ + 2) + l₂ := by omega
  simp only [Function.comp_def, hmembership, if_neg (by omega : ¬pi.length < 8), if_neg hlt,
    if_neg hlt']
  rfl

theorem readPair_eq_none (h : pi.length < 8 * (l₁ + 2) + l₂) : readPair reader l₁ l₂ l₃ pi = none := by
  rw [readPair]
  split_ifs
  · rfl
  · exact Option.bind_eq_none_iff.2 fun membership _ => rfl
  · exact Option.bind_eq_none_iff.2 fun membership _ => Option.bind_eq_none_iff.2 fun info _ => rfl

/-- A slice is read as its parts; an index out of the bounds is an error of both. -/
theorem readPair_map {w : Variable → Fr254} (hzero : w zero = 0) (vars : List Variable) :
    readPair reader l₁ l₂ l₃ (vars.map w) =
      (ExtraPis.ofSlice l₁ l₂ l₃ vars).bind fun pi => (pi.eval w).read reader := by
  rw [ExtraPis.ofSlice]
  split_ifs with h
  · rw [Option.bind_some, ExtraPis.eval_slice hzero, readPair_slice (by rwa [List.length_map])]
  · rw [Option.bind_none, readPair_eq_none (by rwa [List.length_map, ← not_le])]

/-- **The circuit checks what is read.** -/
theorem baseBn254ExtraChecks_read {lib : TreeLibrary} {w : Variable → Fr254} {vars : List Variable}
    {e : BaseExtraChecks} (h : Satisfied (baseBn254ExtraChecks lib vars l₁ l₂ l₃) w e) :
    Node.baseBn254ExtraChecks reader l₁ l₂ l₃ (vars.map w) = (do
      let first ← ((e.pis 0).eval w).read reader
      let second ← ((e.pis 1).eval w).read reader
      pure (.ofPairs first second)) := by
  have hpis : Ensures .malicious w (baseBn254ExtraChecks lib vars l₁ l₂ l₃) fun r =>
      w zero = 0 ∧ ExtraPis.ofSlice l₁ l₂ l₃ (vars.take (vars.length / 2)) = some (r.pis 0) ∧
        ExtraPis.ofSlice l₁ l₂ l₃ (vars.drop (vars.length / 2)) = some (r.pis 1) := by
    unfold baseBn254ExtraChecks
    refine .const fun hzero _ => ?_
    refine (orFail_ensures fun _ hfirst => hfirst).bind fun firstPis hfirst => ?_
    refine (orFail_ensures fun _ hsecond => hsecond).bind fun secondPis hsecond => ?_
    rw [List.splitAt_eq] at hfirst hsecond
    refine (halfChecks_ensures lib.enforces_true _).bind fun _ _ => ?_
    refine (halfChecks_ensures lib.enforces_true _).bind fun _ _ => ?_
    refine (enforceEqual_ensures fun h => by cases h).bind fun _ _ => ?_
    refine (enforceEqual_ensures fun h => by cases h).bind fun _ _ => ?_
    exact (checkCircuitSatisfiability_ensures _).bind fun _ _ => .pure ⟨hzero, hfirst, hsecond⟩
  obtain ⟨hzero, hfirst, hsecond⟩ := h.of_ensures hpis
  rw [Node.baseBn254ExtraChecks, List.length_map, ← List.map_take, ← List.map_drop,
    readPair_map hzero, readPair_map hzero, hfirst, hsecond]
  rfl

end Rollup

end Nightfall
