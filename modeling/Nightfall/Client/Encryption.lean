import Nightfall.Client.Inputs

/-!
# The public data of a transaction

In a transfer the public data is the encryption of the transferred note for its recipient, in a
withdraw it says what is withdrawn to whom.  `verifyEncryption` computes both and selects one.

The domain separators and the counters of the key stream are new variables without a constraint:
an assignment may give them any value, so what the circuit says of the ciphertext is only that
it is a ciphertext for *some* separators (`verifyEncryption_ensures`).
-/

namespace Nightfall

namespace Client

open Plonk

/-- Domain separator of the key encapsulation. -/
def domainKem : Fr254 :=
  (21033365405711675223813179268586447041622169155539365736392974498519442361181 : ℕ)

/-- Domain separator of the data encapsulation. -/
def domainDem : Fr254 :=
  (1241463701002173366467794894814691939898321302682516549591039420117995599097 : ℕ)

/-- `kem`: the encryption key. -/
def kem (poseidon : List Fr254 → Fr254) (sharedSecret : PointVariable) :
    CircuitM Fr254 Variable := do
  let domainKemVar ← createVariable domainKem
  poseidonHash poseidon [sharedSecret.x, sharedSecret.y, domainKemVar]

/-- The body of the loop of `dem`: entry `i` of the ciphertext. -/
def demEntry (poseidon : List Fr254 → Fr254) (encryptionKeyVar domainDemVar : Variable)
    (plain : Variable × ℕ) : CircuitM Fr254 Variable := do
  let tmpVar ← createVariable (plain.2 : Fr254)
  let tmpHash ← poseidonHash poseidon [encryptionKeyVar, domainDemVar, tmpVar]
  add tmpHash plain.1

/-- `dem`: the ciphertext. -/
def dem (poseidon : List Fr254 → Fr254) (encryptionKeyVar : Variable) (plainText : List Variable) :
    CircuitM Fr254 (List Variable) := do
  let domainDemVar ← createVariable domainDem
  plainText.zipIdx.mapM (demEntry poseidon encryptionKeyVar domainDemVar)

/-- `kemdem`: the ephemeral public key and the ciphertext. -/
def kemdem (Pr : Primitives) (ephemeralKey : Variable) (sharedSecret : PointVariable)
    (plainText : List Variable) : CircuitM Fr254 (PointVariable × List Variable) := do
  let encryptionKeyVar ← kem Pr.poseidon sharedSecret
  let cipherText ← dem Pr.poseidon encryptionKeyVar plainText
  let pubPoint ← createConstantPointVariable Pr.generator
  let epk ← variableBaseScalarMul Pr.scalarMul ephemeralKey pubPoint
  return (epk, cipherText)

/-- `verify_encryption`: the five words of public data. -/
def verifyEncryption (Pr : Primitives) (nfTokenId nfSlotId newCommitmentsValue : Variable)
    (sharedSecret : PointVariable) (ephemeralKey withdrawAddress : Variable)
    (withdrawFlag : BoolVar) : CircuitM Fr254 (List Variable) := do
  let (epk, cipherText) ← kemdem Pr ephemeralKey sharedSecret
    [nfTokenId, nfSlotId, newCommitmentsValue]
  let negX ← sub zero epk.x
  let flag ← isLt negX epk.x
  let cipherText := cipherText ++ [epk.y, flag.var]
  if cipherText.length ≠ 5 then
    fail (.parameterError "Calculated cipher text has length not equal to 4")
  else
    let withdrawCipherText := [nfTokenId, withdrawAddress, newCommitmentsValue, zero, zero]
    (cipherText.zip withdrawCipherText).mapM fun cw =>
      conditionalSelect withdrawFlag cw.1 cw.2

/-- Choices of the values that the circuit leaves open. -/
structure KeyStream where
  domainKem : Fr254
  domainDem : Fr254
  index : Fin 3 → Fr254

/-- The choices of an honest prover. -/
def honestStream : KeyStream := ⟨domainKem, domainDem, fun i => (i : ℕ)⟩

/-- The public data of a transfer. -/
def transferData (Pr : Primitives) (k : KeyStream) (nfTokenId nfSlotId value : Fr254)
    (sharedSecret : Point Fr254) (ephemeralKey : Fr254) : List Fr254 :=
  let key := Pr.poseidon [sharedSecret.x, sharedSecret.y, k.domainKem]
  let epk := Pr.scalarMul ephemeralKey Pr.generator
  [Pr.poseidon [key, k.domainDem, k.index 0] + nfTokenId,
    Pr.poseidon [key, k.domainDem, k.index 1] + nfSlotId,
    Pr.poseidon [key, k.domainDem, k.index 2] + value,
    epk.y, ofBool (decide ((0 - epk.x).val < epk.x.val))]

/-- The public data of a withdraw. -/
def withdrawData (nfTokenId withdrawAddress value : Fr254) : List Fr254 :=
  [nfTokenId, withdrawAddress, value, 0, 0]

variable {P : Prover} {w : Variable → Fr254}

theorem kem_ensures (poseidon : List Fr254 → Fr254) (sharedSecret : PointVariable) :
    Ensures P w (kem poseidon sharedSecret) fun v => ∃ d,
      w v = poseidon [w sharedSecret.x, w sharedSecret.y, d] ∧ (P = .honest → d = domainKem) := by
  unfold kem
  refine (createVariable_ensures _).bind fun d hd => ?_
  exact (poseidonHash_ensures _ _).mono fun v hv => ⟨w d, hv, hd⟩

theorem demEntry_ensures (poseidon : List Fr254 → Fr254) (key domain : Variable)
    (plain : Variable × ℕ) :
    Ensures P w (demEntry poseidon key domain plain) fun v => ∃ i,
      w v = poseidon [w key, w domain, i] + w plain.1 ∧ (P = .honest → i = plain.2) := by
  unfold demEntry
  refine (createVariable_ensures _).bind fun i hi => ?_
  refine (poseidonHash_ensures _ _).bind fun s hs => ?_
  refine (add_ensures _ _).mono fun v hv => ⟨w i, ?_, hi⟩
  rw [hv, hs, List.map_cons, List.map_cons, List.map_cons, List.map_nil]

/-- The ciphertext of three words. -/
theorem dem_ensures (poseidon : List Fr254 → Fr254) (key a b c : Variable) :
    Ensures P w (dem poseidon key [a, b, c]) fun v => ∃ d i,
      v.map w = [poseidon [w key, d, i 0] + w a, poseidon [w key, d, i 1] + w b,
        poseidon [w key, d, i 2] + w c] ∧
      (P = .honest → d = domainDem ∧ i = honestStream.index) := by
  unfold dem
  refine (createVariable_ensures _).bind fun d hd => ?_
  refine (Ensures.mapM fun plain _ => demEntry_ensures poseidon key d plain).mono fun v hv => ?_
  obtain _ | ⟨⟨i, hi, hi'⟩, _ | ⟨⟨j, hj, hj'⟩, _ | ⟨⟨k, hk, hk'⟩, ⟨⟩⟩⟩⟩ := hv
  refine ⟨w d, ![i, j, k], by simp [hi, hj, hk], fun hP => ⟨hd hP, ?_⟩⟩
  funext l
  fin_cases l
  · exact hi' hP
  · exact hj' hP
  · exact hk' hP

theorem verifyEncryption_ensures (Pr : Primitives)
    (nfTokenId nfSlotId newCommitmentsValue : Variable) (sharedSecret : PointVariable)
    (ephemeralKey withdrawAddress : Variable) (withdrawFlag : BoolVar) :
    Ensures P w (verifyEncryption Pr nfTokenId nfSlotId newCommitmentsValue sharedSecret
      ephemeralKey withdrawAddress withdrawFlag) fun out => ∃ k,
        out.map w = (if w withdrawFlag.var = 0 then
          transferData Pr k (w nfTokenId) (w nfSlotId) (w newCommitmentsValue)
            (sharedSecret.map w) (w ephemeralKey)
        else withdrawData (w nfTokenId) (w withdrawAddress) (w newCommitmentsValue)) ∧
        (P = .honest → k = honestStream) := by
  unfold verifyEncryption kemdem
  simp only [bind_assoc, pure_bind]
  refine Ensures.const fun h0 _ => ?_
  have hz : w zero = 0 := h0
  refine (kem_ensures _ _).bind fun key ⟨d, hkey, hd⟩ => ?_
  refine (dem_ensures _ _ _ _ _).bind fun cipher ⟨e, i, hcipher, hi⟩ => ?_
  refine (createConstantPointVariable_ensures _).bind fun G hG => ?_
  refine (variableBaseScalarMul_ensures _ _ _).bind fun epk hepk => ?_
  refine (sub_ensures _ _).bind fun negX hneg => ?_
  refine (isLt_ensures _ _).bind fun flag hflag => ?_
  rw [hG] at hepk
  obtain ⟨a, b, c, rfl⟩ : ∃ a b c, cipher = [a, b, c] :=
    List.length_eq_three.1 (by simpa using congrArg List.length hcipher)
  simp only [List.map_cons, List.map_nil, List.cons.injEq, and_true] at hcipher
  obtain ⟨ha, hb, hc⟩ := hcipher
  have hx : w epk.x = (Pr.scalarMul (w ephemeralKey) Pr.generator).x := congrArg Point.x hepk
  have hy : w epk.y = (Pr.scalarMul (w ephemeralKey) Pr.generator).y := congrArg Point.y hepk
  rw [hneg, hz, hx] at hflag
  rw [if_neg (by simp)]
  refine (Ensures.mapM fun cw _ => conditionalSelect_ensures _ _ _).mono fun out hout => ?_
  obtain _ | ⟨h₁, _ | ⟨h₂, _ | ⟨h₃, _ | ⟨h₄, _ | ⟨h₅, ⟨⟩⟩⟩⟩⟩⟩ := hout
  refine ⟨⟨d, e, i⟩, ?_, fun hP => ?_⟩
  · rw [List.map_cons, List.map_cons, List.map_cons, List.map_cons, List.map_cons, List.map_nil,
      h₁, h₂, h₃, h₄, h₅, ha, hb, hc, hy, hflag, hz, hkey]
    by_cases h : w withdrawFlag.var = 0
    · simp only [h, ↓reduceIte, transferData, Point.map_x, Point.map_y]
    · simp only [h, ↓reduceIte, withdrawData]
  · rw [hd hP, (hi hP).1, (hi hP).2]
    rfl

/-! ### Success -/

section Succeeds

variable {n : ℕ}

theorem kem_succeeds {poseidon : List Fr254 → Fr254} {sharedSecret : PointVariable}
    (h : sharedSecret.Below n) : Succeeds n (kem poseidon sharedSecret) fun m v => v.Below m := by
  unfold kem
  exact (Succeeds.createVariable _).bind fun m d _ hd => .applyGate (by grind)

theorem dem_succeeds {poseidon : List Fr254 → Fr254} {key : Variable} {plainText : List Variable}
    (hkey : key.Below n) (h : ∀ v ∈ plainText, v.Below n) :
    Succeeds n (dem poseidon key plainText) fun m l =>
      l.length = plainText.length ∧ ∀ v ∈ l, v.Below m := by
  unfold dem
  refine (Succeeds.createVariable _).bind fun m d hm hd => ?_
  refine (Succeeds.mapM (S := fun m v => Variable.Below v m) (fun _ _ _ h h' => h.mono h')
    fun plain hplain k hk => ?_).mono fun _ l _ hl => ?_
  · have hp : plain.1.Below n := h _ (List.fst_mem_of_mem_zipIdx hplain)
    unfold demEntry
    refine (Succeeds.createVariable _).bind fun k₁ i l₁ hi => ?_
    refine (Succeeds.applyGate (by grind)).bind fun k₂ s l₂ hs => ?_
    exact .applyGate (by grind)
  · exact ⟨by simpa using hl.1, hl.2⟩

theorem kemdem_succeeds {Pr : Primitives} {ephemeralKey : Variable} {sharedSecret : PointVariable}
    {plainText : List Variable} (he : ephemeralKey.Below n) (hs : sharedSecret.Below n)
    (h : ∀ v ∈ plainText, v.Below n) :
    Succeeds n (kemdem Pr ephemeralKey sharedSecret plainText) fun m r =>
      r.1.Below m ∧ r.2.length = plainText.length ∧ ∀ v ∈ r.2, v.Below m := by
  unfold kemdem
  refine (kem_succeeds hs).bind fun m₁ key l₁ hkey => ?_
  refine (dem_succeeds hkey fun v hv => (h v hv).mono l₁).bind fun m₂ cipher l₂ hcipher => ?_
  refine (Succeeds.createConstantPointVariable _).bind fun m₃ G l₃ hG => ?_
  refine (Succeeds.variableBaseScalarMul (by grind) hG).bind fun m₄ epk l₄ hepk => ?_
  exact .pure fun m hm => ⟨hepk.mono hm, hcipher.1, fun v hv => (hcipher.2 v hv).mono (by omega)⟩

theorem verifyEncryption_succeeds (hn : 2 ≤ n) {Pr : Primitives}
    {nfTokenId nfSlotId newCommitmentsValue ephemeralKey withdrawAddress : Variable}
    {sharedSecret : PointVariable} {withdrawFlag : BoolVar}
    (hv : ∀ v ∈ [nfTokenId, nfSlotId, newCommitmentsValue, ephemeralKey, withdrawAddress,
      withdrawFlag.var], v.Below n) (hs : sharedSecret.Below n) :
    Succeeds n (verifyEncryption Pr nfTokenId nfSlotId newCommitmentsValue sharedSecret
      ephemeralKey withdrawAddress withdrawFlag) fun m l =>
        l.length = 5 ∧ ∀ v ∈ l, v.Below m := by
  unfold verifyEncryption
  simp only [List.forall_mem_cons] at hv
  obtain ⟨h₁, h₂, h₃, h₄, h₅, h₆, -⟩ := hv
  refine (kemdem_succeeds h₄ hs (by grind)).bind fun m₁ r l₁ hr => ?_
  obtain ⟨hepk, hlen, hcipher⟩ := hr
  have hz := zero_below (hn.trans l₁)
  refine (Succeeds.applyGate (by grind)).bind fun m₂ negX l₂ hneg => ?_
  refine (Succeeds.applyBoolGate (by grind)).bind fun m₃ flag l₃ hflag => ?_
  rw [if_neg (by simp [hlen])]
  refine (Succeeds.mapM (S := fun m v => Variable.Below v m) (fun _ _ _ h h' => h.mono h')
    fun cw hcw k hk => .applyGate ?_).mono fun m l _ hl => ⟨by simp [hl.1, hlen], hl.2⟩
  obtain ⟨hc, hw⟩ := List.of_mem_zip hcw
  grind

end Succeeds

end Client

end Nightfall
