import Nightfall.Client.Assignment
import Nightfall.Node.Words

/-!
# Encryption outside of the circuit

A note is encrypted for its recipient with a key that follows from the shared secret, and the
ephemeral public key is sent along as its `y`-coordinate and a sign.  The recipient puts the sign into
the top bit of the bytes of the coordinate, as compressed points have it, and decompresses the point.

The circuit computes the same ciphertext, and the recipient finds the note of the first commitment in
it (`encryption_roundtrip`).  The scalar multiplication and the decompression of points are
parameters.
-/

namespace Nightfall

namespace Client

open Plonk Node Trees

section Functions

variable (Pr : Primitives)

/-- A scalar times a point. -/
def Primitives.mul (k : BJJScalar) (Q : Point Fr254) : Point Fr254 :=
  Pr.scalarMul (k.val : Fr254) Q

/-- The sign of a point: its `x`-coordinate is larger than the negated one. -/
def pointSign (Q : Point Fr254) : Bool := decide ((-Q.x).val < Q.x.val)

/-- `serialize_compressed`: the bytes of the `y`-coordinate, with the sign as the top bit. -/
def serializePoint (Q : Point Fr254) : List ℕ :=
  let bytes := bytesLE 32 Q.y.val
  bytes.set 31 (bytes.getD 31 0 + if pointSign Q then 2 ^ 7 else 0)

/-- The body of the loops over the plain text and the ciphertext: a word of the key stream. -/
def keyStream (encryptionKey : Fr254) (i : ℕ) : Fr254 :=
  Pr.poseidon [encryptionKey, domainDem, (i : Fr254)]

/-- The key that follows from a shared secret. -/
def encryptionKey (sharedSecret : Point Fr254) : Fr254 :=
  Pr.poseidon [sharedSecret.x, sharedSecret.y, domainKem]

/-- `kemdem_encrypt`; `none` stands for invalid inputs. -/
def kemdemEncrypt (isWithdraw : Bool) (ephemeralPrivateKey : BJJScalar)
    (recipientPublicKey : Point Fr254) (plainText : List Fr254) (publicPoint : Point Fr254) :
    Option (List Fr254) :=
  if plainText.length ≠ 3 then none
  else if isWithdraw then some (plainText ++ [0, 0])
  else
    let sharedSecret := Pr.mul ephemeralPrivateKey recipientPublicKey
    let ephemeralPublicKey := Pr.mul ephemeralPrivateKey publicPoint
    let key := encryptionKey Pr sharedSecret
    let cipherText := plainText.zipIdx.map fun plain => keyStream Pr key plain.2 + plain.1
    some (cipherText ++ [ephemeralPublicKey.y, if pointSign ephemeralPublicKey then 1 else 0])

/-- The bytes from which `kemdem_decrypt` reads the ephemeral key. -/
def pointBytes (cipherText : Fin 5 → Fr254) : List ℕ :=
  let bytes := bytesLE 32 (cipherText ⟨3, by decide⟩).val
  let flag := ((bytesLE 32 (cipherText ⟨4, by decide⟩).val).getD 0 0 * 2 ^ 7) % 2 ^ 8
  bytes.set 31 ((bytes.getD 31 0 + flag) % 2 ^ 8)

/-- `kemdem_decrypt`; `none` if the bytes are not those of a point. -/
def kemdemDecrypt (deserialize : List ℕ → Option (Point Fr254)) (recipientPrivateKey : BJJScalar)
    (cipherText : Fin 5 → Fr254) : Option (List Fr254) :=
  (deserialize (pointBytes cipherText)).map fun epk =>
    let sharedSecret := Pr.mul recipientPrivateKey epk
    let key := encryptionKey Pr sharedSecret
    [cipherText ⟨0, by decide⟩ - keyStream Pr key 0, cipherText ⟨1, by decide⟩ - keyStream Pr key 1,
      cipherText ⟨2, by decide⟩ - keyStream Pr key 2, sharedSecret.y]

end Functions

/-! ### The way to the recipient -/

section RoundTrip

variable {Pr : Primitives} {deserialize : List ℕ → Option (Point Fr254)}

/-- Scalars act on the multiples of the generator, in any order. -/
def Primitives.Commutes (Pr : Primitives) : Prop :=
  ∀ j k : BJJScalar, Pr.mul j (Pr.mul k Pr.generator) = Pr.mul k (Pr.mul j Pr.generator)

/-- Compressed multiples of the generator are decompressed. -/
def Decompresses (Pr : Primitives) (deserialize : List ℕ → Option (Point Fr254)) : Prop :=
  ∀ k : BJJScalar, deserialize (serializePoint (Pr.mul k Pr.generator)) =
    some (Pr.mul k Pr.generator)

/-- The ciphertext of a plain text for a shared secret and an ephemeral public key. -/
def cipherOf (Pr : Primitives) (plain : Fin 3 → Fr254) (sharedSecret epk : Point Fr254) :
    Fin 5 → Fr254 :=
  ![keyStream Pr (encryptionKey Pr sharedSecret) 0 + plain 0,
    keyStream Pr (encryptionKey Pr sharedSecret) 1 + plain 1,
    keyStream Pr (encryptionKey Pr sharedSecret) 2 + plain 2,
    epk.y, if pointSign epk then 1 else 0]

theorem kemdemEncrypt_eq (k : BJJScalar) (Q G : Point Fr254) (plain : Fin 3 → Fr254) :
    kemdemEncrypt Pr false k Q (List.ofFn plain) G =
      some (List.ofFn (cipherOf Pr plain (Pr.mul k Q) (Pr.mul k G))) := by
  rw [kemdemEncrypt, if_neg (by rw [List.length_ofFn]; exact not_not.2 rfl)]
  simp [cipherOf, List.ofFn_succ, Fin.isValue]

theorem cipherOf_hasFlag (plain : Fin 3 → Fr254) (sharedSecret epk : Point Fr254) :
    (CompressedSecrets.mk (cipherOf Pr plain sharedSecret epk)).HasFlag := by
  cases hsign : pointSign epk with
  | false =>
    left
    simp [cipherOf, hsign]
  | true =>
    right
    simp [cipherOf, hsign]

/-- The recipient reads the compressed ephemeral key. -/
theorem pointBytes_cipherOf (plain : Fin 3 → Fr254) (sharedSecret epk : Point Fr254) :
    pointBytes (cipherOf Pr plain sharedSecret epk) = serializePoint epk := by
  have hy := val_lt_two_pow epk.y
  have htop : (bytesLE 32 epk.y.val).getD 31 0 < 2 ^ 7 := by
    rw [getD_bytesLE _ (by omega)]
    omega
  have hone : ZMod.val (1 : Fr254) = 1 := ZMod.val_one'' (by norm_num [frModulus])
  have hcoord : cipherOf Pr plain sharedSecret epk ⟨3, by decide⟩ = epk.y := rfl
  have hflag : cipherOf Pr plain sharedSecret epk ⟨4, by decide⟩ =
    if pointSign epk then 1 else 0 := rfl
  have hbit : ∀ x < 2, (bytesLE 32 x).getD 0 0 * 2 ^ 7 % 2 ^ 8 = x * 2 ^ 7 := by
    intro x hx
    rw [getD_bytesLE _ (by omega)]
    omega
  rw [pointBytes, serializePoint, hcoord, hflag]
  cases pointSign epk with
  | false =>
    simp only [Bool.false_eq_true, ↓reduceIte, ZMod.val_zero]
    rw [hbit 0 (by omega), Nat.mod_eq_of_lt (by omega), Nat.zero_mul]
  | true =>
    simp only [↓reduceIte, hone]
    rw [hbit 1 (by omega), Nat.mod_eq_of_lt (by omega), Nat.one_mul]

/-- **The recipient decrypts.** -/
theorem kemdemDecrypt_cipherOf (hmul : Pr.Commutes) (hpoint : Decompresses Pr deserialize)
    (sk k : BJJScalar) (plain : Fin 3 → Fr254) :
    kemdemDecrypt Pr deserialize sk (cipherOf Pr plain (Pr.mul k (Pr.mul sk Pr.generator))
        (Pr.mul k Pr.generator)) =
      some (List.ofFn plain ++ [(Pr.mul k (Pr.mul sk Pr.generator)).y]) := by
  rw [kemdemDecrypt, pointBytes_cipherOf, hpoint, Option.map_some, hmul sk k]
  simp [cipherOf, List.ofFn_succ]

variable (Pr) in
/-- The ciphertext on its way through the words of the contract. -/
theorem exists_words (plain : Fin 3 → Fr254) (sharedSecret epk : Point Fr254) :
    ∃ words, (CompressedSecrets.mk (cipherOf Pr plain sharedSecret epk)).toWords = .ok words ∧
      CompressedSecrets.ofWords words = .ok ⟨cipherOf Pr plain sharedSecret epk⟩ := by
  obtain ⟨words, hto, -, hof⟩ :=
    CompressedSecrets.ofWords_toWords (cipherOf_hasFlag plain sharedSecret epk)
  exact ⟨words, hto, hof⟩

/-! ### The circuit -/

/-- The circuit encrypts as `kemdem_encrypt` does. -/
theorem transferData_eq (k : BJJScalar) (sharedSecret : Point Fr254) (plain : Fin 3 → Fr254) :
    transferData Pr honestStream (plain 0) (plain 1) (plain 2) sharedSecret (k.val : Fr254) =
      List.ofFn (cipherOf Pr plain sharedSecret (Pr.mul k Pr.generator)) := by
  have hsign : ∀ b : Bool, (ofBool b : Fr254) = if b = true then 1 else 0 := by
    intro b
    cases b with
    | false => rfl
    | true => rfl
  simp only [transferData, honestStream, cipherOf, keyStream, encryptionKey, pointSign,
    Primitives.mul, zero_sub, hsign, List.ofFn_succ, List.ofFn_zero]
  rfl

/-- **The gadget computes the ciphertext.**  In a transfer, the values that `verify_encryption`
computes are those of `kemdem_encrypt` for the same keys. -/
theorem verifyEncryption_eq {w : Variable → Fr254} {nfTokenId nfSlotId newCommitmentsValue : Variable}
    {sharedSecret : PointVariable} {ephemeralKey withdrawAddress : Variable} {withdrawFlag : BoolVar}
    {k : BJJScalar} {Q : Point Fr254} (hflag : w withdrawFlag.var = 0)
    (hkey : w ephemeralKey = (k.val : Fr254)) (hsecret : sharedSecret.map w = Pr.mul k Q) :
    Ensures .honest w (verifyEncryption Pr nfTokenId nfSlotId newCommitmentsValue sharedSecret
      ephemeralKey withdrawAddress withdrawFlag) fun out =>
        kemdemEncrypt Pr false k Q [w nfTokenId, w nfSlotId, w newCommitmentsValue] Pr.generator =
          some (out.map w) := by
  refine (verifyEncryption_ensures Pr nfTokenId nfSlotId newCommitmentsValue sharedSecret
    ephemeralKey withdrawAddress withdrawFlag).mono ?_
  rintro out ⟨stream, hout, hstream⟩
  have hplain : [w nfTokenId, w nfSlotId, w newCommitmentsValue] =
      List.ofFn ![w nfTokenId, w nfSlotId, w newCommitmentsValue] := by
    simp [List.ofFn_succ]
  rw [hout, if_pos hflag, hstream rfl, hkey, hsecret, hplain, kemdemEncrypt_eq]
  exact congrArg some (transferData_eq k (Pr.mul k Q)
    ![w nfTokenId, w nfSlotId, w newCommitmentsValue]).symm

/-- The note that the recipient reads out of the plain text. -/
def receivedNote (publicKey : Point Fr254) (decrypt : List Fr254) : Preimage Fr254 :=
  ⟨decrypt.getD 0 0, decrypt.getD 1 0, decrypt.getD 2 0, publicKey, decrypt.getD 3 0⟩

/-- The public inputs that an honest prover computes. -/
def computedInputs (r : PublicInputs Fr254 × PrivateInputs × TransferWires)
    (c : PlonkCircuit Fr254) : PublicInputs Fr254 :=
  r.2.2.publicInputs.map c.value

/-- The inputs of a transfer to the holder of `sk`, with the ephemeral key `k`. -/
structure TransferTo (Pr : Primitives) (publicInputs : PublicInputs Fr254)
    (privateInputs : PrivateInputs) (sk k : BJJScalar) : Prop where
  integrity : (suggested Pr publicInputs privateInputs).Integrity Pr
  withdrawAddress : privateInputs.withdrawAddress = 0
  recipient : privateInputs.recipientPublicKey = Pr.mul sk Pr.generator
  ephemeralKey : privateInputs.ephemeralKey = (k.val : Fr254)

/-- The plain text of a transfer. -/
def PrivateInputs.plain (x : PrivateInputs) : Fin 3 → Fr254 := ![x.nfTokenId, x.nfSlotId, x.value]

/-- What the circuit of a transfer makes public. -/
theorem computedInputs_eq {publicInputs : PublicInputs Fr254} {privateInputs : PrivateInputs}
    {sk k : BJJScalar} (h : TransferTo Pr publicInputs privateInputs sk k)
    {r : PublicInputs Fr254 × PrivateInputs × TransferWires} {c : PlonkCircuit Fr254}
    (hrun : (assessOperationIntegrity Pr publicInputs privateInputs).run (.newUltraPlonk Fr254) =
      .ok (r, c)) :
    (computedInputs r c).compressedSecrets = cipherOf Pr privateInputs.plain
        (Pr.mul k (Pr.mul sk Pr.generator)) (Pr.mul k Pr.generator) ∧
      (computedInputs r c).commitments 0 = (Preimage.mk privateInputs.nfTokenId privateInputs.nfSlotId
        privateInputs.value (Pr.mul sk Pr.generator)
        (Pr.mul k (Pr.mul sk Pr.generator)).y).hash Pr.poseidon := by
  have hagrees : (PlonkCircuit.newUltraPlonk Fr254).Agrees c.value :=
    c.agrees_value.of_le ((assessOperationIntegrity Pr publicInputs privateInputs).grows hrun)
  obtain ⟨-, -, ⟨stream, hcomputes, hstream⟩, hoperation⟩ := Ensures.complete hrun
    (assessOperationIntegrity_ensures Pr publicInputs privateInputs fun _ => h.integrity)
    (PlonkCircuit.newUltraPlonk_satisfies hagrees)
  have hop := hoperation rfl
  have haddress : (suggested Pr publicInputs privateInputs).privateInputs.withdrawAddress = 0 :=
    h.withdrawAddress
  have hshared : (suggested Pr publicInputs privateInputs).sharedSecret Pr =
      Pr.mul k (Pr.mul sk Pr.generator) := by
    change Pr.scalarMul privateInputs.ephemeralKey privateInputs.recipientPublicKey = _
    rw [h.ephemeralKey, h.recipient]
    rfl
  constructor
  · refine List.ofFn_injective ?_
    have hdata := hcomputes.publicData
    rw [hop, hstream rfl, Operation.publicData, if_pos haddress, hshared, List.map_ofFn] at hdata
    change _ = transferData Pr honestStream privateInputs.nfTokenId privateInputs.nfSlotId
      privateInputs.value _ privateInputs.ephemeralKey at hdata
    rw [h.ephemeralKey] at hdata
    exact hdata.trans (transferData_eq k _ privateInputs.plain)
  · have hcommitment := hcomputes.commitments 0
    rw [hop, Operation.commitments, if_pos rfl, if_pos haddress] at hcommitment
    refine hcommitment.trans ?_
    rw [Preimage.hash, Preimage.hash]
    change Pr.poseidon [privateInputs.nfTokenId, privateInputs.nfSlotId, privateInputs.value,
      privateInputs.recipientPublicKey.x, privateInputs.recipientPublicKey.y,
      ((suggested Pr publicInputs privateInputs).sharedSecret Pr).y] = _
    rw [hshared, h.recipient]

/-- **The encryption round trip.**  Every recipient decrypts every ciphertext, also after it went
through the words of the contract.  In a transfer the circuit computes the ciphertext that
`kemdem_encrypt` computes for the same keys, and the note that the recipient finds in it has the
first commitment of the transaction as its hash. -/
theorem encryption_roundtrip (hmul : Pr.Commutes) (hpoint : Decompresses Pr deserialize)
    (sk k : BJJScalar) :
    (∀ plain : Fin 3 → Fr254, ∃ cipherText words,
      kemdemEncrypt Pr false k (Pr.mul sk Pr.generator) (List.ofFn plain) Pr.generator =
        some (List.ofFn cipherText) ∧
      kemdemDecrypt Pr deserialize sk cipherText =
        some (List.ofFn plain ++ [(Pr.mul k (Pr.mul sk Pr.generator)).y]) ∧
      (CompressedSecrets.mk cipherText).toWords = .ok words ∧
      CompressedSecrets.ofWords words = .ok ⟨cipherText⟩) ∧
    (∀ w nfTokenId nfSlotId newCommitmentsValue sharedSecret ephemeralKey withdrawAddress
        withdrawFlag Q, w (BoolVar.var withdrawFlag) = 0 → w ephemeralKey = (k.val : Fr254) →
      sharedSecret.map w = Pr.mul k Q →
      Ensures .honest w (verifyEncryption Pr nfTokenId nfSlotId newCommitmentsValue sharedSecret
        ephemeralKey withdrawAddress withdrawFlag) fun out =>
          kemdemEncrypt Pr false k Q [w nfTokenId, w nfSlotId, w newCommitmentsValue] Pr.generator =
            some (out.map w)) ∧
    (∀ publicInputs privateInputs r c, TransferTo Pr publicInputs privateInputs sk k →
      (assessOperationIntegrity Pr publicInputs privateInputs).run (.newUltraPlonk Fr254) =
        .ok (r, c) →
      ∃ words decrypt,
        kemdemEncrypt Pr false k (Pr.mul sk Pr.generator) (List.ofFn privateInputs.plain)
          Pr.generator = some (List.ofFn (computedInputs r c).compressedSecrets) ∧
        (CompressedSecrets.mk (computedInputs r c).compressedSecrets).toWords = .ok words ∧
        CompressedSecrets.ofWords words = .ok ⟨(computedInputs r c).compressedSecrets⟩ ∧
        kemdemDecrypt Pr deserialize sk (computedInputs r c).compressedSecrets = some decrypt ∧
        (receivedNote (Pr.mul sk Pr.generator) decrypt).hash Pr.poseidon =
          (computedInputs r c).commitments 0) := by
  refine ⟨fun plain => ?_, fun w _ _ _ _ _ _ _ Q => verifyEncryption_eq, ?_⟩
  · obtain ⟨words, hto, hof⟩ := exists_words Pr plain
      (Pr.mul k (Pr.mul sk Pr.generator)) (Pr.mul k Pr.generator)
    exact ⟨_, words, kemdemEncrypt_eq k _ _ plain, kemdemDecrypt_cipherOf hmul hpoint sk k plain,
      hto, hof⟩
  · intro publicInputs privateInputs r c htransfer hrun
    obtain ⟨hsecrets, hcommitment⟩ := computedInputs_eq htransfer hrun
    obtain ⟨words, hto, hof⟩ := exists_words Pr privateInputs.plain
      (Pr.mul k (Pr.mul sk Pr.generator)) (Pr.mul k Pr.generator)
    rw [hsecrets, hcommitment]
    exact ⟨words, _, kemdemEncrypt_eq k _ _ _, hto, hof,
      kemdemDecrypt_cipherOf hmul hpoint sk k _, by simp [receivedNote, PrivateInputs.plain]⟩

end RoundTrip

/-! ### A sample -/

/-- Points whose coordinates are equal, with the multiplication of both coordinates. -/
def samplePoints : Primitives :=
  { samplePrimitives with
    scalarMul := fun k Q => ⟨k * Q.x, k * Q.y⟩
    generator := ⟨1, 1⟩ }

/-- Decompression for these points: of the two points with a coordinate, the one with the sign. -/
def sampleDeserialize (bytes : List ℕ) : Option (Point Fr254) :=
  let top := bytes.getD 31 0
  let y : Fr254 := (Nat.ofDigits 256 (bytes.set 31 (top % 2 ^ 7)) : ℕ)
  some (if pointSign ⟨y, y⟩ = decide (2 ^ 7 ≤ top) then ⟨y, y⟩ else ⟨-y, y⟩)

theorem samplePoints_commutes : samplePoints.Commutes := by
  intro j k
  simp only [Primitives.mul, samplePoints, mul_one]
  rw [mul_comm]

theorem sampleDeserialize_decompresses : Decompresses samplePoints sampleDeserialize := by
  intro k
  simp only [Primitives.mul, samplePoints, mul_one]
  generalize (k.val : Fr254) = a
  have ha := val_lt_two_pow a
  have hlength := length_bytesLE 32 a.val
  have htop : (bytesLE 32 a.val).getD 31 0 < 2 ^ 7 := by
    rw [getD_bytesLE _ (by omega)]
    omega
  have hself : (bytesLE 32 a.val).set 31 ((bytesLE 32 a.val).getD 31 0) = bytesLE 32 a.val := by
    rw [List.getD_eq_getElem _ _ (by omega), List.set_getElem_self]
  have hvalue : ((Nat.ofDigits 256 (bytesLE 32 a.val) : ℕ) : Fr254) = a := by
    rw [ofDigits_bytesLE, Nat.mod_eq_of_lt (by omega), ZMod.natCast_zmod_val]
  have hread : ∀ flag, ((bytesLE 32 a.val).set 31
      ((bytesLE 32 a.val).getD 31 0 + flag)).getD 31 0 = (bytesLE 32 a.val).getD 31 0 + flag := by
    intro flag
    rw [List.getD_eq_getElem _ _ (by rw [List.length_set]; omega), List.getElem_set_self]
  simp only [sampleDeserialize, serializePoint, hread, List.set_set]
  cases hsign : pointSign ⟨a, a⟩ with
  | false =>
    have hlt : ¬ 2 ^ 7 ≤ (bytesLE 32 a.val).getD 31 0 := by omega
    simp only [Bool.false_eq_true, ↓reduceIte]
    rw [Nat.add_zero, Nat.mod_eq_of_lt htop, hself, hvalue, hsign, decide_eq_false hlt, if_pos rfl]
  | true =>
    have hle : 2 ^ 7 ≤ (bytesLE 32 a.val).getD 31 0 + 2 ^ 7 := by omega
    simp only [↓reduceIte]
    rw [Nat.add_mod_right, Nat.mod_eq_of_lt htop, hself, hvalue, hsign, decide_eq_true hle,
      if_pos rfl]

theorem encryption_roundtrip_sample :
    ∃ cipherText,
      kemdemEncrypt samplePoints false 5 (samplePoints.mul 7 samplePoints.generator)
        (List.ofFn ![1, 2, 3]) samplePoints.generator = some (List.ofFn cipherText) ∧
      kemdemDecrypt samplePoints sampleDeserialize 7 cipherText = some (List.ofFn ![1, 2, 3] ++
        [(samplePoints.mul 5 (samplePoints.mul 7 samplePoints.generator)).y]) := by
  obtain ⟨hplain, -⟩ := encryption_roundtrip samplePoints_commutes sampleDeserialize_decompresses 7 5
  obtain ⟨cipherText, words, hencrypt, hdecrypt, -⟩ := hplain ![1, 2, 3]
  exact ⟨cipherText, hencrypt, hdecrypt⟩

end Client

end Nightfall
