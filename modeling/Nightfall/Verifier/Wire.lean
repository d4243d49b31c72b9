import Nightfall.Contract.Fees
import Nightfall.Node.Assembly
import Nightfall.Verifier.Opening

/-!
# The wire format of a rollup proof

A rollup proof leaves the proposer as field elements: the sum of the fees, two accumulators with four
coordinates each, and the proof of the decider.  They are written as bytes, sliced by the contract,
encoded again for the call of the verifier, and loaded from wherever they lie in the calldata.

The verifier depends on nothing but its arguments, as long as these are long enough
(`verify_congr`); and what it sees are the field elements (`verifyRollupProof_toBytes`).
-/

namespace Nightfall

namespace Verifier

open Evm

/-! ### Loads from a string -/

section

variable {calldata : Bytes} {s : Slice}

theorem length_bytes (h : s.offset + s.length ≤ calldata.length) :
    (s.bytes calldata).length = s.length := by
  rw [Slice.bytes, List.length_take, List.length_drop]
  omega

theorem calldataload_bytes {i : ℕ} (hi : i + 32 ≤ s.length)
    (h : s.offset + s.length ≤ calldata.length) :
    calldataload calldata (s.offset + i) = calldataload (s.bytes calldata) i := by
  have hlen := length_bytes h
  rw [calldataload_eq (by omega), calldataload_eq (by omega), Slice.bytes, List.drop_take,
    List.take_take, List.drop_drop, Nat.min_eq_left (by omega)]

theorem calldataload_take {bs : Bytes} {i n : ℕ} (hi : i + 32 ≤ n) (hn : n ≤ bs.length) :
    calldataload (bs.take n) i = calldataload bs i := by
  rw [calldataload_eq (by rw [List.length_take]; omega), calldataload_eq (by omega),
    List.drop_take, List.take_take, Nat.min_eq_left (by omega)]

end

/-- The bytes of a proof. -/
def proofLength : ℕ := 63 * 0x20

/-- A proof is given by the words that are loaded. -/
theorem deserializeProof_congr {load load' : ℕ → U256} {offset offset' : ℕ}
    (h : ∀ i < 63, load (offset + i * 0x20) = load' (offset' + i * 0x20)) :
    deserializeProof load offset = deserializeProof load' offset' := by
  refine Proof.words_injective ?_
  rw [words_deserializeProof, words_deserializeProof]
  exact List.map_congr_left fun i hi => h i (List.mem_range.1 hi)

section

variable (pre : Precompiles) (vk : VerificationKey) (keccak256 : Bytes → U256)

/-- What the verifier computes from its arguments. -/
def verifyBytes (accProof proofBytes publicInputsHashBytes : Bytes) : Except Revert Bool :=
  verifyWords pre (deserializeProof (calldataload proofBytes) 0) vk keccak256
    (calldataload publicInputsHashBytes 0) accProof

variable {pre vk keccak256} {call call' : VerifyCall}

/-- **The verifier depends on its arguments only**, if none of them is too short. -/
theorem verify_eq (hproof : proofLength ≤ call.proofBytes.length)
    (hhash : 32 ≤ call.publicInputsHashBytes.length) :
    verify pre vk keccak256 call = verifyBytes pre vk keccak256
      (call.accProof.bytes call.calldata) (call.proofBytes.bytes call.calldata)
      (call.publicInputsHashBytes.bytes call.calldata) := by
  have hload : deserializeProof (calldataload call.calldata) call.proofBytes.offset =
      deserializeProof (calldataload (call.proofBytes.bytes call.calldata)) 0 := by
    refine deserializeProof_congr fun i hi => ?_
    rw [proofLength] at hproof
    rw [calldataload_bytes (by omega) call.proofBytes_le, Nat.zero_add]
  rw [verify, verifyBytes, hload]
  exact congrArg (fun hash => verifyWords pre _ vk keccak256 hash _)
    (calldataload_bytes (i := 0) hhash call.publicInputsHashBytes_le)

/-- What is behind the words of the arguments is not read. -/
theorem verifyBytes_take {accProof proofBytes publicInputsHashBytes : Bytes}
    (hproof : proofLength ≤ proofBytes.length) (hhash : 32 ≤ publicInputsHashBytes.length) :
    verifyBytes pre vk keccak256 accProof proofBytes publicInputsHashBytes =
      verifyBytes pre vk keccak256 accProof (proofBytes.take proofLength)
        (publicInputsHashBytes.take 32) := by
  have hload : deserializeProof (calldataload proofBytes) 0 =
      deserializeProof (calldataload (proofBytes.take proofLength)) 0 := by
    refine deserializeProof_congr fun i hi => (calldataload_take ?_ hproof).symm
    rw [proofLength]
    omega
  rw [verifyBytes, verifyBytes, hload, calldataload_take le_rfl hhash]

/-- **Two calls have one outcome** if the accumulators are the same strings, and the other strings
are long enough and begin with the same words.  Neither the place of the strings nor anything else in
the calldata matters, nor what is behind the words. -/
theorem verify_congr (hproof : proofLength ≤ call.proofBytes.length)
    (hproof' : proofLength ≤ call'.proofBytes.length)
    (hhash : 32 ≤ call.publicInputsHashBytes.length)
    (hhash' : 32 ≤ call'.publicInputsHashBytes.length)
    (haccProof : call.accProof.bytes call.calldata = call'.accProof.bytes call'.calldata)
    (hproofBytes : (call.proofBytes.bytes call.calldata).take proofLength =
      (call'.proofBytes.bytes call'.calldata).take proofLength)
    (hhashBytes : (call.publicInputsHashBytes.bytes call.calldata).take 32 =
      (call'.publicInputsHashBytes.bytes call'.calldata).take 32) :
    verify pre vk keccak256 call = verify pre vk keccak256 call' := by
  have htake {call : VerifyCall} (hproof : proofLength ≤ call.proofBytes.length)
      (hhash : 32 ≤ call.publicInputsHashBytes.length) :
      verify pre vk keccak256 call = verifyBytes pre vk keccak256
        (call.accProof.bytes call.calldata)
        ((call.proofBytes.bytes call.calldata).take proofLength)
        ((call.publicInputsHashBytes.bytes call.calldata).take 32) := by
    rw [verify_eq hproof hhash, verifyBytes_take]
    · rwa [length_bytes call.proofBytes_le]
    · rwa [length_bytes call.publicInputsHashBytes_le]
  rw [htake hproof hhash, htake hproof' hhash', haccProof, hproofBytes, hhashBytes]

end

/-! ### The call of the contract -/

/-- Zeros up to a whole number of words. -/
def padding (bs : Bytes) : Bytes := List.replicate ((32 - bs.length % 32) % 32) 0

/-- The word of a length or an offset. -/
def lengthWord (n : ℕ) : Bytes := toBytesBE (BitVec.ofNat 256 n)

/-- A string as it is encoded. -/
def encodeBytes (bs : Bytes) : Bytes := lengthWord bs.length ++ bs ++ padding bs

section

variable (selector accProof proofBytes publicInputsHashBytes : Bytes)

/-- What is in front of the accumulators: the selector, the offsets, and a length. -/
def accProofFront : Bytes :=
  selector ++ lengthWord 0x60 ++ lengthWord (0x60 + (encodeBytes accProof).length) ++
    lengthWord (0x60 + (encodeBytes accProof).length + (encodeBytes proofBytes).length) ++
    lengthWord accProof.length

/-- What is in front of the proof. -/
def proofBytesFront : Bytes :=
  accProofFront selector accProof proofBytes ++ accProof ++ padding accProof ++
    lengthWord proofBytes.length

/-- What is in front of the hash of the public inputs. -/
def publicInputsHashFront : Bytes :=
  proofBytesFront selector accProof proofBytes ++ proofBytes ++ padding proofBytes ++
    lengthWord publicInputsHashBytes.length

/-- The calldata of `verifier.verify(accProof, proofBytes, publicInputsHashBytes)`. -/
def encodeCall : Bytes :=
  publicInputsHashFront selector accProof proofBytes publicInputsHashBytes ++
    publicInputsHashBytes ++ padding publicInputsHashBytes

theorem length_front_add_le {calldata front bs back : Bytes} (h : calldata = front ++ bs ++ back) :
    front.length + bs.length ≤ calldata.length := by
  rw [h, List.length_append, List.length_append]
  omega

theorem bytes_between {calldata front bs back : Bytes} (h : calldata = front ++ bs ++ back) :
    Slice.bytes calldata ⟨front.length, bs.length⟩ = bs := by
  rw [Slice.bytes, h, List.append_assoc, List.drop_left' rfl, List.take_left' rfl]

theorem encodeCall_eq_proofBytes : encodeCall selector accProof proofBytes publicInputsHashBytes =
    proofBytesFront selector accProof proofBytes ++ proofBytes ++ (padding proofBytes ++
      lengthWord publicInputsHashBytes.length ++ publicInputsHashBytes ++
        padding publicInputsHashBytes) := by
  simp only [encodeCall, publicInputsHashFront, List.append_assoc]

theorem encodeCall_eq_accProof : encodeCall selector accProof proofBytes publicInputsHashBytes =
    accProofFront selector accProof proofBytes ++ accProof ++ (padding accProof ++
      lengthWord proofBytes.length ++ proofBytes ++ padding proofBytes ++
        lengthWord publicInputsHashBytes.length ++ publicInputsHashBytes ++
          padding publicInputsHashBytes) := by
  simp only [encodeCall, publicInputsHashFront, proofBytesFront, List.append_assoc]

/-- The call, with the strings where the decoder finds them. -/
def callOf : VerifyCall where
  calldata := encodeCall selector accProof proofBytes publicInputsHashBytes
  accProof := ⟨(accProofFront selector accProof proofBytes).length, accProof.length⟩
  proofBytes := ⟨(proofBytesFront selector accProof proofBytes).length, proofBytes.length⟩
  publicInputsHashBytes :=
    ⟨(publicInputsHashFront selector accProof proofBytes publicInputsHashBytes).length,
      publicInputsHashBytes.length⟩
  accProof_le := length_front_add_le (encodeCall_eq_accProof _ _ _ _)
  proofBytes_le := length_front_add_le (encodeCall_eq_proofBytes _ _ _ _)
  publicInputsHashBytes_le := length_front_add_le rfl

theorem bytes_callOf :
    let call := callOf selector accProof proofBytes publicInputsHashBytes
    call.accProof.bytes call.calldata = accProof ∧
      call.proofBytes.bytes call.calldata = proofBytes ∧
      call.publicInputsHashBytes.bytes call.calldata = publicInputsHashBytes :=
  ⟨bytes_between (encodeCall_eq_accProof selector accProof proofBytes publicInputsHashBytes),
    bytes_between (encodeCall_eq_proofBytes selector accProof proofBytes publicInputsHashBytes),
    bytes_between (show encodeCall selector accProof proofBytes publicInputsHashBytes =
      _ ++ padding publicInputsHashBytes from rfl)⟩

variable {pre : Precompiles} {vk : VerificationKey} {keccak256 : Bytes → U256}

/-- The verifier gets the strings of the contract, and of the last two strings all it reads. -/
theorem verify_callOf (hproof : proofLength ≤ proofBytes.length)
    (hhash : 32 ≤ publicInputsHashBytes.length) :
    verify pre vk keccak256 (callOf selector accProof proofBytes publicInputsHashBytes) =
      verifyBytes pre vk keccak256 accProof proofBytes publicInputsHashBytes := by
  obtain ⟨haccProof, hproofBytes, hhashBytes⟩ :=
    bytes_callOf selector accProof proofBytes publicInputsHashBytes
  rw [verify_eq hproof hhash, haccProof, hproofBytes, hhashBytes]

end

/-- Another place, and a byte behind the proof, for the strings of an accepted call. -/
theorem verify_congr_sample : verify samplePrecompiles sampleVk sampleKeccak
    (callOf [0, 1, 2, 3] (sampleCall.accProof.bytes sampleCall.calldata)
      (sampleCall.proofBytes.bytes sampleCall.calldata ++ [0xff])
      (sampleCall.publicInputsHashBytes.bytes sampleCall.calldata)) = .ok true := by
  have hsame (call : VerifyCall) (hproof : proofLength ≤ call.proofBytes.length)
      (hhash : 32 ≤ call.publicInputsHashBytes.length) :
      verify samplePrecompiles sampleVk sampleKeccak (callOf [0, 1, 2, 3]
        (call.accProof.bytes call.calldata) (call.proofBytes.bytes call.calldata ++ [0xff])
        (call.publicInputsHashBytes.bytes call.calldata)) =
          verify samplePrecompiles sampleVk sampleKeccak call := by
    obtain ⟨haccProof, hproofBytes, hhashBytes⟩ := bytes_callOf [0, 1, 2, 3]
      (call.accProof.bytes call.calldata) (call.proofBytes.bytes call.calldata ++ [0xff])
      (call.publicInputsHashBytes.bytes call.calldata)
    have hlen := length_bytes call.proofBytes_le
    have hlenHash := length_bytes call.publicInputsHashBytes_le
    have hlonger : proofLength ≤ (call.proofBytes.bytes call.calldata ++ [0xff]).length := by
      rw [List.length_append]
      omega
    refine verify_congr hlonger hproof (hhash.trans hlenHash.ge) hhash haccProof ?_ ?_
    · rw [hproofBytes, List.take_append_of_le_length (hproof.trans hlen.ge)]
    · rw [hhashBytes]
  exact (hsame sampleCall (Nat.le_refl 2016) (Nat.le_refl 32)).trans verify_sampleCall

/-- The verifier of the contract; where it reverts the block does too. -/
def contractVerifier (pre : Precompiles) (vk : VerificationKey) (keccak256 : Bytes → U256)
    (selector : Bytes) : Contract.Verifier :=
  fun accProof proofBytes publicInputsHashBytes => (verify pre vk keccak256
    (callOf selector accProof proofBytes publicInputsHashBytes)).toOption

/-! ### From field elements to words -/

/-- `RollupProof`. -/
structure RollupProof where
  feeSum : Fr254
  accumulatorOne : Fin 4 → Fq254
  accumulatorTwo : Fin 4 → Fq254
  proof : List Fq254

/-- `Fq254::from_le_bytes_mod_order(&fee_sum.into_bigint().to_bytes_le())`. -/
def feeElement (feeSum : Fr254) : Fq254 := (Nat.ofDigits 256 (Trees.bytesLE 32 feeSum.val) : ℕ)

/-- `Vec::<Fq254>::from`. -/
def RollupProof.toVec (p : RollupProof) : List Fq254 :=
  feeElement p.feeSum :: (List.ofFn p.accumulatorOne ++ List.ofFn p.accumulatorTwo ++ p.proof)

/-- The word of an element. -/
def fqWord (x : Fq254) : U256 := BitVec.ofNat 256 x.val

/-- The eight coordinates of the accumulators. -/
def RollupProof.accumulatorWords (p : RollupProof) : List U256 :=
  (List.ofFn p.accumulatorOne ++ List.ofFn p.accumulatorTwo).map fqWord

theorem toNat_fqWord (x : Fq254) : (fqWord x).toNat = x.val := by
  have hmodulus : fqModulus < 2 ^ 256 := by norm_num [fqModulus]
  rw [fqWord, BitVec.toNat_ofNat, Nat.mod_eq_of_lt ((ZMod.val_lt x).trans hmodulus)]

theorem reverse_bytesLE (w : U256) :
    (Trees.bytesLE 32 w.toNat).reverse.map (BitVec.ofNat 8) = toBytesBE w := by
  have hlen : (Trees.bytesLE 32 w.toNat).length = 32 := Trees.length_bytesLE 32 _
  refine List.ext_getElem (by simp [hlen]) fun i hi hi' => ?_
  have hlt : i < 32 := by rwa [length_toBytesBE] at hi'
  have hindex : (Trees.bytesLE 32 w.toNat).length - 1 - i = 31 - i := by omega
  have hbyte : (toBytesBE w)[i] = w.extractLsb' (8 * (31 - i)) 8 := List.getElem_ofFn _
  have hget := Node.getD_bytesLE w.toNat (show 31 - i < 32 by omega)
  rw [List.getD_eq_getElem _ _ (by omega)] at hget
  rw [List.getElem_map, List.getElem_reverse]
  refine BitVec.eq_of_toNat_eq (Eq.trans ?_ (congrArg BitVec.toNat hbyte.symm))
  simp only [hindex, hget]
  rw [BitVec.toNat_ofNat, BitVec.extractLsb'_toNat, Nat.shiftRight_eq_div_pow, pow_mul,
    show 2 ^ 8 = 256 by norm_num, Nat.mod_mod]

theorem proofBytes_eq (proof : List Fq254) : Node.proofBytes proof = abiEncode (proof.map fqWord) := by
  rw [Node.proofBytes, abiEncode, List.flatMap_map]
  refine List.flatMap_congr fun x _ => ?_
  rw [← toNat_fqWord, reverse_bytesLE]

/-- The sum of the fees is the same number in the other field. -/
theorem fqWord_feeElement (feeSum : Fr254) : fqWord (feeElement feeSum) = Node.uint256 feeSum := by
  have hfr : feeSum.val < frModulus := ZMod.val_lt feeSum
  have hfq : feeSum.val < fqModulus := hfr.trans (by norm_num [frModulus, fqModulus])
  have hword : feeSum.val < 256 ^ 32 := hfr.trans (by norm_num [frModulus])
  refine BitVec.eq_of_toNat_eq ?_
  rw [toNat_fqWord, Node.toNat_uint256, feeElement, Node.ofDigits_bytesLE,
    Nat.mod_eq_of_lt hword, ZMod.val_cast_of_lt hfq]

/-! ### What the contract slices -/

theorem abiEncode_cons (word : U256) (words : List U256) :
    abiEncode (word :: words) = toBytesBE word ++ abiEncode words :=
  List.flatMap_cons

theorem abiEncode_take (words : List U256) (n : ℕ) :
    (abiEncode words).take (32 * n) = abiEncode (words.take n) := by
  induction words generalizing n with
  | nil => simp [abiEncode]
  | cons word words ih =>
    cases n with
    | zero => simp [abiEncode]
    | succ n =>
      rw [List.take_succ_cons, abiEncode_cons, abiEncode_cons, ← ih, Nat.mul_succ, Nat.add_comm, List.take_append,
        length_toBytesBE, List.take_of_length_le (by rw [length_toBytesBE]; omega),
        Nat.add_sub_cancel_left]

theorem abiEncode_drop (words : List U256) (n : ℕ) :
    (abiEncode words).drop (32 * n) = abiEncode (words.drop n) := by
  induction words generalizing n with
  | nil => simp [abiEncode]
  | cons word words ih =>
    cases n with
    | zero => simp [abiEncode]
    | succ n =>
      rw [List.drop_succ_cons, abiEncode_cons, ← ih, Nat.mul_succ, Nat.add_comm, ← List.drop_drop,
        List.drop_left' (length_toBytesBE word)]

theorem slice_abiEncode {words : List U256} {i j : ℕ} (hij : i ≤ j) (hj : j ≤ words.length) :
    Contract.slice (abiEncode words) (32 * i) (32 * j) =
      some (abiEncode ((words.take j).drop i)) := by
  have hlen : 32 * j ≤ (abiEncode words).length := by
    rw [length_abiEncode]
    exact Nat.mul_le_mul_left 32 hj
  rw [Contract.slice, if_pos ⟨Nat.mul_le_mul_left 32 hij, hlen⟩, abiEncode_take, abiEncode_drop]

theorem slice_word {words : List U256} {i : ℕ} (hi : i < words.length) :
    (Contract.slice (abiEncode words) (32 * i) (32 * (i + 1))).map fromBytesBE =
      some words[i] := by
  have hone : (words.take (i + 1)).drop i = [words[i]] := by
    rw [List.drop_take, Nat.add_sub_cancel_left, List.drop_eq_getElem_cons hi, List.take_succ_cons,
      List.take_zero]
  have hbytes : abiEncode [words[i]] = toBytesBE words[i] := List.append_nil _
  rw [slice_abiEncode (Nat.le_succ i) hi, hone, Option.map_some, hbytes, fromBytesBE_toBytesBE]

theorem mapM_range {α : Type} {f : ℕ → Option α} {l : List α}
    (h : ∀ i, (hi : i < l.length) → f i = some l[i]) : (List.range l.length).mapM f = some l := by
  induction l using List.reverseRecOn with
  | nil => rfl
  | append_singleton l a ih =>
    have hfront : (List.range l.length).mapM f = some l := by
      refine ih fun i hi => ?_
      rw [h i (by rw [List.length_append]; omega), List.getElem_append_left hi]
    have hlast : f l.length = some a := by
      rw [h l.length (by simp), List.getElem_append_right le_rfl]
      simp
    rw [List.length_append, List.length_singleton, List.range_succ, List.mapM_append, hfront]
    simp [hlast]

section

variable {fee : U256} {acc proof : List U256}

theorem slice_feeSum : Contract.slice (abiEncode (fee :: (acc ++ proof))) 0 32 =
    some (toBytesBE fee) := by
  have hone : 1 ≤ (fee :: (acc ++ proof)).length := Nat.succ_le_succ (Nat.zero_le _)
  exact (slice_abiEncode (i := 0) (j := 1) (Nat.zero_le 1) hone).trans
    (congrArg some (List.append_nil _))

/-- The words that are hashed with the public inputs. -/
theorem mapM_slice_accumulators (hacc : acc.length = 8) : (List.range 8).mapM (fun i =>
    (Contract.slice (abiEncode (fee :: (acc ++ proof))) (32 + 32 * i) (64 + 32 * i)).map
      fromBytesBE) = some acc := by
  have hlength : (fee :: (acc ++ proof)).length = 9 + proof.length := by
    rw [List.length_cons, List.length_append, hacc]
    omega
  rw [← hacc]
  refine mapM_range fun i hi => ?_
  -- word `i` stands behind the sum of the fees
  have hword := @slice_word (fee :: (acc ++ proof)) (i + 1) (by omega)
  rw [List.getElem_cons_succ, List.getElem_append_left hi] at hword
  rw [show 32 + 32 * i = 32 * (i + 1) by omega, show 64 + 32 * i = 32 * (i + 1 + 1) by omega, hword]

theorem slice_accumulators (hacc : acc.length = 8) :
    Contract.slice (abiEncode (fee :: (acc ++ proof))) 32 288 = some (abiEncode acc) := by
  have htake : ((fee :: (acc ++ proof)).take 9).drop 1 = acc := by
    rw [List.take_succ_cons, List.drop_succ_cons, List.drop_zero, List.take_left' hacc]
  have hlength : 9 ≤ (fee :: (acc ++ proof)).length := by
    rw [List.length_cons, List.length_append, hacc]
    omega
  exact (slice_abiEncode (i := 1) (j := 9) (by omega) hlength).trans
    (congrArg (fun l => some (abiEncode l)) htake)

theorem slice_proof (hacc : acc.length = 8) (hproof : proof.length = 63) :
    Contract.slice (abiEncode (fee :: (acc ++ proof))) 288
      (abiEncode (fee :: (acc ++ proof))).length = some (abiEncode proof) := by
  have hlength : (fee :: (acc ++ proof)).length = 72 := by simp [hacc, hproof]
  have hdrop : ((fee :: (acc ++ proof)).take 72).drop 9 = proof := by
    rw [List.take_of_length_le hlength.le, List.drop_succ_cons, List.drop_left' hacc]
  rw [length_abiEncode, hlength]
  exact (slice_abiEncode (i := 9) (j := 72) (by omega) hlength.ge).trans
    (congrArg (fun l => some (abiEncode l)) hdrop)

end

/-! ### The proof that the verifier sees -/

section

variable {pre : Precompiles} {vk : VerificationKey} {keccak256 : Bytes → U256} {selector : Bytes}
  {hs : Contract.Hashes} {state : Contract.State} {blk : Contract.Block} {p : RollupProof}

theorem map_toVec (p : RollupProof) : p.toVec.map fqWord =
    Node.uint256 p.feeSum :: (p.accumulatorWords ++ p.proof.map fqWord) := by
  rw [RollupProof.toVec, List.map_cons, fqWord_feeElement, List.map_append,
    RollupProof.accumulatorWords]

theorem length_accumulatorWords (p : RollupProof) : p.accumulatorWords.length = 8 := by
  simp [RollupProof.accumulatorWords]

/-- The public inputs of the decider, as the contract puts them together. -/
def publicInputs (state : Contract.State) (blk : Contract.Block) (publicHash : U256)
    (p : RollupProof) : List U256 :=
  [Node.uint256 p.feeSum, publicHash, state.commitmentRoot, blk.commitmentsRoot,
    state.nullifierRoot, blk.nullifierRoot, state.historicRootsRoot, blk.commitmentsRootRoot] ++
    p.accumulatorWords.flatMap Contract.splitToLowHigh

/-- The hash of the public inputs, reduced to a scalar. -/
def publicInputsHash (hs : Contract.Hashes) (inputs : List U256) : U256 :=
  BitVec.ofNat 256 ((Contract.sha256AndShift hs.sha256 (abiEncode inputs)).toNat % frModulus)

/-- The proof with these words. -/
def proofOf (words : List U256) : Proof := deserializeProof (calldataload (abiEncode words)) 0

theorem words_proofOf {words : List U256} (h : words.length = 63) :
    (proofOf words).words = words := by
  rw [proofOf, words_deserializeProof]
  refine List.ext_getElem (by simp [h]) fun i hi hi' => ?_
  rw [List.getElem_map, List.getElem_range, Nat.zero_add, Nat.mul_comm,
    calldataload_abiEncode words hi']

/-- The contract's call of the verifier. -/
theorem verify_callOf_words {acc proof : List U256} (hproof : proof.length = 63) (computed : U256) :
    verify pre vk keccak256
      (callOf selector (abiEncode acc) (abiEncode proof) (toBytesBE computed)) =
        verifyWords pre (proofOf proof) vk keccak256 computed (abiEncode acc) := by
  have hlength : proofLength ≤ (abiEncode proof).length := by
    rw [length_abiEncode, hproof, proofLength]
  have hload : calldataload (toBytesBE computed) 0 = computed := by
    have hword := calldataload_abiEncode [computed] (i := 0) Nat.zero_lt_one
    rwa [abiEncode, List.flatMap_singleton] at hword
  rw [verify_callOf _ _ _ _ hlength (length_toBytesBE computed).ge, verifyBytes, hload]
  rfl

/-- **The verifier sees the field elements of the proposer.**  The contract takes the sum of the fees
from the rollup proof, hashes it with the roots and the accumulators, and the verifier gets the
accumulators, the words of the proof in the order of its fields, and that hash; the contract returns
what it answers, or reverts with it. -/
theorem verifyRollupProof_toBytes (hproof : p.proof.length = 63)
    (hblk : blk.rollupProof = Node.proofBytes p.toVec) (publicHash : U256) :
    Contract.verifyRollupProof hs (contractVerifier pre vk keccak256 selector) state blk publicHash =
      (verifyWords pre (proofOf (p.proof.map fqWord)) vk keccak256
          (publicInputsHash hs (publicInputs state blk publicHash p))
          (abiEncode p.accumulatorWords)).toOption.map (fun verified =>
            (verified, Node.uint256 p.feeSum)) ∧
      (proofOf (p.proof.map fqWord)).words = p.proof.map fqWord := by
  have hlen : (p.proof.map fqWord).length = 63 := by rw [List.length_map, hproof]
  refine ⟨?_, words_proofOf hlen⟩
  have hwords : blk.rollupProof =
      abiEncode (Node.uint256 p.feeSum :: (p.accumulatorWords ++ p.proof.map fqWord)) := by
    rw [hblk, proofBytes_eq, map_toVec]
  have hacc := length_accumulatorWords p
  rw [publicInputs]
  generalize p.accumulatorWords = acc at hwords hacc ⊢
  generalize p.proof.map fqWord = proof at hwords hlen ⊢
  generalize Node.uint256 p.feeSum = fee at hwords ⊢
  -- the accumulators are sliced twice: for the hash and for the verifier
  simp only [Contract.verifyRollupProof, hwords, slice_feeSum, mapM_slice_accumulators hacc,
    slice_accumulators hacc, slice_proof hacc hlen, Option.bind_eq_bind, Option.bind_some,
    fromBytesBE_toBytesBE, contractVerifier, verify_callOf_words hlen]
  rw [Option.map_eq_bind]
  rfl

/-- The coordinates of the generator as accumulators, and the words of the sample proof. -/
def sampleRollupProof : RollupProof where
  feeSum := ((3 : ℕ) : Fr254)
  accumulatorOne := ![1, ((2 : ℕ) : Fq254), 1, ((2 : ℕ) : Fq254)]
  accumulatorTwo := ![1, ((2 : ℕ) : Fq254), 1, ((2 : ℕ) : Fq254)]
  proof := (sampleProof sampleShiftedOpening).words.map fun word => (word.toNat : Fq254)

/-- A block with this proof. -/
def provenBlock : Contract.Block :=
  { Contract.transferBlock with rollupProof := Node.proofBytes sampleRollupProof.toVec }

/-- SHA-256 with a value, at the public inputs of this block, for which the proof was made. -/
def provenHashes : Contract.Hashes where
  sha256 bs :=
    if bs = abiEncode (publicInputs Contract.sampleState provenBlock 5 sampleRollupProof) then 0x70
    else Contract.byteSum bs
  keccak256 := Contract.byteSum

/-- The contract accepts the proof, and returns the fees in it. -/
theorem verifyRollupProof_toBytes_sample :
    Contract.verifyRollupProof provenHashes
      (contractVerifier samplePrecompiles sampleVk sampleKeccak [0, 1, 2, 3]) Contract.sampleState
      provenBlock 5 = some (true, 3) := by
  have hwords : sampleRollupProof.proof.map fqWord = (sampleProof sampleShiftedOpening).words := by
    decide +kernel
  have hproof : proofOf (sampleRollupProof.proof.map fqWord) = sampleProof sampleShiftedOpening := by
    rw [hwords]
    exact Proof.words_injective (words_proofOf rfl)
  have haccumulators : sampleRollupProof.accumulatorWords = [1, 2, 1, 2, 1, 2, 1, 2] := by
    decide +kernel
  have hhash : publicInputsHash provenHashes
      (publicInputs Contract.sampleState provenBlock 5 sampleRollupProof) = 7 := by
    have hsha256 : provenHashes.sha256
        (abiEncode (publicInputs Contract.sampleState provenBlock 5 sampleRollupProof)) = 0x70 := by
      unfold provenHashes
      generalize abiEncode _ = bs
      exact if_pos rfl
    rw [publicInputsHash, Contract.sha256AndShift, hsha256]
    rfl
  have hfees : Node.uint256 sampleRollupProof.feeSum = 3 := by decide +kernel
  rw [(verifyRollupProof_toBytes (p := sampleRollupProof) rfl rfl 5).1, hproof, hhash, haccumulators,
    hfees, verifyWords_sample]
  rfl

end

end Verifier

end Nightfall
