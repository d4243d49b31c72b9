import Nightfall.Contract.Escrowed
import Nightfall.Node.Proposer
import Nightfall.Wallet.Requests

/-!
# A deposit

`depositOperation` sends the funds of a deposit to the contract and returns the preimages that the
client stores.  It works out by itself what the contract will record: the token id and the slot id,
and whether there is a second deposit for the fees.

* `storesEscrowed_iff` : when the preimages are those of the deposits that the contract recorded.
-/

namespace Nightfall

namespace Wallet

open Evm Node
open Contract (Address TokenType EscrowCall DepositCommitment Deployment Verifier contractSystem)

/-! ### The operation -/

/-- `Addr::try_from`: the bound is that of 161 bits, and the low 160 bits are taken. -/
def addrTryFrom (a : Fr254) : Option Address :=
  if 2 ^ 161 - 1 < a.val then none else some (BitVec.ofNat 160 a.val)

/-- The arguments of `deposit_operation`. -/
structure DepositRequest where
  ercAddress : Fr254
  value : Fr254
  fee : Fr254
  depositFee : Fr254
  tokenId : U256
  secretPreimage : DepositSecret
  tokenType : TokenType

/-- How the transaction that calls `escrow_funds` ends. -/
inductive EscrowOutcome
  /-- It isn't sent. -/
  | notSent (message : String)
  | noReceipt (message : String)
  /-- It is in a block of the first layer, but reverted. -/
  | reverted
  /-- The contract recorded deposits with the keys. -/
  | escrowed (keys : List U256)

/-- The keys of the deposits that the contract recorded. -/
def EscrowOutcome.keys : EscrowOutcome → List U256
  | notSent _ => []
  | noReceipt _ => []
  | reverted => []
  | escrowed keys => keys

/-- What a deposit meets. -/
structure DepositEnv where
  /-- `set_approval`. -/
  approval : Except String Unit
  outcome : EscrowOutcome
  /-- The slot of the token, of which the contract and the client ask the token contract. -/
  slotOf : U256
  /-- The call of `slotOf` by the client succeeds. -/
  readsSlot : Bool

/-- The errors of a deposit. -/
inductive DepositError
  | tokenError (message : String)
  | nightfallError (message : String)
  deriving DecidableEq, Repr

section Operation

variable (cfg : ClientConfig) (env : DepositEnv) (req : DepositRequest)

/-- The ether that is sent: the fee once, or twice and the deposit for later fees. -/
def DepositRequest.totalFee : Fr254 :=
  if req.depositFee = 0 then req.fee else req.fee + req.fee + req.depositFee

/-- The call of `escrow_funds`. -/
def DepositRequest.escrowCall (address : Address) : EscrowCall where
  fee := uint256 req.fee
  ercAddress := address
  tokenId := req.tokenId
  value := uint256 req.value
  secretHash := uint256 ((Salt.deposit req.secretPreimage).getSalt cfg.poseidon)
  tokenType := req.tokenType
  msgValue := uint256 req.totalFee
  certified := true
  slotOf := env.slotOf

/-- The receipt; one that says that the transaction reverted is as good as any. -/
def EscrowOutcome.receipt : EscrowOutcome → Except (Failure DepositError) Unit
  | notSent message => .error (.panic ("Error sending transaction: " ++ message))
  | noReceipt message => .error (.err (.nightfallError ("Transaction unsuccesful: " ++ message)))
  | reverted => .ok ()
  | escrowed _ => .ok ()

/-- The slot: that of an ERC3525 token, or the token id. -/
def slotId : Except (Failure DepositError) U256 :=
  if req.tokenType = .ERC3525 then
    if env.readsSlot then .ok env.slotOf
    else .error (.err (.nightfallError "Could not retrieve ERC3525 slot"))
  else .ok req.tokenId

/-- The Nightfall slot id of a slot: the token id for a slot with the number of the token. -/
def nfSlotIdOf (address : Address) (slotId : U256) : Fr254 :=
  if slotId = req.tokenId then toNfTokenIdFromSolidity cfg.sha256 address req.tokenId
  else element (cfg.keccak256 (abiEncode [address.toWord, slotId]) >>> 4)

/-- `escrow_funds` of the client: the token id and the slot id. -/
def escrowFunds : Except (Failure DepositError) (Fr254 × Fr254) :=
  match addrTryFrom req.ercAddress with
  | none => .error (.err (.nightfallError "Overflow"))
  | some address => do
    env.outcome.receipt
    let slot ← slotId env req
    return (toNfTokenIdFromSolidity cfg.sha256 address req.tokenId, nfSlotIdOf cfg req address slot)

/-- A preimage of the deposit. -/
def DepositRequest.preimage (value nfTokenId nfSlotId : Fr254) : Preimage :=
  ⟨value, nfTokenId, nfSlotId, .neutral, .deposit req.secretPreimage⟩

/-- `deposit_operation`: the preimage for the value, and one for the fees if any are deposited. -/
def depositOperation : Except (Failure DepositError) (Preimage × Option Preimage) := do
  match env.approval with
  | .error message => throw (.err (.tokenError message))
  | .ok _ =>
    let ids ← escrowFunds cfg env req
    return (req.preimage req.value ids.1 ids.2,
      if req.depositFee = 0 then none
      else some (req.preimage req.depositFee cfg.feeTokenId cfg.feeTokenId))

end Operation

/-! ### What the contract recorded -/

/-- The contract that the client uses. -/
def ClientConfig.deployment (cfg : ClientConfig) (verifier : Verifier) : Deployment :=
  ⟨⟨cfg.sha256, cfg.keccak256⟩, verifier, cfg.nfAddress⟩

/-- The data of a deposit, as field elements. -/
def depositDataOf (d : DepositCommitment) : DepositData :=
  ⟨element d.nfTokenId, element d.nfSlotId, element d.value, element d.secretHash⟩

/-- The data of the deposit that a preimage stands for. -/
def Preimage.depositData (poseidon : List Fr254 → Fr254) (p : Preimage) : DepositData :=
  ⟨p.nfTokenId, p.nfSlotId, p.value, p.salt.getSalt poseidon⟩

/-- What `handle_deposit` stores. -/
def storedPreimages (r : Preimage × Option Preimage) : List Preimage := r.1 :: r.2.toList

section Property

variable (cfg : ClientConfig) (verifier : Verifier) (env : DepositEnv) (req : DepositRequest)
  (address : Address)

/-- The deposits that the contract recorded in the call: none if it reverted. -/
def EscrowOutcome.commitments : EscrowOutcome → List DepositCommitment
  | notSent _ => []
  | noReceipt _ => []
  | reverted => []
  | escrowed _ => (req.escrowCall cfg env address).commitments
      (cfg.deployment verifier).hashes (cfg.deployment verifier).feeId

/-- **The client stores what it deposited**: its preimages, which nobody owns, are those of the
deposits of which the contract recorded the keys. -/
structure StoresEscrowed (stored : List Preimage) : Prop where
  keys : env.outcome.keys =
    (env.outcome.commitments cfg verifier env req address).map (DepositCommitment.key cfg.sha256)
  data : stored.map (Preimage.depositData cfg.poseidon) =
    (env.outcome.commitments cfg verifier env req address).map depositDataOf
  owner : ∀ p ∈ stored, p.publicKey = .neutral

/-- The transaction didn't revert, an ERC3525 token doesn't have the number of its slot (unless both
hashes give the same id), and the sum of the fees doesn't wrap around. -/
structure EscrowAgrees : Prop where
  escrowed : ∃ keys, env.outcome = .escrowed keys
  slot : req.tokenType = .ERC3525 → env.slotOf = req.tokenId →
    cfg.sha256 (abiEncode [address.toWord, req.tokenId]) >>> 4 =
      cfg.keccak256 (abiEncode [address.toWord, req.tokenId]) >>> 4
  fees : req.depositFee ≠ 0 → 2 * req.fee.val + req.depositFee.val < frModulus

end Property

section Agreement

variable {cfg : ClientConfig} {verifier : Verifier} {env : DepositEnv} {req : DepositRequest}
  {address : Address}

theorem toNat_shift_lt (w : U256) : (w >>> 4).toNat < frModulus := by
  have hlt := w.isLt
  have hmod : 2 ^ 252 < frModulus := by norm_num [frModulus]
  rw [BitVec.toNat_ushiftRight, Nat.shiftRight_eq_div_pow]
  omega

theorem element_inj {u v : U256} (hu : u.toNat < frModulus) (hv : v.toNat < frModulus) :
    element u = element v ↔ u = v := by
  constructor
  · intro h
    have hval := congrArg ZMod.val h
    rw [element, element, ZMod.val_natCast, ZMod.val_natCast, Nat.mod_eq_of_lt hu,
      Nat.mod_eq_of_lt hv] at hval
    exact BitVec.eq_of_toNat_eq hval
  · intro h
    rw [h]

theorem val_totalFee (h : req.depositFee ≠ 0) :
    req.totalFee.val = (2 * req.fee.val + req.depositFee.val) % frModulus := by
  rw [DepositRequest.totalFee, if_neg h, ZMod.val_add, ZMod.val_add, Nat.mod_add_mod, ← two_mul]

theorem toNat_double_fee : (2 * uint256 req.fee).toNat = 2 * req.fee.val := by
  have hlt := ZMod.val_lt req.fee
  have hmod : frModulus < 2 ^ 255 := by norm_num [frModulus]
  rw [BitVec.toNat_mul, toNat_uint256]
  exact Nat.mod_eq_of_lt (by change 2 * _ < 2 ^ 256; omega)

/-- **Whether the contract records a second deposit**: only without a wrap-around. -/
theorem double_fee_lt_iff :
    2 * uint256 req.fee < uint256 req.totalFee ↔
      req.depositFee ≠ 0 ∧ 2 * req.fee.val + req.depositFee.val < frModulus := by
  rw [BitVec.lt_def, toNat_double_fee, toNat_uint256]
  by_cases hzero : req.depositFee = 0
  · have htotal : req.totalFee = req.fee := if_pos hzero
    rw [htotal]
    exact iff_of_false (by omega) fun h => h.1 hzero
  · have hval := val_totalFee hzero
    have hpos : 0 < req.depositFee.val := Nat.pos_of_ne_zero fun h => hzero ((ZMod.val_eq_zero _).1 h)
    have hlt := ZMod.val_lt req.depositFee
    by_cases hwrap : 2 * req.fee.val + req.depositFee.val < frModulus
    · rw [Nat.mod_eq_of_lt hwrap] at hval
      exact iff_of_true (by omega) ⟨hzero, hwrap⟩
    · have hmod : (2 * req.fee.val + req.depositFee.val) % frModulus ≤
          2 * req.fee.val + req.depositFee.val - frModulus := by
        rw [Nat.mod_eq_sub_mod (not_lt.1 hwrap)]
        exact Nat.mod_le _ _
      exact iff_of_false (by omega) fun h => hwrap h.2

theorem sub_double_fee (hzero : req.depositFee ≠ 0)
    (hwrap : 2 * req.fee.val + req.depositFee.val < frModulus) :
    element (uint256 req.totalFee - 2 * uint256 req.fee) = req.depositFee := by
  have hval := val_totalFee hzero
  rw [Nat.mod_eq_of_lt hwrap] at hval
  have hlt := ZMod.val_lt req.totalFee
  have hsub : (uint256 req.totalFee - 2 * uint256 req.fee).toNat = req.depositFee.val := by
    rw [BitVec.toNat_sub_of_le, toNat_double_fee, toNat_uint256, hval]
    · omega
    · rw [BitVec.le_def, toNat_double_fee, toNat_uint256, hval]
      omega
  rw [element, hsub, ZMod.natCast_zmod_val]

theorem depositOperation_eq_ok {stored : Preimage × Option Preimage}
    (haddress : addrTryFrom req.ercAddress = some address)
    (h : depositOperation cfg env req = .ok stored) :
    (env.outcome = .reverted ∨ ∃ keys, env.outcome = .escrowed keys) ∧
      ∃ slot, slotId env req = .ok slot ∧
        stored = (req.preimage req.value (toNfTokenIdFromSolidity cfg.sha256 address req.tokenId)
            (nfSlotIdOf cfg req address slot),
          if req.depositFee = 0 then none
          else some (req.preimage req.depositFee cfg.feeTokenId cfg.feeTokenId)) := by
  rw [depositOperation] at h
  cases happroval : env.approval with
  | error message =>
    rw [happroval] at h
    cases h
  | ok u =>
    rw [happroval, escrowFunds, haddress] at h
    cases houtcome : env.outcome with
    | notSent message =>
      rw [houtcome] at h
      cases h
    | noReceipt message =>
      rw [houtcome] at h
      cases h
    | reverted =>
      rw [houtcome] at h
      cases hslot : slotId env req with
      | error f =>
        rw [hslot] at h
        cases h
      | ok slot =>
        rw [hslot] at h
        cases h
        exact ⟨.inl rfl, slot, rfl, rfl⟩
    | escrowed keys =>
      rw [houtcome] at h
      cases hslot : slotId env req with
      | error f =>
        rw [hslot] at h
        cases h
      | ok slot =>
        rw [hslot] at h
        cases h
        exact ⟨.inr ⟨keys, rfl⟩, slot, rfl, rfl⟩

theorem depositOperation_of_escrowed {keys : List U256} {slot : U256}
    (haddress : addrTryFrom req.ercAddress = some address) (happroval : env.approval = .ok ())
    (houtcome : env.outcome = .escrowed keys) (hslot : slotId env req = .ok slot) :
    depositOperation cfg env req =
      .ok (req.preimage req.value (toNfTokenIdFromSolidity cfg.sha256 address req.tokenId)
          (nfSlotIdOf cfg req address slot),
        if req.depositFee = 0 then none
        else some (req.preimage req.depositFee cfg.feeTokenId cfg.feeTokenId)) := by
  rw [depositOperation, happroval, escrowFunds, haddress, houtcome, hslot]
  rfl

/-- **When the client finds the slot id of the contract.** -/
theorem nfSlotIdOf_eq_iff {slot : U256} (hslot : slotId env req = .ok slot) :
    nfSlotIdOf cfg req address slot =
        element ((req.escrowCall cfg env address).nfSlotId (cfg.deployment verifier).hashes) ↔
      (req.tokenType = .ERC3525 → env.slotOf = req.tokenId →
        cfg.sha256 (abiEncode [address.toWord, req.tokenId]) >>> 4 =
          cfg.keccak256 (abiEncode [address.toWord, req.tokenId]) >>> 4) := by
  rw [slotId] at hslot
  rw [nfSlotIdOf, EscrowCall.nfSlotId]
  by_cases htype : req.tokenType = .ERC3525
  · rw [if_pos htype] at hslot
    rw [if_pos (show (req.escrowCall cfg env address).tokenType = .ERC3525 from htype)]
    split_ifs at hslot with hread
    cases hslot
    change (if env.slotOf = req.tokenId then _ else _) =
      element (cfg.keccak256 (abiEncode [address.toWord, env.slotOf]) >>> 4) ↔ _
    by_cases hsame : env.slotOf = req.tokenId
    · rw [if_pos hsame, hsame]
      refine (element_inj (toNat_shift_lt _) (toNat_shift_lt _)).trans ?_
      exact ⟨fun heq _ _ => heq, fun hall => hall htype rfl⟩
    · rw [if_neg hsame]
      exact iff_of_true rfl fun _ heq => absurd heq hsame
  · rw [if_neg htype] at hslot
    cases hslot
    rw [if_pos rfl, if_neg (show (req.escrowCall cfg env address).tokenType ≠ .ERC3525 from htype)]
    exact iff_of_true rfl fun htype' => absurd htype' htype

/-- The preimages are those of the deposits of a call that the contract accepted. -/
theorem map_depositData_eq_iff {slot : U256} (hslot : slotId env req = .ok slot) :
    (storedPreimages (req.preimage req.value
          (toNfTokenIdFromSolidity cfg.sha256 address req.tokenId) (nfSlotIdOf cfg req address slot),
        if req.depositFee = 0 then none
        else some (req.preimage req.depositFee cfg.feeTokenId cfg.feeTokenId))).map
          (Preimage.depositData cfg.poseidon) =
        ((req.escrowCall cfg env address).commitments (cfg.deployment verifier).hashes
          (cfg.deployment verifier).feeId).map depositDataOf ↔
      (req.tokenType = .ERC3525 → env.slotOf = req.tokenId →
        cfg.sha256 (abiEncode [address.toWord, req.tokenId]) >>> 4 =
          cfg.keccak256 (abiEncode [address.toWord, req.tokenId]) >>> 4) ∧
        (req.depositFee ≠ 0 → 2 * req.fee.val + req.depositFee.val < frModulus) := by
  have hvalue : depositDataOf ((req.escrowCall cfg env address).valueCommitment
      (cfg.deployment verifier).hashes) =
        ⟨toNfTokenIdFromSolidity cfg.sha256 address req.tokenId,
          element ((req.escrowCall cfg env address).nfSlotId (cfg.deployment verifier).hashes),
          req.value, (Salt.deposit req.secretPreimage).getSalt cfg.poseidon⟩ := by
    rw [depositDataOf, EscrowCall.valueCommitment, DepositRequest.escrowCall, element_uint256,
      element_uint256]
    rfl
  rw [storedPreimages, List.map_cons, EscrowCall.commitments, List.map_cons, List.cons.injEq, hvalue]
  refine and_congr ?_ ?_
  · rw [← @nfSlotIdOf_eq_iff cfg verifier env req address slot hslot]
    exact ⟨congrArg DepositData.nfSlotId, fun h => by
      rw [Preimage.depositData, DepositRequest.preimage, h]⟩
  · have hiff := @double_fee_lt_iff req
    change _ = List.map _ (if 2 * uint256 req.fee < uint256 req.totalFee then _ else _) ↔ _
    by_cases hzero : req.depositFee = 0
    · rw [if_pos hzero, if_neg fun h => (hiff.1 h).1 hzero]
      exact iff_of_true rfl fun hne => absurd hzero hne
    · rw [if_neg hzero]
      by_cases hwrap : 2 * req.fee.val + req.depositFee.val < frModulus
      · rw [if_pos (hiff.2 ⟨hzero, hwrap⟩)]
        refine iff_of_true ?_ fun _ => hwrap
        have hfee : depositDataOf ⟨(cfg.deployment verifier).feeId, (cfg.deployment verifier).feeId,
            uint256 req.totalFee - 2 * uint256 req.fee,
            uint256 ((Salt.deposit req.secretPreimage).getSalt cfg.poseidon)⟩ =
              ⟨cfg.feeTokenId, cfg.feeTokenId, req.depositFee,
                (Salt.deposit req.secretPreimage).getSalt cfg.poseidon⟩ := by
          rw [depositDataOf, sub_double_fee hzero hwrap, element_uint256]
          rfl
        exact congrArg (· :: []) hfee.symm
      · rw [if_neg fun h => hwrap (hiff.1 h).2]
        refine iff_of_false (fun h => ?_) fun h => hwrap (h hzero)
        cases h

/-- **When the client stores what it deposited.** -/
theorem storesEscrowed_iff {trace : List Contract.Event} {c : Contract.Config}
    (hrun : (contractSystem (cfg.deployment verifier)).Run trace c)
    (haddress : addrTryFrom req.ercAddress = some address)
    (hmined : ∀ keys, env.outcome = .escrowed keys →
      ∃ e ∈ trace, e.action = .escrowed (req.escrowCall cfg env address) keys)
    {stored : Preimage × Option Preimage} (h : depositOperation cfg env req = .ok stored) :
    StoresEscrowed cfg verifier env req address (storedPreimages stored) ↔
      EscrowAgrees cfg env req address := by
  obtain ⟨houtcome, slot, hslot, rfl⟩ := depositOperation_eq_ok haddress h
  rcases houtcome with hreverted | ⟨keys, hescrowed⟩
  · refine iff_of_false (fun hstores => ?_) fun hagrees => ?_
    · have hdata := hstores.data
      rw [hreverted] at hdata
      cases hdata
    · obtain ⟨keys, hescrowed⟩ := hagrees.escrowed
      rw [hreverted] at hescrowed
      cases hescrowed
  · have hiff := @map_depositData_eq_iff cfg verifier env req address slot hslot
    obtain ⟨e, he, haction⟩ := hmined keys hescrowed
    have hkeys := (Contract.escrowed_spec hrun e he _ _ haction).keys_eq
    constructor
    · intro hstores
      have hdata := hstores.data
      rw [hescrowed] at hdata
      obtain ⟨hagree, hfees⟩ := hiff.1 hdata
      exact ⟨⟨keys, hescrowed⟩, hagree, hfees⟩
    · intro hagrees
      refine ⟨?_, ?_, ?_⟩
      · rw [hescrowed]
        exact hkeys
      · rw [hescrowed]
        exact hiff.2 ⟨hagrees.slot, hagrees.fees⟩
      · intro p hp
        rcases List.mem_cons.1 hp with rfl | hfee
        · rfl
        · split_ifs at hfee
          · cases hfee
          · rw [List.mem_singleton.1 hfee]
            rfl

end Agreement

/-! ### Storing the preimages -/

/-- The part of `handle_deposit` after the operation, for one of the preimages. -/
def storePreimage (cfg : ClientConfig) (p : Preimage) : ClientM TransactionHandlerError Unit := do
  let s ← get
  let commitments ← okOr .databaseError (s.commitments.storeCommitment
    (.new cfg.poseidon p (p.nullifierHash cfg.poseidon cfg.nullifierKey) .pendingCreation))
  set { s with commitments := commitments }

/-- `handle_deposit` after the operation. -/
def storePreimages (cfg : ClientConfig) : List Preimage → ClientM TransactionHandlerError Unit
  | [] => pure ()
  | p :: ps => do
    storePreimage cfg p
    storePreimages cfg ps

/-! ### Two deposits -/

/-- A client for deposits. -/
def depositConfig : ClientConfig where
  poseidon ins := ins.sum
  scalarMul k Q := ⟨k * Q.x, k * Q.y⟩
  generator := ⟨1, 0⟩
  keccak256 bytes := Contract.byteSum bytes + 16
  zkpPrivateKey := (43 : ℕ)
  zkpPublicKey := ⟨(43 : ℕ), 0⟩
  nullifierKey := (53 : ℕ)
  nfAddress := 77
  deserialize _ := none
  sha256 := Contract.byteSum
  insertError := .other

/-- A deposit of 3 of a token, with a fee of 1 and 4 for later fees. -/
def depositRequest (tokenId : U256) (tokenType : TokenType) : DepositRequest where
  ercAddress := (5 : ℕ)
  value := (3 : ℕ)
  fee := (1 : ℕ)
  depositFee := (4 : ℕ)
  tokenId := tokenId
  secretPreimage := ⟨(11 : ℕ), (13 : ℕ), (17 : ℕ)⟩
  tokenType := tokenType

/-- A deposit whose call recorded the keys. -/
def depositEnv (slotOf : U256) (keys : List U256) : DepositEnv :=
  ⟨.ok (), .escrowed keys, slotOf, true⟩

/-- The contract of a client whose verifier accepts everything. -/
def depositDeployment : Deployment := depositConfig.deployment fun _ _ _ => some true

/-- The call of a deposit. -/
def depositCall (tokenId slotOf : U256) (tokenType : TokenType) : EscrowCall :=
  (depositRequest tokenId tokenType).escrowCall depositConfig (depositEnv slotOf []) 5

/-- The contract accepts a call. -/
def acceptsDeposit (call : EscrowCall) : Bool :=
  ((Contract.beginEscrow depositDeployment.hashes call
    (Contract.initialized depositDeployment 0 0 0 0 0)).bind
      (Contract.finishEscrow depositDeployment.hashes call)).isSome

theorem acceptsDeposit_erc20 : acceptsDeposit (depositCall 0 0 .ERC20) = true := by decide +kernel

theorem acceptsDeposit_erc3525 : acceptsDeposit (depositCall 7 7 .ERC3525) = true := by
  decide +kernel

theorem addrTryFrom_depositRequest : addrTryFrom ((5 : ℕ) : Fr254) = some 5 := by decide +kernel

/-- The client stores both deposits of an ERC20 token. -/
theorem stores_escrowed_sample :
    ∃ (keys : List U256) (stored : Preimage × Option Preimage),
      depositOperation depositConfig (depositEnv 0 keys) (depositRequest 0 .ERC20) = .ok stored ∧
        (storedPreimages stored).length = 2 ∧
          StoresEscrowed depositConfig (fun _ _ _ => true) (depositEnv 0 keys)
            (depositRequest 0 .ERC20) 5 (storedPreimages stored) := by
  obtain ⟨trace, c, keys, hrun, e, he, haction⟩ :=
    @Contract.exists_run_escrowed depositDeployment _ acceptsDeposit_erc20
  have hop := @depositOperation_of_escrowed depositConfig (depositEnv 0 keys)
    (depositRequest 0 .ERC20) _ _ _ addrTryFrom_depositRequest rfl rfl rfl
  refine ⟨keys, _, hop, by decide +kernel, (storesEscrowed_iff hrun addrTryFrom_depositRequest
    (fun keys' h => ?_) hop).2 ⟨⟨keys, rfl⟩, fun h => ?_, fun _ => by decide +kernel⟩⟩
  · cases h
    exact ⟨e, he, haction⟩
  · cases h

/-- The deposit of an ERC3525 token with the number of its slot is stored under another slot id. -/
theorem slot_id_differs :
    ∃ (trace : List Contract.Event) (c : Contract.Config) (keys : List U256)
      (stored : Preimage × Option Preimage), (contractSystem depositDeployment).Run trace c ∧
        (∃ e ∈ trace, e.action = .escrowed (depositCall 7 7 .ERC3525) keys) ∧
        depositOperation depositConfig (depositEnv 7 keys) (depositRequest 7 .ERC3525) =
          .ok stored ∧
        ¬StoresEscrowed depositConfig (fun _ _ _ => true) (depositEnv 7 keys)
          (depositRequest 7 .ERC3525) 5 (storedPreimages stored) := by
  obtain ⟨trace, c, keys, hrun, hevent⟩ :=
    @Contract.exists_run_escrowed depositDeployment _ acceptsDeposit_erc3525
  have hop := @depositOperation_of_escrowed depositConfig (depositEnv 7 keys)
    (depositRequest 7 .ERC3525) _ _ _ addrTryFrom_depositRequest rfl rfl rfl
  refine ⟨trace, c, keys, _, hrun, hevent, hop, fun hstores => ?_⟩
  have hslot := ((map_depositData_eq_iff rfl).1 hstores.data).1 rfl rfl
  exact absurd hslot (by decide +kernel)

end Wallet

end Nightfall
