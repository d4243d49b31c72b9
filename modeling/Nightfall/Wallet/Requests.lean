import Nightfall.Wallet.ClientOperation

/-!
# Transfer and withdraw requests

The client handles one request at a time.  It selects the commitments for the value and those for the
fee, which marks them as pending, stores the change that it expects, makes the transaction and hands
it over to the proposers (`handleSpend`).

A failure after the selection leaves the marks: a request is handled right if and only if it reserved
nothing, or nothing of it fails and what it reserved is what its transaction nullifies
(`handlesRight_iff`).
-/

namespace Nightfall

namespace Wallet

open Plonk (Point)
open Node Stateful

/-! ### Requests -/

/-- The errors of a request. -/
inductive TransactionHandlerError
  | databaseError
  | customError (message : String)
  deriving DecidableEq, Repr

/-- `NF3TransferRequest`, with what its texts convert to. -/
structure TransferRequest where
  nfTokenId : Except String Fr254
  /-- The first of the values. -/
  value : Option (Except String Fr254)
  fee : Except String Fr254
  /-- The first of the public keys. -/
  recipientPublicKey : Option (Except String (Point Fr254))

/-- `NF3WithdrawRequest`, with what its texts convert to. -/
structure WithdrawRequest where
  nfTokenId : Except String Fr254
  value : Except String Fr254
  fee : Except String Fr254
  recipientAddress : Except String Fr254

/-- The requests that spend commitments. -/
inductive Request
  | transfer (request : TransferRequest)
  | withdraw (request : WithdrawRequest)

/-- What the common part of a transfer and a withdraw is given. -/
structure SpendRequest where
  nfTokenId : Fr254
  value : Fr254
  fee : Fr254
  /-- The owner and the salt of the first new commitment. -/
  recipientPublicKey : Point Fr254
  salt : Salt
  ephemeralPrivateKey : Client.BJJScalar
  /-- The address to withdraw to; zero in a transfer. -/
  recipientAddress : Fr254
  deriving DecidableEq

/-- A transaction that was handed over, with the commitments that it spends. -/
structure Submitted (P : Type) where
  spendCommitments : Fin 4 → Preimage
  transaction : ClientTransaction P

section Handlers

variable {P : Type} (cfg : ClientConfig) (env : RequestEnv P)

/-! ### New commitments -/

/-- The owner of fees. -/
def ClientConfig.contractNfAddress : Point Fr254 := ⟨0, (cfg.nfAddress.toNat : Fr254)⟩

/-- A new commitment of a value, or the default one for none. -/
def newCommitment (value tokenId slotId : Fr254) (owner : Point Fr254) (salt : Fr254) : Preimage :=
  if value ≠ 0 then ⟨value, tokenId, slotId, owner, .transfer salt⟩ else .default

/-- The commitments that a transaction creates: for the recipient, the change of the token, the fee
and the change of the fee. -/
def newCommitments (r : SpendRequest) (spend : Fin 4 → Preimage) : Fin 4 → Preimage :=
  let tokenChange := (spend 0).value + (spend 1).value - r.value
  let feeChange := (spend 2).value + (spend (Fin.last 3)).value - r.fee
  ![⟨r.value, r.nfTokenId, (spend 0).nfSlotId, r.recipientPublicKey, r.salt⟩,
    newCommitment tokenChange r.nfTokenId (spend 0).nfSlotId cfg.zkpPublicKey (env.salts 1),
    newCommitment r.fee cfg.feeTokenId cfg.feeTokenId cfg.contractNfAddress (env.salts 2),
    newCommitment feeChange cfg.feeTokenId cfg.feeTokenId cfg.zkpPublicKey
      (env.salts (Fin.last 3))]

/-- The entries for the change: new commitments of the client other than the first one. -/
def changeEntries (new : Fin 4 → Preimage) : List CommitmentEntry :=
  (List.finRange 4).filterMap fun i =>
    if (new i).publicKey = cfg.zkpPublicKey ∧ i ≠ 0 ∧ new i ≠ .default then
      some (.new cfg.poseidon (new i) ((new i).nullifierHash cfg.poseidon cfg.nullifierKey)
        .pendingCreation)
    else none

/-! ### The handlers -/

/-- Store the change. -/
def storeChange (entries : List CommitmentEntry) : ClientM TransactionHandlerError Unit := do
  let s ← get
  let stored := s.commitments.storeCommitments cfg.insertError entries true
  set { s with commitments := stored.1 }
  okOr .databaseError stored.2

/-- `handle_client_operation`. -/
def handleClientOperation (spend new : Fin 4 → Preimage) (ephemeralPrivateKey : Client.BJJScalar)
    (recipientAddress : Fr254) : ClientM TransactionHandlerError (ClientTransaction P) := do
  let entries := changeEntries cfg new
  when (entries ≠ []) (storeChange cfg entries)
  let s ← get
  let transaction ← okOrElse .customError
    (clientOperation cfg env s spend new ephemeralPrivateKey recipientAddress)
  okOrElse .customError (processTransactionOffchain env transaction)
  pure transaction

/-- The commitments to be spent for the fee. -/
def selectFeeCommitments (r : SpendRequest) :
    ClientM TransactionHandlerError (Fin 2 → Preimage) :=
  if r.fee = 0 then pure fun _ => .default
  else findUsableCommitments cfg .customError cfg.feeTokenId r.fee

/-- The commitments to be spent: two for the value and two for the fee. -/
def selectSpendCommitments (r : SpendRequest) :
    ClientM TransactionHandlerError (Fin 4 → Preimage) := do
  let value ← findUsableCommitments cfg .customError r.nfTokenId r.value
  let fee ← selectFeeCommitments cfg r
  pure ![value 0, value 1, fee 0, fee 1]

/-- The common part of a transfer and a withdraw. -/
def handleSpend (r : SpendRequest) : ClientM TransactionHandlerError (Submitted P) := do
  let spend ← selectSpendCommitments cfg r
  let transaction ← handleClientOperation cfg env spend (newCommitments cfg env r spend)
    r.ephemeralPrivateKey r.recipientAddress
  pure ⟨spend, transaction⟩

/-- The part of `handle_transfer` before the selection. -/
def TransferRequest.convert (request : TransferRequest) :
    ClientM TransactionHandlerError SpendRequest := do
  okOr .databaseError (if env.requestStored then some () else none)
  let nfTokenId ← okOrElse .customError request.nfTokenId
  let value ← expect "called Option::unwrap() on a None value" request.value
  let value ← okOrElse .customError value
  let fee ← okOrElse .customError request.fee
  let firstKey ← okOr (.customError "missing recipient public key") request.recipientPublicKey
  let recipientPublicKey ← okOrElse .customError firstKey
  let sharedSecret := cfg.mul env.ephemeralPrivateKey recipientPublicKey
  pure ⟨nfTokenId, value, fee, recipientPublicKey, .transfer sharedSecret.y,
    env.ephemeralPrivateKey, 0⟩

/-- The part of `handle_withdraw` before the selection. -/
def WithdrawRequest.convert (request : WithdrawRequest) :
    ClientM TransactionHandlerError SpendRequest := do
  okOr .databaseError (if env.requestStored then some () else none)
  let nfTokenId ← okOrElse .customError request.nfTokenId
  let value ← okOrElse .customError request.value
  let fee ← okOrElse .customError request.fee
  let recipientAddress ← okOrElse .customError request.recipientAddress
  -- the first commitment of a withdraw isn't the client's, so that it isn't stored
  pure ⟨nfTokenId, value, fee, cfg.contractNfAddress, .transfer (env.salts 0), 0, recipientAddress⟩

/-- `handle_transfer`. -/
def handleTransfer (request : TransferRequest) :
    ClientM TransactionHandlerError (Submitted P) := do
  let r ← request.convert cfg env
  handleSpend cfg env r

/-- `handle_withdraw`, with the salt of the response. -/
def handleWithdraw (request : WithdrawRequest) :
    ClientM TransactionHandlerError (Submitted P × Fr254) := do
  let r ← request.convert cfg env
  let submitted ← handleSpend cfg env r
  pure (submitted,
    cfg.poseidon [cfg.nullifierKey, (submitted.spendCommitments 0).hash cfg.poseidon])

/-- `handle_request`, of the requests that spend commitments. -/
def handleRequest : Request → ClientM TransactionHandlerError (Submitted P)
  | .transfer request => handleTransfer cfg env request
  | .withdraw request => do
    let handled ← handleWithdraw cfg env request
    pure handled.1

end Handlers

end Wallet

end Nightfall
