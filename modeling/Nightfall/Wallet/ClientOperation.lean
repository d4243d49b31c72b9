import Nightfall.Node.Mempool
import Nightfall.Wallet.CommitmentSelection

/-!
# A transaction is made and handed over

`clientOperation` makes the transaction that spends four commitments and creates four, with proofs
that the spent ones are in the client's commitment tree; it only reads the database.
`processTransactionOffchain` hands it over to all proposers.

The prover, the proposers and the default membership proof of the tree library are parameters.
-/

namespace Nightfall

namespace Wallet

open Plonk Node
open Merkle (PathElement)

/-! ### The surroundings of a request -/

/-- What a proposer answers to one attempt. -/
inductive Answer
  | response (status : ℕ) (body : String)
  /-- A network error; `retriable` ones are timeouts and failures to connect or to send. -/
  | networkError (retriable : Bool) (message : String)
  deriving DecidableEq, Repr

/-- A proposer. -/
structure Proposer (P : Type) where
  /-- The URL for transactions, if the one that is registered can be parsed. -/
  url : Except String String
  /-- The answers to a transaction, by the number of the attempt. -/
  answer : ClientTransaction P → ℕ → Answer

/-- What the handling of a request meets; proofs have type `P`. -/
structure RequestEnv (P : Type) where
  /-- The identifier of the request. -/
  id : String
  /-- `store_request` succeeds. -/
  requestStored : Bool
  /-- The random ephemeral key of a transfer. -/
  ephemeralPrivateKey : Client.BJJScalar
  /-- The random salts of the new commitments. -/
  salts : Fin 4 → Fr254
  /-- `MembershipProof::default`. -/
  defaultProof : MembershipProof Fr254 (PathElement Fr254)
  /-- `prove`: a proof and the completed public inputs. -/
  prove : Client.PrivateInputs → Client.PublicInputs Fr254 →
    Option (P × Client.PublicInputs Fr254)
  /-- `get_proposers`, or the text of its error. -/
  getProposers : Except String (List (Proposer P))

/-! ### The transaction -/

section Operation

variable {P : Type} (cfg : ClientConfig) (env : RequestEnv P)

/-- The hash of the nodes of the commitment tree. -/
def ClientConfig.treeHash (l r : Fr254) : Fr254 := nodeHash cfg.poseidon l r

/-- The membership proof of a commitment that is spent, and the root: a default proof for preimages
of the default token. -/
def spendProof (s : ClientState) (commitment : Preimage) :
    Except String (MembershipProof Fr254 (PathElement Fr254) × Fr254) :=
  if commitment.nfTokenId = 0 then .ok (env.defaultProof, 0)
  else
    let commitmentHash := commitment.hash cfg.poseidon
    match s.commitments.getCommitment commitmentHash with
    | none => .error "Could not find commitment in commitment database"
    | some _ =>
      match (Trees.getMembershipProof (some commitmentHash) none).run s.commitmentTree with
      | .error _ _ => .error "Could not get membership proof"
      | .ok proof db =>
        match (Trees.getRoot (F := Fr254)).run db with
        | .error _ _ => .error "Could not get root"
        | .ok root _ =>
          if Merkle.foldPath cfg.treeHash proof.siblingPath proof.nodeValue = root then
            .ok (⟨proof.nodeValue, proof.siblingPath⟩, root)
          else .error "Membership proof failed"

/-- The public inputs that the prover is given. -/
def operationPublicInputs (newCommitments : Fin 4 → Preimage)
    (proofs : Fin 4 → MembershipProof Fr254 (PathElement Fr254) × Fr254) :
    Client.PublicInputs Fr254 where
  fee := (newCommitments 2).value
  roots i := (proofs i).2
  commitments _ := 0
  nullifiers _ := 0
  compressedSecrets _ := 0

/-- The private inputs that the prover is given. -/
def operationPrivateInputs (spendCommitments newCommitments : Fin 4 → Preimage)
    (ephemeralKey : Client.BJJScalar) (withdrawAddress : Fr254)
    (proofs : Fin 4 → MembershipProof Fr254 (PathElement Fr254) × Fr254) :
    Client.PrivateInputs where
  feeTokenId := 0
  nfAddress := cfg.nfAddress
  value := (newCommitments 0).value
  nfTokenId := (spendCommitments 0).nfTokenId
  nfSlotId := (newCommitments 0).nfSlotId
  nullifiersValues i := (spendCommitments i).value
  nullifiersSalts i := (spendCommitments i).salt.getSalt cfg.poseidon
  membershipProofs i := (proofs i).1
  commitmentsValues := ![(newCommitments 1).value, (newCommitments (Fin.last 3)).value]
  commitmentsSalts := ![(newCommitments 1).salt.getSalt cfg.poseidon,
    (newCommitments 2).salt.getSalt cfg.poseidon,
    (newCommitments (Fin.last 3)).salt.getSalt cfg.poseidon]
  publicKeys i := (spendCommitments i).publicKey
  -- the first new commitment of a withdraw has no owner
  recipientPublicKey := if withdrawAddress = 0 then (newCommitments 0).publicKey else .neutral
  nullifierKey := cfg.nullifierKey
  zkpPrivateKey := cfg.zkpPrivateKey
  ephemeralKey := (ephemeralKey.val : Fr254)
  withdrawAddress := withdrawAddress
  secretPreimages i := (spendCommitments i).getSecretPreimage.toArray

/-- `client_operation`. -/
def clientOperation (s : ClientState) (spendCommitments newCommitments : Fin 4 → Preimage)
    (ephemeralKey : Client.BJJScalar) (withdrawAddress : Fr254) :
    Except String (ClientTransaction P) := do
  let total := fun (commitments : Fin 4 → Preimage) i j =>
    (commitments i).value + (commitments j).value
  if total newCommitments 0 1 = total spendCommitments 0 1 ∧
      total newCommitments 2 (Fin.last 3) = total spendCommitments 2 (Fin.last 3) then
    let proof₀ ← spendProof cfg env s (spendCommitments 0)
    let proof₁ ← spendProof cfg env s (spendCommitments 1)
    let proof₂ ← spendProof cfg env s (spendCommitments 2)
    let proof₃ ← spendProof cfg env s (spendCommitments (Fin.last 3))
    let proofs := ![proof₀, proof₁, proof₂, proof₃]
    match env.prove (operationPrivateInputs cfg spendCommitments newCommitments ephemeralKey
        withdrawAddress proofs) (operationPublicInputs newCommitments proofs) with
    | none => .error "Transaction could not be completed due to a proving error."
    | some (proof, publicInputs) => .ok {
        fee := publicInputs.fee
        historicCommitmentRoots := publicInputs.roots
        commitments := publicInputs.commitments
        nullifiers := publicInputs.nullifiers
        compressedSecrets := ⟨publicInputs.compressedSecrets⟩
        proof := proof }
  else .error "Value or fee not conserved in this transaction: rejecting"

end Operation

/-! ### The way to the proposers -/

section HandOver

variable {P : Type}

/-- The statuses `BAD_GATEWAY`, `SERVICE_UNAVAILABLE` and `GATEWAY_TIMEOUT`. -/
def isUnavailable (status : ℕ) : Bool := decide (status ∈ [502, 503, 504])

/-- The attempts that are left, the next of which has the given number.  An error comes with whether
it is worth another attempt. -/
def sendAttempts (url : String) (answer : ℕ → Answer) : ℕ → ℕ → Except (String × Bool) Unit
  | 0, _ => .error ("Max retries exhausted for proposer " ++ url, true)
  | left + 1, attempt =>
    match answer attempt with
    | .response status body =>
      if 200 ≤ status ∧ status < 300 then .ok ()
      else if isUnavailable status ∧ left ≠ 0 then sendAttempts url answer left (attempt + 1)
      else .error ("Proposer returned HTTP " ++ toString status ++ ": " ++ body, isUnavailable status)
    | .networkError retriable message =>
      if retriable ∧ left ≠ 0 then sendAttempts url answer left (attempt + 1)
      else .error ("Network error: " ++ message, true)

/-- `send_to_proposer_with_retry`. -/
def sendToProposerWithRetry (transaction : ClientTransaction P) (maxRetries : ℕ)
    (proposer : Proposer P) : Except (String × Bool) Unit :=
  match proposer.url with
  | .error message => .error ("Invalid URL: " ++ message, false)
  | .ok url => sendAttempts url (proposer.answer transaction) maxRetries 1

/-- A proposer failed in a way that another attempt may mend. -/
def isRetriable : Except (String × Bool) Unit → Bool
  | .ok _ => false
  | .error e => e.2

/-- `process_transaction_offchain`, with three attempts for each proposer. -/
def processTransactionOffchain (env : RequestEnv P) (transaction : ClientTransaction P) :
    Except String Unit := do
  let proposers ← env.getProposers
  let results := proposers.map (sendToProposerWithRetry transaction 3)
  if results.any Except.isOk then .ok ()
  else if results.any isRetriable then
    .error (env.id ++ " All proposers unreachable after retries.")
  else .error (env.id ++ " All proposers rejected the transaction.")

end HandOver

end Wallet

end Nightfall
