import Nightfall.Client.KemDem
import Nightfall.Node.Events

/-!
# The commitments of a client

A client keeps the commitments that it owns in a collection of its database, each under its hash and
with a status.  The statuses are overwritten in bulk, whatever they were before, and a list of new
commitments is inserted up to the first one that is there already.

The texts under which field elements are stored have one element each, so the elements stand for
them.
-/

namespace Nightfall

namespace Wallet

open Plonk (Point)
open Node (NodeM ProposedBlocks)

/-! ### Preimages -/

/-- The three secrets of a deposit. -/
structure DepositSecret where
  preimageOne : Fr254
  preimageTwo : Fr254
  preimageThree : Fr254
  deriving DecidableEq

/-- `to_array`. -/
def DepositSecret.toArray (secret : DepositSecret) : Fin 3 → Fr254 :=
  ![secret.preimageOne, secret.preimageTwo, secret.preimageThree]

/-- `DepositSecret::default`. -/
def DepositSecret.default : DepositSecret := ⟨0, 0, 0⟩

/-- The salts of commitments: random, or the hash of the secrets of a deposit. -/
inductive Salt
  | transfer (salt : Fr254)
  | deposit (secret : DepositSecret)
  deriving DecidableEq

/-- `Preimage`: what a commitment is the hash of. -/
structure Preimage where
  value : Fr254
  nfTokenId : Fr254
  nfSlotId : Fr254
  publicKey : Point Fr254
  salt : Salt
  deriving DecidableEq

/-- `Preimage::default`. -/
def Preimage.default : Preimage := ⟨0, 0, 0, .neutral, .transfer 0⟩

/-- `get_secret_preimage`. -/
def Preimage.getSecretPreimage (p : Preimage) : DepositSecret :=
  match p.salt with
  | .transfer _ => .default
  | .deposit secret => secret

section Hashes

variable (poseidon : List Fr254 → Fr254)

/-- `get_salt`. -/
def Salt.getSalt : Salt → Fr254
  | .transfer salt => salt
  | .deposit secret => poseidon [secret.preimageOne, secret.preimageTwo, secret.preimageThree]

/-- The preimage as the circuit sees it. -/
def Preimage.note (p : Preimage) : Client.Preimage Fr254 where
  nfTokenId := p.nfTokenId
  nfSlotId := p.nfSlotId
  value := p.value
  publicKey := p.publicKey
  salt := p.salt.getSalt poseidon

/-- `Preimage::hash`. -/
def Preimage.hash (p : Preimage) : Fr254 := (p.note poseidon).hash poseidon

/-- `nullifier_hash`. -/
def Preimage.nullifierHash (nullifierKey : Fr254) (p : Preimage) : Fr254 :=
  (p.note poseidon).nullifier poseidon nullifierKey

end Hashes

/-! ### The collection -/

/-- The statuses of a commitment. -/
inductive CommitmentStatus
  | pendingSpend
  | spent
  | pendingCreation
  | unspent
  deriving DecidableEq, Repr

/-- What is stored of a commitment. -/
structure CommitmentEntry where
  preimage : Preimage
  status : CommitmentStatus
  key : Fr254
  nullifier : Fr254
  layer1TransactionHash : Option Evm.U256
  layer2BlockNumber : Option ℤ
  deriving DecidableEq

/-- `CommitmentEntry::new`. -/
def CommitmentEntry.new (poseidon : List Fr254 → Fr254) (preimage : Preimage) (nullifier : Fr254)
    (status : CommitmentStatus) : CommitmentEntry where
  preimage := preimage
  status := status
  key := preimage.hash poseidon
  nullifier := nullifier
  layer1TransactionHash := none
  layer2BlockNumber := none

/-- The commitments of a client. -/
abbrev Commitments := Collection CommitmentEntry.key

/-- How the driver of the database reports an error. -/
inductive ErrorKind
  /-- An error of a single write, with its code. -/
  | write (code : ℕ)
  | other
  deriving DecidableEq, Repr

namespace Commitments

variable (c : Commitments)

/-- `get_available_commitments`: the unspent ones of a token, if there are any. -/
def getAvailableCommitments (nfTokenId : Fr254) : Option (List CommitmentEntry) :=
  let result := c.docs.filter fun e =>
    decide (e.preimage.nfTokenId = nfTokenId) && decide (e.status = .unspent)
  if result.isEmpty then none else some result

/-- `get_commitment`. -/
def getCommitment (k : Fr254) : Option CommitmentEntry := c.find k

/-- `mark_commitments_pending_spend`. -/
def markCommitmentsPendingSpend (commitments : List Fr254) : Commitments :=
  c.updateMany (fun e => decide (e.key ∈ commitments)) (fun e => { e with status := .pendingSpend })
    fun _ => rfl

/-- `store_commitment`. -/
def storeCommitment (commitment : CommitmentEntry) : Option Commitments := c.insertOne commitment

/-- `store_commitments`: the collection after it, and whether it succeeds.  `kind` is how the driver
reports that a key is there already. -/
def storeCommitments (kind : ErrorKind) (commitments : List CommitmentEntry) (dupKeyCheck : Bool) :
    Commitments × Option Unit :=
  if commitments.isEmpty then (c, some ())
  else
    match c.insertMany commitments with
    | (c, true) => (c, some ())
    | (c, false) =>
      match kind with
      | .write code => (c, if code = 11000 ∧ dupKeyCheck = false then some () else none)
      | .other => (c, none)

/-- The status of a commitment, if it is there. -/
def status (k : Fr254) : Option CommitmentStatus := (c.find k).map CommitmentEntry.status

end Commitments

/-! ### The client -/

/-- What a client is started with. -/
structure ClientConfig extends Client.Primitives where
  /-- The keys of `get_zkp_keys`. -/
  zkpPrivateKey : Client.BJJScalar
  zkpPublicKey : Point Fr254
  nullifierKey : Fr254
  /-- The address of the Nightfall contract. -/
  nfAddress : BitVec 160
  /-- The point of which the bytes are the compressed form, if they are those of a point. -/
  deserialize : List ℕ → Option (Point Fr254)
  sha256 : Evm.Bytes → Evm.U256
  /-- How the driver reports that a document of a list is there already. -/
  insertError : ErrorKind

/-- `get_fee_token_id`. -/
def ClientConfig.feeTokenId (cfg : ClientConfig) : Fr254 :=
  ((Client.feeTokenIdOf cfg.keccak256 cfg.nfAddress).toNat : Fr254)

/-- The state of a client. -/
structure ClientState where
  commitments : Commitments
  commitmentTree : Trees.TreeDb Fr254
  /-- `get_expected_layer2_blocknumber`. -/
  expected : ℤ
  blocks : ProposedBlocks

/-- A computation of a client with the given errors. -/
abbrev ClientM (ε : Type) := NodeM ε ClientState

/-! ### Statuses -/

section Statuses

variable {c : Commitments} {k : Fr254}

theorem status_markCommitmentsPendingSpend (keys : List Fr254) :
    (c.markCommitmentsPendingSpend keys).status k =
      if k ∈ keys then (c.status k).map fun _ => .pendingSpend else c.status k := by
  rw [Commitments.status, Commitments.markCommitmentsPendingSpend, Collection.find_updateMany,
    Option.map_map, Commitments.status]
  cases hfind : c.find k with
  | none => simp
  | some e =>
    obtain ⟨-, rfl⟩ := Collection.find_eq_some.1 hfind
    by_cases hk : e.key ∈ keys
    · simp [hk]
    · simp [hk]

theorem status_storeCommitments {kind : ErrorKind} {entries : List CommitmentEntry} {dup : Bool}
    {st : CommitmentStatus} (h : c.status k = some st) :
    (c.storeCommitments kind entries dup).1.status k = some st := by
  obtain ⟨e, hfind, hst⟩ := Option.map_eq_some_iff.1 h
  have hkept : ((c.insertMany entries).1.find k) = some e := Collection.find_insertMany_of_some hfind
  rw [Commitments.storeCommitments]
  split_ifs with hempty
  · exact h
  · cases hins : c.insertMany entries with
    | mk d ok =>
      rw [hins] at hkept
      have hd : Commitments.status d k = some st := by
        rw [Commitments.status, hkept, Option.map_some, hst]
      cases ok with
      | true => exact hd
      | false =>
        cases kind with
        | write code => exact hd
        | other => exact hd

end Statuses

end Wallet

end Nightfall
