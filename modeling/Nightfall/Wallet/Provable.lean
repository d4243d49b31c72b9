import Nightfall.Client.Completed
import Nightfall.Wallet.Holdings

/-!
# Honest requests can be proved

What a request selects and creates has integrity: it is opened by the membership proofs of the tree,
its values are balanced and in their ranges, and nothing in it appears twice.  So the circuit that the
prover builds for a request of a client is satisfied (`exists_witness`).
-/

namespace Nightfall

namespace Wallet

open Plonk (Point)
open Node Stateful
open Client (val_add_of_lt)

/-! ### Honest requests -/

/-- The keys of `ZKPKeys::new`. -/
structure ClientConfig.KeysDerived (cfg : ClientConfig) : Prop where
  public_eq : cfg.zkpPublicKey = cfg.mul cfg.zkpPrivateKey cfg.generator
  ne_neutral : cfg.zkpPublicKey ≠ .neutral

/-- A transfer is to a key and a withdraw to an address. -/
def Request.HasRecipient : Request → Prop
  | .transfer request => ∀ key, request.recipientPublicKey = some (.ok key) → key ≠ .neutral
  | .withdraw request => ∀ address, request.recipientAddress = .ok address →
      address ≠ 0 ∧ address.val < 2 ^ 160

/-- What the common part is given for such a request. -/
inductive SpendRequest.HasRecipient (cfg : ClientConfig) (r : SpendRequest) : Prop
  | transfer (address_eq : r.recipientAddress = 0) (key_ne : r.recipientPublicKey ≠ .neutral)
      (salt_eq : r.salt = .transfer (cfg.mul r.ephemeralPrivateKey r.recipientPublicKey).y)
  | withdraw (address_ne : r.recipientAddress ≠ 0) (address_lt : r.recipientAddress.val < 2 ^ 160)

section Convert

variable {P : Type} {cfg : ClientConfig} {env : RequestEnv P} {s : ClientState} {r : SpendRequest}
  {request : Request}

theorem requested_transfer {transfer : TransferRequest}
    (hr : requested cfg env (.transfer transfer) s = some r) :
    r.recipientAddress = 0 ∧ transfer.recipientPublicKey = some (.ok r.recipientPublicKey) ∧
      r.salt = .transfer (cfg.mul r.ephemeralPrivateKey r.recipientPublicKey).y := by
  have hrun := run_convert_of_requested hr
  obtain ⟨_, _, -, hrun⟩ := run_bind_eq_ok.1 hrun
  obtain ⟨_, _, -, hrun⟩ := run_bind_eq_ok.1 hrun
  obtain ⟨_, _, -, hrun⟩ := run_bind_eq_ok.1 hrun
  obtain ⟨_, _, -, hrun⟩ := run_bind_eq_ok.1 hrun
  obtain ⟨_, _, -, hrun⟩ := run_bind_eq_ok.1 hrun
  obtain ⟨firstKey, _, hfirst, hrun⟩ := run_bind_eq_ok.1 hrun
  obtain ⟨key, _, hkey, hrun⟩ := run_bind_eq_ok.1 hrun
  have hsome := (run_okOr_eq_ok.1 hfirst).1
  have hok := (run_okOrElse_eq_ok.1 hkey).1
  cases hrun
  exact ⟨rfl, hsome.trans (congrArg some hok), rfl⟩

theorem requested_withdraw {withdraw : WithdrawRequest}
    (hr : requested cfg env (.withdraw withdraw) s = some r) :
    withdraw.recipientAddress = .ok r.recipientAddress := by
  have hrun := run_convert_of_requested hr
  obtain ⟨_, _, -, hrun⟩ := run_bind_eq_ok.1 hrun
  obtain ⟨_, _, -, hrun⟩ := run_bind_eq_ok.1 hrun
  obtain ⟨_, _, -, hrun⟩ := run_bind_eq_ok.1 hrun
  obtain ⟨_, _, -, hrun⟩ := run_bind_eq_ok.1 hrun
  obtain ⟨address, _, haddress, hrun⟩ := run_bind_eq_ok.1 hrun
  have hok := (run_okOrElse_eq_ok.1 haddress).1
  cases hrun
  exact hok

theorem hasRecipient_of_requested (hr : requested cfg env request s = some r)
    (h : request.HasRecipient) : r.HasRecipient cfg := by
  cases request with
  | transfer transfer =>
    obtain ⟨haddress, hkey, hsalt⟩ := requested_transfer hr
    exact .transfer haddress (h _ hkey) hsalt
  | withdraw withdraw =>
    obtain ⟨hne, hlt⟩ := h _ (requested_withdraw hr)
    exact .withdraw hne hlt

end Convert

/-! ### The membership proofs -/

section Proofs

variable {P : Type} {cfg : ClientConfig} {env : RequestEnv P} {s t : ClientState} {r : SpendRequest}
  {spend : Fin 4 → Preimage} {e : CommitmentEntry}

/-- The proof and the root of a commitment that is spent. -/
structure ProvesSpend (cfg : ClientConfig) (p : Preimage)
    (proof : Plonk.MembershipProof Fr254 (Merkle.PathElement Fr254) × Fr254) : Prop where
  /-- The circuit is made for paths of this length. -/
  length_eq : proof.1.siblingPath.length = 32
  root_eq : p ≠ .default →
    Merkle.foldPath cfg.treeHash proof.1.siblingPath (p.hash cfg.poseidon) = proof.2

theorem spendProof_default (hdefault : env.defaultProof.siblingPath.length = 32) :
    ∃ proof, spendProof cfg env t .default = .ok proof ∧ ProvesSpend cfg .default proof :=
  ⟨_, if_pos rfl, hdefault, fun hne => absurd rfl hne⟩

theorem spendProof_of_spendable {metadata : Trees.TreeMetadata Fr254}
    (hmetadata : t.commitmentTree.metadata = some metadata)
    (hheight : metadata.treeHeight + metadata.subTreeHeight = 32)
    (he : e.Spendable cfg t.commitmentTree) (hstored : (t.commitments.find e.key).isSome) :
    ∃ proof, spendProof cfg env t e.preimage = .ok proof ∧ ProvesSpend cfg e.preimage proof := by
  obtain ⟨proof, db, root, db', hrun, hroot, hverifies⟩ := he.proved
  obtain ⟨rfl, hvalue, hlength, -⟩ := run_getMembershipProof_leaf hmetadata hrun
  obtain ⟨stored, hstored⟩ := Option.isSome_iff_exists.1 hstored
  rw [he.key_eq] at hrun hvalue hstored
  refine ⟨(⟨proof.nodeValue, proof.siblingPath⟩, root), ?_, hlength.trans hheight, fun _ => ?_⟩
  · have hget : t.commitments.getCommitment (e.preimage.hash cfg.poseidon) = some stored := hstored
    have hfold : Merkle.foldPath cfg.treeHash proof.siblingPath proof.nodeValue = root := hverifies
    simp only [spendProof, he.token_ne, if_false, hget, hrun, hroot, hfold, if_true]
  · rw [← hvalue]
    exact hverifies

theorem find_afterSpend {k : Fr254} (h : s.commitments.find k = some e) :
    ((s.afterSpend cfg env r spend).commitments.find k).isSome := by
  have hstatus : s.commitments.status k = some e.status := by
    rw [Commitments.status, h, Option.map_some]
  have hafter := @status_marked_storing cfg s k e.status (reservedKeys cfg s.commitments r)
    (changeEntries cfg (newCommitments cfg env r spend)) hstatus
  rw [Commitments.status, ← ClientState.afterSpend] at hafter
  obtain ⟨e', he', -⟩ := Option.map_eq_some_iff.1 hafter
  rw [he']
  rfl

theorem Holdings.exists_spendProof (h : Holdings cfg s) (hspends : Spends cfg s.commitments r spend)
    (hdefault : env.defaultProof.siblingPath.length = 32) (i : Fin 4) :
    ∃ proof, spendProof cfg env (s.afterSpend cfg env r spend) (spend i) = .ok proof ∧
      ProvesSpend cfg (spend i) proof := by
  rcases hspends.entry i with hi | ⟨e, he, hi⟩
  · rw [hi]
    exact spendProof_default hdefault
  · obtain ⟨metadata, hmetadata, htree, hsub⟩ := h.height
    rw [← hi]
    refine spendProof_of_spendable hmetadata (by rw [htree, hsub]) (h.spendable_of_mem he) ?_
    exact find_afterSpend (Collection.find_eq_some.2 ⟨(mem_availableEntries.1 he).1, rfl⟩)

end Proofs

/-! ### What is created -/

section Created

variable {P : Type} {cfg : ClientConfig} {env : RequestEnv P} {s : ClientState} {r : SpendRequest}
  {spend : Fin 4 → Preimage}
  {proofs : Fin 4 → Plonk.MembershipProof Fr254 (Merkle.PathElement Fr254) × Fr254}

theorem newCommitment_value (value tokenId slotId : Fr254) (owner : Point Fr254) (salt : Fr254) :
    (newCommitment value tokenId slotId owner salt).value = value := by
  rw [newCommitment]
  split_ifs with hvalue
  · rfl
  · exact (not_not.1 hvalue).symm

/-- What is spent is what is created. -/
theorem newCommitments_balance :
    (newCommitments cfg env r spend 0).value + (newCommitments cfg env r spend 1).value =
        (spend 0).value + (spend 1).value ∧
      (newCommitments cfg env r spend 2).value +
          (newCommitments cfg env r spend (Fin.last 3)).value =
        (spend 2).value + (spend (Fin.last 3)).value := by
  constructor
  · have hchange : (newCommitments cfg env r spend 1).value =
        (spend 0).value + (spend 1).value - r.value := newCommitment_value _ _ _ _ _
    rw [hchange]
    exact add_sub_cancel _ _
  · have hfee : (newCommitments cfg env r spend 2).value = r.fee := newCommitment_value _ _ _ _ _
    have hchange : (newCommitments cfg env r spend (Fin.last 3)).value =
        (spend 2).value + (spend (Fin.last 3)).value - r.fee := newCommitment_value _ _ _ _ _
    rw [hfee, hchange]
    exact add_sub_cancel _ _

/-- The operation that a request suggests to the prover. -/
def suggestedOperation (cfg : ClientConfig) (env : RequestEnv P) (r : SpendRequest)
    (spend : Fin 4 → Preimage)
    (proofs : Fin 4 → Plonk.MembershipProof Fr254 (Merkle.PathElement Fr254) × Fr254) :
    Client.Operation :=
  Client.suggested cfg.toPrimitives (operationPublicInputs (newCommitments cfg env r spend) proofs)
    (operationPrivateInputs cfg spend (newCommitments cfg env r spend) r.ephemeralPrivateKey
      r.recipientAddress proofs)

theorem Holdings.note_eq (h : Holdings cfg s) (hspends : Spends cfg s.commitments r spend)
    {i : Fin 4} (hi : spend i ≠ .default) :
    (suggestedOperation cfg env r spend proofs).note i = (spend i).note cfg.poseidon := by
  obtain ⟨e₀, he₀, hfirst⟩ := hspends.first
  obtain ⟨hmem₀, htoken₀, hunspent₀⟩ := mem_availableEntries.1 he₀
  obtain ⟨e, he, hentry⟩ := (hspends.entry i).resolve_left hi
  obtain ⟨hmem, htoken, hunspent⟩ := mem_availableEntries.1 he
  rw [hfirst] at htoken₀
  have hids : (suggestedOperation cfg env r spend proofs).tokenId i = (spend i).nfTokenId ∧
      (suggestedOperation cfg env r spend proofs).slotId i = (spend i).nfSlotId := by
    rw [← hentry, htoken, Client.Operation.tokenId, Client.Operation.slotId, SpendRequest.tokenId]
    rw [SpendRequest.tokenId] at htoken
    split_ifs at htoken ⊢ with hlt
    · refine ⟨htoken₀, ?_⟩
      change (spend 0).nfSlotId = e.preimage.nfSlotId
      rw [← hfirst]
      refine h.slots e₀ hmem₀ e hmem hunspent₀ hunspent ?_
      rw [hfirst, htoken₀, htoken]
    · exact ⟨rfl, (h.feeSlot e hmem hunspent htoken).symm⟩
  have hnote : (suggestedOperation cfg env r spend proofs).note i =
      ⟨(suggestedOperation cfg env r spend proofs).tokenId i,
        (suggestedOperation cfg env r spend proofs).slotId i, (spend i).value, (spend i).publicKey,
        (spend i).salt.getSalt cfg.poseidon⟩ := rfl
  rw [hnote, hids.1, hids.2]
  rfl

/-- A new commitment is published, unless it is empty or withdrawn. -/
def SpendRequest.Publishes (r : SpendRequest) (new : Fin 4 → Preimage) (i : Fin 4) : Prop :=
  if i = 0 then r.recipientAddress = 0 else (new i).value ≠ 0

theorem newNote_eq (hkeys : cfg.KeysDerived) (hr : r.HasRecipient cfg)
    (htoken : (spend 0).nfTokenId = r.nfTokenId) {i : Fin 4}
    (hi : r.Publishes (newCommitments cfg env r spend) i) :
    (suggestedOperation cfg env r spend proofs).newNote cfg.toPrimitives i =
      (newCommitments cfg env r spend i).note cfg.poseidon := by
  have hcreated : ∀ value tokenId slotId owner salt,
      (newCommitment value tokenId slotId owner salt).value ≠ 0 →
        newCommitment value tokenId slotId owner salt =
          ⟨value, tokenId, slotId, owner, .transfer salt⟩ := by
    intro value tokenId slotId owner salt hne
    rw [newCommitment_value] at hne
    exact if_pos hne
  have hpublic : (suggestedOperation cfg env r spend proofs).zkpPubKey cfg.toPrimitives =
      cfg.zkpPublicKey := hkeys.public_eq.symm
  fin_cases i
  · have haddress : r.recipientAddress = 0 := hi
    cases hr with
    | withdraw hne _ => exact absurd haddress hne
    | transfer _ _ hsalt =>
      have hrecipient : (suggestedOperation cfg env r spend proofs).privateInputs.recipientPublicKey =
          r.recipientPublicKey := if_pos haddress
      have hnote : (suggestedOperation cfg env r spend proofs).newNote cfg.toPrimitives 0 =
          ⟨(spend 0).nfTokenId, (spend 0).nfSlotId, r.value,
            (suggestedOperation cfg env r spend proofs).privateInputs.recipientPublicKey,
            (cfg.mul r.ephemeralPrivateKey
              (suggestedOperation cfg env r spend proofs).privateInputs.recipientPublicKey).y⟩ := rfl
      have hnew : (newCommitments cfg env r spend 0).note cfg.poseidon =
          ⟨r.nfTokenId, (spend 0).nfSlotId, r.value, r.recipientPublicKey,
            r.salt.getSalt cfg.poseidon⟩ := rfl
      rw [Fin.zero_eta, hnote, hnew, hrecipient, htoken, hsalt]
      rfl
  · have hne : (newCommitments cfg env r spend 1).value ≠ 0 := hi
    have hnew : newCommitments cfg env r spend 1 = _ := hcreated _ _ _ _ _ hne
    have hnote : (suggestedOperation cfg env r spend proofs).newNote cfg.toPrimitives 1 =
        ⟨(spend 0).nfTokenId, (spend 0).nfSlotId, (newCommitments cfg env r spend 1).value,
          (suggestedOperation cfg env r spend proofs).zkpPubKey cfg.toPrimitives,
          (newCommitments cfg env r spend 1).salt.getSalt cfg.poseidon⟩ := rfl
    rw [Fin.mk_one, hnote, hnew, hpublic, htoken]
    rfl
  · have hne : (newCommitments cfg env r spend 2).value ≠ 0 := hi
    have hnew : newCommitments cfg env r spend 2 = _ := hcreated _ _ _ _ _ hne
    have hnote : (suggestedOperation cfg env r spend proofs).newNote cfg.toPrimitives 2 =
        ⟨cfg.feeTokenId, cfg.feeTokenId, (newCommitments cfg env r spend 2).value,
          cfg.contractNfAddress, (newCommitments cfg env r spend 2).salt.getSalt cfg.poseidon⟩ := rfl
    rw [show (⟨2, by decide⟩ : Fin 4) = 2 from rfl, hnote, hnew]
    rfl
  · have hne : (newCommitments cfg env r spend (Fin.last 3)).value ≠ 0 := hi
    have hnew : newCommitments cfg env r spend (Fin.last 3) = _ := hcreated _ _ _ _ _ hne
    have hnote : (suggestedOperation cfg env r spend proofs).newNote cfg.toPrimitives (Fin.last 3) =
        ⟨cfg.feeTokenId, cfg.feeTokenId, (newCommitments cfg env r spend (Fin.last 3)).value,
          (suggestedOperation cfg env r spend proofs).zkpPubKey cfg.toPrimitives,
          (newCommitments cfg env r spend (Fin.last 3)).salt.getSalt cfg.poseidon⟩ := rfl
    rw [show (⟨3, by decide⟩ : Fin 4) = Fin.last 3 from rfl, hnote, hnew, hpublic]
    rfl

end Created

/-! ### Integrity -/

section Integrity

variable {P : Type} {cfg : ClientConfig} {env : RequestEnv P} {s : ClientState} {r : SpendRequest}
  {spend : Fin 4 → Preimage} {new : Fin 4 → Preimage} {i : Fin 4}
  {proofs : Fin 4 → Plonk.MembershipProof Fr254 (Merkle.PathElement Fr254) × Fr254}

instance SpendRequest.decidablePublishes (r : SpendRequest) (new : Fin 4 → Preimage) (i : Fin 4) :
    Decidable (r.Publishes new i) := by
  unfold SpendRequest.Publishes
  infer_instance

/-- The random salts of a request don't collide, and neither do its hashes. -/
structure NoCollisions (cfg : ClientConfig) (env : RequestEnv P) (r : SpendRequest)
    (spend : Fin 4 → Preimage) : Prop where
  salts : ∀ i j, i ≠ j → r.Publishes (newCommitments cfg env r spend) i →
    r.Publishes (newCommitments cfg env r spend) j →
      (newCommitments cfg env r spend i).salt.getSalt cfg.poseidon ≠
        (newCommitments cfg env r spend j).salt.getSalt cfg.poseidon
  commitments : ∀ i j, (newCommitments cfg env r spend i).hash cfg.poseidon =
    (newCommitments cfg env r spend j).hash cfg.poseidon →
      (newCommitments cfg env r spend i).note cfg.poseidon =
        (newCommitments cfg env r spend j).note cfg.poseidon
  nullifiers : ∀ i j, (spend i).nullifierHash cfg.poseidon cfg.nullifierKey =
    (spend j).nullifierHash cfg.poseidon cfg.nullifierKey →
      (spend i).hash cfg.poseidon = (spend j).hash cfg.poseidon

theorem change_lt {p q : Preimage} {target : Fr254} (hcovers : Covers p q target)
    (hp : p.value.val < 2 ^ 96) (hq : q.value.val < 2 ^ 96) :
    (p.value + q.value - target).val < 2 ^ 96 := by
  have hsum := val_add_of_lt hp hq
  obtain ⟨hle, hlt⟩ := hcovers
  rw [ZMod.val_sub (by omega)]
  omega

theorem Holdings.entry_of_ne (h : Holdings cfg s) (hspends : Spends cfg s.commitments r spend)
    (hi : spend i ≠ .default) : ∃ e ∈ s.commitments.docs, e.preimage = spend i ∧
      e.Spendable cfg s.commitmentTree := by
  obtain ⟨e, he, hentry⟩ := (hspends.entry i).resolve_left hi
  exact ⟨e, (mem_availableEntries.1 he).1, hentry, h.spendable_of_mem he⟩

theorem Holdings.value_lt (h : Holdings cfg s) (hspends : Spends cfg s.commitments r spend)
    (i : Fin 4) : (spend i).value.val < 2 ^ 96 := by
  by_cases hi : spend i = .default
  · have hzero : Preimage.default.value.val = 0 := ZMod.val_zero
    rw [hi, hzero]
    norm_num
  · obtain ⟨e, -, hentry, hspendable⟩ := h.entry_of_ne hspends hi
    rw [← hentry]
    exact hspendable.value_lt

/-- The first slot is never empty. -/
theorem Holdings.first_ne (h : Holdings cfg s) (hspends : Spends cfg s.commitments r spend) :
    spend 0 ≠ .default := by
  obtain ⟨e, he, hentry⟩ := hspends.first
  rw [← hentry]
  intro hdefault
  refine (h.spendable_of_mem he).token_ne ?_
  rw [hdefault]
  rfl

theorem Spends.value_eq_zero_iff (hspends : Spends cfg s.commitments r spend) (hi : i ≠ 0) :
    (spend i).value = 0 ↔ spend i = .default := by
  constructor
  · exact fun hvalue => not_not.1 fun hne => hspends.positive i hi hne hvalue
  · intro hdefault
    rw [hdefault]
    rfl

theorem Spends.token_eq (hspends : Spends cfg s.commitments r spend) :
    (spend 0).nfTokenId = r.nfTokenId := by
  obtain ⟨e, he, hentry⟩ := hspends.first
  rw [← hentry]
  exact (mem_availableEntries.1 he).2.1

theorem Holdings.nullifiers_eq (h : Holdings cfg s) (hspends : Spends cfg s.commitments r spend) :
    (suggestedOperation cfg env r spend proofs).nullifiers cfg.toPrimitives i =
      if spend i = .default then 0
      else (spend i).nullifierHash cfg.poseidon cfg.nullifierKey := by
  rw [Client.Operation.nullifiers, Client.slotNullifiers]
  by_cases hi : i = 0
  · subst hi
    rw [if_pos rfl, if_neg (h.first_ne hspends), h.note_eq hspends (h.first_ne hspends)]
    rfl
  · rw [if_neg hi, Client.openSlot]
    have hvalue : ((suggestedOperation cfg env r spend proofs).note i).value = 0 ↔
        spend i = .default := hspends.value_eq_zero_iff hi
    by_cases hne : spend i = .default
    · rw [if_pos (hvalue.2 hne), if_pos hne]
    · rw [if_neg (mt hvalue.1 hne), if_neg hne, h.note_eq hspends hne]
      rfl

theorem commitments_eq (hkeys : cfg.KeysDerived) (hr : r.HasRecipient cfg)
    (htoken : (spend 0).nfTokenId = r.nfTokenId) :
    (suggestedOperation cfg env r spend proofs).commitments cfg.toPrimitives i =
      if r.Publishes (newCommitments cfg env r spend) i then
        (newCommitments cfg env r spend i).hash cfg.poseidon else 0 := by
  have hnote : r.Publishes (newCommitments cfg env r spend) i →
      ((suggestedOperation cfg env r spend proofs).newNote cfg.toPrimitives i).hash cfg.poseidon =
        (newCommitments cfg env r spend i).hash cfg.poseidon := by
    intro hi
    rw [newNote_eq hkeys hr htoken hi]
    rfl
  rw [Client.Operation.commitments]
  by_cases hi : i = 0
  · subst hi
    have hpublishes : r.Publishes (newCommitments cfg env r spend) 0 ↔
        (suggestedOperation cfg env r spend proofs).privateInputs.withdrawAddress = 0 := Iff.rfl
    rw [if_pos rfl]
    by_cases haddress : r.Publishes (newCommitments cfg env r spend) 0
    · rw [if_pos (hpublishes.1 haddress), if_pos haddress, hnote haddress]
    · rw [if_neg (mt hpublishes.2 haddress), if_neg haddress]
  · have hvalue : ((suggestedOperation cfg env r spend proofs).newNote cfg.toPrimitives i).value =
        (newCommitments cfg env r spend i).value := by
      fin_cases i
      · exact absurd rfl hi
      · rfl
      · rfl
      · rfl
    have hpublishes : r.Publishes (newCommitments cfg env r spend) i ↔
        (newCommitments cfg env r spend i).value ≠ 0 := by
      rw [SpendRequest.Publishes, if_neg hi]
    rw [if_neg hi, Client.newCommitment, hvalue]
    by_cases hne : (newCommitments cfg env r spend i).value = 0
    · rw [if_pos hne, if_neg fun hp => hpublishes.1 hp hne]
    · rw [if_neg hne, if_pos (hpublishes.2 hne), hnote (hpublishes.2 hne)]

theorem Holdings.noDuplicates (h : Holdings cfg s) (hspends : Spends cfg s.commitments r spend)
    (hkeys : cfg.KeysDerived) (hr : r.HasRecipient cfg)
    (hcollisions : NoCollisions cfg env r spend) :
    Client.NoDuplicates
        ((suggestedOperation cfg env r spend proofs).nullifiers cfg.toPrimitives) ∧
      Client.NoDuplicates
        ((suggestedOperation cfg env r spend proofs).commitments cfg.toPrimitives) := by
  constructor
  · intro i j hij hj
    rw [h.nullifiers_eq hspends] at hj ⊢
    rw [h.nullifiers_eq hspends]
    by_cases hjd : spend j = .default
    · exact absurd (if_pos hjd) hj
    · rw [if_neg hjd] at hj ⊢
      by_cases hid : spend i = .default
      · rw [if_pos hid]
        exact hj.symm
      · rw [if_neg hid]
        intro heq
        have hhash := hcollisions.nullifiers i j heq
        rcases lt_or_gt_of_ne hij with hlt | hlt
        · exact hspends.distinct i j hlt hid hjd hhash
        · exact hspends.distinct j i hlt hjd hid hhash.symm
  · intro i j hij hj
    rw [commitments_eq hkeys hr hspends.token_eq] at hj ⊢
    rw [commitments_eq hkeys hr hspends.token_eq]
    by_cases hpj : r.Publishes (newCommitments cfg env r spend) j
    · rw [if_pos hpj] at hj ⊢
      by_cases hpi : r.Publishes (newCommitments cfg env r spend) i
      · rw [if_pos hpi]
        intro heq
        refine hcollisions.salts i j hij hpi hpj ?_
        exact congrArg Client.Preimage.salt (hcollisions.commitments i j heq)
      · rw [if_neg hpi]
        exact hj.symm
    · exact absurd (if_neg hpj) hj

theorem Holdings.opensSlots (h : Holdings cfg s) (hspends : Spends cfg s.commitments r spend)
    (hkeys : cfg.KeysDerived) (hproofs : ∀ i, ProvesSpend cfg (spend i) (proofs i)) :
    Client.OpensSlots cfg.poseidon (suggestedOperation cfg env r spend proofs).note
      (suggestedOperation cfg env r spend proofs).path
      (suggestedOperation cfg env r spend proofs).privateInputs.secretPreimages
      (suggestedOperation cfg env r spend proofs).roots := by
  have hopens : ∀ i, spend i ≠ .default →
      Client.OpensNote cfg.poseidon ((suggestedOperation cfg env r spend proofs).note i)
        ((suggestedOperation cfg env r spend proofs).path i)
        ((suggestedOperation cfg env r spend proofs).privateInputs.secretPreimages i)
        ((suggestedOperation cfg env r spend proofs).roots i) := by
    intro i hi
    rw [h.note_eq hspends hi]
    refine ⟨(hproofs i).root_eq hi, fun hneutral => ?_⟩
    obtain ⟨e, -, hentry, hspendable⟩ := h.entry_of_ne hspends hi
    have hkey : e.preimage.publicKey = .neutral := (congrArg Preimage.publicKey hentry).trans hneutral
    rcases hspendable.owned with howner | ⟨-, secret, hsalt⟩
    · exact absurd (howner.symm.trans hkey) hkeys.ne_neutral
    · rw [hentry] at hsalt
      change cfg.poseidon (List.ofFn (spend i).getSecretPreimage.toArray) =
        (spend i).salt.getSalt cfg.poseidon
      rw [Preimage.getSecretPreimage, hsalt]
      rfl
  refine ⟨hopens 0 (h.first_ne hspends), fun i hi hvalue => hopens i ?_, fun i hi hvalue => ?_⟩
  · exact fun hdefault => hvalue ((hspends.value_eq_zero_iff hi).2 hdefault)
  · change (spend i).salt.getSalt cfg.poseidon = 0
    rw [(hspends.value_eq_zero_iff hi).1 hvalue]
    rfl

/-- **What a request suggests has integrity.** -/
theorem Holdings.integrity (h : Holdings cfg s) (hspends : Spends cfg s.commitments r spend)
    (hkeys : cfg.KeysDerived) (hr : r.HasRecipient cfg) (hcollisions : NoCollisions cfg env r spend)
    (hvalue : r.value.val < 2 ^ 96) (hfee : r.fee.val < 2 ^ 96)
    (hproofs : ∀ i, ProvesSpend cfg (spend i) (proofs i)) :
    (suggestedOperation cfg env r spend proofs).Integrity cfg.toPrimitives := by
  constructor
  case withdrawAddress_lt =>
    change r.recipientAddress.val < 2 ^ 160
    cases hr with
    | transfer haddress _ _ =>
      rw [haddress, ZMod.val_zero]
      norm_num
    | withdraw _ hlt => exact hlt
  case token_balance => exact newCommitments_balance.1
  case fee_balance => exact newCommitments_balance.2
  case value_lt => exact hvalue
  case fee_lt =>
    change (newCommitments cfg env r spend 2).value.val < 2 ^ 96
    rw [show (newCommitments cfg env r spend 2).value = r.fee from newCommitment_value _ _ _ _ _]
    exact hfee
  case commitmentsValues_lt =>
    have hlt := h.value_lt hspends
    have htokenChange : (newCommitments cfg env r spend 1).value =
        (spend 0).value + (spend 1).value - r.value := newCommitment_value _ _ _ _ _
    have hfeeChange : (newCommitments cfg env r spend (Fin.last 3)).value =
        (spend 2).value + (spend (Fin.last 3)).value - r.fee := newCommitment_value _ _ _ _ _
    refine Fin.forall_fin_two.2 ⟨?_, ?_⟩
    · change (newCommitments cfg env r spend 1).value.val < 2 ^ 96
      rw [htokenChange]
      exact change_lt hspends.covers (hlt 0) (hlt 1)
    · change (newCommitments cfg env r spend (Fin.last 3)).value.val < 2 ^ 96
      rw [hfeeChange]
      exact change_lt hspends.coversFee (hlt 2) (hlt (Fin.last 3))
  case opens => exact h.opensSlots hspends hkeys hproofs
  case noDuplicates => exact h.noDuplicates hspends hkeys hr hcollisions
  case withdraw_iff =>
    have hrecipient : (suggestedOperation cfg env r spend proofs).privateInputs.recipientPublicKey =
      if r.recipientAddress = 0 then r.recipientPublicKey else .neutral := rfl
    change r.recipientAddress ≠ 0 ↔ _
    rw [hrecipient]
    cases hr with
    | transfer haddress hkey _ =>
      rw [if_pos haddress]
      exact iff_of_false (not_not.2 haddress) hkey
    | withdraw hne _ =>
      rw [if_neg hne]
      exact iff_of_true hne rfl

end Integrity

/-! ### The witness of a request -/

section Witness

variable {P : Type} {cfg : ClientConfig} {env : RequestEnv P} {s t : ClientState} {r : SpendRequest}
  {spend new : Fin 4 → Preimage} {request : Request}
  {proofs : Fin 4 → Plonk.MembershipProof Fr254 (Merkle.PathElement Fr254) × Fr254}

/-- The transaction with what the prover returns. -/
def transactionOf : Option (P × Client.PublicInputs Fr254) → Except String (ClientTransaction P)
  | none => .error "Transaction could not be completed due to a proving error."
  | some (proof, publicInputs) => .ok {
      fee := publicInputs.fee
      historicCommitmentRoots := publicInputs.roots
      commitments := publicInputs.commitments
      nullifiers := publicInputs.nullifiers
      compressedSecrets := ⟨publicInputs.compressedSecrets⟩
      proof := proof }

theorem clientOperation_eq {ephemeralKey : Client.BJJScalar} {withdrawAddress : Fr254}
    (htoken : (new 0).value + (new 1).value = (spend 0).value + (spend 1).value)
    (hfee : (new 2).value + (new (Fin.last 3)).value =
      (spend 2).value + (spend (Fin.last 3)).value)
    (hproofs : ∀ i, spendProof cfg env t (spend i) = .ok (proofs i)) :
    clientOperation cfg env t spend new ephemeralKey withdrawAddress =
      transactionOf (env.prove
        (operationPrivateInputs cfg spend new ephemeralKey withdrawAddress proofs)
        (operationPublicInputs new proofs)) := by
  have hvector : ![proofs 0, proofs 1, proofs 2, proofs (Fin.last 3)] = proofs := by
    funext i
    fin_cases i <;> rfl
  rw [clientOperation, if_pos ⟨htoken, hfee⟩, hproofs, hproofs, hproofs, hproofs]
  simp only [bind, Except.bind, hvector]
  cases env.prove (operationPrivateInputs cfg spend new ephemeralKey withdrawAddress proofs)
      (operationPublicInputs new proofs) with
  | none => rfl
  | some proved => rfl

/-- What a request gives to the prover can be proved: the circuit is satisfied by its own values, and
the public inputs are the hashes of the new commitments and the nullifiers that the client stored. -/
structure WitnessFor (cfg : ClientConfig) (s : ClientState) (r : SpendRequest)
    (spend new : Fin 4 → Preimage) (privateInputs : Client.PrivateInputs)
    (publicInputs : Client.PublicInputs Fr254)
    (result : Client.PublicInputs Fr254 × Client.PrivateInputs × Client.TransferWires)
    (circuit : Plonk.PlonkCircuit Fr254) : Prop where
  lengths : ∀ i, (privateInputs.membershipProofs i).siblingPath.length = 32
  run_eq : (Client.assessOperationIntegrity cfg.toPrimitives publicInputs privateInputs).run
    (.newUltraPlonk Fr254) = .ok (result, circuit)
  satisfied : circuit.Satisfies circuit.value
  public_eq : circuit.publicInput.map circuit.value = result.1.toList
  commitments_eq : ∀ i, result.1.commitments i =
    if r.Publishes new i then (new i).hash cfg.poseidon else 0
  nullifiers_eq : ∀ i, spend i = .default ∧ result.1.nullifiers i = 0 ∨
    ∃ e ∈ s.commitments.docs, e.preimage = spend i ∧ e.key = (spend i).hash cfg.poseidon ∧
      result.1.nullifiers i = e.nullifier

/-- **Honest requests can be proved.**  The state is that in which `handle_client_operation` makes the
transaction: what is spent is marked, and the change is stored. -/
theorem exists_witness (hkeys : cfg.KeysDerived) (h : Holdings cfg s)
    (hr : requested cfg env request s = some r) (hrequest : request.HasRecipient)
    (hvalue : r.value.val < 2 ^ 96) (hfee : r.fee.val < 2 ^ 96)
    (hspend : spendCommitments cfg s.commitments r = some spend)
    (hcollisions : NoCollisions cfg env r spend)
    (hdefault : env.defaultProof.siblingPath.length = 32) :
    ∃ privateInputs publicInputs result circuit,
      clientOperation cfg env (s.afterSpend cfg env r spend) spend (newCommitments cfg env r spend)
          r.ephemeralPrivateKey r.recipientAddress =
        transactionOf (env.prove privateInputs publicInputs) ∧
      WitnessFor cfg s r spend (newCommitments cfg env r spend) privateInputs publicInputs result
        circuit := by
  have hspends := h.spends hspend
  have hrecipient := hasRecipient_of_requested hr hrequest
  have hexists : ∀ i, ∃ proof, spendProof cfg env (s.afterSpend cfg env r spend) (spend i) =
      .ok proof ∧ ProvesSpend cfg (spend i) proof := h.exists_spendProof hspends hdefault
  choose proofs hproofs hproves using hexists
  have hintegrity := h.integrity hspends hkeys hrecipient hcollisions hvalue hfee hproves
  obtain ⟨result, circuit, hrun, hsat⟩ := Client.exists_completed hintegrity
  obtain ⟨-, hcompletes, hpublic⟩ := Client.completed hrun hsat
  refine ⟨_, _, result, circuit, clientOperation_eq newCommitments_balance.1
    newCommitments_balance.2 hproofs, fun i => (hproves i).length_eq, hrun, hsat, hpublic,
    fun i => ?_, fun i => ?_⟩
  · rw [hcompletes.commitments]
    exact commitments_eq hkeys hrecipient hspends.token_eq
  · rw [hcompletes.nullifiers]
    have hnullifier := @Holdings.nullifiers_eq P cfg env s r spend i proofs h hspends
    by_cases hi : spend i = .default
    · exact .inl ⟨hi, hnullifier.trans (if_pos hi)⟩
    · obtain ⟨e, he, hentry, hspendable⟩ := h.entry_of_ne hspends hi
      refine .inr ⟨e, he, hentry, ?_, ?_⟩
      · rw [hspendable.key_eq, hentry]
      · rw [hspendable.nullifier_eq, hentry]
        exact hnullifier.trans (if_neg hi)

end Witness

/-! ### A sample -/

/-- A commitment of the client to 6 of the fee token. -/
def feePreimage : Preimage :=
  ⟨(6 : ℕ), sampleConfig.feeTokenId, sampleConfig.feeTokenId, ⟨(43 : ℕ), 0⟩, .transfer (19 : ℕ)⟩

/-- Its commitments are unspent. -/
def unspentEntry (p : Preimage) : CommitmentEntry :=
  .new sampleConfig.poseidon p (p.nullifierHash sampleConfig.poseidon sampleConfig.nullifierKey) .unspent

/-- A client with two unspent commitments, in a tree of the height of the commitment tree. -/
def provableClient : ClientState where
  commitments := (Collection.empty.upsert (unspentEntry samplePreimage)).upsert
    (unspentEntry feePreimage)
  commitmentTree := stateAfter (ε := Trees.MerkleTreeError) (onTree id (fun db _ => db) id (do
    Trees.newMutableTree 29 3
    Trees.appendSubTrees sampleConfig.treeHash (samplePreimage.hash sampleConfig.poseidon ::
      feePreimage.hash sampleConfig.poseidon :: List.replicate 6 0) true)) .empty
  expected := 1
  blocks := []

/-- The surroundings of its requests. -/
def provableEnv : RequestEnv Unit :=
  { sampleRequestEnv with
    salts := fun i => ((23 + i : ℕ) : Fr254)
    defaultProof := ⟨0, List.replicate 32 ⟨false, 0⟩⟩ }

/-- What it spends for a transfer with a fee. -/
def provableSpend : Fin 4 → Preimage := ![samplePreimage, .default, feePreimage, .default]

/-- A transfer with a fee. -/
def provableRequest : SpendRequest :=
  ⟨(11 : ℕ), (3 : ℕ), (4 : ℕ), ⟨(37 : ℕ), (41 : ℕ)⟩, .transfer (41 : ℕ), (47 : ℕ), 0⟩

theorem provableClient_docs :
    provableClient.commitments.docs = [unspentEntry samplePreimage, unspentEntry feePreimage] := by
  decide +kernel

theorem provableClient_spendable : ∀ p ∈ [samplePreimage, feePreimage],
    (unspentEntry p).Spendable sampleConfig provableClient.commitmentTree := by
  have howned : ∀ p ∈ [samplePreimage, feePreimage], p.value.val < 2 ^ 96 ∧ p.nfTokenId ≠ 0 ∧
      p.publicKey = sampleConfig.zkpPublicKey ∧
      ProvesLeaf sampleConfig.treeHash provableClient.commitmentTree
        (p.hash sampleConfig.poseidon) := by decide +kernel
  intro p hp
  obtain ⟨hvalue, htoken, hkey, hproves⟩ := howned p hp
  exact ⟨rfl, rfl, hvalue, htoken, .inl hkey, hproves⟩

theorem provableClient_holdings : Holdings sampleConfig provableClient := by
  have hentry : ∀ e ∈ provableClient.commitments.docs,
      ∃ p ∈ [samplePreimage, feePreimage], e = unspentEntry p := by
    rw [provableClient_docs]
    simp
  have hslot : ∀ p ∈ [samplePreimage, feePreimage], p.nfSlotId = p.nfTokenId := by decide +kernel
  refine ⟨?_, ?_, ?_, ⟨_, rfl, rfl, rfl⟩⟩
  · intro e he _
    obtain ⟨p, hp, rfl⟩ := hentry e he
    exact provableClient_spendable p hp
  · intro e he e' he' _ _ htoken
    obtain ⟨p, hp, rfl⟩ := hentry e he
    obtain ⟨p', hp', rfl⟩ := hentry e' he'
    exact (hslot p hp).trans (htoken.trans (hslot p' hp').symm)
  · intro e he _ hfee
    obtain ⟨p, hp, rfl⟩ := hentry e he
    exact (hslot p hp).trans hfee

/-- Two commitments are spent for a transfer with a fee, and both leave change. -/
theorem exists_witness_sample : ∃ privateInputs publicInputs result circuit,
    clientOperation sampleConfig provableEnv
        (provableClient.afterSpend sampleConfig provableEnv provableRequest provableSpend)
        provableSpend (newCommitments sampleConfig provableEnv provableRequest provableSpend)
        provableRequest.ephemeralPrivateKey provableRequest.recipientAddress =
      transactionOf (provableEnv.prove privateInputs publicInputs) ∧
    WitnessFor sampleConfig provableClient provableRequest provableSpend
      (newCommitments sampleConfig provableEnv provableRequest provableSpend) privateInputs
      publicInputs result circuit := by
  have hr : requested sampleConfig provableEnv (sampleTransfer (4 : ℕ)) provableClient =
      some provableRequest := by decide +kernel
  refine exists_witness ⟨?_, ?_⟩ provableClient_holdings hr ?_ ?_ ?_ ?_ ⟨?_, ?_, ?_⟩ ?_
  · decide +kernel
  · decide +kernel
  · intro key hkey
    cases hkey
    decide +kernel
  · decide +kernel
  · decide +kernel
  · decide +kernel
  · decide +kernel
  · decide +kernel
  · decide +kernel
  · rfl

end Wallet

end Nightfall
