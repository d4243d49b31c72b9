import Nightfall.Wallet.Requests

/-!
# The commitments that a request reserves

What a request selects is pending from then on.  `reservedKeys` are the keys that the selection
marks, also if it fails after the marks for the value, and `nullifiedKeys` those that a transaction
nullifies.

* `run_selectSpendCommitments_of_some`, `run_selectSpendCommitments_of_none` : the selection marks
  the reserved keys, however it ends;
* `run_handleClientOperation_of_submits`, `run_handleClientOperation_of_not` : the rest of a request
  leaves the statuses, however it ends;
* `handlesRight_iff` : when a request is handled right.
-/

namespace Nightfall

namespace Wallet

open Node Stateful

/-! ### Marks -/

section Marks

variable {c : Commitments} {k : Fr254}

theorem markCommitmentsPendingSpend_append (keys keys' : List Fr254) :
    (c.markCommitmentsPendingSpend keys).markCommitmentsPendingSpend keys' =
      c.markCommitmentsPendingSpend (keys ++ keys') := by
  refine Collection.ext ?_
  change List.map _ (List.map _ c.docs) = List.map _ c.docs
  rw [List.map_map]
  refine List.map_congr_left fun e _ => ?_
  by_cases hk : e.key ∈ keys
  · simp [hk]
  · simp [hk]

theorem markCommitmentsPendingSpend_nil : c.markCommitmentsPendingSpend [] = c := by
  refine Collection.ext ?_
  change List.map _ c.docs = c.docs
  simp

theorem status_storeCommitments_of_none {kind : ErrorKind} {entries : List CommitmentEntry}
    {dup : Bool} {st : CommitmentStatus} (hnew : c.status k = none)
    (h : (c.storeCommitments kind entries dup).1.status k = some st) :
    ∃ e ∈ entries, e.status = st := by
  have hins : ∀ d : Commitments, d = (c.insertMany entries).1 → d.status k = some st →
      ∃ e ∈ entries, e.status = st := by
    rintro _ rfl hst
    obtain ⟨e, hfind, rfl⟩ := Option.map_eq_some_iff.1 hst
    rcases Collection.find_insertMany_cases hfind with hold | hmem
    · rw [Commitments.status, hold] at hnew
      cases hnew
    · exact ⟨e, hmem, rfl⟩
  rw [Commitments.storeCommitments] at h
  split_ifs at h with hempty
  · rw [hnew] at h
    cases h
  · cases hrun : c.insertMany entries with
    | mk d ok =>
      rw [hrun] at h hins
      cases ok with
      | true => exact hins d rfl h
      | false =>
        cases kind with
        | write code => exact hins d rfl h
        | other => exact hins d rfl h

end Marks

/-! ### What is reserved and what is nullified -/

section Keys

variable {P : Type} (cfg : ClientConfig) (env : RequestEnv P)

/-- The part of a request before the selection. -/
def Request.convert : Request → ClientM TransactionHandlerError SpendRequest
  | .transfer request => request.convert cfg env
  | .withdraw request => request.convert cfg env

/-- What a request asks for, if nothing fails before the selection. -/
def requested (request : Request) (s : ClientState) : Option SpendRequest :=
  match (request.convert cfg env).run s with
  | .ok r _ => some r
  | .error _ _ => none

/-- What is selected for the fee. -/
def usableFeeCommitments (c : Commitments) (r : SpendRequest) : Except String (Fin 2 → Preimage) :=
  if r.fee = 0 then .ok fun _ => .default else usableCommitments c cfg.feeTokenId r.fee

/-- The keys that are marked for the fee. -/
def feeKeys (r : SpendRequest) (fee : Fin 2 → Preimage) : List Fr254 :=
  if r.fee = 0 then [] else pendingKeys cfg.poseidon fee

/-- The keys that the selection for a request marks. -/
def reservedKeys (c : Commitments) (r : SpendRequest) : List Fr254 :=
  match usableCommitments c r.nfTokenId r.value with
  | .error _ => []
  | .ok value =>
    pendingKeys cfg.poseidon value ++
      match usableFeeCommitments cfg
        (c.markCommitmentsPendingSpend (pendingKeys cfg.poseidon value)) r with
      | .error _ => []
      | .ok fee => feeKeys cfg r fee

/-- The commitments that are selected for a request, if there are enough. -/
def spendCommitments (c : Commitments) (r : SpendRequest) : Option (Fin 4 → Preimage) :=
  match usableCommitments c r.nfTokenId r.value with
  | .error _ => none
  | .ok value =>
    match usableFeeCommitments cfg
      (c.markCommitmentsPendingSpend (pendingKeys cfg.poseidon value)) r with
    | .error _ => none
    | .ok fee => some ![value 0, value 1, fee 0, fee 1]

/-- The keys that a transaction nullifies: the circuit opens the first slot, and of the others those
with a value. -/
def nullifiedKeys (poseidon : List Fr254 → Fr254) (spend : Fin 4 → Preimage) : List Fr254 :=
  ((List.finRange 4).filter fun i => decide (i = 0 ∨ (spend i).value ≠ 0)).map fun i =>
    (spend i).hash poseidon

/-- The state with marked commitments. -/
def ClientState.marked (s : ClientState) (keys : List Fr254) : ClientState :=
  { s with commitments := s.commitments.markCommitmentsPendingSpend keys }

/-- The state with stored commitments. -/
def ClientState.storing (s : ClientState) (entries : List CommitmentEntry) : ClientState :=
  { s with commitments := (s.commitments.storeCommitments cfg.insertError entries true).1 }

/-- No commitment has one of the keys, but for those that are pending already. -/
def Unreserved (c : Commitments) (keys : List Fr254) : Prop :=
  ∀ k ∈ keys, ∀ st, c.status k = some st → st = .pendingSpend

/-- Nothing fails after the selection: the change is new, the transaction is made, and a proposer
accepts it. -/
structure Submits (s : ClientState) (r : SpendRequest) (spend : Fin 4 → Preimage) : Prop where
  change : ((changeEntries cfg (newCommitments cfg env r spend)).map CommitmentEntry.key).Nodup ∧
    ∀ e ∈ changeEntries cfg (newCommitments cfg env r spend), e.key ∉ s.commitments.keys
  transaction : ∃ transaction,
    clientOperation cfg env (s.storing cfg (changeEntries cfg (newCommitments cfg env r spend)))
      spend (newCommitments cfg env r spend) r.ephemeralPrivateKey r.recipientAddress =
        .ok transaction ∧
      processTransactionOffchain env transaction = .ok ()

end Keys

/-! ### Right handling -/

/-- Every commitment has the status that it had. -/
def Released (s s' : ClientState) : Prop :=
  ∀ k st, s.commitments.status k = some st → s'.commitments.status k = some st

/-- Of the commitments, those with the given keys are pending, and the others have the status that
they had. -/
structure ReservedExactly (keys : List Fr254) (s s' : ClientState) : Prop where
  pending : ∀ k ∈ keys, (s.commitments.status k).isSome →
    s'.commitments.status k = some .pendingSpend
  others : ∀ k ∉ keys, ∀ st, s.commitments.status k = some st → s'.commitments.status k = some st
  created : ∀ k, s.commitments.status k = none → s'.commitments.status k ≠ some .pendingSpend

/-- A request that fails reserves nothing, and one that succeeds what its transaction nullifies. -/
structure HandlesRight {P : Type} (cfg : ClientConfig) (env : RequestEnv P) (request : Request)
    (s : ClientState) : Prop where
  released : ∀ f s', (handleRequest cfg env request).run s = .error f s' → Released s s'
  reserved : ∀ submitted s', (handleRequest cfg env request).run s = .ok submitted s' →
    ReservedExactly (nullifiedKeys cfg.poseidon submitted.spendCommitments) s s'

section Handling

variable {P : Type} {cfg : ClientConfig} {env : RequestEnv P} {s s' t : ClientState}
  {r : SpendRequest} {spend : Fin 4 → Preimage}

/-! ### The selection -/

theorem run_findUsableCommitments_of_ok {ε : Type} {toError : String → ε} {token value : Fr254}
    {selected : Fin 2 → Preimage} (h : usableCommitments s.commitments token value = .ok selected) :
    (findUsableCommitments cfg toError token value).run s =
      .ok selected (s.marked (pendingKeys cfg.poseidon selected)) := by
  refine run_bind_eq_ok.2 ⟨s, s, rfl, run_bind_eq_ok.2 ⟨selected, s, ?_, rfl⟩⟩
  exact run_okOrElse_eq_ok.2 ⟨h, rfl⟩

theorem run_findUsableCommitments_of_error {ε : Type} {toError : String → ε}
    {token value : Fr254} {message : String}
    (h : usableCommitments s.commitments token value = .error message) :
    (findUsableCommitments cfg toError token value).run s = .error (.err (toError message)) s := by
  refine run_bind_eq_error.2 (.inr ⟨s, s, rfl, run_bind_eq_error.2 (.inl ?_)⟩)
  exact run_okOrElse_eq_error.2 ⟨⟨message, h, rfl⟩, rfl⟩

theorem run_selectFeeCommitments_of_ok {fee : Fin 2 → Preimage}
    (h : usableFeeCommitments cfg s.commitments r = .ok fee) :
    (selectFeeCommitments cfg r).run s = .ok fee (s.marked (feeKeys cfg r fee)) := by
  rw [usableFeeCommitments] at h
  rw [selectFeeCommitments, feeKeys]
  split_ifs at h ⊢ with hfee
  · cases h
    rw [ClientState.marked, markCommitmentsPendingSpend_nil]
    rfl
  · exact run_findUsableCommitments_of_ok h

theorem run_selectFeeCommitments_of_error {message : String}
    (h : usableFeeCommitments cfg s.commitments r = .error message) :
    (selectFeeCommitments cfg r).run s = .error (.err (.customError message)) s := by
  rw [usableFeeCommitments] at h
  rw [selectFeeCommitments]
  split_ifs at h ⊢ with hfee
  exact run_findUsableCommitments_of_error h

theorem run_selectSpendCommitments_of_some
    (h : spendCommitments cfg s.commitments r = some spend) :
    (selectSpendCommitments cfg r).run s =
      .ok spend (s.marked (reservedKeys cfg s.commitments r)) := by
  rw [spendCommitments] at h
  cases hvalue : usableCommitments s.commitments r.nfTokenId r.value with
  | error message =>
    rw [hvalue] at h
    cases h
  | ok value =>
    rw [hvalue] at h
    cases hfee : usableFeeCommitments cfg
      (s.commitments.markCommitmentsPendingSpend (pendingKeys cfg.poseidon value)) r with
    | error message =>
      simp only [hfee] at h
      cases h
    | ok fee =>
      simp only [hfee] at h
      cases h
      have hkeys : s.marked (reservedKeys cfg s.commitments r) =
          (s.marked (pendingKeys cfg.poseidon value)).marked (feeKeys cfg r fee) := by
        simp only [reservedKeys, hvalue, hfee, ClientState.marked,
          markCommitmentsPendingSpend_append]
      rw [hkeys]
      refine run_bind_eq_ok.2 ⟨value, _, run_findUsableCommitments_of_ok hvalue, ?_⟩
      exact run_bind_eq_ok.2 ⟨fee, _,
        run_selectFeeCommitments_of_ok (s := s.marked (pendingKeys cfg.poseidon value)) hfee, rfl⟩

theorem run_selectSpendCommitments_of_none (h : spendCommitments cfg s.commitments r = none) :
    ∃ f, (selectSpendCommitments cfg r).run s =
      .error f (s.marked (reservedKeys cfg s.commitments r)) := by
  rw [spendCommitments] at h
  cases hvalue : usableCommitments s.commitments r.nfTokenId r.value with
  | error message =>
    have hkeys : s.marked (reservedKeys cfg s.commitments r) = s := by
      simp only [reservedKeys, hvalue, ClientState.marked, markCommitmentsPendingSpend_nil]
    rw [hkeys]
    exact ⟨_, run_bind_eq_error.2 (.inl (run_findUsableCommitments_of_error hvalue))⟩
  | ok value =>
    rw [hvalue] at h
    cases hfee : usableFeeCommitments cfg
      (s.commitments.markCommitmentsPendingSpend (pendingKeys cfg.poseidon value)) r with
    | ok fee =>
      simp only [hfee] at h
      cases h
    | error message =>
      have hkeys : s.marked (reservedKeys cfg s.commitments r) =
          s.marked (pendingKeys cfg.poseidon value) := by
        simp only [reservedKeys, hvalue, hfee, List.append_nil]
      rw [hkeys]
      refine ⟨.err (.customError message), run_bind_eq_error.2
        (.inr ⟨value, _, run_findUsableCommitments_of_ok hvalue, ?_⟩)⟩
      exact run_bind_eq_error.2 (.inl (run_selectFeeCommitments_of_error hfee))

/-! ### After the selection -/

theorem storeCommitments_snd {c : Commitments} {kind : ErrorKind} {entries : List CommitmentEntry} :
    (c.storeCommitments kind entries true).2 = some () ↔
      (entries.map CommitmentEntry.key).Nodup ∧ ∀ e ∈ entries, e.key ∉ c.keys := by
  rw [← Collection.insertMany_snd, Commitments.storeCommitments]
  split_ifs with hempty
  · rw [List.isEmpty_iff.1 hempty]
    exact iff_of_true rfl rfl
  · cases c.insertMany entries with
    | mk d ok =>
      cases ok with
      | true => exact iff_of_true rfl rfl
      | false =>
        cases kind with
        | write code => simp
        | other => simp

theorem run_storeChange_of_new {entries : List CommitmentEntry}
    (h : (entries.map CommitmentEntry.key).Nodup ∧ ∀ e ∈ entries, e.key ∉ t.commitments.keys) :
    (when (entries ≠ []) (storeChange cfg entries)).run t = .ok () (t.storing cfg entries) := by
  rw [when]
  split_ifs with hne
  · refine run_bind_eq_ok.2 ⟨t, t, rfl, run_bind_eq_ok.2 ⟨(), t.storing cfg entries, rfl, ?_⟩⟩
    exact run_okOr_eq_ok.2 ⟨storeCommitments_snd.2 h, rfl⟩
  · rw [not_not.1 hne]
    rfl

theorem run_storeChange_of_not {entries : List CommitmentEntry}
    (h : ¬ ((entries.map CommitmentEntry.key).Nodup ∧ ∀ e ∈ entries, e.key ∉ t.commitments.keys)) :
    (when (entries ≠ []) (storeChange cfg entries)).run t =
      .error (.err .databaseError) (t.storing cfg entries) := by
  have hne : entries ≠ [] := by
    rintro rfl
    exact h ⟨List.nodup_nil, List.forall_mem_nil _⟩
  rw [when, if_pos hne]
  refine run_bind_eq_error.2 (.inr ⟨t, t, rfl, run_bind_eq_error.2 (.inr
    ⟨(), t.storing cfg entries, rfl, run_okOr_eq_error.2 ⟨?_, rfl, rfl⟩⟩)⟩)
  cases hstored : (t.commitments.storeCommitments cfg.insertError entries true).2 with
  | none => rfl
  | some u => exact absurd (storeCommitments_snd.1 hstored) h

theorem run_handleClientOperation_of_submits (h : Submits cfg env t r spend) :
    ∃ transaction, (handleClientOperation cfg env spend (newCommitments cfg env r spend)
      r.ephemeralPrivateKey r.recipientAddress).run t =
        .ok transaction (t.storing cfg (changeEntries cfg (newCommitments cfg env r spend))) := by
  obtain ⟨transaction, hoperation, hsent⟩ := h.transaction
  set s' := t.storing cfg (changeEntries cfg (newCommitments cfg env r spend)) with hs'
  refine ⟨transaction, run_bind_eq_ok.2 ⟨(), s', run_storeChange_of_new h.change, ?_⟩⟩
  refine run_bind_eq_ok.2 ⟨s', s', rfl, run_bind_eq_ok.2 ⟨transaction, s', ?_, ?_⟩⟩
  · exact run_okOrElse_eq_ok.2 ⟨hoperation, rfl⟩
  · exact run_bind_eq_ok.2 ⟨(), s', run_okOrElse_eq_ok.2 ⟨hsent, rfl⟩, rfl⟩

theorem run_handleClientOperation_of_not (h : ¬ Submits cfg env t r spend) :
    ∃ f, (handleClientOperation cfg env spend (newCommitments cfg env r spend)
      r.ephemeralPrivateKey r.recipientAddress).run t =
        .error f (t.storing cfg (changeEntries cfg (newCommitments cfg env r spend))) := by
  by_cases hchange : ((changeEntries cfg (newCommitments cfg env r spend)).map
    CommitmentEntry.key).Nodup ∧ ∀ e ∈ changeEntries cfg (newCommitments cfg env r spend),
      e.key ∉ t.commitments.keys
  · set s' := t.storing cfg (changeEntries cfg (newCommitments cfg env r spend)) with hs'
    have hstored := @run_storeChange_of_new cfg _ _ hchange
    cases hoperation : clientOperation cfg env s' spend (newCommitments cfg env r spend)
      r.ephemeralPrivateKey r.recipientAddress with
    | error message =>
      refine ⟨.err (.customError message), run_bind_eq_error.2 (.inr ⟨(), s', hstored, ?_⟩)⟩
      refine run_bind_eq_error.2 (.inr ⟨s', s', rfl, run_bind_eq_error.2 (.inl ?_)⟩)
      exact run_okOrElse_eq_error.2 ⟨⟨message, hoperation, rfl⟩, rfl⟩
    | ok transaction =>
      cases hsent : processTransactionOffchain env transaction with
      | ok u => exact absurd ⟨hchange, transaction, hoperation, hsent⟩ h
      | error message =>
        refine ⟨.err (.customError message), run_bind_eq_error.2 (.inr ⟨(), s', hstored, ?_⟩)⟩
        refine run_bind_eq_error.2 (.inr ⟨s', s', rfl, run_bind_eq_error.2 (.inr
          ⟨transaction, s', run_okOrElse_eq_ok.2 ⟨hoperation, rfl⟩, ?_⟩)⟩)
        exact run_bind_eq_error.2 (.inl (run_okOrElse_eq_error.2 ⟨⟨message, hsent, rfl⟩, rfl⟩))
  · exact ⟨_, run_bind_eq_error.2 (.inl (run_storeChange_of_not hchange))⟩

/-! ### The statuses after a request -/

theorem mem_changeEntries_status {new : Fin 4 → Preimage} {e : CommitmentEntry}
    (h : e ∈ changeEntries cfg new) : e.status = .pendingCreation := by
  obtain ⟨i, -, hi⟩ := List.mem_filterMap.1 h
  split_ifs at hi with hchange
  cases hi
  rfl

theorem status_marked_storing {k : Fr254} {st : CommitmentStatus} {keys : List Fr254}
    {entries : List CommitmentEntry} (h : s.commitments.status k = some st) :
    ((s.marked keys).storing cfg entries).commitments.status k =
      some (if k ∈ keys then .pendingSpend else st) := by
  refine status_storeCommitments ?_
  rw [ClientState.marked, status_markCommitmentsPendingSpend, h]
  split_ifs
  · rfl
  · rfl

theorem released_iff {keys : List Fr254} {entries : List CommitmentEntry} :
    Released s ((s.marked keys).storing cfg entries) ↔ Unreserved s.commitments keys := by
  constructor
  · intro h k hk st hst
    have hafter := h k st hst
    rw [status_marked_storing hst, if_pos hk] at hafter
    exact (Option.some_inj.1 hafter).symm
  · intro h k st hst
    rw [status_marked_storing hst]
    split_ifs with hk
    · rw [h k hk st hst]
    · rfl

theorem status_marked_storing_of_none {k : Fr254} {keys : List Fr254} {new : Fin 4 → Preimage}
    (h : s.commitments.status k = none) :
    ((s.marked keys).storing cfg (changeEntries cfg new)).commitments.status k ≠
      some .pendingSpend := by
  intro hst
  have hmarked : (s.marked keys).commitments.status k = none := by
    rw [ClientState.marked, status_markCommitmentsPendingSpend, h]
    split_ifs
    · rfl
    · rfl
  obtain ⟨e, he, hpending⟩ := status_storeCommitments_of_none hmarked hst
  rw [mem_changeEntries_status he] at hpending
  cases hpending

theorem reservedExactly_iff {keys nullified : List Fr254} {new : Fin 4 → Preimage}
    (hsub : ∀ k ∈ nullified, k ∈ keys) :
    ReservedExactly nullified s ((s.marked keys).storing cfg (changeEntries cfg new)) ↔
      Unreserved s.commitments (keys.filter fun k => decide (k ∉ nullified)) := by
  constructor
  · intro h k hk st hst
    obtain ⟨hkeys, hnull⟩ := List.mem_filter.1 hk
    have hafter := h.others k (of_decide_eq_true hnull) st hst
    rw [status_marked_storing hst, if_pos hkeys] at hafter
    exact (Option.some_inj.1 hafter).symm
  · intro h
    refine ⟨fun k hk hsome => ?_, fun k hk st hst => ?_, fun k hnone => ?_⟩
    · obtain ⟨st, hst⟩ := Option.isSome_iff_exists.1 hsome
      rw [status_marked_storing hst, if_pos (hsub k hk)]
    · rw [status_marked_storing hst]
      split_ifs with hkeys
      · rw [h k (List.mem_filter.2 ⟨hkeys, decide_eq_true hk⟩) st hst]
      · rfl
    · exact status_marked_storing_of_none hnone

/-- A transaction nullifies only what was reserved. -/
theorem nullifiedKeys_subset {c : Commitments} (h : spendCommitments cfg c r = some spend) :
    ∀ k ∈ nullifiedKeys cfg.poseidon spend, k ∈ reservedKeys cfg c r := by
  intro k hk
  obtain ⟨i, hi, rfl⟩ := List.mem_map.1 hk
  have hopen := of_decide_eq_true (List.mem_filter.1 hi).2
  rw [spendCommitments] at h
  rw [reservedKeys]
  cases hvalue : usableCommitments c r.nfTokenId r.value with
  | error message =>
    rw [hvalue] at h
    cases h
  | ok value =>
    rw [hvalue] at h
    cases hfee : usableFeeCommitments cfg
      (c.markCommitmentsPendingSpend (pendingKeys cfg.poseidon value)) r with
    | error message =>
      simp only [hfee] at h
      cases h
    | ok fee =>
      simp only [hfee, Option.some.injEq] at h
      subst h
      simp only [hfee, List.mem_append]
      have hmem : ∀ (selected : Fin 2 → Preimage) j,
          (selected j).hash cfg.poseidon ∈ pendingKeys cfg.poseidon selected := fun selected j =>
        List.mem_ofFn.2 ⟨j, rfl⟩
      -- the slots for the fee hold no value if no fee is paid
      have hfeeKey : ∀ j, (fee j).value ≠ 0 → (fee j).hash cfg.poseidon ∈ feeKeys cfg r fee := by
        intro j hj
        rw [feeKeys]
        rw [usableFeeCommitments] at hfee
        split_ifs at hfee ⊢ with hzero
        · cases hfee
          exact absurd rfl hj
        · exact hmem fee j
      fin_cases i
      · exact .inl (hmem value 0)
      · exact .inl (hmem value 1)
      · exact .inr (hfeeKey 0 (hopen.resolve_left (by decide)))
      · exact .inr (hfeeKey 1 (hopen.resolve_left (by decide)))

/-! ### The whole request -/

theorem handleRequest_eq (request : Request) :
    handleRequest cfg env request = (request.convert cfg env >>= handleSpend cfg env) := by
  cases request with
  | transfer request => rfl
  | withdraw request =>
    simp only [handleRequest, handleWithdraw, Request.convert, bind_assoc, pure_bind, bind_pure]

theorem preserves_convert (request : Request) :
    Preserves (fun s : ClientState => s) (request.convert cfg env) := by
  cases request with
  | transfer request =>
    refine (preserves_okOr _ _).bind fun _ => (preserves_okOrElse _ _).bind fun _ =>
      (preserves_expect _ _).bind fun _ => (preserves_okOrElse _ _).bind fun _ =>
        (preserves_okOrElse _ _).bind fun _ => (preserves_okOr _ _).bind fun _ =>
          (preserves_okOrElse _ _).bind fun _ => .pure _
  | withdraw request =>
    refine (preserves_okOr _ _).bind fun _ => (preserves_okOrElse _ _).bind fun _ =>
      (preserves_okOrElse _ _).bind fun _ => (preserves_okOrElse _ _).bind fun _ =>
        (preserves_okOrElse _ _).bind fun _ => .pure _

/-- A request that asks for nothing leaves the state. -/
theorem run_handleRequest_of_not {request : Request} (h : requested cfg env request s = none) :
    ∃ f, (handleRequest cfg env request).run s = .error f s := by
  rw [requested] at h
  rcases run_cases (request.convert cfg env) s with ⟨r, s', hrun⟩ | ⟨f, s', hrun⟩
  · rw [hrun] at h
    cases h
  · obtain rfl : s' = s := (preserves_convert request).of_error _ _ _ hrun
    rw [handleRequest_eq]
    exact ⟨f, run_bind_eq_error.2 (.inl hrun)⟩

theorem run_convert_of_requested {request : Request} (h : requested cfg env request s = some r) :
    (request.convert cfg env).run s = .ok r s := by
  rw [requested] at h
  rcases run_cases (request.convert cfg env) s with ⟨r', s', hrun⟩ | ⟨f, s', hrun⟩
  · obtain rfl : s' = s := (preserves_convert request).keeps _ _ _ hrun
    rw [hrun] at h ⊢
    cases h
    rfl
  · rw [hrun] at h
    cases h

/-- A request without enough commitments for it leaves what the selection marked. -/
theorem run_handleRequest_of_none {request : Request} (hr : requested cfg env request s = some r)
    (h : spendCommitments cfg s.commitments r = none) :
    ∃ f, (handleRequest cfg env request).run s =
      .error f (s.marked (reservedKeys cfg s.commitments r)) := by
  obtain ⟨f, hrun⟩ := run_selectSpendCommitments_of_none h
  rw [handleRequest_eq]
  exact ⟨f, run_bind_eq_error.2 (.inr ⟨r, s, run_convert_of_requested hr,
    run_bind_eq_error.2 (.inl hrun)⟩)⟩

/-- The state that a request with selected commitments leaves, however it ends. -/
def ClientState.afterSpend (cfg : ClientConfig) (env : RequestEnv P) (s : ClientState)
    (r : SpendRequest) (spend : Fin 4 → Preimage) : ClientState :=
  (s.marked (reservedKeys cfg s.commitments r)).storing cfg
    (changeEntries cfg (newCommitments cfg env r spend))

theorem run_handleRequest_of_submits {request : Request}
    (hr : requested cfg env request s = some r)
    (hspend : spendCommitments cfg s.commitments r = some spend)
    (h : Submits cfg env (s.marked (reservedKeys cfg s.commitments r)) r spend) :
    ∃ transaction, (handleRequest cfg env request).run s =
      .ok ⟨spend, transaction⟩ (s.afterSpend cfg env r spend) := by
  obtain ⟨transaction, hrun⟩ := run_handleClientOperation_of_submits h
  rw [handleRequest_eq]
  refine ⟨transaction, run_bind_eq_ok.2 ⟨r, s, run_convert_of_requested hr, ?_⟩⟩
  refine run_bind_eq_ok.2 ⟨spend, _, run_selectSpendCommitments_of_some hspend, ?_⟩
  exact run_bind_eq_ok.2 ⟨transaction, _, hrun, rfl⟩

theorem run_handleRequest_of_fails {request : Request}
    (hr : requested cfg env request s = some r)
    (hspend : spendCommitments cfg s.commitments r = some spend)
    (h : ¬ Submits cfg env (s.marked (reservedKeys cfg s.commitments r)) r spend) :
    ∃ f, (handleRequest cfg env request).run s = .error f (s.afterSpend cfg env r spend) := by
  obtain ⟨f, hrun⟩ := run_handleClientOperation_of_not h
  rw [handleRequest_eq]
  refine ⟨f, run_bind_eq_error.2 (.inr ⟨r, s, run_convert_of_requested hr, ?_⟩)⟩
  refine run_bind_eq_error.2 (.inr ⟨spend, _, run_selectSpendCommitments_of_some hspend, ?_⟩)
  exact run_bind_eq_error.2 (.inl hrun)

theorem handlesRight_of_error {request : Request} {f : Failure TransactionHandlerError}
    (h : (handleRequest cfg env request).run s = .error f s') :
    HandlesRight cfg env request s ↔ Released s s' := by
  constructor
  · intro hright
    exact hright.released f s' h
  · intro hreleased
    refine ⟨fun f' t hrun => ?_, fun submitted t hrun => ?_⟩
    · rw [h] at hrun
      cases hrun
      exact hreleased
    · rw [h] at hrun
      cases hrun

theorem handlesRight_of_ok {request : Request} {submitted : Submitted P}
    (h : (handleRequest cfg env request).run s = .ok submitted s') :
    HandlesRight cfg env request s ↔
      ReservedExactly (nullifiedKeys cfg.poseidon submitted.spendCommitments) s s' := by
  constructor
  · intro hright
    exact hright.reserved submitted s' h
  · intro hreserved
    refine ⟨fun f' t hrun => ?_, fun submitted' t hrun => ?_⟩
    · rw [h] at hrun
      cases hrun
    · rw [h] at hrun
      cases hrun
      exact hreserved

/-- A request without enough commitments is handled right if it reserved nothing. -/
theorem handlesRight_of_none {request : Request} (hr : requested cfg env request s = some r)
    (h : spendCommitments cfg s.commitments r = none) :
    HandlesRight cfg env request s ↔
      Unreserved s.commitments (reservedKeys cfg s.commitments r) := by
  obtain ⟨f, hrun⟩ := run_handleRequest_of_none hr h
  have hstate : s.marked (reservedKeys cfg s.commitments r) =
      (s.marked (reservedKeys cfg s.commitments r)).storing cfg [] := rfl
  rw [handlesRight_of_error hrun, hstate, released_iff]

/-- **When a request is handled right.**  It asks for nothing, what it asks for reserves nothing, or
nothing fails after the selection and all that it reserves is nullified by its transaction. -/
theorem handlesRight_iff (cfg : ClientConfig) (env : RequestEnv P) (request : Request)
    (s : ClientState) :
    HandlesRight cfg env request s ↔ ∀ r, requested cfg env request s = some r →
      Unreserved s.commitments (reservedKeys cfg s.commitments r) ∨
        ∃ spend, spendCommitments cfg s.commitments r = some spend ∧
          Submits cfg env (s.marked (reservedKeys cfg s.commitments r)) r spend ∧
          Unreserved s.commitments ((reservedKeys cfg s.commitments r).filter fun k =>
            decide (k ∉ nullifiedKeys cfg.poseidon spend)) := by
  cases hr : requested cfg env request s with
  | none =>
    obtain ⟨f, hrun⟩ := run_handleRequest_of_not hr
    rw [handlesRight_of_error hrun]
    exact iff_of_true (fun k st hst => hst) fun r h => (by cases h)
  | some r =>
    simp only [Option.some.injEq, forall_eq']
    cases hspend : spendCommitments cfg s.commitments r with
    | none =>
      rw [handlesRight_of_none hr hspend]
      constructor
      · exact .inl
      · rintro (h | ⟨spend, ⟨⟩, -⟩)
        exact h
    | some spend =>
      simp only [Option.some.injEq, exists_eq_left']
      by_cases hsubmits : Submits cfg env (s.marked (reservedKeys cfg s.commitments r)) r spend
      · obtain ⟨transaction, hrun⟩ := run_handleRequest_of_submits hr hspend hsubmits
        rw [handlesRight_of_ok hrun, ClientState.afterSpend,
          reservedExactly_iff (nullifiedKeys_subset hspend)]
        constructor
        · intro h
          exact .inr ⟨hsubmits, h⟩
        · rintro (h | ⟨-, h⟩)
          · exact fun k hk => h k (List.mem_of_mem_filter hk)
          · exact h
      · obtain ⟨f, hrun⟩ := run_handleRequest_of_fails hr hspend hsubmits
        rw [handlesRight_of_error hrun, ClientState.afterSpend, released_iff]
        constructor
        · exact .inl
        · rintro (h | ⟨h, -⟩)
          · exact h
          · exact absurd h hsubmits

end Handling

/-! ### A sample -/

/-- A client for samples. -/
def sampleConfig : ClientConfig where
  toPrimitives := Client.samplePrimitives
  zkpPrivateKey := (43 : ℕ)
  zkpPublicKey := ⟨(43 : ℕ), 0⟩
  nullifierKey := (53 : ℕ)
  nfAddress := 77
  deserialize _ := none
  sha256 _ := 0
  insertError := .other

/-- A proposer that accepts what it is sent. -/
def sampleProposer : Proposer Unit where
  url := .ok "https://proposer/v1/transaction"
  answer _ _ := .response 200 ""

/-- The surroundings of a request for samples. -/
def sampleRequestEnv : RequestEnv Unit where
  id := "request"
  requestStored := true
  ephemeralPrivateKey := (47 : ℕ)
  salts _ := (23 : ℕ)
  defaultProof := ⟨0, []⟩
  prove _ publicInputs := some ((), publicInputs)
  getProposers := .ok [sampleProposer]

/-- A commitment of the client, of value 5. -/
def samplePreimage : Preimage := ⟨(5 : ℕ), (11 : ℕ), (11 : ℕ), ⟨(43 : ℕ), 0⟩, .transfer (17 : ℕ)⟩

/-- A client with one unspent commitment, which is the only leaf of its commitment tree. -/
def sampleClient : ClientState where
  commitments := Collection.empty.upsert
    (.new sampleConfig.poseidon samplePreimage
      (samplePreimage.nullifierHash sampleConfig.poseidon sampleConfig.nullifierKey) .unspent)
  commitmentTree := stateAfter (ε := Trees.MerkleTreeError) (onTree id (fun db _ => db) id (do
    Trees.newMutableTree 1 1
    Trees.appendSubTrees sampleConfig.treeHash [samplePreimage.hash sampleConfig.poseidon, 0] true))
    .empty
  expected := 1
  blocks := []

/-- A transfer of 3 with the given fee. -/
def sampleTransfer (fee : Fr254) : Request :=
  .transfer ⟨.ok (11 : ℕ), some (.ok (3 : ℕ)), .ok fee, some (.ok ⟨(37 : ℕ), (41 : ℕ)⟩)⟩

/-- A transfer without a fee succeeds. -/
example : ((handleRequest sampleConfig sampleRequestEnv (sampleTransfer 0)).run'
    sampleClient).isSome = true := by
  decide +kernel

/-- The commitment stays pending though there is none for the fee. -/
theorem not_handlesRight :
    ¬ HandlesRight sampleConfig sampleRequestEnv (sampleTransfer 4) sampleClient := by
  have hr : requested sampleConfig sampleRequestEnv (sampleTransfer 4) sampleClient =
      some ⟨11, 3, 4, ⟨37, 41⟩, .transfer 41, 47, 0⟩ := by decide +kernel
  have hspend : spendCommitments sampleConfig sampleClient.commitments
      ⟨11, 3, 4, ⟨37, 41⟩, .transfer 41, 47, 0⟩ = none := by decide +kernel
  intro h
  have hunspent := (handlesRight_of_none hr hspend).1 h
    (samplePreimage.hash sampleConfig.poseidon) (by decide +kernel) .unspent (by decide +kernel)
  cases hunspent

end Wallet

end Nightfall
