import Nightfall.Contract.Custody

/-!
# The deposits that a call records

An accepted call of `escrow_funds` records the keys of its `commitments`, one for the token and one
for the ether that is left over, and emits an event for each of them.

* `escrowed_spec` : what the steps of a run record, in every state that the contract can reach.
-/

namespace Nightfall

namespace Contract

open Evm

/-- The deposits of a call, to a contract with the given token id of the fees. -/
def EscrowCall.commitments (hs : Hashes) (feeId : U256) (call : EscrowCall) :
    List DepositCommitment :=
  call.valueCommitment hs ::
    if 2 * call.fee < call.msgValue then
      [⟨feeId, feeId, call.msgValue - 2 * call.fee, call.secretHash⟩]
    else []

/-- `DepositEscrowed`. -/
structure DepositEscrowed where
  nfSlotId : U256
  value : U256
  deriving DecidableEq, Repr

/-- The event of a deposit. -/
def DepositCommitment.event (d : DepositCommitment) : DepositEscrowed := ⟨d.nfSlotId, d.value⟩

/-- The events of a call, in order. -/
def EscrowCall.events (hs : Hashes) (feeId : U256) (call : EscrowCall) : List DepositEscrowed :=
  (call.commitments hs feeId).map DepositCommitment.event

section Steps

variable {D : Deployment} {hs : Hashes} {s s' : State} {call : EscrowCall} {keys : List U256}

/-- A call records the keys of its deposits, and doubles a fee that may be doubled. -/
theorem finishEscrow_commitments (h : finishEscrow hs call s = some (s', keys)) :
    2 * call.fee.toNat < 2 ^ 256 ∧
      keys = (call.commitments hs s.feeId).map (DepositCommitment.key hs.sha256) := by
  simp only [finishEscrow, Option.bind_eq_bind, Option.bind_eq_some_iff] at h
  obtain ⟨doubleFee, hdouble, h⟩ := h
  have hmul := checkedMul_toNat hdouble
  refine ⟨hmul ▸ doubleFee.isLt, ?_⟩
  obtain rfl := checkedMul_eq hdouble
  unfold EscrowCall.commitments
  split_ifs at h ⊢
  · simp only [Option.bind_eq_some_iff, Option.pure_def, Option.some.injEq, Prod.mk.injEq] at h
    obtain ⟨_, -, -, rfl⟩ := h
    rfl
  · cases h
    rfl

/-- What a call is credited for is recorded. -/
theorem finishEscrow_credits (T : Tokens) (h : finishEscrow hs call s = some (s', keys)) :
    keys = (call.credits hs T s).map fun credit => credit.commitment.key hs.sha256 := by
  have hcommitments : (call.credits hs T s).map Credit.commitment = call.commitments hs s.feeId := by
    rw [EscrowCall.credits, EscrowCall.commitments, List.map_cons]
    split_ifs with hfee
    · rfl
    · rfl
  rw [(finishEscrow_commitments h).2, ← hcommitments, List.map_map]
  rfl

/-- The token id of the fees stays. -/
theorem Step.feeId_eq {c c' : Config} {a : Action} (h : Step D c a c') :
    c'.state.feeId = c.state.feeId := by
  cases h with
  | escrowCalled hcall =>
    dsimp only
    rw [beginEscrow_eq hcall]
  | escrowed hcall =>
    dsimp only
    rw [finishEscrow_eq hcall]
  | accepted hcall => exact (proposeBlock_keepsIds hcall).2
  | proposed hcall =>
    dsimp only
    rw [finishProposal_eq hcall]
  | etherPaid hcall => exact (beginDescrow_keepsIds hcall).2
  | etherTaken => rfl
  | transferCalled hcall => exact (beginDescrow_keepsIds hcall).2
  | notTransferable hcall => exact (beginDescrow_keepsIds hcall).2
  | descrowed => exact finishDescrow_keepsIds.2

end Steps

/-! ### Runs -/

/-- A step that records deposits records those of its call. -/
structure Event.RecordsDeposits (D : Deployment) (e : Event) (call : EscrowCall)
    (keys : List U256) : Prop where
  doubles : 2 * call.fee.toNat < 2 ^ 256
  keys_eq : keys = (call.commitments D.hashes D.feeId).map (DepositCommitment.key D.hashes.sha256)
  stored : ∀ k ∈ keys, e.after.feeBinding k = ⟨call.fee, 1, 0⟩

variable {D : Deployment}

/-- **What a run records.** -/
theorem escrowed_spec {trace : List Event} {c : Config} (h : (contractSystem D).Run trace c) :
    ∀ e ∈ trace, ∀ call keys, e.action = .escrowed call keys → e.RecordsDeposits D call keys := by
  have hall : c.state.feeId = D.feeId ∧ ∀ e ∈ trace, ∀ call keys,
      e.action = .escrowed call keys → e.RecordsDeposits D call keys := by
    induction h with
    | init hinit =>
      obtain ⟨-, _, _, _, _, _, hstate⟩ := hinit
      exact ⟨by rw [hstate, initialized], List.forall_mem_nil _⟩
    | @step trace c c' e _ hstep ih =>
      obtain ⟨hfeeId, hpast⟩ := ih
      obtain ⟨cmd, hexec⟩ := hstep
      obtain ⟨hbefore, hafter, hst⟩ := exec_step hexec
      refine ⟨hst.feeId_eq.trans hfeeId, List.forall_mem_cons.2 ⟨fun call keys haction => ?_, hpast⟩⟩
      rw [haction] at hst
      cases hst with
      | escrowed hcall =>
        obtain ⟨hdoubles, hkeys⟩ := finishEscrow_commitments hcall
        dsimp only at hfeeId
        rw [hfeeId] at hkeys
        refine ⟨hdoubles, hkeys, fun k hk => ?_⟩
        rw [hafter, (finishEscrow_records hcall).2 k, if_pos hk]
  exact hall.2

/-- A call that is made right after the deployment, of a token contract that just returns. -/
theorem exists_run_escrowed {call : EscrowCall}
    (h : ((beginEscrow D.hashes call (initialized D 0 0 0 0 0)).bind
      (finishEscrow D.hashes call)).isSome) :
    ∃ (trace : List Event) (c : Config) (keys : List U256), (contractSystem D).Run trace c ∧
      ∃ e ∈ trace, e.action = .escrowed call keys := by
  obtain ⟨⟨s', keys⟩, hsome⟩ := Option.isSome_iff_exists.1 h
  obtain ⟨s, hbegin, hfinish⟩ := Option.bind_eq_some_iff.1 hsome
  have hstart : (contractSystem D).Run [] ⟨initialized D 0 0 0 0 0, []⟩ :=
    .init ⟨rfl, 0, 0, 0, 0, 0, rfl⟩
  have hcalled := hstart.step ⟨.escrowFunds call, Option.map_eq_some_iff.2 ⟨s, hbegin, rfl⟩⟩
  have hreturned : exec D ⟨s, [.escrowFunds call]⟩ (.resume true) =
      some (⟨s, .escrowed call keys, s'⟩, ⟨s', []⟩) := by
    have hanswer : ¬(call.tokenType = .ERC20 ∧ true = false) := fun hand => by cases hand.2
    rw [exec]
    dsimp only
    rw [if_neg hanswer]
    exact Option.map_eq_some_iff.2 ⟨_, hfinish, rfl⟩
  exact ⟨_, _, keys, hcalled.step ⟨_, hreturned⟩, _, List.mem_cons_self, rfl⟩

end Contract

end Nightfall
