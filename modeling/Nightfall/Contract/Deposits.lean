import Nightfall.Contract.Calls

/-!
# Runs of deposits

A run of the contract breaks the accounting of deposits in two kinds of steps: by a block with a
deposit word behind a zero first word, which `propose_block` takes for padding, and by an
`escrow_funds` that returns from the token contract to a deposit that was recorded and redeemed
meanwhile, and records it as new.  `Event.Regular` excludes both, and `depositsBacked_of_regular`
is the result for runs of regular steps.
-/

namespace Nightfall

namespace Contract

open Evm

/-- The keys of the deposits that an action records. -/
def Action.keys : Action → List U256
  | .escrowed _ keys => keys
  | _ => []

/-- The deposit words of the block that an action accepts. -/
def Action.words : Action → List U256
  | .accepted blk => depositWords blk.transactions
  | _ => []

/-- The keys of the deposits that a run recorded. -/
def escrowedKeys (trace : List Event) : List U256 := trace.flatMap fun e => e.action.keys

/-- The deposit words of the blocks that a run accepted. -/
def redeemedWords (trace : List Event) : List U256 := trace.flatMap fun e => e.action.words

/-- The words of a padding deposit are all zero, and `escrow_funds` does not record a deposit that
is already redeemed. -/
def Event.Regular (hs : Hashes) (e : Event) : Prop :=
  match e.action with
  | .accepted blk => PaddingFirst blk.transactions
  | .escrowed call _ => (e.before.feeBinding (call.key hs)).redeemed = 0
  | _ => True

instance {txs : List OnChainTransaction} : Decidable (PaddingFirst txs) :=
  inferInstanceAs (Decidable (∀ txn ∈ txs, _))

instance {hs : Hashes} : DecidablePred (Event.Regular hs) := fun e =>
  match e with
  | ⟨_, .accepted blk, _⟩ => inferInstanceAs (Decidable (PaddingFirst blk.transactions))
  | ⟨_, .escrowed _ _, _⟩ => inferInstanceAs (Decidable (_ = _))
  | ⟨_, .escrowCalled _, _⟩ | ⟨_, .proposed, _⟩ | ⟨_, .etherPaid _, _⟩ | ⟨_, .etherTaken, _⟩
  | ⟨_, .transferCalled _, _⟩ | ⟨_, .notTransferable _, _⟩ | ⟨_, .descrowed _ _ _, _⟩ => isTrue trivial

/-- Deposits are backed and redeemed once. -/
structure DepositsBacked (trace : List Event) : Prop where
  /-- Every deposit word of an accepted block is escrowed and not redeemed before, and redeemed
  after. -/
  backed : ∀ s s' blk, ⟨s, .accepted blk, s'⟩ ∈ trace → BlockBacked s s' blk.transactions
  /-- An earlier `escrow_funds` recorded it. -/
  escrowed : ∀ e past, e :: past <:+ trace → e.action.words ⊆ escrowedKeys past
  /-- No word occurs twice, within a block or across blocks. -/
  nodup : (redeemedWords trace).Nodup

/-! ### Steps -/

/-- What the storage knows of a run. -/
structure Tracks (trace : List Event) (s : State) : Prop where
  escrowed : ∀ k, (s.feeBinding k).escrowed = 1 → k ∈ escrowedKeys trace
  redeemed : ∀ k ∈ redeemedWords trace,
    (s.feeBinding k).escrowed = 1 ∧ (s.feeBinding k).redeemed = 1

section Steps

variable {D : Deployment} {hs : Hashes} {s s' : State}

/-- `escrow_funds` records the key of the token, whatever its flags, and free keys. -/
theorem finishEscrow_records {call : EscrowCall} {keys : List U256}
    (h : finishEscrow hs call s = some (s', keys)) :
    (∀ k ∈ keys, k = call.key hs ∨ (s.feeBinding k).escrowed = 0) ∧
      ∀ k, s'.feeBinding k = if k ∈ keys then ⟨call.fee, 1, 0⟩ else s.feeBinding k := by
  simp only [finishEscrow, Option.bind_eq_bind, Option.bind_eq_some_iff] at h
  obtain ⟨doubleFee, -, h⟩ := h
  split_ifs at h with hfee
  · simp only [Option.bind_eq_some_iff, Option.pure_def, Option.some.injEq, Prod.mk.injEq] at h
    obtain ⟨_, hfree, rfl, rfl⟩ := h
    rw [Option.guard_eq_some', recordDeposit_feeBinding] at hfree
    split_ifs at hfree with hkey
    · -- a fee deposit with the key of the token is refused
      exact absurd (show (1 : BitVec 8) = 0 from hfree) (by decide)
    · refine ⟨by simp [hfree], fun k => ?_⟩
      simp only [recordDeposit_feeBinding, List.mem_cons, List.not_mem_nil, or_false]
      by_cases hk : k = call.key hs
      · subst hk
        simp
      · simp [hk]
  · cases h
    exact ⟨by simp, fun k => by simp⟩

theorem DepositsBacked.cons {trace : List Event} {e : Event} (h : DepositsBacked trace)
    (hbacked : ∀ blk, e.action = .accepted blk → BlockBacked e.before e.after blk.transactions)
    (hescrowed : e.action.words ⊆ escrowedKeys trace) (hnodup : e.action.words.Nodup)
    (hfresh : ∀ k ∈ e.action.words, k ∉ redeemedWords trace) : DepositsBacked (e :: trace) := by
  refine ⟨fun s s' blk hmem => ?_, fun e' past hsuffix => ?_, ?_⟩
  · rcases List.mem_cons.1 hmem with rfl | hmem
    · exact hbacked blk rfl
    · exact h.backed s s' blk hmem
  · rcases List.suffix_cons_iff.1 hsuffix with heq | hsuffix
    · cases heq
      exact hescrowed
    · exact h.escrowed e' past hsuffix
  · exact List.nodup_append'.2 ⟨hnodup, h.nodup, hfresh⟩

theorem Tracks.idle {trace : List Event} {e : Event} (h : Tracks trace s)
    (hkeys : e.action.keys = []) (hwords : e.action.words = [])
    (hs' : s'.feeBinding = s.feeBinding) : Tracks (e :: trace) s' := by
  refine ⟨fun k hk => ?_, fun k hk => ?_⟩
  · rw [hs'] at hk
    rw [escrowedKeys, List.flatMap_cons, hkeys]
    exact h.escrowed k hk
  · rw [redeemedWords, List.flatMap_cons, hwords] at hk
    rw [hs']
    exact h.redeemed k hk

theorem Action.words_eq_nil {a : Action} (h : ∀ blk, a ≠ .accepted blk) : a.words = [] := by
  cases a with
  | accepted blk => exact absurd rfl (h blk)
  | _ => rfl

theorem DepositsBacked.idle {trace : List Event} {e : Event} (h : DepositsBacked trace)
    (he : ∀ blk, e.action ≠ .accepted blk) : DepositsBacked (e :: trace) := by
  refine h.cons (fun blk heq => absurd heq (he blk)) ?_ ?_ ?_ <;> simp [Action.words_eq_nil he]

/-- `escrow_funds` forgets no redeemed deposit, unless it is the one it records. -/
theorem Tracks.finishEscrow {trace : List Event} {call : EscrowCall} {keys : List U256}
    (h : Tracks trace s) (hreg : (s.feeBinding (call.key hs)).redeemed = 0)
    (hcall : finishEscrow hs call s = some (s', keys)) :
    Tracks (⟨s, .escrowed call keys, s'⟩ :: trace) s' := by
  obtain ⟨hfree, hbinding⟩ := finishEscrow_records hcall
  refine ⟨fun k hk => ?_, fun k hk => ?_⟩
  · rw [hbinding] at hk
    split_ifs at hk with hmem
    · exact List.mem_append_left _ hmem
    · exact List.mem_append_right _ (h.escrowed k hk)
  · obtain ⟨hesc, hred⟩ := h.redeemed k hk
    have hnot : k ∉ keys := by
      intro hmem
      rcases hfree k hmem with rfl | hzero
      · exact absurd (hreg.symm.trans hred) (by decide)
      · exact absurd (hzero.symm.trans hesc) (by decide)
    rw [hbinding, if_neg hnot]
    exact ⟨hesc, hred⟩

/-- A block that redeems all its words. -/
theorem Tracks.proposeBlock {trace : List Event} {blk : Block} (h : Tracks trace s)
    (hred : Redeems (depositWords blk.transactions) s s') :
    Tracks (⟨s, .accepted blk, s'⟩ :: trace) s' := by
  refine ⟨fun k hk => ?_, fun k hk => ?_⟩
  · rw [hred.feeBinding_eq] at hk
    refine h.escrowed k ?_
    split_ifs at hk <;> exact hk
  · rw [hred.feeBinding_eq]
    rcases List.mem_append.1 hk with hk | hk
    · replace hk : k ∈ depositWords blk.transactions := hk
      rw [if_pos hk]
      exact ⟨hred.escrowed k hk, rfl⟩
    · split_ifs
      · exact ⟨(h.redeemed k hk).1, rfl⟩
      · exact h.redeemed k hk

theorem DepositsBacked.proposeBlock {trace : List Event} {blk : Block} (h : DepositsBacked trace)
    (htracks : Tracks trace s) (hblock : BlockBacked s s' blk.transactions) :
    DepositsBacked (⟨s, .accepted blk, s'⟩ :: trace) := by
  refine h.cons ?_ (fun k hk => htracks.escrowed k (hblock.escrowed k hk)) hblock.nodup ?_
  · rintro _ ⟨⟩
    exact hblock
  · -- a word of an earlier block is redeemed
    intro k hk hmem
    exact absurd ((hblock.fresh k hk).symm.trans (htracks.redeemed k hmem).2) (by decide)

/-- Only two actions touch the deposits. -/
theorem Step.deposit_cases {c c' : Config} {a : Action} (h : Step D c a c') :
    (a.keys = [] ∧ (∀ blk, a ≠ .accepted blk) ∧ c'.state.feeBinding = c.state.feeBinding) ∨
      (∃ call keys, a = .escrowed call keys ∧
        finishEscrow D.hashes call c.state = some (c'.state, keys)) ∨
      ∃ ctx blk, a = .accepted blk ∧
        proposeBlock D.hashes D.verifier ctx c.state blk = some c'.state := by
  cases h with
  | escrowed hcall => exact .inr (.inl ⟨_, _, rfl, hcall⟩)
  | accepted hcall => exact .inr (.inr ⟨_, _, rfl, hcall⟩)
  | escrowCalled hcall => exact .inl ⟨rfl, nofun, beginEscrow_feeBinding hcall⟩
  | proposed hcall => exact .inl ⟨rfl, nofun, finishProposal_feeBinding hcall⟩
  | etherTaken => exact .inl ⟨rfl, nofun, rfl⟩
  | descrowed => exact .inl ⟨rfl, nofun, finishDescrow_feeBinding⟩
  | etherPaid hcall | transferCalled hcall | notTransferable hcall =>
    exact .inl ⟨rfl, nofun, beginDescrow_feeBinding hcall⟩

/-- A regular step keeps the bookkeeping and the property of runs. -/
theorem Step.keepsDeposits {trace : List Event} {c c' : Config} {a : Action}
    (hreg : (Event.mk c.state a c'.state).Regular D.hashes)
    (h : Tracks trace c.state ∧ DepositsBacked trace) (hst : Step D c a c') :
    Tracks (⟨c.state, a, c'.state⟩ :: trace) c'.state ∧
      DepositsBacked (⟨c.state, a, c'.state⟩ :: trace) := by
  obtain ⟨htracks, hbacked⟩ := h
  obtain ⟨hkeys, hidle, hsame⟩ | ⟨call, keys, rfl, hcall⟩ | ⟨ctx, blk, rfl, hcall⟩ :=
    hst.deposit_cases
  · exact ⟨htracks.idle hkeys (Action.words_eq_nil hidle) hsame, hbacked.idle hidle⟩
  · exact ⟨htracks.finishEscrow hreg hcall, hbacked.idle nofun⟩
  · have hred := proposeBlock_redeems hcall
    have hblock := hred.blockBacked hreg
    rw [processedWords_eq_of_paddingFirst hreg] at hred
    exact ⟨htracks.proposeBlock hred, hbacked.proposeBlock htracks hblock⟩

/-- **In a run of regular steps every deposit is backed and redeemed once.** -/
theorem depositsBacked_of_regular {trace : List Event} {c : Config}
    (h : (contractSystem D).Run trace c) (hreg : ∀ e ∈ trace, e.Regular D.hashes) :
    DepositsBacked trace := by
  refine (h.invariant (I := fun trace c => Tracks trace c.state ∧ DepositsBacked trace) hreg
    (fun c hinit => ?_) fun trace c e c' hP hI ⟨_, hexec⟩ => ?_).2
  · obtain ⟨-, _, _, _, _, _, hstate⟩ := hinit
    refine ⟨⟨fun k hk => ?_, nofun⟩, ⟨nofun, fun e past hsuffix => ?_, .nil⟩⟩
    · rw [hstate] at hk
      exact absurd (show (0 : BitVec 8) = 1 from hk) (by decide)
    · exact absurd (List.suffix_nil.1 hsuffix) (List.cons_ne_nil _ _)
  · obtain ⟨before, action, after⟩ := e
    obtain ⟨rfl, rfl, hst⟩ := exec_step hexec
    exact hst.keepsDeposits hP hI

end Steps

/-! ### Runs on concrete blocks -/

/-- The public word of an entry of a deposit proof: zero for padding, else its key. -/
def DepositCommitment.word (sha256 : Bytes → U256) (d : DepositCommitment) : U256 :=
  if d.value = 0 ∧ d.nfTokenId = 0 then 0 else d.key sha256

/-- The sum of the bytes, which stands in for a hash. -/
def byteSum (bs : Bytes) : U256 := BitVec.ofNat 256 (16 * (bs.map BitVec.toNat).sum)

/-- A deployment for samples. -/
def sampleDeployment : Deployment := ⟨⟨byteSum, byteSum⟩, fun _ _ _ => some true, 8⟩

/-- A contract at its start. -/
def sampleState : State := initialized sampleDeployment 0 0 0 0 0

/-- A deposit of 3 of a token. -/
def sampleDeposit : DepositCommitment := ⟨5, 5, 3, 7⟩

/-- The call that escrows it. -/
def sampleCall : EscrowCall where
  fee := 0
  ercAddress := 5
  tokenId := 0
  value := 3
  secretHash := 7
  tokenType := .ERC20
  msgValue := 0
  certified := true
  slotOf := 0

/-- The current proposer, who accepts payments. -/
def sampleContext : ProposeContext := ⟨9, true, 9, true⟩

/-- A block of 63 padding transactions and a deposit with the given words. -/
def depositBlock (publicData : Fin 4 → U256) : Block where
  commitmentsRoot := 0
  nullifierRoot := 0
  commitmentsRootRoot := 0
  transactions := exchanged 64 emptyTransaction ⟨0, 0, 0, publicData⟩
  rollupProof := List.replicate 288 0

/-- Calls on the contract at its start. -/
def sampleRun (cmds : List Command) : Option (List Event × Config) :=
  TransitionSystem.execAll (exec sampleDeployment) ⟨sampleState, []⟩ cmds

theorem run_sampleRun {cmds : List Command} (h : (sampleRun cmds).isSome) :
    (contractSystem sampleDeployment).Run ((sampleRun cmds).get h).1 ((sampleRun cmds).get h).2 :=
  TransitionSystem.run_execAll ⟨rfl, 0, 0, 0, 0, 0, rfl⟩ (Option.some_get h).symm

/-- The calls of a deposit and of a block that redeems it. -/
def sampleCommands : List Command :=
  [.escrowFunds sampleCall, .resume true,
    .proposeBlock sampleContext (depositBlock ![20, 0, 0, 0]), .resume true]

theorem sampleCommands_isSome : (sampleRun sampleCommands).isSome := by decide +kernel

theorem depositsBacked_of_regular_sample :
    redeemedWords ((sampleRun sampleCommands).get sampleCommands_isSome).1 = [20] ∧
      DepositsBacked ((sampleRun sampleCommands).get sampleCommands_isSome).1 :=
  ⟨by decide +kernel,
    depositsBacked_of_regular (run_sampleRun sampleCommands_isSome) (by decide +kernel)⟩

/-- A block whose deposit has padding as its first entry is accepted although nothing was
escrowed. -/
theorem unbacked_deposit : ∃ (D : Deployment) (trace : List Event) (c : Config),
    (contractSystem D).Run trace c ∧
    (∀ s s' blk, ⟨s, .accepted blk, s'⟩ ∈ trace → ∀ txn ∈ blk.transactions, ∃ entries : Fin 4 →
      DepositCommitment, ∀ j, txn.publicData j = (entries j).word D.hashes.sha256) ∧
    redeemedWords trace = [sampleDeposit.key D.hashes.sha256] ∧ escrowedKeys trace = [] ∧
    ¬DepositsBacked trace := by
  obtain ⟨s', hs'⟩ := Option.isSome_iff_exists.1 (show (proposeBlock sampleDeployment.hashes
    sampleDeployment.verifier sampleContext sampleState (depositBlock ![0, 20, 0, 0])).isSome by
      decide +kernel)
  have hexec : exec sampleDeployment ⟨sampleState, []⟩
      (.proposeBlock sampleContext (depositBlock ![0, 20, 0, 0])) =
      some (⟨sampleState, .accepted (depositBlock ![0, 20, 0, 0]), s'⟩, ⟨s', [.proposeBlock]⟩) := by
    rw [exec, hs', Option.map_some]
    rfl
  have hwords : depositWords (depositBlock ![0, 20, 0, 0]).transactions =
      [sampleDeposit.key byteSum] := by decide +kernel
  refine ⟨_, _, _, .step (.init ⟨rfl, 0, 0, 0, 0, 0, rfl⟩) ⟨_, hexec⟩, ?_,
    (List.append_nil _).trans hwords, rfl, fun h => ?_⟩
  · intro s s' blk hmem txn htxn
    obtain ⟨-, ⟨⟩, -⟩ := Event.mk.inj (List.mem_singleton.1 hmem)
    rcases List.mem_append.1 htxn with htxn | htxn
    · refine ⟨fun _ => ⟨0, 0, 0, 0⟩, ?_⟩
      rw [List.eq_of_mem_replicate htxn]
      decide +kernel
    · refine ⟨![⟨0, 0, 0, 0⟩, sampleDeposit, ⟨0, 0, 0, 0⟩, ⟨0, 0, 0, 0⟩], ?_⟩
      rw [List.mem_singleton.1 htxn]
      decide +kernel
  · have hmem : sampleDeposit.key byteSum ∈ depositWords (depositBlock ![0, 20, 0, 0]).transactions :=
      hwords ▸ List.mem_singleton_self _
    exact absurd (h.escrowed _ _ List.suffix_rfl hmem) List.not_mem_nil

/-- A token contract that calls back escrows a deposit, has it redeemed and then recorded anew. -/
def reentrantCommands : List Command :=
  [.escrowFunds sampleCall, .escrowFunds sampleCall, .resume true,
    .proposeBlock sampleContext (depositBlock ![20, 0, 0, 0]), .resume true, .resume true,
    .proposeBlock sampleContext (depositBlock ![20, 0, 0, 0]), .resume true]

theorem redeemed_twice : ∃ h : (sampleRun reentrantCommands).isSome,
    redeemedWords ((sampleRun reentrantCommands).get h).1 = [20, 20] :=
  ⟨by decide +kernel, by decide +kernel⟩

end Contract

end Nightfall
