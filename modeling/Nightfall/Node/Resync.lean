import Nightfall.Node.StoredBlocks
import Nightfall.Trees.Witnesses

/-!
# Resynchronisation

When the proposer misses a block, or an event shows another block than the stored one, the listener
resets the trees and listens to all events again.  A proposer that starts puts zero into the tree of
historic roots before the first block; the reset leaves that tree empty, and it keeps the number of
the expected block, so that the blocks before it are skipped.

An event that is handled moves the number of the expected block and the number of historic roots on
together (`lag_handleEvents`).  The difference is -1 for a proposer that was started on the chain and
never negative after a reset, so that the two never agree again (`not_resynchronises`).
-/

namespace Nightfall

namespace Node

open Evm Trees Stateful

/-! ### Replaying a history -/

/-- An event of the chain and the transaction that emitted it. -/
structure ChainEvent where
  event : Event
  transaction : Transaction

/-- The events of a history are delivered in order, each with its transaction. -/
def Delivers (history : List ChainEvent) (delivered : List (ProposerEnv × Event)) : Prop :=
  List.Forall₂ (fun chain seen => seen.2 = chain.event ∧
    seen.1.transaction = .found chain.transaction ∧ seen.1.sender = .found chain.transaction)
    history delivered

section Replay

variable {P : Type} (cfg : ProposerConfig P)

/-- The listener, as long as no event fails. -/
def handleEvents (delivered : List (ProposerEnv × Event)) : ProposerM P Unit :=
  delivered.forM fun seen => proposerHandleEvent cfg seen.1 seen.2

/-- Two proposers have the same trees, as far as the metadata say, and expect the same block. -/
structure AgreesWith (s s' : ProposerState P) : Prop where
  commitments : s.commitments.metadata = s'.commitments.metadata
  nullifiers : s.nullifiers.metadata = s'.nullifiers.metadata
  historicRoots : s.historicRoots.metadata = s'.historicRoots.metadata
  expected : s.expected = s'.expected

/-- The listener restarts and handles all events of the history; the proposer then agrees with one
that was just started and handled them. -/
def Resynchronises (history : List ChainEvent) (s : ProposerState P) : Prop :=
  ∃ s₁ delivered s₂, (restartEventListener cfg).run s = .ok () s₁ ∧ Delivers history delivered ∧
    (handleEvents cfg delivered).run s₁ = .ok () s₂ ∧
    ∃ f delivered' f', f.Fresh cfg ∧ Delivers history delivered' ∧
      (handleEvents cfg delivered').run f = .ok () f' ∧ AgreesWith s₂ f'

end Replay

/-! ### The expected block and the historic roots -/

section Lag

variable {P : Type} {cfg : ProposerConfig P} {env : ProposerEnv} {s s' : ProposerState P} {d : ℤ}

/-- The number of the expected block, and the shape of the tree of historic roots. -/
def ProposerState.progress (s : ProposerState P) : ℤ × Option (ℕ × ℕ × ℕ) :=
  (s.expected, shape s.historicRoots)

/-- The number of the expected block is `d` more than the number of historic roots. -/
def Lag (d : ℤ) (progress : ℤ × Option (ℕ × ℕ × ℕ)) : Prop :=
  ∃ roots : ℕ, progress = (roots + d, some (32, 0, roots))

/-- Every lag is kept. -/
def KeepsLag (a b : ℤ × Option (ℕ × ℕ × ℕ)) : Prop := ∀ d, Lag d a → Lag d b

theorem Lag.unique {d d' : ℤ} {a : ℤ × Option (ℕ × ℕ × ℕ)} (h : Lag d a) (h' : Lag d' a) :
    d = d' := by
  obtain ⟨roots, hroots⟩ := h
  obtain ⟨roots', hroots'⟩ := h'
  rw [hroots, Prod.mk.injEq, Option.some_inj, Prod.mk.injEq, Prod.mk.injEq] at hroots'
  obtain ⟨hexpected, -, -, rfl⟩ := hroots'
  exact Int.add_left_cancel hexpected

/-- One more historic root. -/
def AddsRoot (a b : ℤ × Option (ℕ × ℕ × ℕ)) : Prop :=
  ∀ roots, a.2 = some (32, 0, roots) → b = (a.1, some (32, 0, roots + 1))

theorem changes_onHistoricRoots (toError : MerkleTreeError → EventHandlerError) (fault : Fault)
    (root : Fr254) : Changes (ProposerState.progress (P := P)) AddsRoot
      (onHistoricRoots toError (withFault fault (appendSubTrees cfg.treeHash [root] true))) := by
  intro s r s' h roots hroots
  obtain ⟨db, hrun, rfl⟩ := run_onTree_eq_ok.1 h
  cases fault with
  | some f => cases hrun
  | none =>
    obtain ⟨-, -, hshape⟩ :=
      hasShape_appendSubTrees (List.cons_ne_nil _ _) hrun (hasShape_iff.2 hroots)
    rw [pow_zero, Nat.div_one, hasShape_iff] at hshape
    exact Prod.ext rfl hshape

theorem keeps_onCommitments {α : Type} (toError : MerkleTreeError → EventHandlerError)
    (x : TreeM Fr254 α) : Keeps (ProposerState.progress (P := P)) (onCommitments toError x) := by
  refine (preserves_onTree ?_).keeps
  intro db s
  rfl

/-- **A block that is applied is the expected one, and adds one historic root.** -/
theorem changes_applyBlock (blk : Contract.Block) (number : ℤ) (sender : Contract.Address)
    (pending : StoredBlock) : Changes (ProposerState.progress (P := P)) KeepsLag
      (applyBlock cfg env blk number sender pending) := by
  have hcount : Changes (ProposerState.progress (P := P)) (fun a b => b = (a.1 + 1, a.2))
      (modify fun s => { s with expected := s.expected + 1 } : ProposerM P Unit) := by
    rintro s _ _ ⟨⟩
    rfl
  refine (hcount.bind (R := AddsRoot) fun _ => ?_).imp ?_
  · refine .after (preserves_okOr _ _).keeps fun current => ?_
    refine .after (.ite (.modify fun s => rfl) (.pure _)) fun _ => ?_
    refine .after (keeps_onCommitments _ _) fun root => ?_
    refine .after .get fun s => ?_
    have hinsert : Preserves ProposerState.progress (insertBlock cfg env blk) :=
      preserves_insertBlock (fun _ _ => rfl) fun _ _ => rfl
    refine .after (.ite hinsert.keeps (.pure _)) fun _ => ?_
    refine .after (preserves_okOr _ _).keeps fun historicRoot => ?_
    refine .before (changes_onHistoricRoots _ _ _) fun _ => ?_
    refine .bind (keeps_onCommitments _ _) fun _ => ?_
    exact .bind (.modify fun s => rfl) fun _ => .modify fun s => rfl
  · rintro a b ⟨c, rfl, hroot⟩ d ⟨roots, rfl⟩
    refine ⟨roots + 1, (hroot roots rfl).trans ?_⟩
    rw [Prod.mk.injEq]
    refine ⟨?_, rfl⟩
    push_cast
    exact Int.add_right_comm _ _ _

theorem keepsLag_refl (a : ℤ × Option (ℕ × ℕ × ℕ)) : KeepsLag a a := fun _ h => h

theorem keeps_checkStored (expected number : ℕ) (pending : StoredBlock) :
    Keeps ProposerState.progress (checkStored (P := P) cfg expected number pending) := by
  refine .bind .get fun s => ?_
  cases s.blocks.getBlockByNumber expected with
  | none => exact .pure _
  | some stored =>
    dsimp only
    split_ifs
    · intro t a t' h
      obtain ⟨_, _, -, hthrow⟩ := run_bind_eq_ok.1 h
      exact absurd hthrow run_throw_ne_ok
    · exact .pure _

theorem keeps_senderAddress (sender : Lookup) :
    Keeps ProposerState.progress (senderAddress sender : ProposerM P _) := by
  cases sender with
  | failed message => exact .throw _
  | notFound => exact .throw _
  | found tx => exact .pure _

/-- The event of a block is skipped, or its block is applied. -/
theorem changes_processProposeBlockEvent (blk : Contract.Block) (number : ℤ) :
    Changes ProposerState.progress KeepsLag
      (processProposeBlockEvent (P := P) cfg env blk number) := by
  refine .after (keeps_senderAddress _) fun sender => ?_
  refine .after (preserves_expect _ _).keeps fun number => ?_
  refine .after (preserves_orPanic _).keeps fun pending => ?_
  refine .after .get fun s => ?_
  refine .ite (fun _ => ?_) fun _ => .ite (fun _ => .of_keeps (.pure _) keepsLag_refl) fun _ => ?_
  · refine .after (.modify fun s => rfl) fun _ => ?_
    exact .after (preserves_expect _ _).keeps fun _ => .throw _
  · refine .after (preserves_expect _ _).keeps fun expected => ?_
    exact .after (keeps_checkStored _ _ _) fun _ => changes_applyBlock _ _ _ _

theorem keeps_getTransaction (transaction : Lookup) :
    Keeps ProposerState.progress (getTransaction transaction : ProposerM P _) := by
  cases transaction with
  | failed message => exact .throw _
  | notFound => exact .throw _
  | found tx => exact .pure _

theorem keeps_processDepositTransaction (deposit : DepositDatawithFee) :
    Keeps ProposerState.progress (processDepositTransaction (P := P) cfg deposit) := by
  intro s a s' h
  obtain ⟨t, _, ⟨⟩, h⟩ := run_bind_eq_ok.1 h
  split_ifs at h
  · exact absurd h run_throw_ne_ok
  · cases h
    rfl

/-- A deposit doesn't concern the trees. -/
theorem keeps_processDepositEscrowedEvent (nfSlotId value : U256) :
    Keeps ProposerState.progress (processDepositEscrowedEvent (P := P) cfg env nfSlotId value) := by
  refine .bind (keeps_getTransaction _) fun tx => ?_
  cases tx.input with
  | proposeBlock blk => exact .pure _
  | undecodable message => exact .throw _
  | other => exact .pure _
  | escrowFunds fee ercAddress tokenId secretHash =>
    refine .bind (preserves_okOr _ _).keeps fun fee => ?_
    refine .bind (preserves_okOr _ _).keeps fun secretHash => ?_
    refine .bind (preserves_okOr _ _).keeps fun nfSlotId => ?_
    refine .bind (preserves_okOr _ _).keeps fun value => ?_
    exact keeps_processDepositTransaction _

theorem changes_proposerHandleEvent (event : Event) :
    Changes ProposerState.progress KeepsLag (proposerHandleEvent (P := P) cfg env event) := by
  cases event with
  | administrative => exact .of_keeps (.pure _) keepsLag_refl
  | depositEscrowed nfSlotId value =>
    refine .of_keeps (fun s a s' h => ?_) keepsLag_refl
    refine @keeps_processDepositEscrowedEvent _ cfg env nfSlotId value s a s' ?_
    rw [EStateM.run, proposerHandleEvent, mapErr] at h
    cases hrun : (processDepositEscrowedEvent cfg env nfSlotId value).run s with
    | ok b t =>
      rw [hrun] at h
      exact h
    | error f t =>
      rw [hrun] at h
      cases f with
      | err e => cases h
      | panic m => cases h
  | blockProposed number =>
    refine .after (keeps_getTransaction _) fun tx => ?_
    cases tx.input with
    | proposeBlock blk => exact changes_processProposeBlockEvent blk number
    | undecodable message => exact .throw _
    | other => exact .of_keeps (.pure _) keepsLag_refl
    | escrowFunds fee ercAddress tokenId secretHash => exact .of_keeps (.pure _) keepsLag_refl

/-- **The lag stays the same** while events are handled. -/
theorem lag_handleEvents {delivered : List (ProposerEnv × Event)}
    (h : (handleEvents cfg delivered).run s = .ok () s') (hlag : Lag d s.progress) :
    Lag d s'.progress := by
  induction delivered generalizing s with
  | nil =>
    cases h
    exact hlag
  | cons seen delivered ih =>
    obtain ⟨_, t, hevent, hrest⟩ := run_bind_eq_ok.1 h
    exact ih hrest (changes_proposerHandleEvent _ _ _ _ hevent d hlag)

/-- A proposer that was started has zero as its only historic root and expects the first block. -/
theorem lag_of_fresh (h : s.Fresh cfg) : Lag (-1) s.progress := by
  obtain ⟨_, s₁, hcommitments, h⟩ := run_bind_eq_ok.1 h
  obtain ⟨_, s₂, hroots, h⟩ := run_bind_eq_ok.1 h
  obtain ⟨_, s₃, hnullifiers, h⟩ := run_bind_eq_ok.1 h
  obtain ⟨_, s₄, hzero, h⟩ := run_bind_eq_ok.1 h
  cases h
  obtain ⟨db₁, -, rfl⟩ := run_onTree_eq_ok.1 hcommitments
  obtain ⟨db₂, hempty, rfl⟩ := run_onTree_eq_ok.1 hroots
  obtain ⟨db₃, -, rfl⟩ := run_onTree_eq_ok.1 hnullifiers
  obtain ⟨db₄, hleaf, rfl⟩ := run_onTree_eq_ok.1 hzero
  rw [Trees.run_expect_eq_ok] at hempty hleaf
  cases hempty
  obtain ⟨-, -, hshape⟩ := hasShape_appendSubTrees (List.cons_ne_nil _ _) hleaf ⟨0, rfl⟩
  rw [pow_zero, Nat.div_one, hasShape_iff] at hshape
  exact ⟨1, Prod.ext (Int.add_right_neg 1).symm hshape⟩

theorem run_ignoreErr_eq_ok {ε σ : Type} {get : σ → TreeDb Fr254} {put : TreeDb Fr254 → σ → σ}
    {x : TreeM Fr254 Unit} {s s' : σ} (h : (ignoreErr (ε := ε) get put x).run s = .ok () s') :
    ∃ db, s' = put db s := by
  rw [EStateM.run, ignoreErr] at h
  cases hx : x.run (get s) with
  | ok b db =>
    rw [hx] at h
    cases h
    exact ⟨db, rfl⟩
  | error e db =>
    rw [hx] at h
    cases e with
    | err e =>
      cases h
      exact ⟨db, rfl⟩
    | panic m => cases h

/-- After a restart there are no historic roots, and the same block is expected. -/
theorem lag_of_restart (h : (restartEventListener cfg).run s = .ok () s') :
    Lag s.expected s'.progress := by
  rw [restartEventListener, EStateM.run_bind, EStateM.run_get] at h
  dsimp only at h
  split_ifs at h
  · exact absurd h run_throw_ne_ok
  · obtain ⟨_, s₁, hcommitments, h⟩ := run_bind_eq_ok.1 h
    obtain ⟨_, s₂, hroots, h⟩ := run_bind_eq_ok.1 h
    obtain ⟨_, s₃, hnullifiers, h⟩ := run_bind_eq_ok.1 h
    obtain ⟨db₁, rfl⟩ := run_ignoreErr_eq_ok hcommitments
    obtain ⟨db₃, rfl⟩ := run_ignoreErr_eq_ok hnullifiers
    cases hroots
    cases h
    exact ⟨0, Prod.ext (Int.zero_add _).symm rfl⟩

/-- A proposer that expects a block doesn't get back to where a new one is. -/
theorem not_resynchronises_of_nonneg (hexpected : 0 ≤ s.expected) (history : List ChainEvent) :
    ¬ Resynchronises cfg history s := by
  rintro ⟨s₁, delivered, s₂, hrestart, -, hreplay, f, delivered', f', hfresh, -, hrun, hagree⟩
  have hlag : Lag s.expected s₂.progress := lag_handleEvents hreplay (lag_of_restart hrestart)
  have hlag' : Lag (-1) f'.progress := lag_handleEvents hrun (lag_of_fresh hfresh)
  have hsame : s₂.progress = f'.progress := by
    refine Prod.ext hagree.expected ?_
    change shape s₂.historicRoots = shape f'.historicRoots
    rw [shape, shape, hagree.historicRoots]
  rw [hsame] at hlag
  have hnegative : s.expected = -1 := hlag.unique hlag'
  omega

end Lag

/-! ### The events that make the listener restart -/

section Restart

variable {P : Type} {cfg : ProposerConfig P} {env : ProposerEnv} {s s' : ProposerState P}

/-- A failed comparison leaves the expected block. -/
theorem preserves_checkStored (expected number : ℕ) (pending : StoredBlock) :
    Preserves ProposerState.expected (checkStored (P := P) cfg expected number pending) where
  keeps s a s' h := congrArg Prod.fst (keeps_checkStored expected number pending s a s' h)
  of_error s f s' h := by
    obtain ⟨t, t', ⟨⟩, h⟩ := (run_bind_eq_error.1 h).resolve_left (fun h => by cases h)
    cases hget : s.blocks.getBlockByNumber expected with
    | none =>
      rw [hget] at h
      exact absurd h run_pure_ne_error
    | some stored =>
      rw [hget] at h
      dsimp only at h
      split_ifs at h
      · cases h
        rfl
      · exact absurd h run_pure_ne_error

/-- A block that is applied is no longer expected, also if it fails. -/
theorem expected_of_applyBlock {blk : Contract.Block} {number : ℤ} {sender : Contract.Address}
    {pending : StoredBlock} {f : Failure EventHandlerError}
    (h : (applyBlock cfg env blk number sender pending).run s = .error f s') :
    s'.expected = s.expected + 1 := by
  obtain ⟨_, t, ⟨⟩, h⟩ := (run_bind_eq_error.1 h).resolve_left (fun h => by cases h)
  refine (Preserves.of_error (p := ProposerState.expected) ?_ _ _ _ h).trans rfl
  refine .bind (preserves_okOr _ _) fun current => ?_
  refine .bind (.ite (.modify fun s => rfl) (.pure _)) fun _ => ?_
  refine .bind (preserves_onTree fun _ _ => rfl) fun root => ?_
  refine .bind .get fun s => ?_
  refine .bind (.ite (preserves_insertBlock (fun _ _ => rfl) fun _ _ => rfl) (.pure _)) fun _ => ?_
  refine .bind (preserves_okOr _ _) fun historicRoot => ?_
  refine .bind (preserves_onTree fun _ _ => rfl) fun _ => ?_
  refine .bind (preserves_onTree fun _ _ => rfl) fun _ => ?_
  exact .bind (.modify fun s => rfl) fun _ => .modify fun s => rfl

theorem expected_of_processProposeBlockEvent {blk : Contract.Block} {number : ℤ}
    {e : EventHandlerError} (he : e.Restarts)
    (h : (processProposeBlockEvent cfg env blk number).run s = .error (.err e) s') :
    0 ≤ s'.expected := by
  rcases run_bind_eq_error.1 h with hsender | ⟨sender, s₁, hsender, h⟩
  · cases hlookup : env.sender with
    | failed message =>
      rw [hlookup] at hsender
      cases hsender
      exact he.elim
    | notFound =>
      rw [hlookup] at hsender
      cases hsender
    | found tx =>
      rw [hlookup] at hsender
      cases hsender
  rcases run_bind_eq_error.1 h with hnumber | ⟨n, s₂, hnumber, h⟩
  · cases (run_expect_eq_error.1 hnumber).2.1
  rcases run_bind_eq_error.1 h with hpending | ⟨pending, s₃, hpending, h⟩
  · obtain ⟨⟨m, -, hm⟩, -⟩ := run_orPanic_eq_error.1 hpending
    cases hm
  obtain ⟨_, s₄, ⟨⟩, h⟩ := (run_bind_eq_error.1 h).resolve_left (fun h => by cases h)
  split_ifs at h
  · obtain ⟨_, s₅, ⟨⟩, h⟩ := (run_bind_eq_error.1 h).resolve_left (fun h => by cases h)
    rcases run_bind_eq_error.1 h with hmissing | ⟨missing, s₆, hmissing, h⟩
    · cases (run_expect_eq_error.1 hmissing).2.1
    · obtain ⟨hsome, rfl⟩ := run_expect_eq_ok.1 hmissing
      cases h
      exact (toU64_eq_some.1 hsome).1.ge.trans' (Int.natCast_nonneg _)
  · exact absurd h run_pure_ne_error
  · rcases run_bind_eq_error.1 h with hexpected | ⟨expected, s₆, hexpected, hrest⟩
    · cases (run_expect_eq_error.1 hexpected).2.1
    · obtain ⟨hsome, rfl⟩ := run_expect_eq_ok.1 hexpected
      have hnonneg : 0 ≤ s₆.expected :=
        (toU64_eq_some.1 hsome).1.ge.trans' (Int.natCast_nonneg _)
      have hchecked := @preserves_checkStored P cfg expected n pending
      rcases run_bind_eq_error.1 hrest with hcheck | ⟨_, s₇, hcheck, happly⟩
      · rwa [hchecked.of_error _ _ _ hcheck]
      · rw [expected_of_applyBlock happly, hchecked.keeps _ _ _ hcheck]
        omega

theorem expected_of_restarts {e : EventHandlerError} {number : ℤ} (he : e.Restarts)
    (h : (proposerHandleEvent cfg env (.blockProposed number)).run s = .error (.err e) s') :
    0 ≤ s'.expected := by
  rcases run_bind_eq_error.1 h with htransaction | ⟨tx, s₁, htransaction, h⟩
  · cases hlookup : env.transaction with
    | failed message =>
      rw [hlookup] at htransaction
      cases htransaction
      exact he.elim
    | notFound =>
      rw [hlookup] at htransaction
      cases htransaction
    | found tx =>
      rw [hlookup] at htransaction
      cases htransaction
  · cases hinput : tx.input with
    | proposeBlock blk =>
      rw [hinput] at h
      exact expected_of_processProposeBlockEvent he h
    | undecodable message =>
      rw [hinput] at h
      cases h
      exact he.elim
    | other =>
      rw [hinput] at h
      exact absurd h run_pure_ne_error
    | escrowFunds fee ercAddress tokenId secretHash =>
      rw [hinput] at h
      exact absurd h run_pure_ne_error

/-- **A proposer that restarts its listener never gets back** to where a new one is. -/
theorem not_resynchronises {e : EventHandlerError} {number : ℤ} (he : e.Restarts)
    (h : (proposerHandleEvent cfg env (.blockProposed number)).run s = .error (.err e) s')
    (history : List ChainEvent) : ¬ Resynchronises cfg history s' :=
  not_resynchronises_of_nonneg (expected_of_restarts he h) history

end Restart

/-! ### A missed block -/

/-- A transaction of a block that neither spends nor makes anything. -/
def emptyTransaction : Contract.OnChainTransaction where
  fee := 0
  commitments _ := 0
  nullifiers _ := 0
  publicData _ := 0

/-- A transaction that proposes a block of 64 empty transactions. -/
def sampleProposal : Transaction where
  input := .proposeBlock ⟨5, 0, 0, List.replicate 64 emptyTransaction, []⟩
  signer := 7

/-- The surroundings of the event of such a block, when there are three of them. -/
def sampleProposalEnv : ProposerEnv where
  transaction := .found sampleProposal
  sender := .found sampleProposal
  currentNumber := some 3
  fault _ := none

/-- Three blocks. -/
def sampleHistory : List ChainEvent :=
  [⟨.blockProposed 0, sampleProposal⟩, ⟨.blockProposed 1, sampleProposal⟩,
    ⟨.blockProposed 2, sampleProposal⟩]

/-- The events of the three blocks. -/
def sampleDelivered₃ : List (ProposerEnv × Event) :=
  [(sampleProposalEnv, .blockProposed 0), (sampleProposalEnv, .blockProposed 1),
    (sampleProposalEnv, .blockProposed 2)]

/-- The proposer is started, handles the first block and misses the second one. -/
def missesBlock : ProposerM (PlonkProof ℕ) Unit := do
  initialiseDb sampleConfig
  proposerHandleEvent sampleConfig sampleProposalEnv (.blockProposed 0)

/-- The proposer behind by one block. -/
def sampleBehind : ProposerState (PlonkProof ℕ) := stateAfter missesBlock .initial

/-- The error of a failed run, if it says that blocks are missing. -/
def missingBlock {σ : Type} : EStateM.Result (Failure EventHandlerError) σ Unit → Option ℕ
  | .error (.err (.missingBlocks n)) _ => some n
  | _ => none

/-- The number of the expected block after a successful run. -/
def expectedAfter {P : Type} :
    EStateM.Result (Failure EventHandlerError) (ProposerState P) Unit → Option ℤ
  | .ok _ s => some s.expected
  | .error _ _ => none

theorem run_of_missingBlock {σ : Type} {x : NodeM EventHandlerError σ Unit} {s : σ} {n : ℕ}
    (h : missingBlock (x.run s) = some n) :
    x.run s = .error (.err (.missingBlocks n)) (stateAfter x s) := by
  rw [stateAfter]
  cases hrun : x.run s with
  | ok a s' =>
    rw [hrun] at h
    cases h
  | error f s' =>
    rw [hrun] at h
    cases f with
    | panic m => cases h
    | err e =>
      cases e with
      | missingBlocks m =>
        cases h
        rfl
      | _ => cases h

theorem run_of_expectedAfter {P : Type} {x : ProposerM P Unit} {s : ProposerState P} {n : ℤ}
    (h : expectedAfter (x.run s) = some n) : ∃ s', x.run s = .ok () s' ∧ s'.expected = n := by
  cases hrun : x.run s with
  | ok a s' =>
    rw [hrun] at h
    exact ⟨s', rfl, Option.some_inj.1 h⟩
  | error f s' =>
    rw [hrun] at h
    cases h

/-- The proposer after the event of the third block. -/
def sampleMissed : ProposerState (PlonkProof ℕ) :=
  stateAfter (proposerHandleEvent sampleConfig sampleProposalEnv (.blockProposed 2)) sampleBehind

set_option maxRecDepth 100000 in
theorem sampleBehind_misses :
    (proposerHandleEvent sampleConfig sampleProposalEnv (.blockProposed 2)).run sampleBehind =
      .error (.err (.missingBlocks 1)) sampleMissed :=
  run_of_missingBlock (by decide +kernel)

theorem missingBlocks_restarts : (EventHandlerError.missingBlocks 1).Restarts := trivial

/-- The listener restarts, and handles the events of the three blocks. -/
def restartsAndReplays : ProposerM (PlonkProof ℕ) Unit := do
  restartEventListener sampleConfig
  handleEvents sampleConfig sampleDelivered₃

set_option maxRecDepth 100000 in
/-- All events are handled after the restart, but the trees are not those of a new proposer. -/
theorem not_resynchronises_missed :
    (proposerHandleEvent sampleConfig sampleProposalEnv (.blockProposed 2)).run sampleBehind =
        .error (.err (.missingBlocks 1)) sampleMissed ∧
      (∃ s, restartsAndReplays.run sampleMissed = .ok () s ∧ s.expected = 3) ∧
      ¬ Resynchronises sampleConfig sampleHistory sampleMissed := by
  refine ⟨sampleBehind_misses, run_of_expectedAfter (by decide +kernel), ?_⟩
  exact not_resynchronises_of_nonneg (expected_of_restarts missingBlocks_restarts sampleBehind_misses) _

theorem not_resynchronises_sample : ¬ Resynchronises sampleConfig sampleHistory sampleMissed :=
  not_resynchronises missingBlocks_restarts sampleBehind_misses sampleHistory

end Node

end Nightfall
