import Nightfall.Node.Assembly

/-!
# Stored blocks and the chain

The proposer stores a block when it has assembled it, under the number of documents, and a block of
the chain when its event arrives, under its number.  A stored block that isn't the one of the event is
deleted.

If the proposer assembles blocks only while it knows of all blocks, and no other block gets on the
chain before them, there is one document for a number, a block gets on the chain under the number that
it was stored with, and the document of a block whose event was processed is the one of the chain
(`stored_blocks_agree`).
-/

namespace Nightfall

namespace Node

open Evm Trees Stateful
open Contract (Address)

/-! ### The documents -/

namespace ProposedBlocks

variable {blocks : ProposedBlocks} {n m : ℕ} {block : StoredBlock}

/-- The numbers of the documents. -/
def numbers (blocks : ProposedBlocks) : List ℕ := blocks.map StoredBlock.layer2BlockNumber

theorem number_of_getBlockByNumber (h : blocks.getBlockByNumber n = some block) :
    block.layer2BlockNumber = n := by
  have hfound := List.find?_some h
  exact of_decide_eq_true hfound

theorem getBlockByNumber_eq_none : blocks.getBlockByNumber n = none ↔ n ∉ blocks.numbers := by
  rw [getBlockByNumber, List.find?_eq_none, numbers, List.mem_map]
  constructor
  · rintro hnone ⟨b, hb, hn⟩
    exact hnone b hb (decide_eq_true hn)
  · intro hnone b hb hn
    exact hnone ⟨b, hb, of_decide_eq_true hn⟩

theorem getBlockByNumber_append_of_some (h : blocks.getBlockByNumber n = some block)
    (more : ProposedBlocks) :
    ProposedBlocks.getBlockByNumber (blocks ++ more) n = some block := by
  rw [getBlockByNumber, List.find?_append]
  rw [getBlockByNumber] at h
  rw [h, Option.some_or]

theorem getBlockByNumber_append_self (h : blocks.getBlockByNumber n = none)
    (hblock : block.layer2BlockNumber = n) :
    ProposedBlocks.getBlockByNumber (blocks ++ [block]) n = some block := by
  rw [getBlockByNumber] at h ⊢
  have hlast : [block].find? (fun b => decide (b.layer2BlockNumber = n)) = some block :=
    List.find?_cons_of_pos (decide_eq_true hblock)
  rw [List.find?_append, h, Option.none_or, hlast]

theorem getBlockByNumber_deleteBlockByNumber (h : m ≠ n) :
    (blocks.deleteBlockByNumber n).getBlockByNumber m = blocks.getBlockByNumber m := by
  induction blocks with
  | nil => rfl
  | cons b blocks ih =>
    rw [deleteBlockByNumber, List.eraseP_cons]
    by_cases hb : b.layer2BlockNumber = n
    · have hne : ¬ b.layer2BlockNumber = m := fun hm => h (hm.symm.trans hb)
      rw [decide_eq_true hb, cond_true, getBlockByNumber, getBlockByNumber,
        List.find?_cons_of_neg (by simpa using hne)]
    · rw [decide_eq_false hb, cond_false, getBlockByNumber, getBlockByNumber, List.find?_cons,
        List.find?_cons]
      rw [deleteBlockByNumber, getBlockByNumber, getBlockByNumber] at ih
      rw [ih]

theorem numbers_updateCommitments (commitments : List (List Char)) :
    (blocks.updateCommitments n commitments).numbers = blocks.numbers := by
  induction blocks with
  | nil => rfl
  | cons b blocks ih =>
    rw [updateCommitments]
    split_ifs
    · rfl
    · exact congrArg (b.layer2BlockNumber :: ·) ih

theorem getBlockByNumber_updateCommitments (commitments : List (List Char)) :
    (blocks.updateCommitments n commitments).getBlockByNumber m =
      if m = n then (blocks.getBlockByNumber m).map fun b => { b with commitments := commitments }
      else blocks.getBlockByNumber m := by
  induction blocks with
  | nil =>
    split_ifs
    · rfl
    · rfl
  | cons b blocks ih =>
    rw [updateCommitments]
    by_cases hb : b.layer2BlockNumber = n
    · rw [if_pos hb, getBlockByNumber, getBlockByNumber, List.find?_cons, List.find?_cons]
      by_cases hm : m = n
      · subst hm
        rw [if_pos rfl]
        simp only [hb, decide_true, Option.map_some]
      · rw [if_neg hm]
        have hne : ¬ b.layer2BlockNumber = m := fun h => hm (h.symm.trans hb)
        simp only [hne, decide_false]
    · rw [if_neg hb, getBlockByNumber, getBlockByNumber, List.find?_cons, List.find?_cons]
      rw [getBlockByNumber, getBlockByNumber] at ih
      by_cases hm : b.layer2BlockNumber = m
      · have hne : ¬ m = n := fun h => hb (hm.trans h)
        rw [if_neg hne]
        simp only [hm, decide_true]
      · simp only [hm, decide_false]
        exact ih

theorem numbers_append (more : ProposedBlocks) :
    ProposedBlocks.numbers (blocks ++ more) = blocks.numbers ++ more.numbers :=
  List.map_append

theorem nodup_deleteBlockByNumber (h : blocks.numbers.Nodup) :
    (blocks.deleteBlockByNumber n).numbers.Nodup :=
  h.sublist (List.eraseP_sublist.map _)

theorem nodup_storeBlock (h : blocks.numbers.Nodup) : (blocks.storeBlock block).numbers.Nodup := by
  rw [storeBlock]
  split_ifs with hsome
  · rwa [numbers_updateCommitments]
  · rw [Bool.not_eq_true, Option.isSome_eq_false_iff, Option.isNone_iff_eq_none,
      getBlockByNumber_eq_none] at hsome
    rw [numbers_append, List.nodup_append']
    refine ⟨h, List.nodup_singleton _, fun m hm hm' => hsome ?_⟩
    rwa [← List.mem_singleton.1 hm']

theorem getBlockByNumber_storeBlock_of_ne (h : m ≠ block.layer2BlockNumber) :
    (blocks.storeBlock block).getBlockByNumber m = blocks.getBlockByNumber m := by
  rw [storeBlock]
  split_ifs
  · rw [getBlockByNumber_updateCommitments, if_neg h]
  · rw [getBlockByNumber, List.find?_append, List.find?_cons_of_neg (by simpa using h.symm),
      List.find?_nil, Option.or_none, getBlockByNumber]

/-- After a block was stored, its document is that block, if a document that was there has its
proposer. -/
theorem getBlockByNumber_storeBlock_self
    (h : ∀ stored, blocks.getBlockByNumber block.layer2BlockNumber = some stored →
      stored.proposerAddress = block.proposerAddress) :
    (blocks.storeBlock block).getBlockByNumber block.layer2BlockNumber = some block := by
  rw [storeBlock]
  cases hget : blocks.getBlockByNumber block.layer2BlockNumber with
  | none =>
    rw [Option.isSome_none, if_neg Bool.false_ne_true]
    exact getBlockByNumber_append_self hget rfl
  | some stored =>
    rw [Option.isSome_some, if_pos rfl, getBlockByNumber_updateCommitments, if_pos rfl, hget,
      Option.map_some, Option.some_inj]
    obtain ⟨number, commitments, proposer⟩ := stored
    obtain rfl := number_of_getBlockByNumber hget
    obtain rfl := h _ hget
    rfl

end ProposedBlocks

/-! ### What the handler of a block does to the documents -/

section Handler

variable {P : Type} {cfg : ProposerConfig P} {env : ProposerEnv} {blk : Contract.Block}
  {s s' : ProposerState P}

/-- The leaves of a block get into two trees. -/
theorem preserves_insertBlock {γ : Type} {p : ProposerState P → γ}
    (hcommitments : ∀ db s, p { s with commitments := db } = p s)
    (hnullifiers : ∀ db s, p { s with nullifiers := db } = p s) :
    Preserves p (insertBlock cfg env blk) := by
  refine .bind (preserves_expect _ _) fun commitments => ?_
  refine .bind (preserves_onTree hcommitments) fun _ => ?_
  refine .bind (preserves_expect _ _) fun nullifiers => ?_
  exact .bind (preserves_onTree hnullifiers) fun _ => .pure _

/-- The block is stored last. -/
theorem commits_applyBlock (number : ℤ) (sender : Address) (pending : StoredBlock) :
    Commits ProposerState.blocks (·.storeBlock pending)
      (applyBlock cfg env blk number sender pending) := by
  refine .after (.modify fun s => rfl) fun _ => ?_
  refine .after (preserves_okOr _ _) fun current => ?_
  refine .after (.ite (.modify fun s => rfl) (.pure _)) fun _ => ?_
  refine .after (preserves_onTree fun _ _ => rfl) fun root => ?_
  refine .after .get fun s => ?_
  refine .after (.ite (preserves_insertBlock (fun _ _ => rfl) fun _ _ => rfl) (.pure _)) fun _ => ?_
  refine .after (preserves_okOr _ _) fun historicRoot => ?_
  refine .after (preserves_onTree fun _ _ => rfl) fun _ => ?_
  refine .after (preserves_onTree fun _ _ => rfl) fun _ => ?_
  refine .after (.modify fun s => rfl) fun _ => ?_
  exact .modify fun s => rfl

/-- A run of the handler up to the comparison of the numbers. -/
theorem run_processProposeBlockEvent_cases (cfg : ProposerConfig P) (env : ProposerEnv)
    (blk : Contract.Block) (n : ℕ) (s : ProposerState P) :
    (∃ f, (processProposeBlockEvent cfg env blk n).run s = .error f s) ∨
      ∃ tx record, env.sender = .found tx ∧ pendingBlock n blk tx.signer = .ok record ∧
        ((s.expected < n ∧ ∃ f, (processProposeBlockEvent cfg env blk n).run s =
            .error f { s with synchronised := false }) ∨
          ((n : ℤ) < s.expected ∧ (processProposeBlockEvent cfg env blk n).run s = .ok () s) ∨
          ((n : ℤ) = s.expected ∧ (processProposeBlockEvent cfg env blk n).run s =
            (do
              checkStored cfg n n record
              applyBlock cfg env blk n tx.signer record).run s)) := by
  rw [processProposeBlockEvent]
  cases hsender : env.sender with
  | failed message => exact .inl ⟨_, rfl⟩
  | notFound => exact .inl ⟨_, rfl⟩
  | found tx =>
    rw [senderAddress, pure_bind]
    cases hnumber : toU64 (n : ℤ) with
    | none => exact .inl ⟨_, rfl⟩
    | some number =>
      obtain rfl : n = number := Int.ofNat_inj.1 (toU64_eq_some.1 hnumber).1
      rw [expect, pure_bind]
      cases hpending : pendingBlock n blk tx.signer with
      | error message => exact .inl ⟨_, rfl⟩
      | ok record =>
        refine .inr ⟨tx, record, rfl, hpending, ?_⟩
        rw [orPanic, pure_bind, EStateM.run_bind, EStateM.run_get]
        dsimp only
        rcases lt_trichotomy s.expected n with hlt | heq | hgt
        · refine .inl ⟨hlt, ?_⟩
          rw [if_pos hlt]
          cases hexpected : toU64 s.expected with
          | none => exact ⟨_, rfl⟩
          | some missing => exact ⟨_, rfl⟩
        · refine .inr (.inr ⟨heq.symm, ?_⟩)
          rw [heq, if_neg (lt_irrefl _), if_neg (lt_irrefl _), hnumber]
          rfl
        · refine .inr (.inl ⟨hgt, ?_⟩)
          rw [if_neg hgt.not_gt, if_pos hgt]
          rfl

theorem run_checkStored (cfg : ProposerConfig P) (n : ℕ) (record : StoredBlock)
    (s : ProposerState P) :
    ((∀ stored, s.blocks.getBlockByNumber n = some stored →
        stored.hash cfg.sha256 = record.hash cfg.sha256) ∧
      (checkStored cfg n n record).run s = .ok () s) ∨
      ∃ stored, s.blocks.getBlockByNumber n = some stored ∧
        stored.hash cfg.sha256 ≠ record.hash cfg.sha256 ∧
        (checkStored cfg n n record).run s =
          .error (.err (.blockHashError (stored.hash cfg.sha256) (record.hash cfg.sha256)))
            { s with blocks := s.blocks.deleteBlockByNumber n, synchronised := false } := by
  rw [checkStored, EStateM.run_bind, EStateM.run_get]
  dsimp only
  cases hget : s.blocks.getBlockByNumber n with
  | none => exact .inl ⟨fun stored h => (by cases h), rfl⟩
  | some stored =>
    dsimp only
    by_cases hhash : stored.hash cfg.sha256 = record.hash cfg.sha256
    · refine .inl ⟨fun stored' h => ?_, ?_⟩
      · rwa [← Option.some_inj.1 h]
      · rw [if_neg fun h => h.2 hhash]
        rfl
    · refine .inr ⟨stored, rfl, hhash, ?_⟩
      rw [if_pos ⟨rfl, hhash⟩]
      rfl

/-- **What the event of a block stores**: the block, if it is the one that is expected and the document
under its number, if there is one, has its hash. -/
theorem blocks_of_processed {n : ℕ} (h : (processProposeBlockEvent cfg env blk n).run s = .ok () s') :
    ((n : ℤ) < s.expected ∧ s' = s) ∨
      (n : ℤ) = s.expected ∧ ∃ tx record, env.sender = .found tx ∧
        pendingBlock n blk tx.signer = .ok record ∧
        (∀ stored, s.blocks.getBlockByNumber n = some stored →
          stored.hash cfg.sha256 = record.hash cfg.sha256) ∧
        s'.blocks = s.blocks.storeBlock record := by
  rcases run_processProposeBlockEvent_cases cfg env blk n s with
    ⟨f, hrun⟩ | ⟨tx, record, hsender, hpending, ⟨-, f, hrun⟩ | ⟨hlt, hrun⟩ | ⟨heq, hrun⟩⟩
  · rw [hrun] at h
    cases h
  · rw [hrun] at h
    cases h
  · rw [hrun] at h
    cases h
    exact .inl ⟨hlt, rfl⟩
  · rw [hrun] at h
    obtain ⟨_, t, hcheck, happly⟩ := run_bind_eq_ok.1 h
    rcases run_checkStored cfg n record s with ⟨hsame, hok⟩ | ⟨stored, -, -, herror⟩
    · rw [hok] at hcheck
      cases hcheck
      refine .inr ⟨heq, tx, record, hsender, hpending, hsame, ?_⟩
      exact (commits_applyBlock _ _ _).of_ok _ _ _ happly
    · rw [herror] at hcheck
      cases hcheck

/-- **What an event of a block that fails deletes**: the document under its number, if it is the
expected one and the document has another hash. -/
theorem blocks_of_failed {n : ℕ} {f : Failure EventHandlerError}
    (h : (processProposeBlockEvent cfg env blk n).run s = .error f s') :
    s'.blocks = s.blocks ∨
      ∃ tx record stored, env.sender = .found tx ∧ pendingBlock n blk tx.signer = .ok record ∧
        s.blocks.getBlockByNumber n = some stored ∧
        stored.hash cfg.sha256 ≠ record.hash cfg.sha256 ∧
        s'.blocks = s.blocks.deleteBlockByNumber n := by
  rcases run_processProposeBlockEvent_cases cfg env blk n s with
    ⟨f, hrun⟩ | ⟨tx, record, hsender, hpending, ⟨-, f, hrun⟩ | ⟨hlt, hrun⟩ | ⟨heq, hrun⟩⟩
  · rw [hrun] at h
    cases h
    exact .inl rfl
  · rw [hrun] at h
    cases h
    exact .inl rfl
  · rw [hrun] at h
    cases h
  · rw [hrun] at h
    rcases run_checkStored cfg n record s with ⟨hsame, hok⟩ | ⟨stored, hstored, hhash, herror⟩
    · rcases run_bind_eq_error.1 h with hcheck | ⟨_, t, hcheck, happly⟩
      · rw [hok] at hcheck
        cases hcheck
      · rw [hok] at hcheck
        cases hcheck
        exact .inl ((commits_applyBlock _ _ _).of_error _ _ _ happly)
    · rcases run_bind_eq_error.1 h with hcheck | ⟨_, t, hcheck, -⟩
      · rw [herror] at hcheck
        cases hcheck
        exact .inr ⟨tx, record, stored, hsender, hpending, hstored, hhash, rfl⟩
      · rw [herror] at hcheck
        cases hcheck

end Handler

/-! ### What the assembly of a block does to the documents -/

section Runs

variable {P O : Type} (engine : RollupEngine P O) (cfg : ProposerConfig P)

theorem blocks_of_assembled {engine : RollupEngine P O} {cfg : ProposerConfig P}
    {fault : AssemblyCall → Fault} {s s' : ProposerState P} {block : Block}
    (h : (assembleBlock engine cfg fault).run s = .ok block s') :
    s'.blocks = s.blocks ++ [storedOwnBlock cfg s.blocks block] := by
  obtain ⟨selected, t, hprepare, h⟩ := run_bind_eq_ok.1 h
  obtain ⟨block', t', hmake, h⟩ := run_bind_eq_ok.1 h
  cases h
  obtain ⟨-, -, -, rfl⟩ := run_prepareBlockData_eq_ok.1 hprepare
  have hblocks : t'.blocks = s.blocks :=
    congrArg Prod.snd ((preserves_makeBlock _ _).keeps _ _ _ hmake)
  change t'.blocks ++ [storedOwnBlock cfg t'.blocks block] = _
  rw [hblocks]

theorem blocks_of_failed_assembly {engine : RollupEngine P O} {cfg : ProposerConfig P}
    {fault : AssemblyCall → Fault} {s s' : ProposerState P} {f : Failure BlockAssemblyError}
    (h : (assembleBlock engine cfg fault).run s = .error f s') : s'.blocks = s.blocks := by
  rcases run_bind_eq_error.1 h with hprepare | ⟨selected, t, hprepare, h⟩
  · by_cases hsize : AllowedBlockSize cfg.blockSize
    · by_cases hnothing : NothingPending cfg s
      · rw [run_prepareBlockData_of_nothing hsize hnothing] at hprepare
        cases hprepare
        rfl
      · rw [run_prepareBlockData_of_pending hsize hnothing] at hprepare
        cases hprepare
    · rw [run_prepareBlockData_of_not_allowed hsize] at hprepare
      cases hprepare
      rfl
  · obtain ⟨-, -, -, rfl⟩ := run_prepareBlockData_eq_ok.1 hprepare
    rcases run_bind_eq_error.1 h with hmake | ⟨block', t', -, h⟩
    · exact congrArg Prod.snd ((preserves_makeBlock _ _).of_error _ _ _ hmake)
    · cases h

/-! ### Runs -/

/-- A proposer and the chain. -/
structure ChainHistory (P : Type) where
  proposer : ProposerState P
  /-- The blocks on the chain with the addresses that proposed them, in the order of their numbers. -/
  chain : List (Contract.Block × Address)
  /-- The blocks that the proposer assembled and that are not on the chain, with the numbers that they
  were stored with. -/
  pending : List (Block × ℕ)
  /-- For each of its blocks on the chain, the number that it was stored with and the number that it
  got. -/
  landed : List (ℕ × ℕ)
  /-- The numbers of the blocks whose events were processed. -/
  processed : List ℕ

/-- What happens to a proposer and the chain. -/
inductive ChainAction (P : Type)
  /-- The proposer assembles a block, or fails to. -/
  | assemble (fault : AssemblyCall → Fault)
  /-- The first pending block gets on the chain. -/
  | land (blk : Contract.Block)
  /-- The first pending block is rejected. -/
  | reject
  /-- A block of another proposer gets on the chain. -/
  | foreign (blk : Contract.Block) (sender : Address)
  /-- The event of a block on the chain arrives, maybe again. -/
  | event (env : ProposerEnv) (n : ℕ)
  /-- The trees, the mempool, the expected number or the flag change: by other events, by client
  transactions or by a restart. -/
  | adjust (s : ProposerState P)

/-- What is left after an action. -/
def ChainAction.next (h : ChainHistory P) : ChainAction P → ChainHistory P
  | assemble fault =>
    match (assembleBlock engine cfg fault).run h.proposer with
    | .ok block s' =>
      { h with
        proposer := s'
        pending := h.pending ++
          [(block, (storedOwnBlock cfg h.proposer.blocks block).layer2BlockNumber)] }
    | .error _ s' => { h with proposer := s' }
  | land blk =>
    { h with
      chain := h.chain ++ [(blk, cfg.ourAddress)]
      pending := h.pending.tail
      landed := h.landed ++ h.pending.head?.toList.map fun own => (own.2, h.chain.length) }
  | reject => { h with pending := h.pending.tail }
  | foreign blk sender => { h with chain := h.chain ++ [(blk, sender)] }
  | event env n =>
    match h.chain[n]? with
    | none => h
    | some entry =>
      match (processProposeBlockEvent cfg env entry.1 n).run h.proposer with
      | .ok _ s' =>
        { h with
          proposer := s'
          processed := if h.proposer.expected = n then h.processed ++ [n] else h.processed }
      | .error _ s' => { h with proposer := s' }
  | adjust s => { h with proposer := s }

/-- Only a pending block gets on the chain from the queue, the handler of an event finds out who
proposed the block, and the documents of blocks are changed by events and assemblies only. -/
def ChainAction.Possible (h : ChainHistory P) : ChainAction P → Prop
  | land blk => ∃ own, h.pending.head? = some own ∧ own.1.toContract = .ok blk
  | event env n => ∀ entry tx, h.chain[n]? = some entry → env.sender = .found tx →
      tx.signer = entry.2
  | adjust s => s.blocks = h.proposer.blocks
  | _ => True

/-- The documents agree with the chain as far as its events were processed. -/
structure AgreesWithChain (h : ChainHistory P) : Prop where
  /-- There is one document for a number. -/
  unique : h.proposer.blocks.numbers.Nodup
  /-- An own block got the number that it was stored with. -/
  numbers : ∀ own ∈ h.landed, own.1 = own.2
  /-- The document of a processed block has the commitments and the proposer of the chain. -/
  records : ∀ n ∈ h.processed, ∃ entry record, h.chain[n]? = some entry ∧
    pendingBlock n entry.1 entry.2 = .ok record ∧
    h.proposer.blocks.getBlockByNumber n = some record

/-- A block is assembled only while there are as many documents as blocks that are on the chain or
pending, and no document has this number; no other block gets on the chain while blocks are pending,
no block is rejected while a later one is pending, and a document with the hash of the block of an
event has its proposer. -/
def ChainAction.Careful (h : ChainHistory P) : ChainAction P → Prop
  | assemble _ => h.proposer.blocks.length = h.chain.length + h.pending.length ∧
      h.proposer.blocks.length ∉ h.proposer.blocks.numbers
  | foreign _ _ => h.pending = []
  | reject => h.pending.length ≤ 1
  | event _ n => ∀ entry record stored, h.chain[n]? = some entry →
      pendingBlock n entry.1 entry.2 = .ok record →
      h.proposer.blocks.getBlockByNumber n = some stored →
      stored.hash cfg.sha256 = record.hash cfg.sha256 → stored.proposerAddress = entry.2
  | _ => True

/-- A run from an empty chain and no documents, all of whose actions are possible and satisfy `C`. -/
inductive ChainRun (C : ChainHistory P → ChainAction P → Prop) : ChainHistory P → Prop
  | start {s : ProposerState P} : s.blocks = [] → ChainRun C ⟨s, [], [], [], []⟩
  | step {h : ChainHistory P} (a : ChainAction P) :
      ChainRun C h → a.Possible h → C h a → ChainRun C (a.next engine cfg h)

/-- The pending blocks will get the next numbers of the chain. -/
structure InStep (h : ChainHistory P) : Prop extends AgreesWithChain h where
  pending : h.pending.map Prod.snd = List.range' h.chain.length h.pending.length

end Runs

section Agreement

variable {P O : Type} {engine : RollupEngine P O} {cfg : ProposerConfig P} {h h' : ChainHistory P}

theorem layer2BlockNumber_of_pendingBlock {n : ℕ} {blk : Contract.Block} {sender : Address}
    {record : StoredBlock} (hpending : pendingBlock n blk sender = .ok record) :
    record.layer2BlockNumber = n ∧ record.proposerAddress = sender := by
  obtain ⟨-, rfl⟩ := pendingBlock_eq_ok.1 hpending
  exact ⟨rfl, rfl⟩

/-- More blocks on the chain, and the same documents. -/
theorem AgreesWithChain.of_append (hagree : AgreesWithChain h) (more : List (Contract.Block × Address))
    (hchain : h'.chain = h.chain ++ more) (hblocks : h'.proposer.blocks = h.proposer.blocks)
    (hlanded : ∀ own ∈ h'.landed, own.1 = own.2) (hprocessed : h'.processed = h.processed) :
    AgreesWithChain h' where
  unique := by
    rw [hblocks]
    exact hagree.unique
  numbers := hlanded
  records n hn := by
    rw [hprocessed] at hn
    obtain ⟨entry, record, hentry, hrecord, hget⟩ := hagree.records n hn
    refine ⟨entry, record, ?_, hrecord, ?_⟩
    · rw [hchain, List.getElem?_append_left (List.getElem?_eq_some_iff.1 hentry).1, hentry]
    · rw [hblocks, hget]

/-- Other documents, with the same chain. -/
theorem AgreesWithChain.of_blocks (hagree : AgreesWithChain h) (hchain : h'.chain = h.chain)
    (hunique : h'.proposer.blocks.numbers.Nodup) (hlanded : h'.landed = h.landed)
    (hprocessed : h'.processed = h.processed)
    (hget : ∀ n ∈ h.processed, h'.proposer.blocks.getBlockByNumber n =
      h.proposer.blocks.getBlockByNumber n) : AgreesWithChain h' where
  unique := hunique
  numbers own hown := hagree.numbers own (hlanded ▸ hown)
  records n hn := by
    rw [hprocessed] at hn
    obtain ⟨entry, record, hentry, hrecord, hbefore⟩ := hagree.records n hn
    exact ⟨entry, record, hchain ▸ hentry, hrecord, (hget n hn).trans hbefore⟩

theorem InStep.next_assemble (hstep : InStep h) {fault : AssemblyCall → Fault}
    (hcareful : (ChainAction.assemble (P := P) fault).Careful cfg h) :
    InStep ((ChainAction.assemble fault).next engine cfg h) := by
  obtain ⟨hcount, hfresh⟩ := hcareful
  rw [ChainAction.next]
  cases hrun : (assembleBlock engine cfg fault).run h.proposer with
  | error f s' =>
    have hblocks : s'.blocks = h.proposer.blocks := blocks_of_failed_assembly hrun
    exact ⟨hstep.of_append [] (List.append_nil _).symm hblocks hstep.numbers rfl, hstep.pending⟩
  | ok block s' =>
    have hblocks : s'.blocks = h.proposer.blocks ++ [storedOwnBlock cfg h.proposer.blocks block] :=
      blocks_of_assembled hrun
    refine ⟨hstep.of_blocks rfl ?_ rfl rfl fun n hn => ?_, ?_⟩
    · dsimp only
      rw [hblocks, ProposedBlocks.numbers_append, List.nodup_append']
      refine ⟨hstep.unique, List.nodup_singleton _, fun m hm hm' => hfresh ?_⟩
      rwa [← (List.mem_singleton.1 hm' : m = h.proposer.blocks.length)]
    · obtain ⟨entry, record, -, -, hget⟩ := hstep.records n hn
      dsimp only
      rw [hblocks, hget]
      exact ProposedBlocks.getBlockByNumber_append_of_some hget _
    · dsimp only
      rw [List.map_append, hstep.pending, List.length_append, List.length_singleton,
        List.range'_concat, Nat.one_mul, ← hcount]
      rfl

theorem InStep.next_land (hstep : InStep h) {blk : Contract.Block}
    (hpossible : (ChainAction.land (P := P) blk).Possible h) :
    InStep ((ChainAction.land blk).next engine cfg h) := by
  obtain ⟨own, hhead, -⟩ := hpossible
  obtain ⟨rest, hrest⟩ := List.head?_eq_some_iff.1 hhead
  have hnumbers := hstep.pending
  rw [hrest, List.map_cons, List.length_cons, List.range'_succ, List.cons.injEq] at hnumbers
  obtain ⟨hown, hlater⟩ := hnumbers
  have hlanded : ∀ pair ∈ h.landed ++ [(own.2, h.chain.length)], pair.1 = pair.2 := by
    intro pair hpair
    rcases List.mem_append.1 hpair with hold | hnew
    · exact hstep.numbers pair hold
    · rw [List.mem_singleton.1 hnew]
      exact hown
  rw [ChainAction.next, hrest]
  refine ⟨hstep.of_append [(blk, cfg.ourAddress)] rfl rfl hlanded rfl, ?_⟩
  change rest.map Prod.snd = List.range' (h.chain ++ [(blk, cfg.ourAddress)]).length rest.length
  rw [List.length_append, List.length_singleton, hlater]

theorem InStep.next_reject (hstep : InStep h)
    (hcareful : (ChainAction.reject (P := P)).Careful cfg h) :
    InStep (ChainAction.reject.next engine cfg h) := by
  have htail : h.pending.tail = [] := by
    rw [← List.length_eq_zero_iff, List.length_tail]
    have hle : h.pending.length ≤ 1 := hcareful
    omega
  refine ⟨hstep.of_append [] (List.append_nil _).symm rfl hstep.numbers rfl, ?_⟩
  change h.pending.tail.map Prod.snd = List.range' h.chain.length h.pending.tail.length
  rw [htail]
  rfl

theorem InStep.next_foreign (hstep : InStep h) {blk : Contract.Block} {sender : Address}
    (hcareful : (ChainAction.foreign (P := P) blk sender).Careful cfg h) :
    InStep ((ChainAction.foreign blk sender).next engine cfg h) := by
  have hnone : h.pending = [] := hcareful
  refine ⟨hstep.of_append [(blk, sender)] rfl rfl hstep.numbers rfl, ?_⟩
  change h.pending.map Prod.snd = List.range' _ h.pending.length
  rw [hnone]
  rfl

/-- The event of a block that is processed stores the block of the chain. -/
theorem InStep.next_processed (hstep : InStep h) {env : ProposerEnv} {n : ℕ}
    {entry : Contract.Block × Address} {s' : ProposerState P} (hentry : h.chain[n]? = some entry)
    (hpossible : (ChainAction.event (P := P) env n).Possible h)
    (hcareful : (ChainAction.event (P := P) env n).Careful cfg h)
    (hrun : (processProposeBlockEvent cfg env entry.1 n).run h.proposer = .ok () s') :
    AgreesWithChain { h with
      proposer := s'
      processed := if h.proposer.expected = n then h.processed ++ [n] else h.processed } := by
  rcases blocks_of_processed hrun with ⟨hlt, rfl⟩ | ⟨heq, tx, record, hsender, hpending, hhash, hblocks⟩
  · rw [if_neg hlt.ne']
    exact hstep.toAgreesWithChain
  · have hsigner : tx.signer = entry.2 := hpossible entry tx hentry hsender
    rw [hsigner] at hpending
    obtain ⟨hnumber, hproposer⟩ := layer2BlockNumber_of_pendingBlock hpending
    have hself : s'.blocks.getBlockByNumber n = some record := by
      rw [hblocks, ← hnumber]
      refine ProposedBlocks.getBlockByNumber_storeBlock_self fun stored hstored => ?_
      rw [hnumber] at hstored
      rw [hproposer]
      exact hcareful entry record stored hentry hpending hstored (hhash stored hstored)
    have hother : ∀ m, m ≠ n → s'.blocks.getBlockByNumber m =
        h.proposer.blocks.getBlockByNumber m := by
      intro m hm
      rw [hblocks]
      exact ProposedBlocks.getBlockByNumber_storeBlock_of_ne (by rwa [hnumber])
    rw [if_pos heq.symm]
    refine ⟨?_, hstep.numbers, fun m hm => ?_⟩
    · dsimp only
      rw [hblocks]
      exact ProposedBlocks.nodup_storeBlock hstep.unique
    · by_cases hmn : m = n
      · subst hmn
        exact ⟨entry, record, hentry, hpending, hself⟩
      · have hold : m ∈ h.processed :=
          (List.mem_append.1 hm).resolve_right fun hnew => hmn (List.mem_singleton.1 hnew)
        obtain ⟨entry', record', hentry', hrecord', hget⟩ := hstep.records m hold
        exact ⟨entry', record', hentry', hrecord', (hother m hmn).trans hget⟩

/-- The event of a block that fails deletes no document of a block of the chain. -/
theorem InStep.next_failed (hstep : InStep h) {env : ProposerEnv} {n : ℕ}
    {entry : Contract.Block × Address} {s' : ProposerState P} {f : Failure EventHandlerError}
    (hentry : h.chain[n]? = some entry)
    (hpossible : (ChainAction.event (P := P) env n).Possible h)
    (hrun : (processProposeBlockEvent cfg env entry.1 n).run h.proposer = .error f s') :
    AgreesWithChain { h with proposer := s' } := by
  rcases blocks_of_failed hrun with hblocks |
    ⟨tx, record, stored, hsender, hpending, hstored, hhash, hblocks⟩
  · exact hstep.of_append [] (List.append_nil _).symm hblocks hstep.numbers rfl
  · refine hstep.of_blocks rfl ?_ rfl rfl fun m hm => ?_
    · dsimp only
      rw [hblocks]
      exact ProposedBlocks.nodup_deleteBlockByNumber hstep.unique
    · dsimp only
      rw [hblocks, ProposedBlocks.getBlockByNumber_deleteBlockByNumber]
      rintro rfl
      -- the document of a processed block is the one that its event asks for
      obtain ⟨entry', record', hentry', hrecord', hget⟩ := hstep.records m hm
      obtain rfl : entry = entry' := Option.some_inj.1 (hentry.symm.trans hentry')
      obtain rfl : stored = record' := Option.some_inj.1 (hstored.symm.trans hget)
      rw [hpossible entry tx hentry hsender, hrecord', Except.ok.injEq] at hpending
      exact hhash (congrArg _ hpending)

theorem InStep.next_event (hstep : InStep h) {env : ProposerEnv} {n : ℕ}
    (hpossible : (ChainAction.event (P := P) env n).Possible h)
    (hcareful : (ChainAction.event (P := P) env n).Careful cfg h) :
    InStep ((ChainAction.event env n).next engine cfg h) := by
  rw [ChainAction.next]
  cases hentry : h.chain[n]? with
  | none => exact hstep
  | some entry =>
    dsimp only
    cases hrun : (processProposeBlockEvent cfg env entry.1 n).run h.proposer with
    | ok _ s' => exact ⟨hstep.next_processed hentry hpossible hcareful hrun, hstep.pending⟩
    | error f s' => exact ⟨hstep.next_failed hentry hpossible hrun, hstep.pending⟩

theorem InStep.next (hstep : InStep h) {a : ChainAction P} (hpossible : a.Possible h)
    (hcareful : a.Careful cfg h) : InStep (a.next engine cfg h) := by
  cases a with
  | assemble fault => exact hstep.next_assemble hcareful
  | land blk => exact hstep.next_land hpossible
  | reject => exact hstep.next_reject hcareful
  | foreign blk sender => exact hstep.next_foreign hcareful
  | event env n => exact hstep.next_event hpossible hcareful
  | adjust s =>
    exact ⟨hstep.of_append [] (List.append_nil _).symm hpossible hstep.numbers rfl, hstep.pending⟩

theorem ChainRun.inStep (hrun : ChainRun engine cfg (ChainAction.Careful cfg) h) : InStep h := by
  induction hrun with
  | start hempty =>
    refine ⟨⟨?_, List.forall_mem_nil _, List.forall_mem_nil _⟩, rfl⟩
    rw [hempty]
    exact List.nodup_nil
  | step a _ hpossible hcareful ih => exact ih.next hpossible hcareful

/-- **The stored blocks agree with the chain**, if blocks are assembled only while the documents are
those of the blocks on the chain and of the pending ones, and pending blocks get on the chain before
other blocks. -/
theorem stored_blocks_agree (hrun : ChainRun engine cfg (ChainAction.Careful cfg) h) :
    AgreesWithChain h := hrun.inStep.toAgreesWithChain

end Agreement

/-! ### A block that gets another number -/

/-- A prover that makes all proofs. -/
def sampleProver : RollupEngine (PlonkProof ℕ) ℕ :=
  { sampleEngine with
    createDepositProof := fun deposits => .ok (⟨1, 1⟩,
      { fee := 0, roots := fun _ => 0
        commitments := fun i => if deposits i = .default then 0 else (deposits i).commitment List.sum
        nullifiers := fun _ => 0, compressedSecrets := fun _ => 0 }) }

/-- A proposer with new trees and a deposit in its mempool. -/
def sampleAssembler : ProposerState (PlonkProof ℕ) :=
  { sampleDepositor with
    commitments := { TreeDb.empty with metadata := some ⟨29, 3, 0, 0⟩ } }

/-- The block that a proposer assembles can be submitted. -/
def assemblesSubmittable {P O : Type} (engine : RollupEngine P O) (cfg : ProposerConfig P)
    (s : ProposerState P) : Bool :=
  match (assembleBlock engine cfg fun _ => none).run s with
  | .ok block _ =>
    match block.toContract with
    | .ok _ => true
    | .error _ => false
  | .error _ _ => false

theorem exists_of_assemblesSubmittable {P O : Type} {engine : RollupEngine P O}
    {cfg : ProposerConfig P} {s : ProposerState P}
    (h : assemblesSubmittable engine cfg s = true) : ∃ block s' blk,
      (assembleBlock engine cfg fun _ => none).run s = .ok block s' ∧ block.toContract = .ok blk := by
  rw [assemblesSubmittable] at h
  cases hrun : (assembleBlock engine cfg fun _ => none).run s with
  | error f s' =>
    rw [hrun] at h
    cases h
  | ok block s' =>
    rw [hrun] at h
    dsimp only at h
    cases hblk : block.toContract with
    | error message =>
      rw [hblk] at h
      cases h
    | ok blk => exact ⟨block, s', blk, rfl, hblk⟩

set_option maxRecDepth 100000 in
theorem sampleAssembler_assembles :
    assemblesSubmittable sampleProver sampleConfig sampleAssembler = true := by decide +kernel

theorem next_assemble_sampleAssembler {block : Block} {s' : ProposerState (PlonkProof ℕ)}
    (hrun : (assembleBlock sampleProver sampleConfig fun _ => none).run sampleAssembler =
      .ok block s') :
    (ChainAction.assemble fun _ => none).next sampleProver sampleConfig
      ⟨sampleAssembler, [], [], [], []⟩ = ⟨s', [], [(block, 0)], [], []⟩ := by
  rw [ChainAction.next, hrun]
  rfl

/-- A block of another proposer gets on the chain first. -/
theorem not_agreesWithChain :
    ∃ h, ChainRun sampleProver sampleConfig (fun _ _ => True) h ∧ ¬ AgreesWithChain h := by
  obtain ⟨block, s', blk, hrun, hblk⟩ := exists_of_assemblesSubmittable sampleAssembler_assembles
  have hstart : ChainRun sampleProver sampleConfig (fun _ _ => True)
      ⟨sampleAssembler, [], [], [], []⟩ := .start rfl
  have hassembled := hstart.step (.assemble fun _ => none) trivial trivial
  rw [next_assemble_sampleAssembler hrun] at hassembled
  have hforeign := hassembled.step (.foreign blk 2) trivial trivial
  have hlanded := hforeign.step (.land blk) ⟨(block, 0), rfl, hblk⟩ trivial
  refine ⟨_, hlanded, fun hagree => ?_⟩
  exact absurd (hagree.numbers (0, 1) (List.mem_singleton_self _)) Nat.zero_ne_one

/-- The block gets on the chain at once. -/
theorem stored_blocks_agree_sample :
    ∃ h : ChainHistory (PlonkProof ℕ), h.landed = [(0, 0)] ∧ AgreesWithChain h := by
  obtain ⟨block, s', blk, hrun, hblk⟩ := exists_of_assemblesSubmittable sampleAssembler_assembles
  have hstart : ChainRun sampleProver sampleConfig (ChainAction.Careful sampleConfig)
      ⟨sampleAssembler, [], [], [], []⟩ := .start rfl
  have hassembled := hstart.step (.assemble fun _ => none) trivial ⟨rfl, List.not_mem_nil⟩
  rw [next_assemble_sampleAssembler hrun] at hassembled
  have hlanded := hassembled.step (.land blk) ⟨(block, 0), rfl, hblk⟩ trivial
  exact ⟨_, rfl, stored_blocks_agree hlanded⟩

end Node

end Nightfall
