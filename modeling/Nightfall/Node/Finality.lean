import Nightfall.Node.Selection
import Nightfall.Semantics.Run

/-!
# The queue of the assembled blocks

A proposer pushes the blocks that it assembles on a queue, and a second task, the finality checker,
submits them.  The checker goes through all the rotations that there ever were: each one that has
enough confirmations releases the whole queue, whatever the turn its blocks were assembled in.

The tasks share the queue under a lock, which the checker holds from the time it has read
`start_l1_block` to the end of its pass.  They and the first layer take their steps in any order
(`Action`).

* `prefix_assembled` : the blocks are submitted once and in the order of their assembly;
* `waitsForRotation_iff` : when every block waits for the rotation that its turn began with.
-/

namespace Nightfall

namespace Node

namespace Finality

open Contract (Address)

/-! ### The first layer -/

/-- A turn of a proposer. -/
structure Turn where
  proposer : Address
  /-- The block with the transaction that made it the current proposer. -/
  l1Block : ℕ
  /-- The transaction emits `ProposerRotated`: it doesn't if the proposer before left. -/
  rotated : Bool
  deriving DecidableEq, Repr

/-- What a proposer reads of the first layer. -/
structure L1 where
  /-- The turns so far. -/
  turns : List Turn
  /-- The number of the finalized block, or of the latest one as long as none is finalized. -/
  finalized : ℕ
  deriving DecidableEq, Repr

/-- `start_l1_block` of the contract. -/
def L1.startL1Block (l1 : L1) : ℕ := (l1.turns.getLast?.map Turn.l1Block).getD 0

/-- The `ProposerRotated` events. -/
def L1.rotations (l1 : L1) : List Turn := l1.turns.filter Turn.rotated

/-! ### The finality of a transaction -/

/-- The confirmations that the checker waits for. -/
def confirmationsRequired : ℕ := 12

/-- A transaction in a block has enough confirmations. -/
def Confirmed (finalized l1Block : ℕ) : Prop :=
  l1Block ≤ finalized ∧ confirmationsRequired ≤ finalized - l1Block

instance (finalized l1Block : ℕ) : Decidable (Confirmed finalized l1Block) :=
  inferInstanceAs (Decidable (l1Block ≤ finalized ∧ confirmationsRequired ≤ finalized - l1Block))

/-- The answer to `get_transaction_receipt`. -/
inductive Receipt
  | failed (message : String)
  | missing
  /-- A receipt without the number of a block. -/
  | pending
  | included (l1Block : ℕ)
  deriving DecidableEq, Repr

/-- The errors of `check_l1_finality`. -/
inductive FinalityError
  | providerError (message : String)
  | finalityTimeout
  | other (message : String)
  deriving DecidableEq, Repr

/-- How a round of `check_l1_finality` ends. -/
inductive Round
  | done (finalized : Bool)
  | failed (e : FinalityError)
  /-- The next round follows after a while. -/
  | again
  deriving DecidableEq, Repr

/-- The answers to the calls of a round. -/
structure Answers where
  finalized : Except FinalityError ℕ
  receipt : Receipt
  /-- More time than the timeout has passed. -/
  timedOut : Bool

/-- A round of `check_l1_finality`, with or without a timeout to wait for.  The timeout ends the
search for a receipt only: for the confirmations it waits as long as it takes. -/
def checkL1FinalityRound (waits : Bool) (answers : Answers) : Round :=
  match answers.finalized with
  | .error e => .failed e
  | .ok finalized =>
    match answers.receipt with
    | .failed message => .failed (.providerError message)
    | .missing =>
      if waits then if answers.timedOut then .failed .finalityTimeout else .again
      else .done false
    | .pending => if waits then .again else .done false
    | .included l1Block =>
      if Confirmed finalized l1Block then .done true
      else if waits then .again
      else .done false

/-! ### The tasks -/

variable {B : Type}

/-- A block and the turn in which it was assembled. -/
structure Assembled (B : Type) where
  block : B
  turn : Turn

/-- A block that was submitted, and what the first layer was at that time. -/
structure Submission (B : Type) where
  assembled : Assembled B
  l1 : L1

/-- Where the finality checker is. -/
inductive Checker
  /-- Before it reads `start_l1_block`. -/
  | idle
  /-- It has read `start_l1_block` and waits for the lock. -/
  | waiting (startL1Block : ℕ)
  /-- With the lock, before it queries the rotations. -/
  | querying
  /-- With the lock, the rotations are left to check. -/
  | checking (rotations : List Turn)
  /-- It has returned an error. -/
  | stopped
  deriving DecidableEq, Repr

/-- The lock is free. -/
def Checker.Released : Checker → Prop
  | idle => True
  | waiting _ => True
  | querying => False
  | checking _ => False
  | stopped => True

/-- The state of the tasks, with what they did so far. -/
structure State (B : Type) where
  l1 : L1
  /-- The block that the assembly loop will push. -/
  inHand : Option (Assembled B)
  pendingBlocks : List (Assembled B)
  checker : Checker
  /-- All the blocks that were assembled. -/
  assembled : List (Assembled B)
  /-- All the blocks that were submitted. -/
  submitted : List (Submission B)

/-- The state at the start. -/
def State.start (l1 : L1) : State B := ⟨l1, none, [], .idle, [], []⟩

/-- Submit the pending blocks. -/
def State.release (s : State B) : State B :=
  { s with
    pendingBlocks := []
    submitted := s.submitted ++ s.pendingBlocks.map fun assembled => ⟨assembled, s.l1⟩ }

/-- What happens next. -/
inductive Action (B : Type)
  /-- The finalized block moves on. -/
  | finalize (finalized : ℕ)
  /-- A turn begins. -/
  | begin (turn : Turn)
  /-- The assembly loop assembles a block. -/
  | assemble (block : B)
  /-- It gets the lock and pushes the block. -/
  | push
  /-- The checker reads `start_l1_block`; `none` if the call fails. -/
  | readStart (startL1Block : Option ℕ)
  /-- It gets the lock, and submits the blocks if no turn has begun. -/
  | lock
  /-- It queries the rotations; `none` if the call fails. -/
  | query (rotations : Option (List Turn))
  /-- A round of the check of a rotation. -/
  | poll (answers : Answers)
  /-- A log without the hash of its transaction. -/
  | missingHash
  /-- It has checked all the rotations, and gives the lock back. -/
  | unlock

/-- What a round of a check leads to. -/
def State.afterRound (s : State B) (rotations : List Turn) : Round → State B
  | .done true => { s.release with checker := .checking rotations.tail }
  | .done false => { s with checker := .checking rotations.tail }
  | .failed _ => { s with checker := .checking rotations.tail }
  | .again => s

/-- What an action leads to. -/
def State.next (s : State B) : Action B → State B
  | .finalize finalized => { s with l1 := { s.l1 with finalized := finalized } }
  | .begin turn => { s with l1 := { s.l1 with turns := s.l1.turns ++ [turn] } }
  | .assemble block =>
    match s.l1.turns.getLast? with
    | none => s
    | some turn =>
      { s with inHand := some ⟨block, turn⟩, assembled := s.assembled ++ [⟨block, turn⟩] }
  | .push => { s with inHand := none, pendingBlocks := s.pendingBlocks ++ s.inHand.toList }
  | .readStart none => { s with checker := .stopped }
  | .readStart (some startL1Block) => { s with checker := .waiting startL1Block }
  | .lock =>
    -- the zero was read before the lock was taken: a turn may have begun since
    match s.checker with
    | .waiting 0 => { s.release with checker := .querying }
    | _ => { s with checker := .querying }
  | .query none => { s with checker := .stopped }
  | .query (some rotations) => { s with checker := .checking rotations }
  | .poll answers =>
    match s.checker with
    | .checking rotations => s.afterRound rotations (checkL1FinalityRound true answers)
    | _ => s
  | .missingHash => { s with checker := .stopped }
  | .unlock => { s with checker := .idle }

/-- The answers are those of the first layer about the transaction of a rotation. -/
structure Answers.Honest (answers : Answers) (l1 : L1) (rotation : Turn) : Prop where
  finalized : ∀ n, answers.finalized = .ok n → n = l1.finalized
  receipt : ∀ n, answers.receipt = .included n → n = rotation.l1Block

/-- What can happen next.  A proposer assembles blocks in its turns only, and the next one after it
has pushed the last; a block is pushed while the lock is free. -/
def Action.Possible (ourAddress : Address) (s : State B) : Action B → Prop
  | .finalize _ => True
  | .begin turn => ∀ last, s.l1.turns.getLast? = some last → last.l1Block ≤ turn.l1Block
  | .assemble _ =>
    s.inHand = none ∧ ∃ turn, s.l1.turns.getLast? = some turn ∧ turn.proposer = ourAddress
  | .push => s.checker.Released
  | .readStart startL1Block =>
    s.checker = .idle ∧ ∀ n, startL1Block = some n → n = s.l1.startL1Block
  | .lock => ∃ startL1Block, s.checker = .waiting startL1Block
  | .query rotations => s.checker = .querying ∧ ∀ l, rotations = some l → l = s.l1.rotations
  | .poll answers =>
    ∃ rotation rest, s.checker = .checking (rotation :: rest) ∧ answers.Honest s.l1 rotation
  | .missingHash => ∃ rotation rest, s.checker = .checking (rotation :: rest)
  | .unlock => s.checker = .checking []

/-- The tasks of a proposer from their start, with the state before each action among the labels. -/
def tasks (B : Type) (ourAddress : Address) : TransitionSystem (State B) (State B × Action B) where
  Init s := ∃ l1 : L1, l1.turns.Pairwise (fun a b => a.l1Block ≤ b.l1Block) ∧ s = .start l1
  Step s l s' := l.1 = s ∧ l.2.Possible ourAddress s ∧ s' = s.next l.2

/-! ### The invariant -/

/-- The turns follow each other, and every block that was assembled is submitted, pending or in
hand, in this order. -/
structure Inv (s : State B) : Prop where
  turns_le : s.l1.turns.Pairwise fun a b => a.l1Block ≤ b.l1Block
  turn_mem : ∀ a ∈ s.assembled, a.turn ∈ s.l1.turns
  assembled_le : s.assembled.Pairwise fun a b => a.turn.l1Block ≤ b.turn.l1Block
  assembled_eq : s.submitted.map Submission.assembled ++ s.pendingBlocks ++ s.inHand.toList =
    s.assembled

section Invariant

variable {s : State B} {l1 : L1}

/-- In an ordered list the last is the largest. -/
theorem le_of_getLast? {α : Type} {f : α → ℕ} {l : List α} {a last : α}
    (h : l.Pairwise fun a b => f a ≤ f b) (ha : a ∈ l) (hlast : l.getLast? = some last) :
    f a ≤ f last := by
  have hle := h.rel_getLast_of_rel_getLast_getLast ha le_rfl
  rw [List.getLast?_eq_some_getLast (List.ne_nil_of_mem ha), Option.some_inj] at hlast
  rwa [hlast] at hle

theorem Inv.start (h : l1.turns.Pairwise fun a b => a.l1Block ≤ b.l1Block) :
    Inv (State.start l1 : State B) where
  turns_le := h
  turn_mem _ ha := absurd ha List.not_mem_nil
  assembled_le := .nil
  assembled_eq := rfl

/-- Where the checker is doesn't matter. -/
theorem Inv.checker (h : Inv s) (checker : Checker) : Inv { s with checker := checker } :=
  ⟨h.turns_le, h.turn_mem, h.assembled_le, h.assembled_eq⟩

theorem map_assembled_release (s : State B) :
    s.release.submitted.map Submission.assembled =
      s.submitted.map Submission.assembled ++ s.pendingBlocks := by
  rw [State.release, List.map_append, List.map_map]
  exact congrArg _ (List.map_id' _)

theorem Inv.release (h : Inv s) : Inv s.release where
  turns_le := h.turns_le
  turn_mem := h.turn_mem
  assembled_le := h.assembled_le
  assembled_eq := by
    have hpending : s.release.pendingBlocks = [] := rfl
    rw [map_assembled_release, hpending, List.append_nil]
    exact h.assembled_eq

theorem Inv.begin (h : Inv s) {turn : Turn}
    (hlast : ∀ last, s.l1.turns.getLast? = some last → last.l1Block ≤ turn.l1Block) :
    Inv (s.next (.begin turn)) where
  turns_le := by
    refine List.pairwise_append.2 ⟨h.turns_le, List.pairwise_singleton _ _, ?_⟩
    intro a ha b hb
    rw [List.mem_singleton.1 hb]
    have hsome := List.getLast?_eq_some_getLast (List.ne_nil_of_mem ha)
    exact (le_of_getLast? h.turns_le ha hsome).trans (hlast _ hsome)
  turn_mem a ha := List.mem_append_left _ (h.turn_mem a ha)
  assembled_le := h.assembled_le
  assembled_eq := h.assembled_eq

/-- A block is assembled in the last turn. -/
theorem Inv.assemble (h : Inv s) (hhand : s.inHand = none) {turn : Turn}
    (hturn : s.l1.turns.getLast? = some turn) (block : B) : Inv (s.next (.assemble block)) := by
  have hnext : s.next (.assemble block) =
      { s with inHand := some ⟨block, turn⟩, assembled := s.assembled ++ [⟨block, turn⟩] } := by
    rw [State.next, hturn]
  rw [hnext]
  refine ⟨h.turns_le, fun a ha => ?_, ?_, ?_⟩
  · rcases List.mem_append.1 ha with hold | hnew
    · exact h.turn_mem a hold
    · rw [List.mem_singleton.1 hnew]
      exact List.mem_of_getLast? hturn
  · refine List.pairwise_append.2 ⟨h.assembled_le, List.pairwise_singleton _ _, ?_⟩
    intro a ha b hb
    rw [List.mem_singleton.1 hb]
    exact le_of_getLast? h.turns_le (h.turn_mem a ha) hturn
  · rw [← h.assembled_eq, hhand, Option.toList_none, List.append_nil]
    rfl

theorem Inv.push (h : Inv s) : Inv (s.next .push) where
  turns_le := h.turns_le
  turn_mem := h.turn_mem
  assembled_le := h.assembled_le
  assembled_eq := by
    rw [State.next, Option.toList_none, List.append_nil, ← List.append_assoc]
    exact h.assembled_eq

theorem Inv.afterRound (h : Inv s) (rotations : List Turn) (round : Round) :
    Inv (s.afterRound rotations round) := by
  cases round with
  | done finalized =>
    cases finalized with
    | true => exact h.release.checker _
    | false => exact h.checker _
  | failed e => exact h.checker _
  | again => exact h

theorem Inv.lock (h : Inv s) : Inv (s.next .lock) := by
  rw [State.next]
  split
  · exact h.release.checker _
  · exact h.checker _

/-- **The invariant is kept.** -/
theorem Inv.next {ourAddress : Address} (h : Inv s) {a : Action B}
    (hpossible : a.Possible ourAddress s) : Inv (s.next a) := by
  cases a with
  | finalize finalized => exact ⟨h.turns_le, h.turn_mem, h.assembled_le, h.assembled_eq⟩
  | begin turn => exact h.begin hpossible
  | assemble block =>
    obtain ⟨hhand, turn, hturn, -⟩ := hpossible
    exact h.assemble hhand hturn block
  | push => exact h.push
  | readStart startL1Block =>
    cases startL1Block with
    | none => exact h.checker _
    | some n => exact h.checker _
  | lock => exact h.lock
  | query rotations =>
    cases rotations with
    | none => exact h.checker _
    | some l => exact h.checker _
  | poll answers =>
    obtain ⟨rotation, rest, hchecker, -⟩ := hpossible
    rw [State.next, hchecker]
    exact h.afterRound _ _
  | missingHash => exact h.checker _
  | unlock => exact h.checker _

end Invariant

/-! ### The result -/

/-- When a block was submitted, no turn had begun, or the transaction with which its turn began had
enough confirmations. -/
def Submission.Entitled (submission : Submission B) : Prop :=
  submission.l1.turns = [] ∨
    Confirmed submission.l1.finalized submission.assembled.turn.l1Block

/-- **Blocks wait for the rotation that entitles them**, and are submitted once and in order. -/
structure WaitsForRotation (s : State B) : Prop where
  entitled : ∀ submission ∈ s.submitted, submission.Entitled
  ordered : s.submitted.map Submission.assembled <+: s.assembled

/-- The transaction with which the turn of the newest pending block began has enough
confirmations. -/
def State.NewestConfirmed (s : State B) : Prop :=
  ∀ newest, s.pendingBlocks.getLast? = some newest →
    Confirmed s.l1.finalized newest.turn.l1Block

/-- The queue is released, by a rotation with enough confirmations or because `start_l1_block` was
zero when it was read, only if the newest block has waited long enough. -/
def Action.Careful (s : State B) : Action B → Prop
  | .lock => s.checker = .waiting 0 → s.NewestConfirmed
  | .poll answers => checkL1FinalityRound true answers = .done true → s.NewestConfirmed
  | _ => True

section Result

variable {s : State B} {ourAddress : Address}

/-- Blocks are submitted in the order of their assembly, and each one once. -/
theorem prefix_assembled (h : Inv s) : s.submitted.map Submission.assembled <+: s.assembled := by
  rw [← h.assembled_eq, List.append_assoc]
  exact List.prefix_append _ _

/-- Older turns have more confirmations. -/
theorem Confirmed.mono {finalized m n : ℕ} (h : Confirmed finalized n) (hle : m ≤ n) :
    Confirmed finalized m :=
  ⟨hle.trans h.1, h.2.trans (Nat.sub_le_sub_left hle _)⟩

theorem Inv.pending_subset (h : Inv s) : s.pendingBlocks ⊆ s.assembled := by
  intro a ha
  rw [← h.assembled_eq]
  exact List.mem_append_left _ (List.mem_append_right _ ha)

theorem Inv.pending_le (h : Inv s) :
    s.pendingBlocks.Pairwise fun a b => a.turn.l1Block ≤ b.turn.l1Block := by
  have hall := h.assembled_le
  rw [← h.assembled_eq] at hall
  exact (List.pairwise_append.1 (List.pairwise_append.1 hall).1).2.1

/-- **A release.**  All of the pending blocks have waited long enough if the newest one has. -/
theorem entitled_release_iff (h : Inv s) :
    (∀ submission ∈ s.release.submitted, submission.Entitled) ↔
      (∀ submission ∈ s.submitted, submission.Entitled) ∧ s.NewestConfirmed := by
  rw [State.release, List.forall_mem_append, List.forall_mem_map]
  refine and_congr_right fun _ => ⟨fun hall newest hnewest => ?_, fun hnewest a ha => ?_⟩
  · have hmem := List.mem_of_getLast? hnewest
    have hturn := h.turn_mem newest (h.pending_subset hmem)
    exact (hall newest hmem).resolve_left (List.ne_nil_of_mem hturn)
  · have hsome := List.getLast?_eq_some_getLast (List.ne_nil_of_mem ha)
    exact .inr ((hnewest _ hsome).mono
      (le_of_getLast? (f := fun a => a.turn.l1Block) h.pending_le ha hsome))

/-- **One step.**  Blocks wait for their rotations as long as the steps are careful. -/
theorem entitled_next_iff (h : Inv s) {a : Action B} (hpossible : a.Possible ourAddress s) :
    (∀ submission ∈ (s.next a).submitted, submission.Entitled) ↔
      (∀ submission ∈ s.submitted, submission.Entitled) ∧ a.Careful s := by
  cases a with
  | finalize finalized => exact (and_iff_left trivial).symm
  | begin turn => exact (and_iff_left trivial).symm
  | assemble block =>
    obtain ⟨-, turn, hturn, -⟩ := hpossible
    rw [State.next, hturn]
    exact (and_iff_left trivial).symm
  | push => exact (and_iff_left trivial).symm
  | readStart startL1Block =>
    cases startL1Block with
    | none => exact (and_iff_left trivial).symm
    | some n => exact (and_iff_left trivial).symm
  | lock =>
    obtain ⟨startL1Block, hchecker⟩ := hpossible
    rw [State.next, hchecker, Action.Careful, hchecker]
    cases startL1Block with
    | zero =>
      refine (entitled_release_iff h).trans (and_congr_right fun _ => ?_)
      exact ⟨fun hnewest _ => hnewest, fun hcareful => hcareful rfl⟩
    | succ n => exact (and_iff_left fun hzero => by cases hzero).symm
  | query rotations =>
    cases rotations with
    | none => exact (and_iff_left trivial).symm
    | some l => exact (and_iff_left trivial).symm
  | poll answers =>
    obtain ⟨rotation, rest, hchecker, -⟩ := hpossible
    rw [State.next, hchecker, Action.Careful]
    cases hround : checkL1FinalityRound true answers with
    | done finalized =>
      cases finalized with
      | true =>
        refine (entitled_release_iff h).trans (and_congr_right fun _ => ?_)
        exact ⟨fun hnewest _ => hnewest, fun hcareful => hcareful rfl⟩
      | false => exact (and_iff_left fun hdone => by cases hdone).symm
    | failed e => exact (and_iff_left fun hdone => by cases hdone).symm
    | again => exact (and_iff_left fun hdone => by cases hdone).symm
  | missingHash => exact (and_iff_left trivial).symm
  | unlock => exact (and_iff_left trivial).symm

/-- **When blocks wait for the rotation that entitles them**, in every run. -/
theorem waitsForRotation_iff {trace : List (State B × Action B)}
    (hrun : (tasks B ourAddress).Run trace s) :
    WaitsForRotation s ↔ ∀ l ∈ trace, l.2.Careful l.1 := by
  have hall : Inv s ∧ ((∀ submission ∈ s.submitted, submission.Entitled) ↔
      ∀ l ∈ trace, l.2.Careful l.1) := by
    induction hrun with
    | init hinit =>
      obtain ⟨l1, hl1, rfl⟩ := hinit
      exact ⟨.start hl1, iff_of_true (List.forall_mem_nil _) (List.forall_mem_nil _)⟩
    | step _ hstep ih =>
      obtain ⟨hinv, hiff⟩ := ih
      obtain ⟨hl, hpossible, rfl⟩ := hstep
      subst hl
      refine ⟨hinv.next hpossible, ?_⟩
      rw [entitled_next_iff hinv hpossible, hiff, List.forall_mem_cons, and_comm]
  refine ⟨fun h => hall.2.1 h.entitled, fun h => ⟨hall.2.2 h, prefix_assembled hall.1⟩⟩

end Result

/-! ### Two runs -/

/-- A proposer in its first turn, which began with block 5. -/
def firstTurn : L1 := ⟨[⟨1, 5, true⟩], 30⟩

/-- The answers about a transaction in a block. -/
def answersAt (finalized l1Block : ℕ) : Answers := ⟨.ok finalized, .included l1Block, false⟩

theorem honest_answersAt (l1 : L1) (rotation : Turn) :
    (answersAt l1.finalized rotation.l1Block).Honest l1 rotation := by
  constructor
  · rintro _ ⟨⟩
    rfl
  · rintro _ ⟨⟩
    rfl

/-- One more action. -/
theorem run_next {ourAddress : Address} {trace : List (State B × Action B)} {s : State B}
    (h : (tasks B ourAddress).Run trace s) {a : Action B} (hpossible : a.Possible ourAddress s) :
    (tasks B ourAddress).Run ((s, a) :: trace) (s.next a) :=
  h.step ⟨rfl, hpossible, rfl⟩

/-- A block of the first turn is released by its rotation. -/
theorem waits_for_rotation_sample :
    ∃ (trace : List (State ℕ × Action ℕ)) (s : State ℕ), (tasks ℕ 1).Run trace s ∧
      s.submitted.length = 1 ∧ WaitsForRotation s := by
  have hstart : (tasks ℕ 1).Run [] (State.start firstTurn) :=
    .init ⟨firstTurn, List.pairwise_singleton _ _, rfl⟩
  have hassembled := run_next hstart (a := .assemble 7) ⟨rfl, _, rfl, rfl⟩
  have hpushed := run_next hassembled (a := .push) trivial
  have hread := run_next hpushed (a := .readStart (some 5)) ⟨rfl, fun _ h => (by cases h; rfl)⟩
  have hlocked := run_next hread (a := .lock) ⟨5, rfl⟩
  have hqueried := run_next hlocked (a := .query (some firstTurn.rotations))
    ⟨rfl, fun _ h => (by cases h; rfl)⟩
  have hpolled := run_next hqueried (a := .poll (answersAt 30 5))
    ⟨⟨1, 5, true⟩, [], rfl, honest_answersAt firstTurn ⟨1, 5, true⟩⟩
  refine ⟨_, _, hpolled, rfl, (waitsForRotation_iff hpolled).2 ?_⟩
  simp only [List.forall_mem_cons, Action.Careful, true_and, List.not_mem_nil, false_implies,
    implies_true, and_true]
  refine ⟨fun _ => ?_, fun h => ?_⟩
  · intro newest h
    cases h
    decide
  · cases h

/-- A block of a turn that began five blocks ago is released by the rotation before. -/
theorem not_waits_for_rotation :
    ∃ (trace : List (State ℕ × Action ℕ)) (s : State ℕ), (tasks ℕ 1).Run trace s ∧
      ¬WaitsForRotation s := by
  have hstart : (tasks ℕ 1).Run [] (State.start firstTurn) :=
    .init ⟨firstTurn, List.pairwise_singleton _ _, rfl⟩
  have hturn := run_next hstart (a := .begin ⟨1, 90, true⟩) fun _ h => (by cases h; decide)
  have hfinal := run_next hturn (a := .finalize 95) trivial
  have hassembled := run_next hfinal (a := .assemble 7) ⟨rfl, _, rfl, rfl⟩
  have hpushed := run_next hassembled (a := .push) trivial
  have hread := run_next hpushed (a := .readStart (some 90)) ⟨rfl, fun _ h => (by cases h; rfl)⟩
  have hlocked := run_next hread (a := .lock) ⟨90, rfl⟩
  have hqueried := run_next hlocked (a := .query (some [⟨1, 5, true⟩, ⟨1, 90, true⟩]))
    ⟨rfl, fun _ h => (by cases h; rfl)⟩
  have hpolled := run_next hqueried (a := .poll (answersAt 95 5))
    ⟨⟨1, 5, true⟩, [⟨1, 90, true⟩], rfl, honest_answersAt ⟨_, 95⟩ ⟨1, 5, true⟩⟩
  refine ⟨_, _, hpolled, fun hwaits => ?_⟩
  rcases hwaits.entitled _ List.mem_cons_self with h | h
  · cases h
  · exact absurd h (by decide)

end Finality

end Node

end Nightfall
