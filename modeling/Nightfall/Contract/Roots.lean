import Nightfall.Contract.Calls

/-!
# The roots of the contract

`propose_block` sets all three roots to those of the block, before it calls the proposer; no other step
of the contract touches them (`Step.roots_of_accepted`, `Step.keepsRoots`).
-/

namespace Nightfall

namespace Contract

/-- The three roots stay. -/
def KeepsRoots (s s' : State) : Prop :=
  s'.commitmentRoot = s.commitmentRoot ∧ s'.nullifierRoot = s.nullifierRoot ∧
    s'.historicRootsRoot = s.historicRootsRoot

/-- The three roots are those of the block. -/
def HasRoots (s : State) (blk : Block) : Prop :=
  s.commitmentRoot = blk.commitmentsRoot ∧ s.nullifierRoot = blk.nullifierRoot ∧
    s.historicRootsRoot = blk.commitmentsRootRoot

section

variable {hs : Hashes} {s s' : State}

theorem proposeBlock_hasRoots {verifier : Verifier} {ctx : ProposeContext} {blk : Block}
    (h : proposeBlock hs verifier ctx s blk = some s') : HasRoots s' blk := by
  simp only [proposeBlock, Option.bind_eq_bind, Option.bind_eq_some_iff, Option.pure_def,
    Option.some.injEq] at h
  obtain ⟨-, -, hash, -, ⟨verified, feeSum⟩, -, -, -, ⟨s₁, totalFee⟩, -, -, -, rfl⟩ := h
  exact ⟨rfl, rfl, rfl⟩

theorem finishDescrow_keepsRoots {call : DescrowCall} {answer : Bool} :
    KeepsRoots s (finishDescrow hs call answer s) := by
  unfold finishDescrow
  split_ifs <;> exact ⟨rfl, rfl, rfl⟩

theorem beginDescrow_keepsRoots {self : Address} {call : DescrowCall} {payment : Payment}
    (h : beginDescrow hs self call s = some (s', payment)) : KeepsRoots s s' := by
  obtain ⟨-, ⟨-, -, -, hs'⟩ | ⟨-, -, -, hs'⟩ | ⟨-, -, -, hs'⟩⟩ := beginDescrow_cases h <;> rw [hs']
  all_goals exact ⟨rfl, rfl, rfl⟩

end

section Runs

variable {D : Deployment} {c c' : Config}

theorem Step.roots_of_accepted {blk : Block} (h : Step D c (.accepted blk) c') :
    HasRoots c'.state blk := by
  cases h with
  | accepted hcall => exact proposeBlock_hasRoots hcall

theorem Step.keepsRoots {a : Action} (h : Step D c a c') (ha : ∀ blk, a ≠ .accepted blk) :
    KeepsRoots c.state c'.state := by
  cases h with
  | escrowCalled hcall => rw [beginEscrow_eq hcall]; exact ⟨rfl, rfl, rfl⟩
  | escrowed hcall => rw [finishEscrow_eq hcall]; exact ⟨rfl, rfl, rfl⟩
  | accepted hcall => exact absurd rfl (ha _)
  | proposed hcall => rw [finishProposal_eq hcall]; exact ⟨rfl, rfl, rfl⟩
  | etherTaken => exact ⟨rfl, rfl, rfl⟩
  | descrowed => exact finishDescrow_keepsRoots
  | etherPaid hcall | transferCalled hcall | notTransferable hcall =>
    exact beginDescrow_keepsRoots hcall

/-- The contract from a given configuration on. -/
def contractFrom (D : Deployment) (c₀ : Config) : TransitionSystem Config Event :=
  .ofExec (· = c₀) (exec D)

/-- The block of a step that accepts one. -/
def Action.block? : Action → Option Block
  | .accepted blk => some blk
  | _ => none

/-- The accepted blocks of a run, the oldest first. -/
def acceptedBlocks (trace : List Event) : List Block := trace.reverse.filterMap (·.action.block?)

theorem acceptedBlocks_cons (e : Event) (trace : List Event) :
    acceptedBlocks (e :: trace) = acceptedBlocks trace ++ e.action.block?.toList := by
  rw [acceptedBlocks, List.reverse_cons, List.filterMap_append]
  cases h : e.action.block? <;> simp [acceptedBlocks, h]

theorem Action.eq_accepted {a : Action} {blk : Block} (h : a.block? = some blk) : a = .accepted blk := by
  cases a <;> cases h
  rfl

end Runs

end Contract

end Nightfall
