import Nightfall.RoundRobin.Stakes

/-!
# The cooldown

A proposer that leaves has to wait before it can join again.  The block in which it left is recorded
only if it was current: such a proposer is refused until the cooldown is over, in every run
(`current_waits`), and if only current proposers leave, the cooldown is enforced (`cooldown_of_current`).
-/

namespace Nightfall

namespace RoundRobin

open Evm

open Contract (Address)

/-- The proposer that leaves is current. -/
def Event.CurrentLeaves (e : Event) : Prop :=
  match e.action with
  | .removed address => address = e.before.current.addr
  | _ => True

instance : DecidablePred Event.CurrentLeaves := fun e =>
  match e with
  | ⟨_, _, .removed _, _⟩ => inferInstanceAs (Decidable (_ = _))
  | ⟨_, _, .bootstrapped _, _⟩ | ⟨_, _, .added _, _⟩ | ⟨_, _, .rotated _, _⟩
  | ⟨_, _, .withdrawn _ _, _⟩ => isTrue trivial

/-- A proposer that left does not join again before the cooldown is over. -/
def Cooldown (cfg : Settings) (trace : List Event) : Prop :=
  trace.Pairwise fun later earlier => ∀ address, later.action = .added address →
    earlier.action = .removed address →
    earlier.blockNumber + cfg.cooldownBlocks < later.blockNumber

/-- The recorded exits of a run. -/
structure ExitsRecorded (trace : List Event) (c : Config) : Prop where
  clock_pos : 0 < c.clock
  /-- Nothing is recorded from the future. -/
  le_clock : ∀ a, c.state.lastExitBlock a ≤ c.clock
  /-- The exits of current proposers. -/
  exits : ∀ e ∈ trace, e.CurrentLeaves → ∀ a, e.action = .removed a →
    0 < e.blockNumber ∧ e.blockNumber ≤ c.state.lastExitBlock a

section

variable {cfg : Settings} {ctx : Context} {reg : Finset Address} {s s' : State} {address : Address}

/-- The block is recorded of a current proposer that leaves. -/
theorem left_lastExitBlock :
    (left cfg ctx address s).lastExitBlock =
      if address = s.current.addr then Function.update s.lastExitBlock address ctx.blockNumber
      else s.lastExitBlock := by
  rw [left_eq]
  show (leaving cfg ctx address s).lastExitBlock = _
  unfold leaving
  split_ifs with hcurrent
  · rw [hcurrent]
    rfl
  · rfl

/-- A step records at most the block of the step. -/
theorem Step.lastExitBlock {a : Action} (hacc : Accounts reg s) (hst : Step cfg ctx s a s') :
    s'.lastExitBlock = s.lastExitBlock ∨
      ∃ address, s'.lastExitBlock = Function.update s.lastExitBlock address ctx.blockNumber := by
  have hleft : ∀ address, (left cfg ctx address s).lastExitBlock = s.lastExitBlock ∨
      ∃ a, (left cfg ctx address s).lastExitBlock =
        Function.update s.lastExitBlock a ctx.blockNumber := by
    intro address
    rw [left_lastExitBlock]
    split_ifs
    · exact .inr ⟨address, rfl⟩
    · exact .inl rfl
  cases hst with
  | bootstrapped hcall =>
    simp only [bootstrapDefaultProposer, bind_eq_ok, pure_eq_ok] at hcall
    obtain ⟨_, -, _, -, _, -, _, -, _, -, _, -, rfl⟩ := hcall
    exact .inl rfl
  | added hcall =>
    simp only [addProposer, bind_eq_ok, pure_eq_ok] at hcall
    obtain ⟨_, -, _, -, _, -, _, -, _, -, _, -, _, -, _, -, rfl⟩ := hcall
    exact .inl rfl
  | removed hcall =>
    obtain ⟨-, rfl⟩ := hacc.removeProposerOf_eq_ok.1 hcall
    exact hleft ctx.sender
  | rotated hcall =>
    obtain ⟨-, s₁, hpenalize, rfl⟩ := rotateProposer_eq_ok.1 hcall
    rcases hacc.penalizeIfLazy_eq_ok.1 hpenalize with ⟨-, rfl, -⟩ | ⟨-, ⟨-, -, rfl, -⟩ | ⟨-, rfl, -⟩⟩
    · exact .inl rfl
    · exact hleft s.current.addr
    · exact .inl rfl
  | withdrawn hcall =>
    obtain ⟨-, rfl⟩ := withdraw_eq_ok.1 hcall
    exact .inl rfl

/-- A proposer that joins waited. -/
theorem Step.waits (hst : Step cfg ctx s (.added address) s') (hexit : s.lastExitBlock address ≠ 0) :
    s.lastExitBlock address + cfg.cooldownBlocks < ctx.blockNumber := by
  cases hst with
  | added hcall =>
    simp only [addProposer, bind_eq_ok, require_eq_ok] at hcall
    obtain ⟨_, -, _, hwait, -⟩ := hcall
    exact hwait hexit

/-- The exit of a current proposer is recorded. -/
theorem Step.recorded (hst : Step cfg ctx s (.removed address) s')
    (hcurrent : address = s.current.addr) : s'.lastExitBlock address = ctx.blockNumber := by
  cases hst with
  | removed hcall =>
    obtain ⟨-, rfl⟩ := removeProposerOf_eq_ok.1 hcall
    rw [left_lastExitBlock, if_pos hcurrent, Function.update_self]

/-- What is recorded of an exit is not lost. -/
theorem ExitsRecorded.step {trace : List Event} {c c' : Config} {e : Event}
    (h : ExitsRecorded trace c) (hclock : c.clock ≤ e.blockNumber)
    (hclock' : c'.clock = e.blockNumber)
    (hrecords : c'.state.lastExitBlock = c.state.lastExitBlock ∨ ∃ address,
      c'.state.lastExitBlock = Function.update c.state.lastExitBlock address e.blockNumber)
    (hexit : e.CurrentLeaves → ∀ a, e.action = .removed a →
      c'.state.lastExitBlock a = e.blockNumber) : ExitsRecorded (e :: trace) c' := by
  have hpos := h.clock_pos
  have hbetween : ∀ a, c.state.lastExitBlock a ≤ c'.state.lastExitBlock a ∧
      c'.state.lastExitBlock a ≤ c'.clock := by
    intro a
    have hle := h.le_clock a
    rcases hrecords with heq | ⟨address, heq⟩ <;> rw [heq]
    · omega
    · rw [Function.update_apply]
      split_ifs <;> omega
  refine ⟨by omega, fun a => (hbetween a).2, fun e' he' hcurrent a ha => ?_⟩
  rcases List.mem_cons.1 he' with rfl | hpast
  · rw [hexit hcurrent a ha]
    exact ⟨by omega, le_rfl⟩
  · obtain ⟨hpos', hle⟩ := h.exits e' hpast hcurrent a ha
    exact ⟨hpos', hle.trans (hbetween a).1⟩

end

section Runs

variable {cfg : Settings} {trace : List Event} {c : Config}

/-- **A current proposer that left is refused until the cooldown is over**, whoever else leaves. -/
theorem current_waits (h : (ringSystem cfg).Run trace c) :
    trace.Pairwise fun later earlier => earlier.CurrentLeaves → ∀ address,
      later.action = .added address → earlier.action = .removed address →
      earlier.blockNumber + cfg.cooldownBlocks < later.blockNumber := by
  have hinv := h.invariant (I := fun trace c => Accounts (registered trace) c.state ∧
    ExitsRecorded trace c ∧ trace.Pairwise fun later earlier => earlier.CurrentLeaves → ∀ address,
      later.action = .added address → earlier.action = .removed address →
      earlier.blockNumber + cfg.cooldownBlocks < later.blockNumber) (fun _ _ => trivial) ?_ ?_
  · exact hinv.2.2
  · intro c hinit
    have hacc := accounts (.init hinit)
    obtain ⟨hclock, balance, -, hstate⟩ := hinit
    refine ⟨hacc, ⟨hclock, fun a => ?_, List.forall_mem_nil _⟩, .nil⟩
    rw [hstate]
    exact Nat.zero_le _
  · rintro trace c ⟨before, blockNumber, action, after⟩ c' - ⟨hacc, hexits, hcool⟩ ⟨call, hexec⟩
    obtain ⟨hle, hclock, rfl, rfl, ctx, hblock, hst⟩ := execAt_step hexec
    refine ⟨hacc.step hst, hexits.step hle hclock ?_ ?_, List.pairwise_cons.2 ⟨?_, hcool⟩⟩
    · rw [← hblock]
      exact hst.lastExitBlock hacc
    · rintro hcurrent a rfl
      exact (hst.recorded hcurrent).trans hblock
    · rintro e he hcurrent a rfl hremoved
      obtain ⟨hpos, hexit⟩ := hexits.exits e he hcurrent a hremoved
      have hwait := hst.waits (by omega)
      dsimp only at hblock ⊢
      omega

/-- **If only current proposers leave, the cooldown is enforced.** -/
theorem cooldown_of_current (h : (ringSystem cfg).Run trace c)
    (hcurrent : ∀ e ∈ trace, e.CurrentLeaves) : Cooldown cfg trace :=
  (current_waits h).imp_of_mem fun _ hearlier hwaits => hwaits (hcurrent _ hearlier)

end Runs

/-! ### Runs on concrete proposers -/

/-- Two proposers join, and the current one leaves and joins again after the cooldown. -/
def cooldownCalls : List (Context × Command) :=
  [(callBy alice 1 0, .bootstrapDefaultProposer 1 "a"), (callBy bob 2 0, .addProposer "b"),
    (callBy alice 3 0, .removeProposer), (callBy alice 14 0, .addProposer "a")]

/-- Two proposers join, and the other one leaves and joins again at once. -/
def rejoinCalls : List (Context × Command) :=
  [(callBy alice 1 0, .bootstrapDefaultProposer 1 "a"), (callBy bob 2 0, .addProposer "b"),
    (callBy bob 3 0, .removeProposer), (callBy bob 3 0, .addProposer "b")]

theorem cooldownCalls_isSome : (ringRun sampleSettings cooldownCalls).isSome := by decide +kernel

theorem rejoinCalls_isSome : (ringRun sampleSettings rejoinCalls).isSome := by decide +kernel

theorem cooldown_of_current_sample :
    (((ringRun sampleSettings cooldownCalls).get cooldownCalls_isSome).1.map Event.action =
        [.added alice, .removed alice, .added bob, .bootstrapped alice]) ∧
      Cooldown sampleSettings ((ringRun sampleSettings cooldownCalls).get cooldownCalls_isSome).1 :=
  ⟨by decide +kernel, cooldown_of_current (run_ringRun cooldownCalls_isSome) (by decide +kernel)⟩

/-- A proposer that is not current leaves and joins again in the same block. -/
theorem rejoined_at_once : ∃ (cfg : Settings) (trace : List Event) (c : Config),
    (ringSystem cfg).Run trace c ∧ ¬Cooldown cfg trace := by
  refine ⟨_, _, _, run_ringRun rejoinCalls_isSome, fun h => ?_⟩
  have hwait := List.pairwise_iff_getElem.1 h 0 1 (by decide +kernel) (by decide +kernel)
    Nat.one_pos bob (by decide +kernel) (by decide +kernel)
  exact absurd hwait (by decide +kernel)

end RoundRobin

end Nightfall
