import Nightfall.RoundRobin.Calls

/-!
# What a proposer that leaves leaves behind

`_remove_proposer` in closed form: when it succeeds and which storage it leaves.  It is used both by
`remove_proposer` and by a rotation away from a lazy proposer.
-/

namespace Nightfall

namespace RoundRobin

open Evm

open Contract (Address)

section

variable (cfg : Settings) (ctx : Context) (address : Address) (s : State)

/-- What a proposer pays to leave: the current one the exit penalty. -/
def fine : ℕ := if address = s.current.addr then cfg.exitPenalty else 0

/-- The storage after `exitCurrent`. -/
def exited : State :=
  { s with
    proposers := setStake s.proposers s.current.addr
      ((s.proposers s.current.addr).stake - cfg.exitPenalty)
    escrow := s.escrow - cfg.exitPenalty
    current := setStake s.proposers s.current.addr
      ((s.proposers s.current.addr).stake - cfg.exitPenalty) s.current.nextAddr
    startL1Block := ctx.blockNumber
    startL2Block := ctx.layer2BlockNumber
    lastExitBlock := Function.update s.lastExitBlock s.current.addr ctx.blockNumber }

/-- The storage after `release`. -/
def released : State :=
  { s with
    escrow := s.escrow - (s.proposers address).stake
    pendingWithdraws := Function.update s.pendingWithdraws address
      (s.pendingWithdraws address + (s.proposers address).stake)
    proposerUrls := Function.update s.proposerUrls (s.proposers address).url false
    proposers := Function.update s.proposers address .zero
    proposerCount := s.proposerCount - 1 }

/-- The storage after the penalty of `lazy_penalize_proposer`. -/
def penalized : State :=
  { s with
    proposers := setStake s.proposers address ((s.proposers address).stake - cfg.lazyPenalty)
    escrow := s.escrow - cfg.lazyPenalty }

/-- The storage before the links are mended. -/
def leaving : State := if address = s.current.addr then exited cfg ctx s else s

/-- The storage after `_remove_proposer`. -/
def left : State :=
  closeRing (released address (unlink address (leaving cfg ctx address s)))

/-- What the current proposer needs to leave. -/
structure MayExit : Prop where
  count : 1 < s.proposerCount
  stake : cfg.exitPenalty ≤ (s.proposers s.current.addr).stake

/-- What a proposer needs to leave. -/
structure MayLeave : Prop where
  addr_eq : (s.proposers address).addr = address
  ne_zero : address ≠ 0
  exit : address = s.current.addr → MayExit cfg s

/-- The arithmetic of `_remove_proposer` is in bounds. -/
structure InBounds : Prop where
  fine_le : fine cfg address s ≤ s.escrow
  stake_le : (s.proposers address).stake - fine cfg address s ≤ s.escrow - fine cfg address s
  pending_lt : s.pendingWithdraws address + ((s.proposers address).stake - fine cfg address s) <
    2 ^ 256
  count_pos : 1 ≤ s.proposerCount

end

variable {cfg : Settings} {ctx : Context} {address : Address} {s s' : State}

theorem exitCurrent_eq_ok :
    exitCurrent cfg ctx s = .ok s' ↔
      (MayExit cfg s ∧ cfg.exitPenalty ≤ s.escrow) ∧ exited cfg ctx s = s' := by
  simp only [exitCurrent, bind_eq_ok, require_eq_ok, checkedSub_eq_ok, pure_eq_ok]
  constructor
  · rintro ⟨-, hcount, -, hstake, _, ⟨-, rfl⟩, _, ⟨hescrow, rfl⟩, rfl⟩
    exact ⟨⟨⟨hcount, hstake⟩, hescrow⟩, rfl⟩
  · rintro ⟨⟨⟨hcount, hstake⟩, hescrow⟩, rfl⟩
    exact ⟨(), hcount, (), hstake, _, ⟨hstake, rfl⟩, _, ⟨hescrow, rfl⟩, rfl⟩

theorem exitIfCurrent_eq_ok :
    exitIfCurrent cfg ctx address s = .ok s' ↔
      ((address = s.current.addr → MayExit cfg s) ∧ fine cfg address s ≤ s.escrow) ∧
        leaving cfg ctx address s = s' := by
  unfold exitIfCurrent leaving fine
  split_ifs with hcurrent
  · simp only [exitCurrent_eq_ok, hcurrent, true_imp_iff]
  · simp [hcurrent]

theorem release_eq_ok :
    release address s = .ok s' ↔
      ((s.proposers address).stake ≤ s.escrow ∧
        s.pendingWithdraws address + (s.proposers address).stake < 2 ^ 256 ∧
        1 ≤ s.proposerCount) ∧ released address s = s' := by
  simp only [release, bind_eq_ok, checkedSub_eq_ok, checkedAdd_eq_ok, pure_eq_ok]
  constructor
  · rintro ⟨_, ⟨hescrow, rfl⟩, _, ⟨hpending, rfl⟩, _, ⟨hcount, rfl⟩, rfl⟩
    exact ⟨⟨hescrow, hpending, hcount⟩, rfl⟩
  · rintro ⟨⟨hescrow, hpending, hcount⟩, rfl⟩
    exact ⟨_, ⟨hescrow, rfl⟩, _, ⟨hpending, rfl⟩, _, ⟨hcount, rfl⟩, rfl⟩

/-! ### The storage before the links are mended -/

theorem leaving_account (x : Address) :
    ((leaving cfg ctx address s).proposers x).account =
      if x = address then ((s.proposers address).addr, (s.proposers address).url,
        (s.proposers address).stake - fine cfg address s)
      else (s.proposers x).account := by
  unfold leaving fine
  by_cases hcurrent : address = s.current.addr
  · subst hcurrent
    rw [if_pos rfl, if_pos rfl]
    exact setStake_account ..
  · rw [if_neg hcurrent, if_neg hcurrent]
    split_ifs with hx
    · subst hx
      rfl
    · rfl

theorem leaving_escrow : (leaving cfg ctx address s).escrow = s.escrow - fine cfg address s := by
  unfold leaving fine
  split_ifs <;> rfl

theorem leaving_pendingWithdraws :
    (leaving cfg ctx address s).pendingWithdraws = s.pendingWithdraws := by
  unfold leaving
  split_ifs <;> rfl

theorem leaving_proposerCount : (leaving cfg ctx address s).proposerCount = s.proposerCount := by
  unfold leaving
  split_ifs <;> rfl

theorem leaving_balance : (leaving cfg ctx address s).balance = s.balance := by
  unfold leaving
  split_ifs <;> rfl

theorem leaving_proposerUrls : (leaving cfg ctx address s).proposerUrls = s.proposerUrls := by
  unfold leaving
  split_ifs <;> rfl

/-! ### The storage after it -/

@[simp] theorem released_proposers (x : Address) :
    (released address s).proposers x = if x = address then .zero else s.proposers x :=
  Function.update_apply ..

@[simp] theorem unlink_escrow : (unlink address s).escrow = s.escrow := rfl

@[simp] theorem unlink_pendingWithdraws :
    (unlink address s).pendingWithdraws = s.pendingWithdraws := rfl

@[simp] theorem unlink_proposerCount : (unlink address s).proposerCount = s.proposerCount := rfl

theorem unlink_leaving_account (x : Address) :
    ((unlink address (leaving cfg ctx address s)).proposers x).account =
      if x = address then ((s.proposers address).addr, (s.proposers address).url,
        (s.proposers address).stake - fine cfg address s)
      else (s.proposers x).account :=
  (bridge_account ..).trans (leaving_account x)

theorem unlink_leaving_stake :
    ((unlink address (leaving cfg ctx address s)).proposers address).stake =
      (s.proposers address).stake - fine cfg address s := by
  have h : ((unlink address (leaving cfg ctx address s)).proposers address).account = _ :=
    unlink_leaving_account address
  rw [if_pos rfl] at h
  exact congrArg (·.2.2) h

theorem unlink_leaving_url :
    ((unlink address (leaving cfg ctx address s)).proposers address).url =
      (s.proposers address).url := by
  have h : ((unlink address (leaving cfg ctx address s)).proposers address).account = _ :=
    unlink_leaving_account address
  rw [if_pos rfl] at h
  exact congrArg (·.2.1) h

/-- **`_remove_proposer` in closed form.** -/
theorem removeProposerOf_eq_ok :
    removeProposerOf cfg ctx address s = .ok s' ↔
      (MayLeave cfg address s ∧ InBounds cfg address s) ∧ left cfg ctx address s = s' := by
  have hrelease : ∀ s₂, release address (unlink address (leaving cfg ctx address s)) = .ok s₂ ↔
      ((s.proposers address).stake - fine cfg address s ≤ s.escrow - fine cfg address s ∧
        s.pendingWithdraws address + ((s.proposers address).stake - fine cfg address s) < 2 ^ 256 ∧
        1 ≤ s.proposerCount) ∧
      released address (unlink address (leaving cfg ctx address s)) = s₂ := by
    intro s₂
    rw [release_eq_ok, unlink_leaving_stake, unlink_escrow, unlink_pendingWithdraws,
      unlink_proposerCount, leaving_escrow, leaving_pendingWithdraws, leaving_proposerCount]
  simp only [removeProposerOf, bind_eq_ok, require_eq_ok, exitIfCurrent_eq_ok, pure_eq_ok]
  constructor
  · rintro ⟨-, haddr, -, hne, _, ⟨⟨hexit, hfine⟩, rfl⟩, s₂, hs₂, rfl⟩
    obtain ⟨⟨hle, hlt, hpos⟩, rfl⟩ := (hrelease s₂).1 hs₂
    exact ⟨⟨⟨haddr, hne, hexit⟩, ⟨hfine, hle, hlt, hpos⟩⟩, rfl⟩
  · rintro ⟨⟨⟨haddr, hne, hexit⟩, ⟨hfine, hle, hlt, hpos⟩⟩, rfl⟩
    exact ⟨(), haddr, (), hne, _, ⟨⟨hexit, hfine⟩, rfl⟩, _,
      (hrelease _).2 ⟨⟨hle, hlt, hpos⟩, rfl⟩, rfl⟩

theorem left_account (x : Address) :
    ((left cfg ctx address s).proposers x).account =
      if x = address then Proposer.zero.account else (s.proposers x).account := by
  rw [left, closeRing_account, released_proposers]
  split_ifs with hx
  · rfl
  · rw [unlink_leaving_account, if_neg hx]

/-- What changes besides the entries. -/
theorem left_eq :
    left cfg ctx address s = { s with
      escrow := s.escrow - fine cfg address s -
        ((s.proposers address).stake - fine cfg address s)
      pendingWithdraws := Function.update s.pendingWithdraws address
        (s.pendingWithdraws address + ((s.proposers address).stake - fine cfg address s))
      proposerUrls := Function.update s.proposerUrls (s.proposers address).url false
      proposerCount := s.proposerCount - 1
      proposers := (left cfg ctx address s).proposers
      current := (left cfg ctx address s).current
      startL1Block := (leaving cfg ctx address s).startL1Block
      startL2Block := (leaving cfg ctx address s).startL2Block
      lastExitBlock := (leaving cfg ctx address s).lastExitBlock } := by
  conv_lhs => rw [left, closeRing_eq, ← left]
  simp only [released, unlink_leaving_stake, unlink_leaving_url, unlink_escrow,
    unlink_pendingWithdraws, unlink_proposerCount, leaving_escrow, leaving_pendingWithdraws,
    leaving_proposerCount]
  simp only [unlink, leaving_balance, leaving_proposerUrls]

end RoundRobin

end Nightfall
