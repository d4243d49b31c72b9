import Nightfall.RoundRobin.Ring

/-!
# Fair rotation

A rotation makes the next proposer of the ring current, unless the current one was lazy and its
stake does not cover the penalty any more.  It is then removed by the code for a voluntary exit,
which needs the exit penalty and advances the ring itself: the rotation reverts for ever, or it
skips a proposer if there are three or more.  `fair_iff` is the exact condition after a run of regular
steps, `fair_iff_of_ring` after any run that ends in a ring.
-/

namespace Nightfall

namespace RoundRobin

open Evm

open Contract (Address)

/-- The rotation succeeds, and the next proposer becomes current. -/
def Fair (cfg : Settings) (ctx : Context) (s : State) : Prop :=
  ∃ (s' : State) (removed : Option Address), rotateProposer cfg ctx s = .ok (s', removed) ∧
    s'.current.addr = nextOf s.proposers s.current.addr

/-- The current proposer is not lazy, or can pay for it, or leaves a single other proposer. -/
def FairlyRotatable (cfg : Settings) (ctx : Context) (s : State) : Prop :=
  ctx.layer2BlockNumber ≠ s.startL2Block ∨
    cfg.lazyPenalty ≤ (s.proposers s.current.addr).stake ∨
    s.proposerCount = 2 ∧ cfg.exitPenalty ≤ (s.proposers s.current.addr).stake ∧
      s.current.addr ≠ 0

variable {cfg : Settings} {ctx : Context} {reg : Finset Address} {s : State}

theorem Ring.nextAddr_eq (h : Ring reg s) :
    s.current.nextAddr = nextOf s.proposers s.current.addr := by
  rw [nextOf, ← h.current_eq]

/-- When one of two proposers has left, the other one is next. -/
theorem Ring.left_nextAddr_of_two (h : Ring reg s) (hacc : Accounts reg s)
    (hmay : MayLeave cfg s.current.addr s) (htwo : s.proposerCount = 2) :
    (left cfg ctx s.current.addr s).current.nextAddr = nextOf s.proposers s.current.addr := by
  have hcard : reg.card = 2 := hacc.count_eq.symm.trans htwo
  have hring : Ring (reg.erase s.current.addr) (left cfg ctx s.current.addr s) :=
    h.leave_of_two hacc hmay htwo
  obtain ⟨q, hq⟩ := Finset.card_eq_one.1
    ((Finset.card_erase_of_mem h.current_mem).trans (by rw [hcard]))
  have hnext : nextOf s.proposers s.current.addr ∈ reg.erase s.current.addr :=
    Finset.mem_erase.2 ⟨h.links.next_ne h.current_mem (by omega), h.links.next_mem h.current_mem⟩
  have hleft := hring.next_mem
  rw [hq, Finset.mem_singleton] at hnext hleft
  rw [hleft, hnext]

/-- A lazy proposer that can pay is succeeded by the next one. -/
theorem Ring.fair_of_stake (h : Ring reg s) (hacc : Accounts reg s) (hrotate : canRotate cfg ctx s)
    (hlazy : ctx.layer2BlockNumber = s.startL2Block)
    (hstake : cfg.lazyPenalty ≤ (s.proposers s.current.addr).stake) : Fair cfg ctx s := by
  refine ⟨_, none, rotateProposer_eq_ok.2 ⟨hrotate, _, hacc.penalizeIfLazy_eq_ok.2
    (.inr ⟨hlazy, .inr ⟨hstake, rfl, rfl⟩⟩), rfl⟩, ?_⟩
  exact (advance_current_addr (hacc.penalize hstake) h.next_mem).trans h.nextAddr_eq

/-- On a ring the condition is exact. -/
theorem Ring.fair_condition (h : Ring reg s) (hacc : Accounts reg s) (hcard : 2 ≤ reg.card)
    (hrotate : canRotate cfg ctx s) : Fair cfg ctx s ↔ FairlyRotatable cfg ctx s := by
  have hcount := hacc.count_eq
  have hnextMem := h.links.next_mem h.current_mem
  constructor
  · rintro ⟨s', removed, hcall, hcurrent⟩
    obtain ⟨-, s₁, hpenalize, rfl⟩ := rotateProposer_eq_ok.1 hcall
    rcases hacc.penalizeIfLazy_eq_ok.1 hpenalize with ⟨hlazy, -⟩ | ⟨-, hlazy⟩
    · exact .inl hlazy
    rcases hlazy with ⟨-, hmay, rfl, rfl⟩ | ⟨hstake, -⟩
    · by_cases htwo : s.proposerCount = 2
      · exact .inr (.inr ⟨htwo, (hmay.exit rfl).stake, hmay.ne_zero⟩)
      · -- the proposer after the next one is current
        have hskip : (left cfg ctx s.current.addr s).current.nextAddr =
            nextOf s.proposers (nextOf s.proposers s.current.addr) :=
          h.left_current_nextAddr hacc (by omega) htwo
        have hmem : (left cfg ctx s.current.addr s).current.nextAddr ∈ reg.erase s.current.addr := by
          rw [hskip]
          exact Finset.mem_erase.2 ⟨h.links.next_next_ne h.current_mem (by omega),
            h.links.next_mem hnextMem⟩
        rw [advance_current_addr (hacc.leave hmay) hmem, hskip] at hcurrent
        exact absurd hcurrent (h.links.next_ne hnextMem (by omega))
    · exact .inr (.inl hstake)
  · intro hfair
    by_cases hlazy : ctx.layer2BlockNumber = s.startL2Block
    · by_cases hstake : cfg.lazyPenalty ≤ (s.proposers s.current.addr).stake
      · exact h.fair_of_stake hacc hrotate hlazy hstake
      · obtain ⟨htwo, hexit, hne⟩ := (hfair.resolve_left (not_not.2 hlazy)).resolve_left hstake
        have hmay : MayLeave cfg s.current.addr s :=
          ⟨hacc.addr_eq _ h.current_mem, hne, fun _ => ⟨by omega, hexit⟩⟩
        have hring : Ring (reg.erase s.current.addr) (left cfg ctx s.current.addr s) :=
          h.leave_of_two hacc hmay htwo
        refine ⟨_, some s.current.addr, rotateProposer_eq_ok.2 ⟨hrotate, _,
          hacc.penalizeIfLazy_eq_ok.2 (.inr ⟨hlazy, .inl ⟨by omega, hmay, rfl, rfl⟩⟩), rfl⟩, ?_⟩
        rw [advance_current_addr (hacc.leave hmay) hring.next_mem]
        exact h.left_nextAddr_of_two hacc hmay htwo
    · refine ⟨_, none, rotateProposer_eq_ok.2 ⟨hrotate, _, hacc.penalizeIfLazy_eq_ok.2
        (.inl ⟨hlazy, rfl, rfl⟩), rfl⟩, ?_⟩
      exact (advance_current_addr hacc h.next_mem).trans h.nextAddr_eq

/-- Whatever happened before: on a ring the condition is exact, also on one that was broken and mended. -/
theorem fair_iff_of_ring {trace : List Event} {c : Config} (h : (ringSystem cfg).Run trace c)
    (hring : Ring (registered trace) c.state) (hcard : 2 ≤ (registered trace).card)
    (hrotate : canRotate cfg ctx c.state) :
    Fair cfg ctx c.state ↔ FairlyRotatable cfg ctx c.state :=
  hring.fair_condition (accounts h) hcard hrotate

/-- **After a run of regular steps a rotation is fair exactly if the current proposer is not lazy,
can pay for it, or leaves a single other proposer.** -/
theorem fair_iff {trace : List Event} {c : Config} (h : (ringSystem cfg).Run trace c)
    (hregular : ∀ e ∈ trace, e.Regular) (hcard : 2 ≤ (registered trace).card)
    (hrotate : canRotate cfg ctx c.state) :
    Fair cfg ctx c.state ↔ FairlyRotatable cfg ctx c.state :=
  fair_iff_of_ring h (ring_of_regular h hregular (Finset.card_pos.1 (by omega))) hcard hrotate

/-! ### Rotations on concrete proposers -/

theorem fair_iff_sample :
    Fair sampleSettings (callBy bob 346 2)
      ((ringRun sampleSettings ringCalls).get ringCalls_isSome).2.state :=
  (fair_iff (run_ringRun ringCalls_isSome) (by decide +kernel) (by decide +kernel)
    (by decide +kernel)).2 (.inr (.inl (by decide +kernel)))

/-- Three proposers join, and the first one is too lazy in its first turn; its second turn begins
at block 208 and layer 2 block 2. -/
def skipCalls : List (Context × Command) :=
  [(callBy alice 1 0, .bootstrapDefaultProposer 1 "a"), (callBy bob 2 0, .addProposer "b"),
    (callBy carol 3 0, .addProposer "c"), (callBy bob 70 0, .rotateProposer),
    (callBy bob 139 1, .rotateProposer), (callBy bob 208 2, .rotateProposer)]

/-- A penalty of 4 leaves less than the exit penalty of the stake. -/
def harshSettings : Settings := { sampleSettings with lazyPenalty := 4, exit_lt_lazy := by decide }

/-- Two proposers join, and the first one is too lazy in its first turn; its second turn begins at
block 139 and layer 2 block 1. -/
def stuckCalls : List (Context × Command) :=
  [(callBy alice 1 0, .bootstrapDefaultProposer 1 "a"), (callBy bob 2 0, .addProposer "b"),
    (callBy bob 70 0, .rotateProposer), (callBy bob 139 1, .rotateProposer)]

theorem skipCalls_isSome : (ringRun sampleSettings skipCalls).isSome := by decide +kernel

theorem stuckCalls_isSome : (ringRun harshSettings stuckCalls).isSome := by decide +kernel

/-- A proposer that is lazy twice makes the rotation skip the next one, or makes every rotation
revert. -/
theorem unfair_rotation :
    (∃ (cfg : Settings) (trace : List Event) (c : Config) (ctx : Context) (s' : State),
      (ringSystem cfg).Run trace c ∧ (∀ e ∈ trace, e.Regular) ∧ 2 ≤ (registered trace).card ∧
      canRotate cfg ctx c.state ∧ c.clock ≤ ctx.blockNumber ∧
      rotateProposer cfg ctx c.state = .ok (s', some c.state.current.addr) ∧
      s'.current.addr ≠ nextOf c.state.proposers c.state.current.addr) ∧
    ∃ (cfg : Settings) (trace : List Event) (c : Config) (ctx : Context),
      (ringSystem cfg).Run trace c ∧ (∀ e ∈ trace, e.Regular) ∧ 2 ≤ (registered trace).card ∧
      canRotate cfg ctx c.state ∧ c.clock ≤ ctx.blockNumber ∧
      ∀ r, rotateProposer cfg ctx c.state ≠ .ok r := by
  constructor
  · have hskip : ((rotateProposer sampleSettings (callBy bob 277 2)
        ((ringRun sampleSettings skipCalls).get skipCalls_isSome).2.state).toOption.map
          fun r => (r.1.current.addr, r.2)) = some (3, some 1) := by decide +kernel
    obtain ⟨⟨s', removed⟩, hcall, heq⟩ := Option.map_eq_some_iff.1 hskip
    obtain ⟨hcurrent, hremoved⟩ := Prod.mk.inj heq
    have halice : ((ringRun sampleSettings skipCalls).get skipCalls_isSome).2.state.current.addr =
        1 := by decide +kernel
    refine ⟨_, _, _, callBy bob 277 2, s', run_ringRun skipCalls_isSome, by decide +kernel,
      by decide +kernel, by decide +kernel, by decide +kernel, ?_, ?_⟩
    · rw [halice, ← hremoved]
      exact toOption_eq_some.1 hcall
    · rw [hcurrent]
      decide +kernel
  · have hstuck : (rotateProposer harshSettings (callBy bob 208 1)
        ((ringRun harshSettings stuckCalls).get stuckCalls_isSome).2.state).toOption.isNone := by
      decide +kernel
    refine ⟨_, _, _, callBy bob 208 1, run_ringRun stuckCalls_isSome, by decide +kernel,
      by decide +kernel, by decide +kernel, by decide +kernel, fun r hr => ?_⟩
    rw [toOption_eq_some.2 hr] at hstuck
    cases hstuck

end RoundRobin

end Nightfall
