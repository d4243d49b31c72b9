import Nightfall.RoundRobin.Contract
import Nightfall.Semantics.Run
import Mathlib.Data.Finset.Insert
import Mathlib.Data.Finset.Erase

/-!
# Runs of the RoundRobin contract

Runs of the functions of the contract in any order and by any callers, in blocks whose numbers do
not decrease.  `registered` is the set of proposers that joined and have not left, as the trace of
the run tells it.

The rest of the file says what each function does to the entries: what it writes besides links is
`Proposer.account`.
-/

namespace Nightfall

namespace RoundRobin

open Evm

open Contract (Address)

/-- A call of a function of the contract. -/
inductive Command
  | bootstrapDefaultProposer (address : Address) (url : String)
  | addProposer (url : String)
  | removeProposer
  | rotateProposer
  | withdraw (amount : ℕ)

/-- What happens in a step. -/
inductive Action
  | bootstrapped (address : Address)
  | added (address : Address)
  /-- A proposer leaves of its own accord. -/
  | removed (address : Address)
  /-- The current proposer is replaced, and removed if it was too lazy. -/
  | rotated (removed : Option Address)
  | withdrawn (address : Address) (amount : ℕ)
  deriving DecidableEq, Repr

/-- An action with its block, and the storage before and after it. -/
structure Event where
  before : State
  blockNumber : ℕ
  action : Action
  after : State

/-- The storage and the number of the block of the last call. -/
structure Config where
  state : State
  clock : ℕ

/-- The proposers after an action. -/
def Action.register (reg : Finset Address) : Action → Finset Address
  | .bootstrapped address | .added address => insert address reg
  | .removed address | .rotated (some address) => reg.erase address
  | .rotated none | .withdrawn _ _ => reg

/-- The proposers after a run. -/
def registered : List Event → Finset Address
  | [] => ∅
  | e :: past => e.action.register (registered past)

section System

variable (cfg : Settings)

/-- Execute a call. -/
def exec (ctx : Context) (cmd : Command) (s : State) : Except Revert (State × Action) :=
  match cmd with
  | .bootstrapDefaultProposer address url => do
    let s ← bootstrapDefaultProposer cfg ctx address url s
    return (s, .bootstrapped address)
  | .addProposer url => do
    let s ← addProposer cfg ctx url s
    return (s, .added ctx.sender)
  | .removeProposer => do
    let s ← removeProposer cfg ctx s
    return (s, .removed ctx.sender)
  | .rotateProposer => do
    let (s, removed) ← rotateProposer cfg ctx s
    return (s, .rotated removed)
  | .withdraw amount => do
    let s ← withdraw ctx amount s
    return (s, .withdrawn ctx.sender amount)

/-- Execute a call that does not revert, in the block of the last one or a later one. -/
def execAt (c : Config) (call : Context × Command) : Option (Event × Config) :=
  if c.clock ≤ call.1.blockNumber then
    (exec cfg call.1 call.2 c.state).toOption.map fun r =>
      (⟨c.state, call.1.blockNumber, r.2, r.1⟩, ⟨r.1, call.1.blockNumber⟩)
  else none

/-- The contract from its initialization on; the genesis block has no transactions. -/
def ringSystem : TransitionSystem Config Event :=
  .ofExec (fun c => 0 < c.clock ∧ ∃ balance < 2 ^ 256, c.state = initialState balance)
    (execAt cfg)

/-- What each action does. -/
inductive Step (ctx : Context) : State → Action → State → Prop
  | bootstrapped {s s' : State} {address : Address} {url : String} :
      bootstrapDefaultProposer cfg ctx address url s = .ok s' →
      Step ctx s (.bootstrapped address) s'
  | added {s s' : State} {url : String} :
      addProposer cfg ctx url s = .ok s' → Step ctx s (.added ctx.sender) s'
  | removed {s s' : State} :
      removeProposer cfg ctx s = .ok s' → Step ctx s (.removed ctx.sender) s'
  | rotated {s s' : State} {removed : Option Address} :
      rotateProposer cfg ctx s = .ok (s', removed) → Step ctx s (.rotated removed) s'
  | withdrawn {s s' : State} {amount : ℕ} :
      withdraw ctx amount s = .ok s' → Step ctx s (.withdrawn ctx.sender amount) s'

end System

variable {cfg : Settings} {ctx : Context} {s s' : State}

theorem exec_step {cmd : Command} {a : Action} (h : exec cfg ctx cmd s = .ok (s', a)) :
    Step cfg ctx s a s' := by
  cases cmd with
  | rotateProposer =>
    obtain ⟨⟨s₁, removed⟩, hcall, heq⟩ := bind_eq_ok.1 h
    cases heq
    exact .rotated hcall
  | bootstrapDefaultProposer | addProposer | removeProposer | withdraw =>
    obtain ⟨s₁, hcall, heq⟩ := bind_eq_ok.1 h
    cases heq
    constructor
    exact hcall

/-- Everything that a step of a run does. -/
theorem execAt_step {c c' : Config} {call : Context × Command} {e : Event}
    (h : execAt cfg c call = some (e, c')) :
    c.clock ≤ e.blockNumber ∧ c'.clock = e.blockNumber ∧ e.before = c.state ∧ e.after = c'.state ∧
      ∃ ctx : Context, ctx.blockNumber = e.blockNumber ∧ Step cfg ctx c.state e.action c'.state := by
  unfold execAt at h
  split_ifs at h with hclock
  obtain ⟨⟨s', a⟩, hcall, heq⟩ := Option.map_eq_some_iff.1 h
  cases heq
  exact ⟨hclock, rfl, rfl, rfl, call.1, rfl, exec_step (toOption_eq_some.1 hcall)⟩

/-! ### Writes to links -/

/-- What an entry holds besides links. -/
def Proposer.account (p : Proposer) : Address × String × ℕ := (p.addr, p.url, p.stake)

section Links

variable (m : Entries) (a b x : Address) (stake : ℕ)

@[simp] theorem setNext_account : (setNext m a b x).account = (m x).account := by
  unfold setNext
  by_cases h : x = a
  · subst h; rw [Function.update_self]; rfl
  · rw [Function.update_of_ne h]

@[simp] theorem setNext_nextAddr :
    (setNext m a b x).nextAddr = if x = a then b else (m x).nextAddr := by
  unfold setNext
  split_ifs with h
  · subst h; rw [Function.update_self]
  · rw [Function.update_of_ne h]

@[simp] theorem setNext_previousAddr : (setNext m a b x).previousAddr = (m x).previousAddr := by
  unfold setNext
  by_cases h : x = a
  · subst h; rw [Function.update_self]
  · rw [Function.update_of_ne h]

@[simp] theorem setPrevious_account : (setPrevious m a b x).account = (m x).account := by
  unfold setPrevious
  by_cases h : x = a
  · subst h; rw [Function.update_self]; rfl
  · rw [Function.update_of_ne h]

@[simp] theorem setPrevious_nextAddr : (setPrevious m a b x).nextAddr = (m x).nextAddr := by
  unfold setPrevious
  by_cases h : x = a
  · subst h; rw [Function.update_self]
  · rw [Function.update_of_ne h]

@[simp] theorem setPrevious_previousAddr :
    (setPrevious m a b x).previousAddr = if x = a then b else (m x).previousAddr := by
  unfold setPrevious
  split_ifs with h
  · subst h; rw [Function.update_self]
  · rw [Function.update_of_ne h]

@[simp] theorem setStake_account :
    (setStake m a stake x).account =
      if x = a then ((m a).addr, (m a).url, stake) else (m x).account := by
  unfold setStake
  split_ifs with h
  · subst h; rw [Function.update_self]; rfl
  · rw [Function.update_of_ne h]

@[simp] theorem setStake_nextAddr : (setStake m a stake x).nextAddr = (m x).nextAddr := by
  unfold setStake
  by_cases h : x = a
  · subst h; rw [Function.update_self]
  · rw [Function.update_of_ne h]

@[simp] theorem setStake_previousAddr :
    (setStake m a stake x).previousAddr = (m x).previousAddr := by
  unfold setStake
  by_cases h : x = a
  · subst h; rw [Function.update_self]
  · rw [Function.update_of_ne h]

@[simp] theorem bridge_account : (bridge m a x).account = (m x).account := by
  simp only [bridge, setNext_account, setPrevious_account]

@[simp] theorem bridge_nextAddr : (bridge m a x).nextAddr =
    if x = (m a).previousAddr then (m a).nextAddr else (m x).nextAddr := by
  simp only [bridge, setNext_nextAddr, setPrevious_nextAddr]

@[simp] theorem bridge_previousAddr : (bridge m a x).previousAddr =
    if x = (m a).nextAddr then (m a).previousAddr else (m x).previousAddr := by
  simp only [bridge, setNext_previousAddr, setPrevious_previousAddr]

/-- The other entries keep their links. -/
theorem bridge_of_ne (hprevious : x ≠ (m a).previousAddr) (hnext : x ≠ (m a).nextAddr) :
    bridge m a x = m x := by
  unfold bridge setNext
  rw [Function.update_of_ne hprevious, setPrevious, Function.update_of_ne hnext]

end Links

theorem closeRing_account (x : Address) :
    ((closeRing s).proposers x).account = (s.proposers x).account := by
  unfold closeRing
  split_ifs
  · simp only [setPrevious_account, setNext_account]
  · rfl

/-- Only links and the copy of the current entry change when the ring is closed. -/
theorem closeRing_eq :
    closeRing s = { s with
      proposers := (closeRing s).proposers
      current := (closeRing s).current } := by
  unfold closeRing
  split_ifs <;> rfl

theorem insertBehind_account (url : String) (x : Address) :
    (insertBehind cfg ctx url s x).account =
      if x = ctx.sender then (ctx.sender, url, cfg.stake) else (s.proposers x).account := by
  have hupdate : (Function.update s.proposers ctx.sender
      ⟨cfg.stake, ctx.sender, url, s.current.addr, s.current.previousAddr⟩ x).account =
      if x = ctx.sender then (ctx.sender, url, cfg.stake) else (s.proposers x).account := by
    rw [Function.update_apply]
    split_ifs <;> rfl
  unfold insertBehind
  split_ifs <;> simp only [setNext_account, setPrevious_account, hupdate] <;> split_ifs <;> rfl

theorem insertBehind_nextAddr (url : String) (x : Address) :
    (insertBehind cfg ctx url s x).nextAddr =
      if x = s.current.addr ∧ s.current.nextAddr = s.current.addr then ctx.sender
      else if x = s.current.previousAddr then ctx.sender
      else if x = ctx.sender then s.current.addr
      else (s.proposers x).nextAddr := by
  unfold insertBehind
  split_ifs <;> simp_all

theorem insertBehind_previousAddr (url : String) (x : Address) :
    (insertBehind cfg ctx url s x).previousAddr =
      if x = s.current.addr then ctx.sender
      else if x = ctx.sender then s.current.previousAddr
      else (s.proposers x).previousAddr := by
  unfold insertBehind
  split_ifs <;> simp_all

/-! ### Closed forms -/

theorem rotateProposer_eq_ok {removed : Option Address} :
    rotateProposer cfg ctx s = .ok (s', removed) ↔
      canRotate cfg ctx s ∧ ∃ s₁, penalizeIfLazy cfg ctx s = .ok (s₁, removed) ∧
        advance ctx s₁ = s' := by
  simp only [rotateProposer, bind_eq_ok, require_eq_ok, pure_eq_ok, Prod.mk.injEq, Prod.exists]
  constructor
  · rintro ⟨-, hrotate, s₁, _, hpenalize, rfl, rfl⟩
    exact ⟨hrotate, s₁, hpenalize, rfl⟩
  · rintro ⟨hrotate, s₁, hpenalize, rfl⟩
    exact ⟨(), hrotate, s₁, _, hpenalize, rfl, rfl⟩

theorem withdraw_eq_ok {amount : ℕ} :
    withdraw ctx amount s = .ok s' ↔
      (amount ≤ s.pendingWithdraws ctx.sender ∧ amount ≤ s.balance ∧ ctx.accepts) ∧
      { s with
        pendingWithdraws := Function.update s.pendingWithdraws ctx.sender
          (s.pendingWithdraws ctx.sender - amount)
        balance := s.balance - amount } = s' := by
  simp only [withdraw, bind_eq_ok, require_eq_ok, checkedSub_eq_ok]
  constructor
  · rintro ⟨-, hamount, _, ⟨-, rfl⟩, hsend⟩
    split_ifs at hsend with hbalance
    exact ⟨⟨hamount, hbalance⟩, Except.ok.inj hsend⟩
  · rintro ⟨⟨hamount, hbalance⟩, rfl⟩
    exact ⟨(), hamount, _, ⟨hamount, rfl⟩, if_pos hbalance⟩

end RoundRobin

end Nightfall
