import Nightfall.RoundRobin.Leaving
import Nightfall.Evm.Total
import Mathlib.Algebra.Order.BigOperators.Group.Finset

/-!
# The stakes of the proposers

`Accounts` says how the storage accounts for the proposers: their entries, `escrow`, the pending
withdraws, the URLs and the number of proposers.  It is kept by every function in every state,
whether or not the links still form a ring; `stakeAccounting` is the result for runs.
-/

namespace Nightfall

namespace RoundRobin

open Evm

open Contract (Address)

/-- The storage accounts for the proposers in `reg`. -/
structure Accounts (reg : Finset Address) (s : State) : Prop where
  addr_eq : ∀ a ∈ reg, (s.proposers a).addr = a
  vacant : ∀ a ∉ reg, (s.proposers a).account = Proposer.zero.account
  count_eq : s.proposerCount = reg.card
  escrow_eq : s.escrow = ∑ a ∈ reg, (s.proposers a).stake
  covered : s.escrow + total s.pendingWithdraws ≤ s.balance
  balance_lt : s.balance < 2 ^ 256
  urls_iff : ∀ url, s.proposerUrls url = true ↔ ∃ a ∈ reg, (s.proposers a).url = url
  url_inj : ∀ a ∈ reg, ∀ b ∈ reg, (s.proposers a).url = (s.proposers b).url → a = b

theorem Proposer.addr_eq_of_account {p q : Proposer} (h : p.account = q.account) :
    p.addr = q.addr := congrArg (·.1) h

theorem Proposer.url_eq_of_account {p q : Proposer} (h : p.account = q.account) :
    p.url = q.url := congrArg (·.2.1) h

theorem Proposer.stake_eq_of_account {p q : Proposer} (h : p.account = q.account) :
    p.stake = q.stake := congrArg (·.2.2) h

namespace Accounts

variable {cfg : Settings} {ctx : Context} {reg : Finset Address} {s s' : State} {address : Address}

theorem stake_le (h : Accounts reg s) (ha : address ∈ reg) :
    (s.proposers address).stake ≤ s.escrow := by
  rw [h.escrow_eq]
  exact Finset.single_le_sum (f := fun a => (s.proposers a).stake) (fun a _ => Nat.zero_le _) ha

/-- Only proposers have a stake. -/
theorem mem_of_stake (h : Accounts reg s) (hstake : 0 < (s.proposers address).stake) :
    address ∈ reg := by
  by_contra hmem
  have hzero : (s.proposers address).stake = 0 :=
    Proposer.stake_eq_of_account (q := .zero) (h.vacant address hmem)
  omega

/-- Only proposers have an address, except the zero address. -/
theorem mem_of_addr (h : Accounts reg s) (haddr : (s.proposers address).addr = address)
    (hne : address ≠ 0) : address ∈ reg := by
  by_contra hmem
  exact hne (haddr.symm.trans (Proposer.addr_eq_of_account (h.vacant address hmem)))

/-- What is not in the accounts may change. -/
theorem congr (h : Accounts reg s) (haccount : ∀ a, (s'.proposers a).account =
      (s.proposers a).account) (hcount : s'.proposerCount = s.proposerCount)
    (hescrow : s'.escrow = s.escrow) (hpending : s'.pendingWithdraws = s.pendingWithdraws)
    (hbalance : s'.balance = s.balance) (hurls : s'.proposerUrls = s.proposerUrls) :
    Accounts reg s' := by
  have hurl : ∀ a, (s'.proposers a).url = (s.proposers a).url := fun a =>
    Proposer.url_eq_of_account (haccount a)
  refine ⟨fun a ha => ?_, fun a ha => ?_, ?_, ?_, ?_, ?_, ?_, ?_⟩
  · exact (Proposer.addr_eq_of_account (haccount a)).trans (h.addr_eq a ha)
  · exact (haccount a).trans (h.vacant a ha)
  · exact hcount.trans h.count_eq
  · rw [hescrow, h.escrow_eq]
    exact Finset.sum_congr rfl fun a _ => (Proposer.stake_eq_of_account (haccount a)).symm
  · rw [hescrow, hpending, hbalance]
    exact h.covered
  · rw [hbalance]
    exact h.balance_lt
  · simpa only [hurls, hurl] using h.urls_iff
  · simpa only [hurl] using h.url_inj

/-! ### Joining -/

/-- An entry with a new address and URL and a stake that comes with the call. -/
theorem join (h : Accounts reg s) (hfresh : address ∉ reg) {url : String} {stake : ℕ}
    (hurl : s.proposerUrls url = false)
    (haccount : ∀ a, (s'.proposers a).account =
      if a = address then (address, url, stake) else (s.proposers a).account)
    (hcount : s'.proposerCount = s.proposerCount + 1) (hescrow : s'.escrow = s.escrow + stake)
    (hpending : s'.pendingWithdraws = s.pendingWithdraws)
    (hbalance : s'.balance = s.balance + stake) (hlt : s.balance + stake < 2 ^ 256)
    (hurls : s'.proposerUrls = Function.update s.proposerUrls url true) :
    Accounts (insert address reg) s' := by
  have hself : (s'.proposers address).account = (address, url, stake) := by
    rw [haccount, if_pos rfl]
  have hother : ∀ a ≠ address, (s'.proposers a).account = (s.proposers a).account :=
    fun a ha => by rw [haccount, if_neg ha]
  have hne : ∀ a ∈ reg, a ≠ address := fun a ha heq => hfresh (heq ▸ ha)
  have hselfUrl : (s'.proposers address).url = url := congrArg (·.2.1) hself
  have hotherUrl : ∀ a ∈ reg, (s'.proposers a).url = (s.proposers a).url := fun a ha =>
    Proposer.url_eq_of_account (hother a (hne a ha))
  have hnew : ∀ a ∈ reg, (s.proposers a).url ≠ url := fun a ha heq => by
    have htrue := (h.urls_iff url).2 ⟨a, ha, heq⟩
    rw [hurl] at htrue
    cases htrue
  refine ⟨?_, ?_, ?_, ?_, ?_, ?_, ?_, ?_⟩
  · refine Finset.forall_mem_insert .. |>.2 ⟨congrArg (·.1) hself, fun a ha => ?_⟩
    exact (Proposer.addr_eq_of_account (hother a (hne a ha))).trans (h.addr_eq a ha)
  · intro a ha
    rw [Finset.mem_insert, not_or] at ha
    exact (hother a ha.1).trans (h.vacant a ha.2)
  · rw [hcount, h.count_eq, Finset.card_insert_of_notMem hfresh]
  · have hstake : (s'.proposers address).stake = stake := congrArg (·.2.2) hself
    rw [Finset.sum_insert hfresh, hescrow, hstake, h.escrow_eq, Nat.add_comm]
    refine congrArg _ (Finset.sum_congr rfl fun a ha => ?_)
    exact (Proposer.stake_eq_of_account (hother a (hne a ha))).symm
  · have hcovered := h.covered
    rw [hescrow, hpending, hbalance]
    omega
  · rwa [hbalance]
  · intro u
    rw [hurls, Function.update_apply]
    by_cases hu : u = url
    · rw [if_pos hu]
      exact iff_of_true rfl ⟨address, Finset.mem_insert_self .., hselfUrl.trans hu.symm⟩
    · rw [if_neg hu, h.urls_iff, Finset.exists_mem_insert]
      constructor
      · rintro ⟨a, ha, hau⟩
        exact .inr ⟨a, ha, (hotherUrl a ha).trans hau⟩
      · rintro (hau | ⟨a, ha, hau⟩)
        · exact absurd (hau.symm.trans hselfUrl) hu
        · exact ⟨a, ha, (hotherUrl a ha).symm.trans hau⟩
  · intro a ha b hb hab
    rw [Finset.mem_insert] at ha hb
    rcases ha with rfl | ha <;> rcases hb with rfl | hb
    · rfl
    · rw [hselfUrl, hotherUrl b hb] at hab
      exact absurd hab.symm (hnew b hb)
    · rw [hselfUrl, hotherUrl a ha] at hab
      exact absurd hab (hnew a ha)
    · rw [hotherUrl a ha, hotherUrl b hb] at hab
      exact h.url_inj a ha b hb hab

theorem bootstrap {url : String} (h : Accounts reg s)
    (hcall : bootstrapDefaultProposer cfg ctx address url s = .ok s') :
    Accounts (insert address reg) s' := by
  simp only [bootstrapDefaultProposer, bind_eq_ok, require_eq_ok, checkedAdd_eq_ok, pure_eq_ok]
    at hcall
  obtain ⟨_, -, _, hcount, _, hvalue, _, hurl, _, ⟨hlt, rfl⟩, _, ⟨-, rfl⟩, rfl⟩ := hcall
  have hreg : reg = ∅ := Finset.card_eq_zero.1 (h.count_eq.symm.trans hcount)
  rw [hvalue] at hlt ⊢
  refine h.join (by simp [hreg]) hurl (fun a => ?_) ?_ rfl rfl rfl hlt rfl
  · dsimp only
    rw [Function.update_apply]
    split_ifs <;> rfl
  · dsimp only
    omega

theorem add {url : String} (h : Accounts reg s)
    (hcall : addProposer cfg ctx url s = .ok s') : Accounts (insert ctx.sender reg) s' := by
  simp only [addProposer, bind_eq_ok, require_eq_ok, checkedAdd_eq_ok, pure_eq_ok] at hcall
  obtain ⟨_, -, _, -, _, hvalue, _, hvacant, _, hurl, _, ⟨hlt, rfl⟩, _, ⟨-, rfl⟩, _, ⟨-, rfl⟩, rfl⟩ :=
    hcall
  have hfresh : ctx.sender ∉ reg := fun hmem =>
    ctx.sender_ne ((h.addr_eq _ hmem).symm.trans hvacant)
  rw [hvalue] at hlt ⊢
  exact h.join hfresh hurl (insertBehind_account url) rfl rfl rfl rfl hlt rfl

/-! ### Leaving -/

theorem fine_le (hmay : MayLeave cfg address s) :
    fine cfg address s ≤ (s.proposers address).stake := by
  unfold fine
  split_ifs with hcurrent
  · rw [hcurrent]
    exact (hmay.exit hcurrent).stake
  · exact Nat.zero_le _

/-- The arithmetic of `_remove_proposer` is in bounds. -/
theorem inBounds (h : Accounts reg s) (hmay : MayLeave cfg address s) :
    InBounds cfg address s := by
  have hmem := h.mem_of_addr hmay.addr_eq hmay.ne_zero
  have hfine := fine_le hmay
  have hstake := h.stake_le hmem
  have hcovered := h.covered
  have hlt := h.balance_lt
  have hpending : s.pendingWithdraws address ≤ total s.pendingWithdraws := le_total address
  refine ⟨by omega, by omega, by omega, ?_⟩
  rw [h.count_eq]
  exact Finset.card_pos.2 ⟨address, hmem⟩

/-- A proposer can leave if the requirements are met. -/
theorem removeProposerOf_eq_ok (h : Accounts reg s) :
    removeProposerOf cfg ctx address s = .ok s' ↔
      MayLeave cfg address s ∧ left cfg ctx address s = s' := by
  rw [RoundRobin.removeProposerOf_eq_ok]
  exact ⟨fun hleft => ⟨hleft.1.1, hleft.2⟩, fun hleft => ⟨⟨hleft.1, h.inBounds hleft.1⟩, hleft.2⟩⟩

theorem leave (h : Accounts reg s) (hmay : MayLeave cfg address s) :
    Accounts (reg.erase address) (left cfg ctx address s) := by
  have hmem := h.mem_of_addr hmay.addr_eq hmay.ne_zero
  have hother : ∀ a ∈ reg.erase address, ((left cfg ctx address s).proposers a).account =
      (s.proposers a).account := fun a ha => by
    rw [left_account, if_neg (Finset.ne_of_mem_erase ha)]
  have hurl : ∀ a ∈ reg.erase address, ((left cfg ctx address s).proposers a).url =
      (s.proposers a).url := fun a ha => Proposer.url_eq_of_account (hother a ha)
  have hsum := Finset.add_sum_erase reg (fun a => (s.proposers a).stake) hmem
  have hescrow := h.escrow_eq
  have hfine := fine_le hmay
  refine ⟨fun a ha => ?_, fun a ha => ?_, ?_, ?_, ?_, ?_, fun url => ?_, ?_⟩
  · exact (Proposer.addr_eq_of_account (hother a ha)).trans
      (h.addr_eq a (Finset.mem_of_mem_erase ha))
  · rw [left_account]
    split_ifs with heq
    · rfl
    · exact h.vacant a fun hreg => ha (Finset.mem_erase.2 ⟨heq, hreg⟩)
  · rw [left_eq, Finset.card_erase_of_mem hmem, ← h.count_eq]
  · rw [Finset.sum_congr rfl fun a ha => Proposer.stake_eq_of_account (hother a ha), left_eq]
    dsimp only
    omega
  · have hcovered := h.covered
    have hstake := h.stake_le hmem
    have htotal := total_update (f := s.pendingWithdraws) address
      (s.pendingWithdraws address + ((s.proposers address).stake - fine cfg address s))
    rw [left_eq]
    dsimp only
    omega
  · rw [left_eq]
    exact h.balance_lt
  · rw [left_eq]
    dsimp only
    rw [Function.update_apply]
    by_cases hu : url = (s.proposers address).url
    · rw [if_pos hu]
      refine iff_of_false Bool.false_ne_true ?_
      rintro ⟨a, ha, hau⟩
      rw [hurl a ha, hu] at hau
      exact Finset.ne_of_mem_erase ha
        (h.url_inj a (Finset.mem_of_mem_erase ha) address hmem hau)
    · rw [if_neg hu, h.urls_iff]
      constructor
      · rintro ⟨a, ha, hau⟩
        have hne : a ≠ address := fun heq => hu (by rw [← hau, heq])
        have hmem' := Finset.mem_erase.2 ⟨hne, ha⟩
        exact ⟨a, hmem', (hurl a hmem').trans hau⟩
      · rintro ⟨a, ha, hau⟩
        exact ⟨a, Finset.mem_of_mem_erase ha, (hurl a ha).symm.trans hau⟩
  · intro a ha b hb hab
    rw [hurl a ha, hurl b hb] at hab
    exact h.url_inj a (Finset.mem_of_mem_erase ha) b (Finset.mem_of_mem_erase hb) hab

/-! ### Rotations -/

/-- The penalty is covered by the stake and by the escrow. -/
theorem lazyPenalty_le (h : Accounts reg s)
    (hstake : cfg.lazyPenalty ≤ (s.proposers address).stake) :
    address ∈ reg ∧ cfg.lazyPenalty ≤ s.escrow := by
  have hpos := cfg.exit_lt_lazy
  have hmem : address ∈ reg := h.mem_of_stake (by omega)
  exact ⟨hmem, hstake.trans (h.stake_le hmem)⟩

/-- `lazy_penalize_proposer` in closed form. -/
theorem lazyPenalizeProposer_eq_ok (h : Accounts reg s) {removed : Option Address} :
    lazyPenalizeProposer cfg ctx address s = .ok (s', removed) ↔
      ((s.proposers address).stake < cfg.lazyPenalty ∧ MayLeave cfg address s ∧
        left cfg ctx address s = s' ∧ some address = removed) ∨
      (cfg.lazyPenalty ≤ (s.proposers address).stake ∧ penalized cfg address s = s' ∧
        none = removed) := by
  unfold lazyPenalizeProposer
  by_cases hstake : (s.proposers address).stake < cfg.lazyPenalty
  · simp only [if_pos hstake, bind_eq_ok, h.removeProposerOf_eq_ok, pure_eq_ok, Prod.mk.injEq]
    constructor
    · rintro ⟨_, ⟨hmay, rfl⟩, rfl, rfl⟩
      exact .inl ⟨hstake, hmay, rfl, rfl⟩
    · rintro (⟨-, hmay, rfl, rfl⟩ | ⟨hle, -⟩)
      · exact ⟨_, ⟨hmay, rfl⟩, rfl, rfl⟩
      · omega
  · have hle := Nat.le_of_not_lt hstake
    have hescrow := (h.lazyPenalty_le hle).2
    simp only [if_neg hstake, bind_eq_ok, require_eq_ok, checkedSub_eq_ok, pure_eq_ok,
      Prod.mk.injEq]
    constructor
    · rintro ⟨_, ⟨-, rfl⟩, -, -, _, ⟨-, rfl⟩, rfl, rfl⟩
      exact .inr ⟨hle, rfl, rfl⟩
    · rintro (⟨hlt, -⟩ | ⟨-, rfl, rfl⟩)
      · exact absurd hlt hstake
      · exact ⟨_, ⟨hle, rfl⟩, (), hescrow, _, ⟨hescrow, rfl⟩, rfl, rfl⟩

theorem penalize (h : Accounts reg s)
    (hstake : cfg.lazyPenalty ≤ (s.proposers address).stake) :
    Accounts reg (penalized cfg address s) := by
  obtain ⟨hmem, hescrow⟩ := h.lazyPenalty_le hstake
  have haccount : ∀ a, ((penalized cfg address s).proposers a).account =
      if a = address then ((s.proposers address).addr, (s.proposers address).url,
        (s.proposers address).stake - cfg.lazyPenalty)
      else (s.proposers a).account := fun a => setStake_account ..
  have hself := (haccount address).trans (if_pos rfl)
  have hother : ∀ a ≠ address, ((penalized cfg address s).proposers a).account =
      (s.proposers a).account := fun a ha => (haccount a).trans (if_neg ha)
  have haddr : ∀ a, ((penalized cfg address s).proposers a).addr = (s.proposers a).addr := by
    intro a
    by_cases ha : a = address
    · subst ha
      exact congrArg (·.1) hself
    · exact Proposer.addr_eq_of_account (hother a ha)
  have hurl : ∀ a, ((penalized cfg address s).proposers a).url = (s.proposers a).url := by
    intro a
    by_cases ha : a = address
    · subst ha
      exact congrArg (·.2.1) hself
    · exact Proposer.url_eq_of_account (hother a ha)
  refine ⟨fun a ha => (haddr a).trans (h.addr_eq a ha), fun a ha => ?_, h.count_eq, ?_, ?_,
    h.balance_lt, ?_, ?_⟩
  · exact (hother a fun heq => ha (heq ▸ hmem)).trans (h.vacant a ha)
  · have hnew := Finset.add_sum_erase reg
      (fun a => ((penalized cfg address s).proposers a).stake) hmem
    have hold := Finset.add_sum_erase reg (fun a => (s.proposers a).stake) hmem
    have hrest : ∑ a ∈ reg.erase address, ((penalized cfg address s).proposers a).stake =
        ∑ a ∈ reg.erase address, (s.proposers a).stake :=
      Finset.sum_congr rfl fun a ha =>
        Proposer.stake_eq_of_account (hother a (Finset.ne_of_mem_erase ha))
    have hstake' : ((penalized cfg address s).proposers address).stake =
        (s.proposers address).stake - cfg.lazyPenalty := congrArg (·.2.2) hself
    have heq := h.escrow_eq
    show s.escrow - cfg.lazyPenalty = _
    omega
  · have hcovered := h.covered
    show s.escrow - cfg.lazyPenalty + total s.pendingWithdraws ≤ s.balance
    omega
  · simp only [hurl]
    exact h.urls_iff
  · simpa only [hurl] using h.url_inj

/-- `penalizeIfLazy` in closed form. -/
theorem penalizeIfLazy_eq_ok (h : Accounts reg s) {removed : Option Address} :
    penalizeIfLazy cfg ctx s = .ok (s', removed) ↔
      (ctx.layer2BlockNumber ≠ s.startL2Block ∧ s = s' ∧ none = removed) ∨
      (ctx.layer2BlockNumber = s.startL2Block ∧
        (((s.proposers s.current.addr).stake < cfg.lazyPenalty ∧ MayLeave cfg s.current.addr s ∧
          left cfg ctx s.current.addr s = s' ∧ some s.current.addr = removed) ∨
        (cfg.lazyPenalty ≤ (s.proposers s.current.addr).stake ∧
          penalized cfg s.current.addr s = s' ∧ none = removed))) := by
  unfold penalizeIfLazy
  split_ifs with hlazy
  · simp [h.lazyPenalizeProposer_eq_ok, hlazy]
  · simp [hlazy]

theorem rotate (h : Accounts reg s) {removed : Option Address}
    (hcall : rotateProposer cfg ctx s = .ok (s', removed)) :
    Accounts ((Action.rotated removed).register reg) s' := by
  obtain ⟨-, s₁, hpenalize, rfl⟩ := rotateProposer_eq_ok.1 hcall
  refine congr (s := s₁) ?_ (fun _ => rfl) rfl rfl rfl rfl rfl
  rcases h.penalizeIfLazy_eq_ok.1 hpenalize with ⟨-, rfl, rfl⟩ | ⟨-, hlazy⟩
  · exact h
  · rcases hlazy with ⟨-, hmay, rfl, rfl⟩ | ⟨hstake, rfl, rfl⟩
    · exact h.leave hmay
    · exact h.penalize hstake

/-! ### Withdraws -/

theorem take (h : Accounts reg s) {amount : ℕ} (hcall : withdraw ctx amount s = .ok s') :
    Accounts reg s' := by
  obtain ⟨⟨hamount, hbalance, -⟩, rfl⟩ := withdraw_eq_ok.1 hcall
  refine ⟨h.addr_eq, h.vacant, h.count_eq, h.escrow_eq, ?_, ?_, h.urls_iff, h.url_inj⟩
  · have hcovered := h.covered
    have htotal := total_update (f := s.pendingWithdraws) ctx.sender
      (s.pendingWithdraws ctx.sender - amount)
    dsimp only
    omega
  · exact (Nat.sub_le ..).trans_lt h.balance_lt

/-! ### Steps -/

/-- Every step keeps the accounts. -/
theorem step (h : Accounts reg s) {a : Action} (hst : Step cfg ctx s a s') :
    Accounts (a.register reg) s' := by
  cases hst with
  | bootstrapped hcall => exact h.bootstrap hcall
  | added hcall => exact h.add hcall
  | removed hcall =>
    obtain ⟨hmay, rfl⟩ := h.removeProposerOf_eq_ok.1 hcall
    exact h.leave hmay
  | rotated hcall => exact h.rotate hcall
  | withdrawn hcall => exact h.take hcall

/-- A call does not revert for want of something to subtract from. -/
def Enough (e : Revert) : Prop := e ≠ .underflow ∧ e ≠ .require "escrow underflow"

instance : DecidablePred Enough := fun _ => inferInstanceAs (Decidable (_ ∧ _))

theorem removeProposerOf_enough (h : Accounts reg s) :
    RevertsOnly Enough (removeProposerOf cfg ctx address s) := by
  unfold removeProposerOf
  refine .bind (.require (by decide)) fun _ haddr => ?_
  refine .bind (.require (by decide)) fun _ hne => ?_
  rw [require_eq_ok] at haddr hne
  have hmem := h.mem_of_addr haddr hne
  have hstake := h.stake_le hmem
  refine .bind ?_ fun s₁ hs₁ => .bind ?_ fun s₂ _ => .ok _
  · unfold exitIfCurrent
    split_ifs with hcurrent
    · subst hcurrent
      refine .bind (.require (by decide)) fun _ _ => ?_
      refine .bind (.require (by decide)) fun _ hexit => ?_
      rw [require_eq_ok] at hexit
      refine .bind (.checkedSub hexit) fun _ _ => ?_
      exact .bind (.checkedSub (hexit.trans hstake)) fun _ _ => .ok _
    · exact .ok _
  · obtain ⟨⟨hexit, -⟩, rfl⟩ := exitIfCurrent_eq_ok.1 hs₁
    have hbounds := h.inBounds ⟨haddr, hne, hexit⟩
    refine .bind (.checkedSub ?_) fun _ _ => .bind (.checkedAdd (by decide)) fun _ _ =>
      .bind (.checkedSub ?_) fun _ _ => .ok _
    · rw [unlink_leaving_stake, unlink_escrow, leaving_escrow]
      exact hbounds.stake_le
    · rw [unlink_proposerCount, leaving_proposerCount]
      exact hbounds.count_pos

theorem penalizeIfLazy_enough (h : Accounts reg s) :
    RevertsOnly Enough (penalizeIfLazy cfg ctx s) := by
  unfold penalizeIfLazy lazyPenalizeProposer
  split_ifs with hlazy hstake
  · exact .bind h.removeProposerOf_enough fun _ _ => .ok _
  · have hle := Nat.le_of_not_lt hstake
    have hescrow := (h.lazyPenalty_le hle).2
    refine .bind (.checkedSub hle) fun _ _ => ?_
    -- the message of this requirement is excluded, but it is met
    rw [require, if_pos hescrow]
    exact .bind (.ok ()) fun _ _ => .bind (.checkedSub hescrow) fun _ _ => .ok _
  · exact .ok _

/-- No call reverts because a difference is negative. -/
theorem exec_enough (h : Accounts reg s) (cmd : Command) :
    RevertsOnly Enough (exec cfg ctx cmd s) := by
  cases cmd with
  | bootstrapDefaultProposer =>
    refine .bind ?_ fun _ _ => .ok _
    refine .bind (.require (by decide)) fun _ _ => .bind (.require (by decide)) fun _ _ =>
      .bind (.require (by decide)) fun _ _ => .bind (.require (by decide)) fun _ _ => ?_
    exact .bind (.checkedAdd (by decide)) fun _ _ => .bind (.checkedAdd (by decide)) fun _ _ => .ok _
  | addProposer =>
    refine .bind ?_ fun _ _ => .ok _
    refine .bind ?_ fun _ _ => .bind (.require (by decide)) fun _ _ =>
      .bind (.require (by decide)) fun _ _ => .bind (.require (by decide)) fun _ _ =>
      .bind (.require (by decide)) fun _ _ => ?_
    · exact .bind (.require (by decide)) fun _ _ => .require (by decide)
    · exact .bind (.checkedAdd (by decide)) fun _ _ => .bind (.checkedAdd (by decide)) fun _ _ =>
        .bind (.checkedAdd (by decide)) fun _ _ => .ok _
  | removeProposer => exact .bind h.removeProposerOf_enough fun _ _ => .ok _
  | rotateProposer =>
    refine .bind ?_ fun _ _ => .ok _
    exact .bind (.require (by decide)) fun _ _ => .bind h.penalizeIfLazy_enough fun _ _ => .ok _
  | withdraw amount =>
    refine .bind (.bind (.require (by decide)) fun _ hamount => ?_) fun _ _ => .ok _
    refine .bind (.checkedSub (require_eq_ok.1 hamount)) fun _ _ => ?_
    split_ifs
    · exact .ok _
    · intro e he
      cases he
      decide

end Accounts

/-! ### Runs -/

/-- The stakes, `escrow`, the pending withdraws and the ether of the contract agree. -/
structure StakeAccounting (cfg : Settings) (reg : Finset Address) (s : State) : Prop where
  escrow_eq : s.escrow = ∑ a ∈ reg, (s.proposers a).stake
  covered : s.escrow + total s.pendingWithdraws ≤ s.balance
  /-- No subtraction underflows. -/
  enough : ∀ ctx cmd, exec cfg ctx cmd s ≠ .error .underflow ∧
    exec cfg ctx cmd s ≠ .error (.require "escrow underflow")
  /-- Pending withdraws can be paid. -/
  payable : ∀ ctx amount, amount ≤ s.pendingWithdraws ctx.sender → ctx.accepts →
    ∃ s', withdraw ctx amount s = .ok s'

section Runs

variable {cfg : Settings} {trace : List Event} {c : Config}

theorem accounts (h : (ringSystem cfg).Run trace c) : Accounts (registered trace) c.state := by
  refine h.invariant (P := fun _ => True) (I := fun trace c => Accounts (registered trace) c.state)
    (fun _ _ => trivial) ?_ ?_
  · rintro c ⟨-, balance, hbalance, hstate⟩
    rw [hstate]
    refine ⟨by simp [registered], fun _ _ => rfl, rfl, rfl, ?_, hbalance, ?_, by simp [registered]⟩
    · simp [initialState]
    · simp [initialState, registered]
  · rintro trace c ⟨before, blockNumber, action, after⟩ c' - hI ⟨call, hexec⟩
    obtain ⟨-, -, rfl, rfl, ctx, -, hst⟩ := execAt_step hexec
    exact hI.step hst

/-- **The stakes are accounted for in every run.** -/
theorem stakeAccounting (h : (ringSystem cfg).Run trace c) :
    StakeAccounting cfg (registered trace) c.state := by
  have hacc := accounts h
  refine ⟨hacc.escrow_eq, hacc.covered, fun ctx cmd => ?_, fun ctx amount hamount haccepts => ?_⟩
  · exact ⟨fun he => (hacc.exec_enough cmd _ he).1 rfl, fun he => (hacc.exec_enough cmd _ he).2 rfl⟩
  · have hle : c.state.pendingWithdraws ctx.sender ≤ total c.state.pendingWithdraws := le_total _
    have hcovered := hacc.covered
    exact ⟨_, withdraw_eq_ok.2 ⟨⟨hamount, by omega, haccepts⟩, rfl⟩⟩

end Runs

/-! ### Runs on concrete proposers -/

/-- A stake of 5, penalties of 3 and 2, a cooldown of 10 blocks and turns of at least 5 blocks. -/
def sampleSettings : Settings := ⟨5, 3, 2, 10, 5, by decide, by decide, by decide⟩

/-- A call with the stake by a certified caller, in the given block and at the given layer 2
block. -/
def callBy (sender : { a : Address // a ≠ 0 }) (blockNumber : ℕ) (layer2BlockNumber : ℤ) :
    Context where
  sender := sender
  sender_ne := sender.2
  value := 5
  blockNumber := blockNumber
  layer2BlockNumber := layer2BlockNumber
  isOwner := true
  authorised := true
  sanctioned := false
  accepts := true

def alice : { a : Address // a ≠ 0 } := ⟨1, by decide⟩

def bob : { a : Address // a ≠ 0 } := ⟨2, by decide⟩

def carol : { a : Address // a ≠ 0 } := ⟨3, by decide⟩

/-- Calls on the contract at its start, without any ether. -/
def ringRun (cfg : Settings) (calls : List (Context × Command)) : Option (List Event × Config) :=
  TransitionSystem.execAll (execAt cfg) ⟨initialState 0, 1⟩ calls

theorem run_ringRun {cfg : Settings} {calls : List (Context × Command)}
    (h : (ringRun cfg calls).isSome) :
    (ringSystem cfg).Run ((ringRun cfg calls).get h).1 ((ringRun cfg calls).get h).2 :=
  TransitionSystem.run_execAll ⟨Nat.one_pos, 0, by decide, rfl⟩ (Option.some_get h).symm

/-- Three proposers join; the first one proposes nothing in its turn, the second one leaves in its
own, and takes a part of its stake. -/
def stakeCalls : List (Context × Command) :=
  [(callBy alice 1 0, .bootstrapDefaultProposer 1 "a"), (callBy bob 2 0, .addProposer "b"),
    (callBy carol 3 0, .addProposer "c"), (callBy carol 70 0, .rotateProposer),
    (callBy bob 71 0, .removeProposer), (callBy bob 72 0, .withdraw 1)]

theorem stakeCalls_isSome : (ringRun sampleSettings stakeCalls).isSome := by decide +kernel

theorem stakeAccounting_sample :
    ((ringRun sampleSettings stakeCalls).get stakeCalls_isSome).2.state.escrow = 7 ∧
      StakeAccounting sampleSettings (registered ((ringRun sampleSettings stakeCalls).get stakeCalls_isSome).1)
        ((ringRun sampleSettings stakeCalls).get stakeCalls_isSome).2.state :=
  ⟨by decide +kernel, stakeAccounting (run_ringRun stakeCalls_isSome)⟩

end RoundRobin

end Nightfall
