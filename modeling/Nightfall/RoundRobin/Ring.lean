import Nightfall.RoundRobin.Stakes
import Nightfall.Data.LinkedCycle

/-!
# The ring of the proposers

The links of the entries form a ring of the proposers (`Links`), and `current` is a copy of one of
the entries (`Ring`).  Three kinds of steps break this: a proposer that is added before the ring is
bootstrapped, and, with three or more proposers, the removal of the current proposer or of one of
its neighbours, after which the copy has links that the entry has no more.  `Event.Regular` excludes
them, and `ringInvariant_of_regular` is the result for runs of regular steps.
-/

namespace Nightfall

namespace RoundRobin

open Evm

open Contract (Address)

/-- The links to the next proposers. -/
def nextOf (m : Entries) (a : Address) : Address := (m a).nextAddr

/-- The links to the previous proposers. -/
def previousOf (m : Entries) (a : Address) : Address := (m a).previousAddr

/-- The entries link the proposers in `reg` to a cycle. -/
def Links (reg : Finset Address) (m : Entries) : Prop :=
  ∃ C : Cycle Address, Linked (nextOf m) (previousOf m) C ∧ ∀ a, a ∈ C ↔ a ∈ reg

/-- The proposers form a ring that starts with the current one. -/
structure Ring (reg : Finset Address) (s : State) : Prop where
  current_eq : s.current = s.proposers s.current.addr
  current_mem : s.current.addr ∈ reg
  links : Links reg s.proposers

/-! ### Links -/

section Links

variable {cfg : Settings} {ctx : Context} {reg : Finset Address} {m m' : Entries} {a : Address}

theorem Links.congr (h : Links reg m) (hnext : ∀ x ∈ reg, nextOf m' x = nextOf m x)
    (hprevious : ∀ x ∈ reg, previousOf m' x = previousOf m x) : Links reg m' := by
  obtain ⟨C, hlinked, hmem⟩ := h
  exact ⟨C, hlinked.congr (fun x hx => hnext x ((hmem x).1 hx))
    (fun x hx => hprevious x ((hmem x).1 hx)), hmem⟩

theorem Links.setStake (h : Links reg m) (stake : ℕ) : Links reg (setStake m a stake) :=
  h.congr (fun _ _ => setStake_nextAddr ..) fun _ _ => setStake_previousAddr ..

/-- The cycle read off from a proposer. -/
theorem Links.exists_cons (h : Links reg m) (ha : a ∈ reg) : ∃ l : List Address,
    Linked (nextOf m) (previousOf m) ((a :: l : List Address) : Cycle Address) ∧
      (∀ x, x ∈ a :: l ↔ x ∈ reg) ∧ l.length + 1 = reg.card := by
  obtain ⟨C, hlinked, hmem⟩ := h
  obtain ⟨l, rfl⟩ := Cycle.exists_eq_cons ((hmem a).2 ha)
  refine ⟨l, hlinked, hmem, ?_⟩
  have hset : (a :: l).toFinset = reg := Finset.ext fun x => List.mem_toFinset.trans (hmem x)
  rw [← hset, List.toFinset_card_of_nodup hlinked.nodup, List.length_cons]

theorem Links.next_mem (h : Links reg m) (ha : a ∈ reg) : nextOf m a ∈ reg := by
  obtain ⟨C, hlinked, hmem⟩ := h
  exact (hmem _).1 (hlinked.next_mem ((hmem a).2 ha))

theorem Links.previous_mem (h : Links reg m) (ha : a ∈ reg) : previousOf m a ∈ reg := by
  obtain ⟨C, hlinked, hmem⟩ := h
  exact (hmem _).1 (hlinked.prev_mem ((hmem a).2 ha))

theorem Links.previous_next (h : Links reg m) (ha : a ∈ reg) :
    previousOf m (nextOf m a) = a := by
  obtain ⟨C, hlinked, hmem⟩ := h
  exact hlinked.prev_next ((hmem a).2 ha)

theorem Links.next_previous (h : Links reg m) (ha : a ∈ reg) :
    nextOf m (previousOf m a) = a := by
  obtain ⟨C, hlinked, hmem⟩ := h
  exact hlinked.next_prev ((hmem a).2 ha)

theorem Links.singleton (hnext : nextOf m a = a) (hprevious : previousOf m a = a) :
    Links {a} m :=
  ⟨([a] : List Address), .singleton hnext hprevious, fun x => by
    rw [Cycle.mem_coe_iff, List.mem_singleton, Finset.mem_singleton]⟩

/-- The writes of `add_proposer`, where `c` is the current proposer. -/
theorem Links.insert (h : Links reg m) {c : Address} (hc : c ∈ reg) (ha : a ∉ reg)
    (hfrom : nextOf m' (previousOf m c) = a) (hto : nextOf m' a = c)
    (hback : previousOf m' a = previousOf m c) (hcurrent : previousOf m' c = a)
    (hnext : ∀ x ∈ reg, x ≠ previousOf m c → nextOf m' x = nextOf m x)
    (hprevious : ∀ x ∈ reg, x ≠ c → previousOf m' x = previousOf m x) :
    Links (insert a reg) m' := by
  obtain ⟨l, hlinked, hmem, -⟩ := h.exists_cons hc
  refine ⟨_, hlinked.insert (fun hal => ha ((hmem a).1 hal)) hfrom hto hback hcurrent
    (fun x hx => hnext x ((hmem x).1 hx)) (fun x hx => hprevious x ((hmem x).1 hx)), fun x => ?_⟩
  rw [Finset.mem_insert, ← hmem, Cycle.mem_coe_iff]
  simp only [List.mem_cons, List.mem_append, List.not_mem_nil, or_false]
  tauto

/-- The writes of `_remove_proposer`. -/
theorem Links.bridge (h : Links reg m) (ha : a ∈ reg) (hcard : 1 < reg.card) :
    Links (reg.erase a) (bridge m a) := by
  obtain ⟨l, hlinked, hmem, hlength⟩ := h.exists_cons ha
  have hnotMem : a ∉ l := (List.nodup_cons.1 hlinked.nodup).1
  refine ⟨l, hlinked.remove (List.ne_nil_of_length_pos (by omega)) ?_ ?_ ?_ ?_, fun x => ?_⟩
  · exact (bridge_nextAddr ..).trans (if_pos rfl)
  · exact (bridge_previousAddr ..).trans (if_pos rfl)
  · exact fun x _ hx => (bridge_nextAddr ..).trans (if_neg hx)
  · exact fun x _ hx => (bridge_previousAddr ..).trans (if_neg hx)
  · rw [Finset.mem_erase, ← hmem, Cycle.mem_coe_iff, List.mem_cons]
    exact ⟨fun hx => ⟨fun heq => hnotMem (heq ▸ hx), .inr hx⟩, fun ⟨hne, hx⟩ =>
      hx.resolve_left hne⟩

/-- With two proposers the next one is another one. -/
theorem Links.next_ne (h : Links reg m) (ha : a ∈ reg) (hcard : 1 < reg.card) :
    nextOf m a ≠ a := by
  obtain ⟨l, hlinked, -, hlength⟩ := h.exists_cons ha
  obtain ⟨hnotMem, -⟩ := List.nodup_cons.1 (show (a :: l).Nodup from hlinked.nodup)
  cases l with
  | nil => simp only [List.length_nil] at hlength; omega
  | cons b l =>
    rw [(List.isChain_cons_cons.1 hlinked.chain).1.1]
    exact fun heq => hnotMem (heq ▸ List.mem_cons_self ..)

/-- With three proposers the one after the next one is another one. -/
theorem Links.next_next_ne (h : Links reg m) (ha : a ∈ reg) (hcard : 2 < reg.card) :
    nextOf m (nextOf m a) ≠ a := by
  obtain ⟨l, hlinked, -, hlength⟩ := h.exists_cons ha
  obtain ⟨hnotMem, -⟩ := List.nodup_cons.1 (show (a :: l).Nodup from hlinked.nodup)
  rcases l with _ | ⟨b, _ | ⟨d, l⟩⟩
  · simp only [List.length_nil] at hlength; omega
  · simp only [List.length_cons, List.length_nil] at hlength; omega
  · obtain ⟨hab, hchain⟩ := List.isChain_cons_cons.1 hlinked.chain
    rw [hab.1, (List.isChain_cons_cons.1 hchain).1.1]
    exact fun heq => hnotMem (heq ▸ List.mem_cons_of_mem _ (List.mem_cons_self ..))

end Links

/-! ### Steps -/

namespace Ring

variable {cfg : Settings} {ctx : Context} {reg : Finset Address} {s s' : State} {address : Address}

theorem next_mem (h : Ring reg s) : s.current.nextAddr ∈ reg := by
  rw [h.current_eq]
  exact h.links.next_mem h.current_mem

theorem bootstrap {url : String} (hacc : Accounts reg s)
    (hcall : bootstrapDefaultProposer cfg ctx address url s = .ok s') :
    Ring (insert address reg) s' := by
  simp only [bootstrapDefaultProposer, bind_eq_ok, require_eq_ok, checkedAdd_eq_ok, pure_eq_ok]
    at hcall
  obtain ⟨_, -, _, hcount, _, -, _, -, _, -, _, -, rfl⟩ := hcall
  have hreg : reg = ∅ := Finset.card_eq_zero.1 (hacc.count_eq.symm.trans hcount)
  have hentry : ∀ p : Proposer, Function.update s.proposers address p address = p := fun p =>
    Function.update_self ..
  rw [hreg, insert_empty_eq]
  refine ⟨(hentry _).symm, Finset.mem_singleton_self _, .singleton ?_ ?_⟩
  · exact congrArg Proposer.nextAddr (hentry _)
  · exact congrArg Proposer.previousAddr (hentry _)

theorem add {url : String} (h : Ring reg s) (hacc : Accounts reg s)
    (hcall : addProposer cfg ctx url s = .ok s') : Ring (insert ctx.sender reg) s' := by
  have hacc' := hacc.add hcall
  simp only [addProposer, bind_eq_ok, require_eq_ok, checkedAdd_eq_ok, pure_eq_ok] at hcall
  obtain ⟨_, -, _, -, _, -, _, hvacant, _, -, _, -, _, -, _, -, rfl⟩ := hcall
  have hfresh : ctx.sender ∉ reg := fun hmem =>
    ctx.sender_ne ((hacc.addr_eq _ hmem).symm.trans hvacant)
  have hnext : s.current.nextAddr = nextOf s.proposers s.current.addr := by
    rw [nextOf, ← h.current_eq]
  have hprevious : s.current.previousAddr = previousOf s.proposers s.current.addr := by
    rw [previousOf, ← h.current_eq]
  have hne : ∀ x ∈ reg, x ≠ ctx.sender := fun x hx heq => hfresh (heq ▸ hx)
  have hcurrent := hne _ h.current_mem
  -- a proposer that is its own next one is its own previous one
  have hself : s.current.nextAddr = s.current.addr →
      s.current.previousAddr = s.current.addr := fun heq => by
    have hback := h.links.previous_next h.current_mem
    rwa [← hnext, heq, ← hprevious] at hback
  have hmem := Finset.mem_insert_of_mem (b := ctx.sender) h.current_mem
  have haddr := hacc'.addr_eq _ hmem
  refine ⟨?_, ?_, h.links.insert h.current_mem hfresh ?_ ?_ ?_ ?_ ?_ ?_⟩
  · exact congrArg (insertBehind cfg ctx url s) haddr.symm
  · exact haddr.symm ▸ hmem
  · rw [← hprevious]
    by_cases hlast : s.current.previousAddr = s.current.addr ∧ s.current.nextAddr = s.current.addr
    · exact (insertBehind_nextAddr ..).trans (if_pos hlast)
    · exact ((insertBehind_nextAddr ..).trans (if_neg hlast)).trans (if_pos rfl)
  · -- the new entry links to the current proposer
    have hprev : ctx.sender ≠ s.current.previousAddr := by
      rw [hprevious]
      exact (hne _ (h.links.previous_mem h.current_mem)).symm
    rw [nextOf]
    dsimp only
    rw [insertBehind_nextAddr, if_neg fun hand => hcurrent hand.1.symm, if_neg hprev, if_pos rfl]
  · rw [previousOf]
    dsimp only
    rw [insertBehind_previousAddr, if_neg hcurrent.symm, if_pos rfl, hprevious]
  · rw [previousOf]
    dsimp only
    rw [insertBehind_previousAddr, if_pos rfl]
  · intro x hx hlast
    rw [← hprevious] at hlast
    have hself' : ¬(x = s.current.addr ∧ s.current.nextAddr = s.current.addr) := fun hand =>
      hlast (hand.1.trans (hself hand.2).symm)
    rw [nextOf]
    dsimp only
    rw [insertBehind_nextAddr, if_neg hself', if_neg hlast, if_neg (hne x hx), nextOf]
  · intro x hx hx'
    rw [previousOf]
    dsimp only
    rw [insertBehind_previousAddr, if_neg hx', if_neg (hne x hx), previousOf]

/-- The links are mended around a proposer that leaves. -/
theorem links_released (h : Ring reg s) (hmem : address ∈ reg) (hcard : 1 < reg.card) :
    Links (reg.erase address)
      (released address (unlink address (leaving cfg ctx address s))).proposers := by
  have hleaving : Links reg (leaving cfg ctx address s).proposers := by
    unfold leaving
    split_ifs
    · exact h.links.setStake _
    · exact h.links
  refine (hleaving.bridge hmem hcard).congr (fun x hx => ?_) fun x hx => ?_
  · exact congrArg Proposer.nextAddr
      ((released_proposers x).trans (if_neg (Finset.ne_of_mem_erase hx)))
  · exact congrArg Proposer.previousAddr
      ((released_proposers x).trans (if_neg (Finset.ne_of_mem_erase hx)))

/-- Once the current proposer has left, the next one is current. -/
theorem leaving_current_mem (h : Ring reg s) (hacc : Accounts reg s) (hcard : 1 < reg.card) :
    (leaving cfg ctx address s).current.addr ∈ reg.erase address := by
  unfold leaving
  split_ifs with hcurrent
  · have haddr : (exited cfg ctx s).current.addr = nextOf s.proposers s.current.addr := by
      have haccount := setStake_account s.proposers s.current.addr s.current.nextAddr
        ((s.proposers s.current.addr).stake - cfg.exitPenalty)
      have hnext : s.current.nextAddr = nextOf s.proposers s.current.addr := by
        rw [nextOf, ← h.current_eq]
      have hne : s.current.nextAddr ≠ s.current.addr := by
        rw [hnext]
        exact h.links.next_ne h.current_mem hcard
      rw [if_neg hne] at haccount
      rw [← hnext]
      exact (Proposer.addr_eq_of_account haccount).trans (hacc.addr_eq _ h.next_mem)
    rw [haddr, hcurrent]
    exact Finset.mem_erase.2 ⟨h.links.next_ne h.current_mem hcard, h.links.next_mem h.current_mem⟩
  · exact Finset.mem_erase.2 ⟨fun heq => hcurrent heq.symm, h.current_mem⟩

theorem closeRing_of_one (hone : s.proposerCount = 1) :
    (closeRing s).current = (closeRing s).proposers s.current.addr ∧
      nextOf (closeRing s).proposers s.current.addr = s.current.addr ∧
      previousOf (closeRing s).proposers s.current.addr = s.current.addr := by
  rw [closeRing, if_pos hone]
  refine ⟨rfl, ?_, ?_⟩
  · exact (setPrevious_nextAddr ..).trans ((setNext_nextAddr ..).trans (if_pos rfl))
  · exact (setPrevious_previousAddr ..).trans (if_pos rfl)

/-- Of two proposers one leaves, and the other one is linked to itself. -/
theorem leave_of_two (h : Ring reg s) (hacc : Accounts reg s) (hmay : MayLeave cfg address s)
    (htwo : s.proposerCount = 2) : Ring (reg.erase address) (left cfg ctx address s) := by
  have hmem := hacc.mem_of_addr hmay.addr_eq hmay.ne_zero
  have hcard : reg.card = 2 := hacc.count_eq.symm.trans htwo
  have hcurrent : (leaving cfg ctx address s).current.addr ∈ reg.erase address :=
    h.leaving_current_mem hacc (by omega)
  have hleft : Accounts (reg.erase address) (left cfg ctx address s) := hacc.leave hmay
  obtain ⟨q, hq⟩ := Finset.card_eq_one.1
    ((Finset.card_erase_of_mem hmem).trans (by rw [hcard]))
  rw [hq, Finset.mem_singleton] at hcurrent
  rw [hq] at hleft ⊢
  have hone : (released address (unlink address (leaving cfg ctx address s))).proposerCount = 1 := by
    show (leaving cfg ctx address s).proposerCount - 1 = 1
    rw [leaving_proposerCount, htwo]
  obtain ⟨heq, hnext, hprevious⟩ := closeRing_of_one hone
  rw [show (released address (unlink address (leaving cfg ctx address s))).current.addr = q from
    hcurrent] at heq hnext hprevious
  have haddr : (left cfg ctx address s).current.addr = q :=
    (congrArg Proposer.addr heq).trans (hleft.addr_eq q (Finset.mem_singleton_self q))
  refine ⟨?_, ?_, .singleton hnext hprevious⟩
  · rw [haddr]
    exact heq
  · rw [haddr]
    exact Finset.mem_singleton_self q

/-- Of three or more proposers one leaves, and the ring is not closed. -/
theorem left_of_three (hacc : Accounts reg s) (hcard : 1 < reg.card) (hcount : s.proposerCount ≠ 2) :
    left cfg ctx address s = released address (unlink address (leaving cfg ctx address s)) := by
  have hone : ¬(released address (unlink address (leaving cfg ctx address s))).proposerCount = 1 := by
    show ¬(leaving cfg ctx address s).proposerCount - 1 = 1
    rw [leaving_proposerCount]
    have heq := hacc.count_eq
    omega
  rw [left, closeRing, if_neg hone]

/-- A proposer leaves that is neither current nor next to the current one. -/
theorem leave_of_apart (h : Ring reg s) (hacc : Accounts reg s) (hmay : MayLeave cfg address s)
    (hcount : s.proposerCount ≠ 2) (hcurrent : address ≠ s.current.addr)
    (hnext : address ≠ s.current.nextAddr) (hprevious : address ≠ s.current.previousAddr) :
    Ring (reg.erase address) (left cfg ctx address s) := by
  have hmem := hacc.mem_of_addr hmay.addr_eq hmay.ne_zero
  have hcard : 1 < reg.card := Finset.one_lt_card.2 ⟨_, hmem, _, h.current_mem, hcurrent⟩
  have hleaving : leaving cfg ctx address s = s := if_neg hcurrent
  have hleft : left cfg ctx address s =
      released address (unlink address (leaving cfg ctx address s)) :=
    left_of_three hacc hcard hcount
  rw [hleaving] at hleft
  -- the entry of the current proposer is not written to
  have hentry : (released address (unlink address s)).proposers s.current.addr =
      s.proposers s.current.addr := by
    have hfrom : s.current.addr ≠ (s.proposers address).previousAddr := fun heq => by
      rw [h.current_eq] at hnext
      exact hnext (h.links.next_previous hmem ▸ congrArg (nextOf s.proposers) heq.symm)
    have hto : s.current.addr ≠ (s.proposers address).nextAddr := fun heq => by
      rw [h.current_eq] at hprevious
      exact hprevious (h.links.previous_next hmem ▸ congrArg (previousOf s.proposers) heq.symm)
    rw [released_proposers, if_neg hcurrent.symm]
    exact bridge_of_ne _ _ _ hfrom hto
  rw [hleft]
  refine ⟨h.current_eq.trans hentry.symm, Finset.mem_erase.2 ⟨hcurrent.symm, h.current_mem⟩, ?_⟩
  have hlinks : Links (reg.erase address)
      (released address (unlink address (leaving cfg ctx address s))).proposers :=
    h.links_released hmem hcard
  rwa [hleaving] at hlinks

theorem advance_current_addr (hacc : Accounts reg s) (hnext : s.current.nextAddr ∈ reg) :
    (advance ctx s).current.addr = s.current.nextAddr := hacc.addr_eq _ hnext

/-- The next proposer becomes current. -/
theorem advance (hacc : Accounts reg s) (hlinks : Links reg s.proposers)
    (hnext : s.current.nextAddr ∈ reg) : Ring reg (advance ctx s) := by
  have haddr : (RoundRobin.advance ctx s).current.addr = s.current.nextAddr :=
    advance_current_addr hacc hnext
  refine ⟨?_, ?_, hlinks⟩
  · rw [haddr]
    rfl
  · rwa [haddr]

/-- When the current one of three or more proposers has left, the one after the next one is next. -/
theorem left_current_nextAddr (h : Ring reg s) (hacc : Accounts reg s) (hcard : 1 < reg.card)
    (hcount : s.proposerCount ≠ 2) : (left cfg ctx s.current.addr s).current.nextAddr =
      nextOf s.proposers (nextOf s.proposers s.current.addr) := by
  rw [left_of_three hacc hcard hcount, leaving, if_pos rfl]
  refine (setStake_nextAddr ..).trans ?_
  rw [nextOf, nextOf, ← h.current_eq]

/-- A rotation keeps the ring, even if it removes the current proposer. -/
theorem rotate (h : Ring reg s) (hacc : Accounts reg s) {removed : Option Address}
    (hcall : rotateProposer cfg ctx s = .ok (s', removed)) :
    Ring ((Action.rotated removed).register reg) s' := by
  obtain ⟨-, s₁, hpenalize, rfl⟩ := rotateProposer_eq_ok.1 hcall
  rcases hacc.penalizeIfLazy_eq_ok.1 hpenalize with ⟨-, rfl, rfl⟩ | ⟨-, hlazy⟩
  · exact advance hacc h.links h.next_mem
  rcases hlazy with ⟨-, hmay, rfl, rfl⟩ | ⟨hstake, rfl, rfl⟩
  · have hleft : Accounts (reg.erase s.current.addr) (left cfg ctx s.current.addr s) :=
      hacc.leave hmay
    have hcard : 1 < reg.card := hacc.count_eq ▸ (hmay.exit rfl).count
    by_cases htwo : s.proposerCount = 2
    · have hring : Ring (reg.erase s.current.addr) (left cfg ctx s.current.addr s) :=
        h.leave_of_two hacc hmay htwo
      exact advance hleft hring.links hring.next_mem
    · have heq : left cfg ctx s.current.addr s =
          released s.current.addr (unlink s.current.addr (leaving cfg ctx s.current.addr s)) :=
        left_of_three hacc hcard htwo
      have hlinks : Links (reg.erase s.current.addr) (left cfg ctx s.current.addr s).proposers :=
        heq ▸ h.links_released h.current_mem hcard
      refine advance hleft hlinks ?_
      rw [h.left_current_nextAddr hacc hcard htwo]
      have hcount := hacc.count_eq
      exact Finset.mem_erase.2 ⟨h.links.next_next_ne h.current_mem (by omega),
        h.links.next_mem (h.links.next_mem h.current_mem)⟩
  · exact advance (hacc.penalize hstake) (h.links.setStake _) h.next_mem

end Ring

/-- A proposer is added only to a ring, and none is removed that is current or next to the current
one, unless there are two. -/
def Event.Regular (e : Event) : Prop :=
  match e.action with
  | .added _ => e.before.proposerCount ≠ 0
  | .removed address => e.before.proposerCount = 2 ∨ address ≠ e.before.current.addr ∧
      address ≠ e.before.current.nextAddr ∧ address ≠ e.before.current.previousAddr
  | _ => True

instance : DecidablePred Event.Regular := fun e =>
  match e with
  | ⟨_, _, .added _, _⟩ => inferInstanceAs (Decidable (_ ≠ _))
  | ⟨_, _, .removed _, _⟩ => inferInstanceAs (Decidable (_ ∨ _))
  | ⟨_, _, .bootstrapped _, _⟩ | ⟨_, _, .rotated _, _⟩ | ⟨_, _, .withdrawn _ _, _⟩ => isTrue trivial

section Runs

variable {cfg : Settings} {ctx : Context} {reg : Finset Address} {s s' : State}

/-- Regular steps keep the ring. -/
theorem Ring.step {a : Action} {blockNumber : ℕ} (h : reg.Nonempty → Ring reg s)
    (hacc : Accounts reg s) (hreg : (Event.mk s blockNumber a s').Regular)
    (hst : Step cfg ctx s a s') : (a.register reg).Nonempty → Ring (a.register reg) s' := by
  cases hst with
  | bootstrapped hcall => exact fun _ => .bootstrap hacc hcall
  | added hcall =>
    have hcard : 0 < reg.card := Nat.pos_of_ne_zero (hacc.count_eq ▸ hreg)
    exact fun _ => (h (Finset.card_pos.1 hcard)).add hacc hcall
  | removed hcall =>
    obtain ⟨hmay, rfl⟩ := hacc.removeProposerOf_eq_ok.1 hcall
    have hring := h ⟨_, hacc.mem_of_addr hmay.addr_eq hmay.ne_zero⟩
    by_cases htwo : s.proposerCount = 2
    · exact fun _ => hring.leave_of_two hacc hmay htwo
    · obtain ⟨hcurrent, hnext, hprevious⟩ := hreg.resolve_left htwo
      exact fun _ => hring.leave_of_apart hacc hmay htwo hcurrent hnext hprevious
  | @rotated _ removed hcall =>
    intro hne
    refine (h ?_).rotate hacc hcall
    cases removed with
    | none => exact hne
    | some address => exact hne.mono (Finset.erase_subset ..)
  | withdrawn hcall =>
    obtain ⟨-, rfl⟩ := withdraw_eq_ok.1 hcall
    exact fun hne => ⟨(h hne).current_eq, (h hne).current_mem, (h hne).links⟩

theorem ring_of_regular {trace : List Event} {c : Config} (h : (ringSystem cfg).Run trace c)
    (hregular : ∀ e ∈ trace, e.Regular) (hne : (registered trace).Nonempty) :
    Ring (registered trace) c.state := by
  have hinv := h.invariant (I := fun trace c => Accounts (registered trace) c.state ∧
    ((registered trace).Nonempty → Ring (registered trace) c.state)) hregular ?_ ?_
  · exact hinv.2 hne
  · intro c hinit
    exact ⟨accounts (.init hinit), fun hne => absurd hne Finset.not_nonempty_empty⟩
  · rintro trace c ⟨before, blockNumber, action, after⟩ c' hP ⟨hacc, hring⟩ ⟨call, hexec⟩
    obtain ⟨-, -, rfl, rfl, ctx, -, hst⟩ := execAt_step hexec
    exact ⟨hacc.step hst, Ring.step hring hacc hP hst⟩

/-- What the ring is for. -/
structure RingInvariant (reg : Finset Address) (s : State) : Prop where
  /-- `current` is a copy of an entry. -/
  current_eq : s.current = s.proposers s.current.addr
  current_mem : s.current.addr ∈ reg
  /-- Following `next_addr` visits every proposer once. -/
  nodup : (List.iterate (nextOf s.proposers) s.current.addr reg.card).Nodup
  visits : ∀ a, a ∈ List.iterate (nextOf s.proposers) s.current.addr reg.card ↔ a ∈ reg
  returns : (nextOf s.proposers)^[reg.card] s.current.addr = s.current.addr
  /-- `previous_addr` is the inverse of `next_addr`. -/
  previous_next : ∀ a ∈ reg, previousOf s.proposers (nextOf s.proposers a) = a
  next_previous : ∀ a ∈ reg, nextOf s.proposers (previousOf s.proposers a) = a
  count_eq : s.proposerCount = reg.card
  /-- `get_proposers` lists every proposer once. -/
  getProposers_eq : ∃ l, getProposers s = .ok l ∧ (l.map Proposer.addr).Nodup ∧
    ∀ p, p ∈ l ↔ ∃ a ∈ reg, p = s.proposers a
  urls_iff : ∀ url, s.proposerUrls url = true ↔ ∃ a ∈ reg, (s.proposers a).url = url

/-- The loop of `get_proposers` collects the entries along the links. -/
theorem iterate_proposers (m : Entries) (a : Address) (n : ℕ) :
    List.iterate (fun p => m p.nextAddr) (m a) n = (List.iterate (nextOf m) a n).map m := by
  induction n generalizing a with
  | zero => rfl
  | succ n ih =>
    rw [List.iterate, List.iterate, List.map_cons]
    exact congrArg _ (ih (nextOf m a))

theorem Ring.invariant (h : Ring reg s) (hacc : Accounts reg s) : RingInvariant reg s := by
  obtain ⟨l, hlinked, hmem, hlength⟩ := h.links.exists_cons h.current_mem
  obtain ⟨hlist, hreturn⟩ := hlinked.iterate_next
  rw [hlength] at hlist hreturn
  have hnodup : (s.current.addr :: l).Nodup := hlinked.nodup
  have hcount : s.proposerCount ≠ 0 := by
    have heq := hacc.count_eq
    omega
  have hget : getProposers s = .ok ((s.current.addr :: l).map s.proposers) := by
    rw [getProposers, if_neg hcount, hacc.count_eq, h.current_eq, iterate_proposers, ← h.current_eq,
      hlist]
  have haddr : ((s.current.addr :: l).map s.proposers).map Proposer.addr = s.current.addr :: l := by
    rw [List.map_map]
    exact (List.map_congr_left fun a ha => hacc.addr_eq a ((hmem a).1 ha)).trans (List.map_id _)
  refine ⟨h.current_eq, h.current_mem, ?_, ?_, hreturn, fun a ha => h.links.previous_next ha,
    fun a ha => h.links.next_previous ha, hacc.count_eq, ⟨_, hget, ?_, fun p => ?_⟩, hacc.urls_iff⟩
  · rwa [hlist]
  · rwa [hlist]
  · rwa [haddr]
  · rw [List.mem_map]
    constructor
    · rintro ⟨a, ha, rfl⟩
      exact ⟨a, (hmem a).1 ha, rfl⟩
    · rintro ⟨a, ha, rfl⟩
      exact ⟨a, (hmem a).2 ha, rfl⟩

/-- **In a run of regular steps the proposers form a ring.** -/
theorem ringInvariant_of_regular {trace : List Event} {c : Config}
    (h : (ringSystem cfg).Run trace c) (hregular : ∀ e ∈ trace, e.Regular)
    (hne : (registered trace).Nonempty) : RingInvariant (registered trace) c.state :=
  (ring_of_regular h hregular hne).invariant (accounts h)

end Runs

/-! ### Runs on concrete proposers -/

def dave : { a : Address // a ≠ 0 } := ⟨4, by decide⟩

/-- Four proposers join, the third one leaves and the first one is too lazy twice. -/
def ringCalls : List (Context × Command) :=
  [(callBy alice 1 0, .bootstrapDefaultProposer 1 "a"), (callBy bob 2 0, .addProposer "b"),
    (callBy carol 3 0, .addProposer "c"), (callBy dave 4 0, .addProposer "d"),
    (callBy carol 5 0, .removeProposer), (callBy dave 70 0, .rotateProposer),
    (callBy dave 139 1, .rotateProposer), (callBy dave 208 2, .rotateProposer),
    (callBy dave 277 2, .rotateProposer)]

theorem ringCalls_isSome : (ringRun sampleSettings ringCalls).isSome := by decide +kernel

theorem ringInvariant_of_regular_sample :
    registered ((ringRun sampleSettings ringCalls).get ringCalls_isSome).1 = {2, 4} ∧
      RingInvariant (registered ((ringRun sampleSettings ringCalls).get ringCalls_isSome).1)
        ((ringRun sampleSettings ringCalls).get ringCalls_isSome).2.state :=
  ⟨by decide +kernel, ringInvariant_of_regular (run_ringRun ringCalls_isSome) (by decide +kernel)
    ⟨2, by decide +kernel⟩⟩

/-- A proposer is added before the ring is bootstrapped. -/
def earlyCalls : List (Context × Command) := [(callBy bob 1 0, .addProposer "b")]

/-- Three proposers join and the given one leaves. -/
def leaveCalls (leaver : { a : Address // a ≠ 0 }) : List (Context × Command) :=
  [(callBy alice 1 0, .bootstrapDefaultProposer 1 "a"), (callBy bob 2 0, .addProposer "b"),
    (callBy carol 3 0, .addProposer "c"), (callBy leaver 4 0, .removeProposer)]

theorem earlyCalls_isSome : (ringRun sampleSettings earlyCalls).isSome := by decide +kernel

theorem leaveCalls_isSome :
    (ringRun sampleSettings (leaveCalls alice)).isSome ∧ (ringRun sampleSettings (leaveCalls bob)).isSome := by decide +kernel

/-- A proposer that is added too early does not become current; when the current proposer or the next
one leaves, `current` keeps a link to it. -/
theorem ring_broken :
    (∃ (cfg : Settings) (trace : List Event) (c : Config), (ringSystem cfg).Run trace c ∧
      (registered trace).Nonempty ∧ ¬RingInvariant (registered trace) c.state) ∧
    ∀ leaver ∈ [alice, bob], ∃ (cfg : Settings) (trace : List Event) (c : Config),
      (ringSystem cfg).Run trace c ∧ trace.map Event.action =
        [.removed leaver, .added carol, .added bob, .bootstrapped alice] ∧
      (registered trace).Nonempty ∧ ¬RingInvariant (registered trace) c.state := by
  refine ⟨⟨_, _, _, run_ringRun earlyCalls_isSome, ⟨2, by decide +kernel⟩, fun h => ?_⟩, ?_⟩
  · exact absurd h.current_mem (by decide +kernel)
  rw [List.forall_mem_cons, List.forall_mem_singleton]
  constructor
  · refine ⟨_, _, _, run_ringRun leaveCalls_isSome.1, by decide +kernel, ⟨2, by decide +kernel⟩,
      fun h => ?_⟩
    exact absurd h.current_eq (by decide +kernel)
  · refine ⟨_, _, _, run_ringRun leaveCalls_isSome.2, by decide +kernel, ⟨1, by decide +kernel⟩,
      fun h => ?_⟩
    exact absurd h.current_eq (by decide +kernel)

end RoundRobin

end Nightfall
