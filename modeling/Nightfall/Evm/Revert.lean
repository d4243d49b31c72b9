import Mathlib.Algebra.Group.Nat.Defs
import Mathlib.Data.List.Basic
import Mathlib.Order.Basic

/-!
# Reverts

A call that may revert is an `Except Revert`.  `require` and the checked arithmetic of the
unsigned integers, which are numbers below `2 ^ 256`, are the ways to revert that the contracts use.
-/

namespace Nightfall

namespace Evm

/-- Why a call reverts. -/
inductive Revert
  /-- A `require` with the given message. -/
  | require (message : String)
  /-- A sum that is too large. -/
  | overflow
  /-- A difference that is negative. -/
  | underflow
  /-- An index that an array does not have. -/
  | outOfBounds
  /-- A call or a transfer of ether that fails. -/
  | callFailed
  deriving DecidableEq, Repr

/-- `require(condition, message)`. -/
def require (condition : Prop) [Decidable condition] (message : String) : Except Revert Unit :=
  if condition then .ok () else .error (.require message)

/-- `a + b`, which reverts on overflow. -/
def checkedAdd (a b : ℕ) : Except Revert ℕ :=
  if a + b < 2 ^ 256 then .ok (a + b) else .error .overflow

/-- `a - b`, which reverts on underflow. -/
def checkedSub (a b : ℕ) : Except Revert ℕ := if b ≤ a then .ok (a - b) else .error .underflow

section

variable {ε α β : Type}

theorem ok_bind (a : α) (f : α → Except ε β) : (.ok a >>= f) = f a := rfl

@[simp] theorem bind_eq_ok {x : Except ε α} {f : α → Except ε β} {b : β} :
    x >>= f = .ok b ↔ ∃ a, x = .ok a ∧ f a = .ok b := by
  cases x with
  | ok a => exact ⟨fun h => ⟨a, rfl, h⟩, fun ⟨_, rfl, h⟩ => h⟩
  | error e => exact ⟨nofun, fun ⟨_, h, _⟩ => nomatch h⟩

/-- A call for each element of a list, where the calls succeed on `P` and compute `g`. -/
theorem mapM_eq_ok {f : α → Except ε β} {P : α → Prop} {g : α → β}
    (hf : ∀ a b, f a = .ok b ↔ P a ∧ b = g a) {l : List α} {bs : List β} :
    l.mapM f = .ok bs ↔ (∀ a ∈ l, P a) ∧ bs = l.map g := by
  induction l generalizing bs with
  | nil =>
    constructor
    · rintro ⟨⟩
      exact ⟨List.forall_mem_nil _, rfl⟩
    · rintro ⟨-, rfl⟩
      rfl
  | cons a l ih =>
    rw [List.mapM_cons, bind_eq_ok, List.forall_mem_cons, List.map_cons]
    constructor
    · rintro ⟨b, hb, hrest⟩
      obtain ⟨bs', hbs, ⟨⟩⟩ := bind_eq_ok.1 hrest
      obtain ⟨ha, rfl⟩ := (hf a b).1 hb
      obtain ⟨hl, rfl⟩ := ih.1 hbs
      exact ⟨⟨ha, hl⟩, rfl⟩
    · rintro ⟨⟨ha, hl⟩, rfl⟩
      exact ⟨_, (hf a _).2 ⟨ha, rfl⟩, bind_eq_ok.2 ⟨_, ih.2 ⟨hl, rfl⟩, rfl⟩⟩

@[simp] theorem pure_eq_ok {a b : α} : (pure a : Except ε α) = .ok b ↔ a = b :=
  ⟨Except.ok.inj, congrArg _⟩

@[simp] theorem toOption_eq_some {x : Except ε α} {a : α} :
    x.toOption = some a ↔ x = .ok a := by
  cases x with
  | ok b => exact ⟨fun h => congrArg _ (Option.some.inj h), fun h => congrArg _ (Except.ok.inj h)⟩
  | error e => exact ⟨nofun, nofun⟩

variable {condition : Prop} [Decidable condition] {message : String} {a b c : ℕ}

@[simp] theorem require_eq_ok {u : Unit} : require condition message = .ok u ↔ condition := by
  unfold require
  split_ifs with h
  · exact iff_of_true rfl h
  · exact iff_of_false nofun h

@[simp] theorem checkedAdd_eq_ok : checkedAdd a b = .ok c ↔ a + b < 2 ^ 256 ∧ a + b = c := by
  unfold checkedAdd
  split_ifs with h
  · exact ⟨fun heq => ⟨h, Except.ok.inj heq⟩, fun hand => congrArg _ hand.2⟩
  · exact iff_of_false nofun fun hand => h hand.1

@[simp] theorem checkedSub_eq_ok : checkedSub a b = .ok c ↔ b ≤ a ∧ a - b = c := by
  unfold checkedSub
  split_ifs with h
  · exact ⟨fun heq => ⟨h, Except.ok.inj heq⟩, fun hand => congrArg _ hand.2⟩
  · exact iff_of_false nofun fun hand => h hand.1

end

/-! ### Causes of reverts -/

/-- A call reverts for no other causes. -/
def RevertsOnly {α : Type} (P : Revert → Prop) (x : Except Revert α) : Prop :=
  ∀ e, x = .error e → P e

namespace RevertsOnly

variable {α β : Type} {P : Revert → Prop}

theorem ok (a : α) : RevertsOnly P (.ok a) := fun _ h => nomatch h

theorem bind {x : Except Revert α} {f : α → Except Revert β} (hx : RevertsOnly P x)
    (hf : ∀ a, x = .ok a → RevertsOnly P (f a)) : RevertsOnly P (x >>= f) := by
  cases x with
  | ok a => exact hf a rfl
  | error e => exact fun e' h => hx e' (congrArg _ (Except.error.inj h))

theorem require {condition : Prop} [Decidable condition] {message : String}
    (h : P (.require message)) : RevertsOnly P (Evm.require condition message) := by
  unfold Evm.require
  split_ifs
  · exact .ok ()
  · intro e he
    cases he
    exact h

theorem checkedAdd {a b : ℕ} (h : P .overflow) : RevertsOnly P (Evm.checkedAdd a b) := by
  unfold Evm.checkedAdd
  split_ifs
  · exact .ok _
  · intro e he
    cases he
    exact h

theorem checkedSub {a b : ℕ} (h : b ≤ a) : RevertsOnly P (Evm.checkedSub a b) := by
  rw [Evm.checkedSub, if_pos h]
  exact .ok _

end RevertsOnly

end Evm

end Nightfall
