import Mathlib.Data.Set.Function

/-!
# Chains of hashes

A chain hashes each block together with the hash before it, and hands out a challenge after each of
them: what a reduction leaves of the hash.  If no two of the messages that two chains hash have one
challenge, then two challenges that agree bind all blocks up to them (`block_eq_of_challenge_eq`).
-/

namespace Nightfall

namespace HashChain

variable {σ β μ κ : Type*} (hash : μ → σ) (message : σ → β → μ) (reduce : σ → κ) (start : σ)
  (block : ℕ → β)

/-- The state before the `i`-th block. -/
def state : ℕ → σ
  | 0 => start
  | i + 1 => hash (message (state i) (block i))

/-- What is hashed with the `i`-th block. -/
def hashed (i : ℕ) : μ := message (state hash message start block i) (block i)

/-- The challenge after the `i`-th block. -/
def challenge (i : ℕ) : κ := reduce (hash (hashed hash message start block i))

variable {hash message reduce start block}

theorem state_succ (i : ℕ) :
    state hash message start block (i + 1) = hash (hashed hash message start block i) := rfl

/-- What is hashed only depends on the blocks up to it. -/
theorem hashed_congr {block' : ℕ → β} {i : ℕ} (h : ∀ j ≤ i, block j = block' j) :
    hashed hash message start block i = hashed hash message start block' i := by
  induction i with
  | zero => rw [hashed, hashed, h 0 le_rfl, state, state]
  | succ i ih =>
    rw [hashed, hashed, h (i + 1) le_rfl, state_succ, state_succ,
      ih fun j hj => h j (Nat.le_succ_of_le hj)]

/-- **A challenge binds what came before it.**  The messages up to the challenges must not collide,
and a message determines the state and the block. -/
theorem block_eq_of_challenge_eq {start' : σ} {block' : ℕ → β} {i : ℕ}
    (hmessage : ∀ {s b s' b'}, message s b = message s' b' → s = s' ∧ b = b')
    (hfree : Set.InjOn (reduce ∘ hash) {m | ∃ j ≤ i, m = hashed hash message start block j ∨
      m = hashed hash message start' block' j})
    (h : challenge hash message reduce start block i =
      challenge hash message reduce start' block' i) :
    ∀ j ≤ i, block j = block' j := by
  -- from the last challenge backwards: equal messages have equal states, which are hashes before
  induction i with
  | zero =>
    intro j hj
    obtain rfl := Nat.le_zero.1 hj
    exact (hmessage (hfree ⟨0, hj, .inl rfl⟩ ⟨0, hj, .inr rfl⟩ h)).2
  | succ i ih =>
    obtain ⟨hstate, hlast⟩ :=
      hmessage (hfree ⟨i + 1, le_rfl, .inl rfl⟩ ⟨i + 1, le_rfl, .inr rfl⟩ h)
    have hbefore := ih (hfree.mono fun m hm => by
      obtain ⟨j, hj, hm⟩ := hm
      exact ⟨j, Nat.le_succ_of_le hj, hm⟩) (congrArg reduce hstate)
    intro j hj
    rcases Nat.le_succ_iff.1 hj with hj | rfl
    · exact hbefore j hj
    · exact hlast

end HashChain

end Nightfall
