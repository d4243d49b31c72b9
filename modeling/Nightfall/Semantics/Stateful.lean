import Mathlib.Order.Defs.Unbundled

/-!
# Stateful computations

Rules for computations with a state that may fail and keep what they wrote before (`EStateM`).  A
successful run of a sequence of computations is a sequence of successful runs
(`run_bind_eq_ok`), and one that fails is a failure at some point (`run_bind_eq_error`).  What every
part of a computation keeps is kept by the computation, when it succeeds (`Keeps`) or however it ends
(`Preserves`), and what one part does and the others keep is what the computation does (`Changes`).
A computation whose parts move the state along a preorder moves it along the preorder (`Moves`).
-/

namespace Nightfall

namespace Stateful

variable {ε σ α β γ : Type}

/-! ### Successful runs -/

theorem run_bind_eq_ok {x : EStateM ε σ α} {f : α → EStateM ε σ β} {b : β} {s s' : σ} :
    (x >>= f).run s = .ok b s' ↔ ∃ a t, x.run s = .ok a t ∧ (f a).run t = .ok b s' := by
  rw [EStateM.run_bind]
  cases h : x.run s with
  | ok a t =>
    constructor
    · intro hf
      exact ⟨a, t, rfl, hf⟩
    · rintro ⟨_, _, ⟨⟩, hf⟩
      exact hf
  | error e t =>
    constructor
    · intro hf
      cases hf
    · rintro ⟨_, _, ⟨⟩, _⟩

theorem run_pure_eq_ok {a b : α} {s s' : σ} :
    (pure a : EStateM ε σ α).run s = .ok b s' ↔ a = b ∧ s = s' := by
  constructor
  · rintro ⟨⟩
    exact ⟨rfl, rfl⟩
  · rintro ⟨rfl, rfl⟩
    rfl

theorem run_throw_ne_ok {e : ε} {a : α} {s s' : σ} :
    (throw e : EStateM ε σ α).run s ≠ .ok a s' := by
  intro h
  cases h

/-! ### Failed runs -/

theorem run_bind_eq_error {x : EStateM ε σ α} {f : α → EStateM ε σ β} {e : ε} {s s' : σ} :
    (x >>= f).run s = .error e s' ↔
      x.run s = .error e s' ∨ ∃ a t, x.run s = .ok a t ∧ (f a).run t = .error e s' := by
  rw [EStateM.run_bind]
  cases h : x.run s with
  | ok a t =>
    constructor
    · intro hf
      exact .inr ⟨a, t, rfl, hf⟩
    · rintro (⟨⟨⟩⟩ | ⟨_, _, ⟨⟩, hf⟩)
      exact hf
  | error e' t =>
    constructor
    · rintro ⟨⟩
      exact .inl rfl
    · rintro (⟨⟨⟩⟩ | ⟨_, _, ⟨⟩, _⟩)
      rfl

theorem run_throw_eq_error {e e' : ε} {s s' : σ} :
    (throw e : EStateM ε σ α).run s = .error e' s' ↔ e = e' ∧ s = s' := by
  constructor
  · rintro ⟨⟩
    exact ⟨rfl, rfl⟩
  · rintro ⟨rfl, rfl⟩
    rfl

theorem run_pure_ne_error {a : α} {e : ε} {s s' : σ} :
    (pure a : EStateM ε σ α).run s ≠ .error e s' := by
  intro h
  cases h

/-- A computation succeeds or fails. -/
theorem run_cases (x : EStateM ε σ α) (s : σ) :
    (∃ a s', x.run s = .ok a s') ∨ ∃ e s', x.run s = .error e s' := by
  cases h : x.run s with
  | ok a s' => exact .inl ⟨a, s', rfl⟩
  | error e s' => exact .inr ⟨e, s', rfl⟩

theorem length_of_mapM {f : α → EStateM ε σ β} {l : List α} {bs : List β} {s s' : σ}
    (h : (l.mapM f).run s = .ok bs s') : bs.length = l.length := by
  induction l generalizing s s' bs with
  | nil =>
    cases h
    rfl
  | cons a l ih =>
    rw [List.mapM_cons] at h
    obtain ⟨b, t, -, h⟩ := run_bind_eq_ok.1 h
    obtain ⟨bs', t', hrest, h⟩ := run_bind_eq_ok.1 h
    obtain ⟨rfl, -⟩ := run_pure_eq_ok.1 h
    rw [List.length_cons, ih hrest, List.length_cons]

/-- A loop of checks, which return nothing and leave the state. -/
theorem run_forM_eq_ok {f : α → EStateM ε σ PUnit} {p : α → σ → Prop}
    (hf : ∀ a s s', (f a).run s = .ok () s' ↔ p a s ∧ s' = s) {l : List α} {s s' : σ} :
    (l.forM f).run s = .ok () s' ↔ (∀ a ∈ l, p a s) ∧ s' = s := by
  induction l generalizing s with
  | nil =>
    change (pure () : EStateM ε σ PUnit).run s = _ ↔ _
    rw [run_pure_eq_ok, eq_comm (a := s)]
    exact ⟨fun h => ⟨List.forall_mem_nil _, h.2⟩, fun h => ⟨rfl, h.2⟩⟩
  | cons a l ih =>
    change (f a >>= fun _ => l.forM f).run s = _ ↔ _
    rw [run_bind_eq_ok, List.forall_mem_cons]
    constructor
    · rintro ⟨_, t, ha, hrest⟩
      obtain ⟨hp, rfl⟩ := (hf a s t).1 ha
      obtain ⟨hall, rfl⟩ := ih.1 hrest
      exact ⟨⟨hp, hall⟩, rfl⟩
    · rintro ⟨⟨hp, hall⟩, rfl⟩
      exact ⟨(), s', (hf a s' s').2 ⟨hp, rfl⟩, ih.2 ⟨hall, rfl⟩⟩

/-- A loop of checks fails at the first check that fails. -/
theorem run_forM_eq_error {f : α → EStateM ε σ PUnit} {p : α → σ → Prop}
    (hf : ∀ a s s', (f a).run s = .ok () s' ↔ p a s ∧ s' = s) {l : List α} {e : ε} {s s' : σ}
    (h : (l.forM f).run s = .error e s') : ∃ a ∈ l, (f a).run s = .error e s' := by
  induction l with
  | nil => exact absurd h run_pure_ne_error
  | cons a l ih =>
    change (f a >>= fun _ => l.forM f).run s = _ at h
    rcases run_bind_eq_error.1 h with ha | ⟨_, t, ha, hrest⟩
    · exact ⟨a, List.mem_cons_self, ha⟩
    · obtain ⟨-, rfl⟩ := (hf a s t).1 ha
      obtain ⟨b, hb, hrun⟩ := ih hrest
      exact ⟨b, List.mem_cons_of_mem _ hb, hrun⟩

/-! ### What a computation keeps -/

/-- A successful run of `x` leaves what `p` says of the state. -/
def Keeps (p : σ → γ) (x : EStateM ε σ α) : Prop :=
  ∀ s a s', x.run s = .ok a s' → p s' = p s

theorem Keeps.pure {p : σ → γ} (a : α) : Keeps p (Pure.pure a : EStateM ε σ α) := by
  intro s b s' h
  rw [(run_pure_eq_ok.1 h).2]

theorem Keeps.get {p : σ → γ} : Keeps p (MonadState.get : EStateM ε σ σ) := by
  rintro s _ _ ⟨⟩
  rfl

theorem Keeps.throw {p : σ → γ} (e : ε) : Keeps p (MonadExcept.throw e : EStateM ε σ α) := by
  intro s a s' h
  exact absurd h run_throw_ne_ok

theorem Keeps.modify {p : σ → γ} {f : σ → σ} (h : ∀ s, p (f s) = p s) :
    Keeps p (modify f : EStateM ε σ PUnit) := by
  rintro s _ _ ⟨⟩
  exact h s

theorem Keeps.bind {p : σ → γ} {x : EStateM ε σ α} {f : α → EStateM ε σ β} (hx : Keeps p x)
    (hf : ∀ a, Keeps p (f a)) : Keeps p (x >>= f) := by
  intro s b s' h
  obtain ⟨a, t, hrun, hrest⟩ := run_bind_eq_ok.1 h
  exact (hf a _ _ _ hrest).trans (hx _ _ _ hrun)

theorem Keeps.ite {p : σ → γ} {c : Prop} [Decidable c] {x y : EStateM ε σ α} (hx : Keeps p x)
    (hy : Keeps p y) : Keeps p (if c then x else y) := by
  by_cases h : c
  · rwa [if_pos h]
  · rwa [if_neg h]

theorem Keeps.foldlM {p : σ → γ} {f : β → α → EStateM ε σ β} (hf : ∀ b a, Keeps p (f b a))
    (b : β) (l : List α) : Keeps p (l.foldlM f b) := by
  induction l generalizing b with
  | nil => exact .pure b
  | cons a l ih => exact .bind (hf b a) ih

theorem Keeps.mapM {p : σ → γ} {f : α → EStateM ε σ β} (hf : ∀ a, Keeps p (f a)) (l : List α) :
    Keeps p (l.mapM f) := by
  induction l with
  | nil => exact .pure []
  | cons a l ih =>
    rw [List.mapM_cons]
    exact .bind (hf a) fun b => .bind ih fun bs => .pure _

/-- `x` leaves what `p` says of the state, however it ends. -/
structure Preserves (p : σ → γ) (x : EStateM ε σ α) : Prop where
  keeps : Keeps p x
  of_error : ∀ s e s', x.run s = .error e s' → p s' = p s

theorem Preserves.pure {p : σ → γ} (a : α) : Preserves p (Pure.pure a : EStateM ε σ α) where
  keeps := .pure a
  of_error _ _ _ h := absurd h run_pure_ne_error

theorem Preserves.get {p : σ → γ} : Preserves p (MonadState.get : EStateM ε σ σ) where
  keeps := .get
  of_error _ _ _ h := by cases h

theorem Preserves.throw {p : σ → γ} (e : ε) :
    Preserves p (MonadExcept.throw e : EStateM ε σ α) where
  keeps := .throw e
  of_error _ _ _ h := by rw [(run_throw_eq_error.1 h).2]

theorem Preserves.modify {p : σ → γ} {f : σ → σ} (h : ∀ s, p (f s) = p s) :
    Preserves p (modify f : EStateM ε σ PUnit) where
  keeps := .modify h
  of_error _ _ _ h := by cases h

theorem Preserves.bind {p : σ → γ} {x : EStateM ε σ α} {f : α → EStateM ε σ β}
    (hx : Preserves p x) (hf : ∀ a, Preserves p (f a)) : Preserves p (x >>= f) where
  keeps := .bind hx.keeps fun a => (hf a).keeps
  of_error s e s' h := by
    rcases run_bind_eq_error.1 h with hrun | ⟨a, t, hrun, hrest⟩
    · exact hx.of_error _ _ _ hrun
    · exact ((hf a).of_error _ _ _ hrest).trans (hx.keeps _ _ _ hrun)

theorem Preserves.ite {p : σ → γ} {c : Prop} [Decidable c] {x y : EStateM ε σ α}
    (hx : Preserves p x) (hy : Preserves p y) : Preserves p (if c then x else y) := by
  by_cases h : c
  · rwa [if_pos h]
  · rwa [if_neg h]

theorem Preserves.foldlM {p : σ → γ} {f : β → α → EStateM ε σ β} (hf : ∀ b a, Preserves p (f b a))
    (b : β) (l : List α) : Preserves p (l.foldlM f b) := by
  induction l generalizing b with
  | nil => exact .pure b
  | cons a l ih => exact .bind (hf b a) ih

theorem Preserves.mapM {p : σ → γ} {f : α → EStateM ε σ β} (hf : ∀ a, Preserves p (f a))
    (l : List α) : Preserves p (l.mapM f) := by
  induction l with
  | nil => exact .pure []
  | cons a l ih =>
    rw [List.mapM_cons]
    exact .bind (hf a) fun b => .bind ih fun bs => .pure _

/-! ### Errors that don't occur -/

/-- `x` never fails with `e`. -/
def Avoids (e : ε) (x : EStateM ε σ α) : Prop := ∀ s s', x.run s ≠ .error e s'

theorem Avoids.pure (e : ε) (a : α) : Avoids e (Pure.pure a : EStateM ε σ α) :=
  fun _ _ => run_pure_ne_error

theorem Avoids.get (e : ε) : Avoids e (MonadState.get : EStateM ε σ σ) := by
  intro s s' h
  cases h

theorem Avoids.modify (e : ε) (f : σ → σ) : Avoids e (modify f : EStateM ε σ PUnit) := by
  intro s s' h
  cases h

theorem Avoids.throw {e e' : ε} (h : e' ≠ e) :
    Avoids e (MonadExcept.throw e' : EStateM ε σ α) :=
  fun _ _ hrun => h (run_throw_eq_error.1 hrun).1

theorem Avoids.bind {e : ε} {x : EStateM ε σ α} {f : α → EStateM ε σ β} (hx : Avoids e x)
    (hf : ∀ a, Avoids e (f a)) : Avoids e (x >>= f) := by
  intro s s' h
  rcases run_bind_eq_error.1 h with hrun | ⟨a, t, -, hrest⟩
  · exact hx s s' hrun
  · exact hf a t s' hrest

theorem Avoids.ite {e : ε} {c : Prop} [Decidable c] {x y : EStateM ε σ α} (hx : Avoids e x)
    (hy : Avoids e y) : Avoids e (if c then x else y) := by
  by_cases h : c
  · rwa [if_pos h]
  · rwa [if_neg h]

theorem Avoids.foldlM {e : ε} {f : β → α → EStateM ε σ β} (hf : ∀ b a, Avoids e (f b a)) (b : β)
    (l : List α) : Avoids e (l.foldlM f b) := by
  induction l generalizing b with
  | nil => exact .pure e b
  | cons a l ih => exact .bind (hf b a) ih

theorem Avoids.mapM {e : ε} {f : α → EStateM ε σ β} (hf : ∀ a, Avoids e (f a)) (l : List α) :
    Avoids e (l.mapM f) := by
  induction l with
  | nil => exact .pure e []
  | cons a l ih =>
    rw [List.mapM_cons]
    exact .bind (hf a) fun b => .bind ih fun bs => .pure e _

/-! ### What a computation changes -/

/-- A successful run of `x` relates what `p` says of the states before and after it by `R`. -/
def Changes (p : σ → γ) (R : γ → γ → Prop) (x : EStateM ε σ α) : Prop :=
  ∀ s a s', x.run s = .ok a s' → R (p s) (p s')

variable {p : σ → γ} {R : γ → γ → Prop} {x : EStateM ε σ α} {f : α → EStateM ε σ β}

theorem Changes.of_keeps (hx : Keeps p x) (hR : ∀ c, R c c) : Changes p R x := by
  intro s a s' h
  rw [hx s a s' h]
  exact hR _

theorem Changes.throw (e : ε) : Changes p R (MonadExcept.throw e : EStateM ε σ α) := by
  intro s a s' h
  exact absurd h run_throw_ne_ok

theorem Changes.ite {c : Prop} [Decidable c] {x y : EStateM ε σ α} (hx : c → Changes p R x)
    (hy : ¬ c → Changes p R y) : Changes p R (if c then x else y) := by
  by_cases h : c
  · rw [if_pos h]
    exact hx h
  · rw [if_neg h]
    exact hy h

/-- A computation after one that changes nothing. -/
theorem Changes.after (hx : Keeps p x) (hf : ∀ a, Changes p R (f a)) : Changes p R (x >>= f) := by
  intro s b s' h
  obtain ⟨a, t, hrun, hrest⟩ := run_bind_eq_ok.1 h
  rw [← hx _ _ _ hrun]
  exact hf a _ _ _ hrest

/-- A computation before one that changes nothing. -/
theorem Changes.before (hx : Changes p R x) (hf : ∀ a, Keeps p (f a)) : Changes p R (x >>= f) := by
  intro s b s' h
  obtain ⟨a, t, hrun, hrest⟩ := run_bind_eq_ok.1 h
  rw [hf a _ _ _ hrest]
  exact hx _ _ _ hrun

/-- Two computations in sequence. -/
theorem Changes.bind {Q : γ → γ → Prop} (hx : Changes p Q x) (hf : ∀ a, Changes p R (f a)) :
    Changes p (fun c d => ∃ b, Q c b ∧ R b d) (x >>= f) := by
  intro s b s' h
  obtain ⟨a, t, hrun, hrest⟩ := run_bind_eq_ok.1 h
  exact ⟨_, hx _ _ _ hrun, hf a _ _ _ hrest⟩

theorem Changes.imp {Q : γ → γ → Prop} (hx : Changes p Q x) (h : ∀ c d, Q c d → R c d) :
    Changes p R x :=
  fun s a s' hrun => h _ _ (hx s a s' hrun)

/-! ### Where a computation leads -/

/-- However `x` ends, it moves the state along `R`, and an error of it is one of `E`. -/
structure Moves (E : ε → Prop) (R : σ → σ → Prop) (x : EStateM ε σ α) : Prop where
  of_ok : ∀ s a s', x.run s = .ok a s' → R s s'
  of_error : ∀ s e s', x.run s = .error e s' → E e ∧ R s s'

section Moves

variable {E : ε → Prop} {S : σ → σ → Prop} [Std.Refl S] [IsTrans σ S]

omit [IsTrans σ S] in
theorem Moves.pure (a : α) : Moves E S (Pure.pure a : EStateM ε σ α) where
  of_ok s b s' h := by
    rw [(run_pure_eq_ok.1 h).2]
    exact refl_of S s'
  of_error _ _ _ h := absurd h run_pure_ne_error

omit [IsTrans σ S] in
theorem Moves.get : Moves E S (MonadState.get : EStateM ε σ σ) where
  of_ok s b s' h := by
    cases h
    exact refl_of S s
  of_error _ _ _ h := by cases h

omit [IsTrans σ S] in
theorem Moves.throw {e : ε} (he : E e) : Moves E S (MonadExcept.throw e : EStateM ε σ α) where
  of_ok _ _ _ h := absurd h run_throw_ne_ok
  of_error s e' s' h := by
    obtain ⟨rfl, rfl⟩ := run_throw_eq_error.1 h
    exact ⟨he, refl_of S s⟩

omit [Std.Refl S] in
theorem Moves.bind {x : EStateM ε σ α} {f : α → EStateM ε σ β} (hx : Moves E S x)
    (hf : ∀ a, Moves E S (f a)) : Moves E S (x >>= f) where
  of_ok s b s' h := by
    obtain ⟨a, t, hrun, hrest⟩ := run_bind_eq_ok.1 h
    exact trans_of S (hx.of_ok _ _ _ hrun) ((hf a).of_ok _ _ _ hrest)
  of_error s e s' h := by
    rcases run_bind_eq_error.1 h with hrun | ⟨a, t, hrun, hrest⟩
    · exact hx.of_error _ _ _ hrun
    · obtain ⟨he, hlast⟩ := (hf a).of_error _ _ _ hrest
      exact ⟨he, trans_of S (hx.of_ok _ _ _ hrun) hlast⟩

omit [Std.Refl S] [IsTrans σ S] in
theorem Moves.ite {c : Prop} [Decidable c] {x y : EStateM ε σ α} (hx : Moves E S x)
    (hy : Moves E S y) : Moves E S (if c then x else y) := by
  by_cases h : c
  · rwa [if_pos h]
  · rwa [if_neg h]

theorem Moves.foldlM {f : β → α → EStateM ε σ β} (hf : ∀ b a, Moves E S (f b a)) (b : β)
    (l : List α) : Moves E S (l.foldlM f b) := by
  induction l generalizing b with
  | nil => exact .pure b
  | cons a l ih => exact .bind (hf b a) ih

theorem Moves.mapM {f : α → EStateM ε σ β} (hf : ∀ a, Moves E S (f a)) (l : List α) :
    Moves E S (l.mapM f) := by
  induction l with
  | nil => exact .pure []
  | cons a l ih =>
    rw [List.mapM_cons]
    exact .bind (hf a) fun b => .bind ih fun bs => .pure _

end Moves

/-! ### All or nothing -/

/-- `x` changes what `p` says of the state by `f` when it succeeds, and leaves it when it fails. -/
structure Commits (p : σ → γ) (f : γ → γ) (x : EStateM ε σ α) : Prop where
  of_ok : ∀ s a s', x.run s = .ok a s' → p s' = f (p s)
  of_error : ∀ s e s', x.run s = .error e s' → p s' = p s

theorem Commits.modify {c : γ → γ} {g : σ → σ} (h : ∀ s, p (g s) = c (p s)) :
    Commits p c (modify g : EStateM ε σ PUnit) where
  of_ok s a s' hrun := by
    cases hrun
    exact h s
  of_error s e s' hrun := by cases hrun

/-- What comes before the change leaves what is changed. -/
theorem Commits.after {c : γ → γ} (hx : Preserves p x) (hf : ∀ a, Commits p c (f a)) :
    Commits p c (x >>= f) where
  of_ok s b s' h := by
    obtain ⟨a, t, hrun, hrest⟩ := run_bind_eq_ok.1 h
    rw [(hf a).of_ok _ _ _ hrest, hx.keeps _ _ _ hrun]
  of_error s e s' h := by
    rcases run_bind_eq_error.1 h with hrun | ⟨a, t, hrun, hrest⟩
    · exact hx.of_error _ _ _ hrun
    · rw [(hf a).of_error _ _ _ hrest, hx.keeps _ _ _ hrun]

end Stateful

end Nightfall
