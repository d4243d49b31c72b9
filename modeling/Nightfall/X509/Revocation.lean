import Nightfall.X509.Calls

/-!
# Revoked certificates

A revocation deletes the binding of the certificate, so `x509Check` does not look up the revoked key
any more, but the zero key; the expiry and the entry on the list of users stay.  So the address
keeps passing the check until the certificate expires, unless the zero key is revoked
(`revocationFinal_iff`).
-/

namespace Nightfall

namespace X509

open Evm

open Contract (Address)

/-- The address is bound to a certificate. -/
def Event.Binds (addr : Address) (e : Event) : Prop :=
  ∃ cert, e.action = .endUser cert addr false

/-- After the run the address does not pass the check until it is bound to another certificate. -/
def RevocationFinal (pki : Pki) (trace : List Event) (addr : Address) : Prop :=
  ∀ (later : List Event) (c : Config), (x509System pki).Run (later ++ trace) c →
    (∀ e ∈ later, ¬e.Binds addr) → c.state.allowlisting = true →
    ∀ timestamp, c.clock ≤ timestamp → x509Check timestamp addr c.state = false

/-- Whoever is bound to a certificate was allowlisted. -/
def Allowlists (s : State) : Prop := ∀ id, s.addressByKey id ≠ 0 → s.users (s.addressByKey id) = true

section

variable {pki : Pki} {s s' : State} {addr sender : Address} {timestamp : ℕ} {a : Action}

theorem x509Check_eq_false_iff (h : s.allowlisting = true) :
    x509Check timestamp addr s = false ↔
      s.revokedKeys (s.keysByUser addr) = true ∨ s.expires addr ≤ timestamp ∨
        s.users addr = false := by
  simp only [x509Check, isAllowlisted, h, Bool.not_true, Bool.false_or, Bool.and_eq_false_iff,
    Bool.not_eq_false', decide_eq_false_iff_not, not_lt, Bool.true_eq_false, if_false, or_assoc]

theorem Step.revoked_eq {id : U256} (hst : Step pki sender timestamp s (.revoked id) s') :
    s' = revoke id s := by
  cases hst
  rfl

theorem Step.allowlists (h : Allowlists s) (hst : Step pki sender timestamp s a s') :
    Allowlists s' := by
  cases hst with
  | trusted | checked | intermediate | endUserChecked => exact h
  | @endUser cert addr _ hbindable =>
    intro id hid
    simp only [bindCertificate, Function.update_apply] at hid ⊢
    by_cases hself : id = cert.subjectKeyIdentifier
    · simp only [if_pos hself, ite_true]
    · simp only [if_neg hself] at hid ⊢
      split_ifs
      · rfl
      · exact h id hid
  | @revoked id' =>
    intro id hid
    simp only [revoke, Function.update_apply] at hid ⊢
    by_cases hself : id = id'
    · simp only [if_pos hself, ne_eq, not_true_eq_false] at hid
    · simp only [if_neg hself] at hid ⊢
      exact h id hid
  | configured hconf =>
    intro id hid
    rw [hconf.users, hconf.addressByKey]
    exact h id (hconf.addressByKey ▸ hid)

theorem allowlists {trace : List Event} {c : Config} (h : (x509System pki).Run trace c) :
    Allowlists c.state := by
  refine h.invariant (P := fun _ => True) (I := fun _ c => Allowlists c.state)
    (fun _ _ => trivial) ?_ ?_
  · rintro c ⟨owner, hstate⟩
    rw [hstate]
    exact fun id hid => absurd rfl hid
  · rintro trace c e c' - hI ⟨call, hexec⟩
    obtain ⟨-, -, -, -, hst⟩ := execAt_step hexec
    exact hst.allowlists hI

/-- What a revocation leaves of an address, as long as it is not bound again. -/
structure Unbound (addr : Address) (s s' : State) : Prop where
  keysByUser_eq : s'.keysByUser addr = 0
  expires_eq : s'.expires addr = s.expires addr
  revoked : ∀ id, s.revokedKeys id = true → s'.revokedKeys id = true

theorem Unbound.step {s₀ : State} (h : Unbound addr s₀ s)
    (hbinds : ∀ cert, a ≠ .endUser cert addr false) (hst : Step pki sender timestamp s a s') :
    Unbound addr s₀ s' := by
  cases hst with
  | trusted | checked | intermediate | endUserChecked =>
    exact ⟨h.keysByUser_eq, h.expires_eq, h.revoked⟩
  | @endUser cert addr' _ _ =>
    have hne : addr ≠ addr' := fun heq => hbinds cert (by rw [heq])
    refine ⟨?_, ?_, h.revoked⟩
    · exact (Function.update_of_ne hne ..).trans h.keysByUser_eq
    · exact (Function.update_of_ne hne ..).trans h.expires_eq
  | @revoked id =>
    refine ⟨?_, h.expires_eq, fun id' hid => ?_⟩
    · simp only [revoke, Function.update_apply, h.keysByUser_eq, ite_self]
    · simp only [revoke, Function.update_apply, h.revoked id' hid, ite_self]
  | configured hconf =>
    refine ⟨?_, ?_, fun id hid => ?_⟩
    · rw [hconf.keysByUser, h.keysByUser_eq]
    · rw [hconf.expires, h.expires_eq]
    · rw [hconf.revokedKeys, h.revoked id hid]

end

section Runs

variable {pki : Pki} {trace : List Event} {c : Config}

theorem step_of_head (h : (x509System pki).Run trace c) {e : Event} (he : trace.head? = some e) :
    c.clock = e.timestamp ∧ Step pki e.sender e.timestamp e.before e.action c.state ∧
      ∃ past c₀, (x509System pki).Run past c₀ ∧ c₀.state = e.before := by
  cases h with
  | init => cases he
  | @step past c₀ _ _ hpast hst =>
    cases he
    obtain ⟨call, hexec⟩ := hst
    obtain ⟨-, hclock, hbefore, -, hst⟩ := execAt_step hexec
    exact ⟨hclock, hbefore ▸ hst, past, c₀, hpast, hbefore.symm⟩

/-- **A revocation is final exactly if the certificate has expired or the zero key is revoked.** -/
theorem revocationFinal_iff (h : (x509System pki).Run trace c) {e : Event}
    (he : trace.head? = some e) {id : U256} (hrevoked : e.action = .revoked id) {addr : Address}
    (hbound : e.before.addressByKey id = addr) (haddr : addr ≠ 0)
    (hallowlisting : c.state.allowlisting = true) :
    RevocationFinal pki trace addr ↔
      id = 0 ∨ e.before.revokedKeys 0 = true ∨ e.before.expires addr ≤ e.timestamp := by
  obtain ⟨hclock, hst, past, c₀, hpast, hbefore⟩ := step_of_head h he
  rw [hrevoked] at hst
  have hstate : c.state = revoke id e.before := hst.revoked_eq
  have hkeys : c.state.keysByUser addr = 0 := by
    rw [hstate, revoke, hbound]
    exact Function.update_self ..
  have hzero : c.state.revokedKeys 0 = true ↔ id = 0 ∨ e.before.revokedKeys 0 = true := by
    rw [hstate]
    show Function.update e.before.revokedKeys id true 0 = true ↔ _
    rw [Function.update_apply]
    split_ifs with hid
    · exact iff_of_true rfl (.inl hid.symm)
    · exact ⟨.inr, fun h => h.resolve_left fun heq => hid heq.symm⟩
  have hexpires : c.state.expires addr = e.before.expires addr := by
    rw [hstate]
    rfl
  have husers : c.state.users addr = true := by
    have hallow := allowlists hpast id
    rw [hbefore, hbound] at hallow
    rw [hstate]
    exact hallow haddr
  rw [← or_assoc, ← hzero, ← hexpires, ← hclock]
  constructor
  · intro hfinal
    have hcheck := hfinal [] c h (List.forall_mem_nil _) hallowlisting c.clock le_rfl
    rw [x509Check_eq_false_iff hallowlisting, hkeys, husers] at hcheck
    simpa using hcheck
  · intro hcondition later c' h' hbinds hallowlisting' timestamp hle
    have hlater : Unbound addr c.state c'.state ∧ c.clock ≤ c'.clock := by
      refine h'.extend (P := fun e => ¬e.Binds addr)
        (I := fun c' => Unbound addr c.state c'.state ∧ c.clock ≤ c'.clock) hbinds ?_ ?_
      · intro c₁ h₁
        obtain ⟨hclock₁, hst₁, -⟩ := step_of_head h₁ he
        rw [hrevoked] at hst₁
        rw [hst₁.revoked_eq, ← hstate]
        exact ⟨⟨hkeys, rfl, fun _ hid => hid⟩, by omega⟩
      · rintro c₁ e₁ c₂ hbinds ⟨hunbound, hclock₁⟩ ⟨call, hexec⟩
        obtain ⟨hle₁, hclock₂, -, -, hst₁⟩ := execAt_step hexec
        exact ⟨hunbound.step (fun cert heq => hbinds ⟨cert, heq⟩) hst₁, by omega⟩
    obtain ⟨hunbound, hclock'⟩ := hlater
    rw [x509Check_eq_false_iff hallowlisting', hunbound.keysByUser_eq]
    rcases hcondition with hrevoked0 | hexpired
    · exact .inl (hunbound.revoked 0 hrevoked0)
    · rw [hunbound.expires_eq]
      exact .inr (.inl (by omega))

end Runs

/-- The certificate of a user, which expires at the time 100. -/
def userCertificates : List Certificate := [sampleCertificate 1 2 100 0x80]

/-- A user is allowlisted and revokes its key at the given time. -/
def revocationCalls (timestamp : ℕ) : List (Context × Command) :=
  setupCalls ++ [validateCall dealer 2 0 2 true,
    callAt dealer timestamp (.revokeKeyFromUserAddress 2)]

theorem revocationCalls_isSome : (x509Run userCertificates (revocationCalls 100)).isSome ∧
    (x509Run userCertificates (revocationCalls 3)).isSome := by decide +kernel

theorem revocationFinal_iff_sample :
    RevocationFinal (samplePki userCertificates)
      ((x509Run userCertificates (revocationCalls 100)).get revocationCalls_isSome.1).1 dealer :=
  (revocationFinal_iff (run_x509Run revocationCalls_isSome.1) rfl
    (show Event.action _ = .revoked 2 by decide +kernel) (by decide +kernel) (by decide +kernel)
    (by decide +kernel)).2
    (.inr (.inr (by decide +kernel)))

/-- A user that revoked its key passes the check at the same time. -/
theorem revocation_not_final : ∃ (pki : Pki) (trace : List Event) (c : Config) (e : Event)
    (id : U256) (addr : Address), (x509System pki).Run trace c ∧ trace.head? = some e ∧
      e.action = .revoked id ∧ e.before.keysByUser addr = id ∧ e.before.addressByKey id = addr ∧
      addr ≠ 0 ∧ c.state.allowlisting = true ∧ ¬RevocationFinal pki trace addr := by
  have hrun := run_x509Run revocationCalls_isSome.2
  refine ⟨_, _, _, _, 2, dealer, hrun, rfl, by decide +kernel, by decide +kernel,
    by decide +kernel, by decide +kernel, by decide +kernel, fun hfinal => ?_⟩
  have hcheck := hfinal [] _ hrun (List.forall_mem_nil _) (by decide +kernel) 3 (by decide +kernel)
  exact absurd hcheck (by decide +kernel)

end X509

end Nightfall
