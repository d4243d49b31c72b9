import Nightfall.X509.Calls

/-!
# The chain of trust

An end-user certificate is accepted only if a chain of certificates leads to it from a key that the
owner set (`chain_of_trust`).  The chain is not stored: a certificate on it was in date, and its keys
were not revoked, when it was accepted, and this is not checked again (`chain_outlived`).
-/

namespace Nightfall

namespace X509

open Evm

open Contract (Address)

/-- The usage that is required of intermediate certificates after a run: signing certificates and
revocation lists, if the owner does not change it. -/
def requiredUsage : List Event → BitVec 8
  | [] => 0x06
  | e :: past =>
    match e.action with
    | .configured call => call.intermediateMask (requiredUsage past)
    | _ => requiredUsage past

/-- `Chain pki trace id key certs` : in the run the key `id` became trusted with the given value by
the certificates, of which the first one is that of the key and the last one is signed by a key
that the owner set. -/
inductive Chain (pki : Pki) : List Event → U256 → RSAPublicKey → List Certificate → Prop
  | root {past : List Event} {e : Event} {id : U256} {key : RSAPublicKey} :
      e.action = .trusted id key → e.sender = e.before.owner → Chain pki (e :: past) id key []
  | issued {past : List Event} {e : Event} {cert : Certificate} {issuer : RSAPublicKey}
      {certs : List Certificate} :
      e.action = .intermediate cert false →
      Chain pki past cert.authorityKeyIdentifier issuer certs →
      pki.verifies issuer cert.message cert.signature = true →
      cert.notBefore < e.timestamp → e.timestamp < cert.notAfter →
      e.before.revokedKeys cert.subjectKeyIdentifier = false →
      e.before.revokedKeys cert.authorityKeyIdentifier = false →
      cert.keyUsage &&& requiredUsage past = requiredUsage past →
      Chain pki (e :: past) cert.subjectKeyIdentifier cert.publicKey (cert :: certs)
  | later {past : List Event} {e : Event} {id : U256} {key : RSAPublicKey}
      {certs : List Certificate} :
      Chain pki past id key certs → Chain pki (e :: past) id key certs

/-- The certificates are in date and their keys are not revoked. -/
def Live (s : State) (timestamp : ℕ) (certs : List Certificate) : Prop :=
  ∀ cert ∈ certs, cert.notBefore < timestamp ∧ timestamp < cert.notAfter ∧
    s.revokedKeys cert.subjectKeyIdentifier = false ∧
    s.revokedKeys cert.authorityKeyIdentifier = false

/-- The owner leaves the usage that is required of intermediate certificates alone. -/
def KeepsUsage (trace : List Event) : Prop :=
  ∀ e ∈ trace, ∀ mask, e.action ≠ .configured (.setUsageBitMaskIntermediate mask)

/-- A certificate is signed by a key that a chain leads to, and it and the authority key are live.
All certificates of the chain may sign certificates, if the owner has always required it. -/
structure RestsOn (pki : Pki) (past : List Event) (e : Event) (cert : Certificate)
    (certs : List Certificate) : Prop where
  chain : ∃ issuer, Chain pki past cert.authorityKeyIdentifier issuer certs ∧
    pki.verifies issuer cert.message cert.signature = true
  live : Live e.before e.timestamp [cert]
  signing : KeepsUsage past → ∀ cert' ∈ certs, cert'.keyUsage &&& 0x06 = 0x06

/-- What holds of the trusted keys after every run. -/
structure TrustedByChain (pki : Pki) (trace : List Event) (s : State) : Prop where
  chain : ∀ id, s.trustedPublicKeys id ≠ .zero →
    ∃ certs, Chain pki trace id (s.trustedPublicKeys id) certs
  usage : s.usageBitMaskIntermediate = requiredUsage trace

section

variable {pki : Pki} {s s' : State} {trace : List Event} {e : Event}

theorem Step.accepted {sender addr : Address} {timestamp : ℕ} {cert : Certificate}
    {checkOnly : Bool} (hst : Step pki sender timestamp s (.endUser cert addr checkOnly) s') :
    Accepted pki timestamp cert s := by
  cases hst with
  | endUserChecked haccepted => exact haccepted
  | endUser haccepted _ => exact haccepted

theorem requiredUsage_eq (h : KeepsUsage trace) : requiredUsage trace = 0x06 := by
  induction trace with
  | nil => rfl
  | cons e past ih =>
    obtain ⟨before, sender, timestamp, action, after⟩ := e
    obtain ⟨hhead, hpast⟩ := List.forall_mem_cons.1 h
    unfold requiredUsage
    split
    · next call hcall =>
      cases call with
      | setUsageBitMaskIntermediate mask => exact absurd hcall (hhead mask)
      | _ => exact ih hpast
    · exact ih hpast

theorem Chain.keyUsage {id : U256} {key : RSAPublicKey} {certs : List Certificate}
    (h : Chain pki trace id key certs) (husage : KeepsUsage trace) :
    ∀ cert ∈ certs, cert.keyUsage &&& 0x06 = 0x06 := by
  induction h with
  | root => exact List.forall_mem_nil _
  | issued _ _ _ _ _ _ _ hmask ih =>
    have hpast := (List.forall_mem_cons.1 husage).2
    rw [requiredUsage_eq hpast] at hmask
    exact List.forall_mem_cons.2 ⟨hmask, ih hpast⟩
  | later _ ih => exact ih (List.forall_mem_cons.1 husage).2

/-- The trusted key that a certificate is signed by is not the zero key. -/
theorem Accepted.authority_ne_zero {cert : Certificate} {timestamp : ℕ}
    (h : Accepted pki timestamp cert s) :
    s.trustedPublicKeys cert.authorityKeyIdentifier ≠ .zero := by
  intro hzero
  have hsigned := h.signed
  rw [hzero, pki.verifies_zero] at hsigned
  cases hsigned

theorem TrustedByChain.trust {id : U256} {key : RSAPublicKey} {certs : List Certificate}
    (h : TrustedByChain pki trace s) (hchain : Chain pki (e :: trace) id key certs)
    (husage : requiredUsage (e :: trace) = requiredUsage trace) :
    TrustedByChain pki (e :: trace) (X509.trust id key s) := by
  constructor
  · intro id' hid'
    by_cases hself : id' = id
    · subst hself
      refine ⟨certs, ?_⟩
      rw [show (X509.trust id' key s).trustedPublicKeys id' = key from Function.update_self ..]
      exact hchain
    · have hsame : (X509.trust id key s).trustedPublicKeys id' = s.trustedPublicKeys id' :=
        Function.update_of_ne hself ..
      rw [hsame] at hid' ⊢
      obtain ⟨certs', hchain'⟩ := h.chain id' hid'
      exact ⟨certs', hchain'.later⟩
  · exact h.usage.trans husage.symm

theorem TrustedByChain.later (h : TrustedByChain pki trace s)
    (hkeys : ∀ id, s'.trustedPublicKeys id ≠ .zero →
      s'.trustedPublicKeys id = s.trustedPublicKeys id)
    (husage : s'.usageBitMaskIntermediate = requiredUsage (e :: trace)) :
    TrustedByChain pki (e :: trace) s' := by
  refine ⟨fun id hid => ?_, husage⟩
  have hsame := hkeys id hid
  rw [hsame] at hid ⊢
  obtain ⟨certs, hchain⟩ := h.chain id hid
  exact ⟨certs, hchain.later⟩

theorem TrustedByChain.step (h : TrustedByChain pki trace e.before)
    (hst : Step pki e.sender e.timestamp e.before e.action s') :
    TrustedByChain pki (e :: trace) s' := by
  obtain ⟨before, sender, timestamp, action, after⟩ := e
  cases hst with
  | trusted howner => exact h.trust (.root rfl howner) rfl
  | checked | endUserChecked | endUser => exact h.later (fun _ _ => rfl) h.usage
  | @intermediate cert haccepted husage =>
    obtain ⟨certs, hchain⟩ := h.chain _ haccepted.authority_ne_zero
    exact h.trust (.issued rfl hchain haccepted.signed haccepted.notBefore_lt haccepted.lt_notAfter
      haccepted.subject_live haccepted.authority_live (h.usage ▸ husage)) rfl
  | @revoked id =>
    refine h.later (fun id' hid' => ?_) h.usage
    -- the entry that is deleted has no chain any more, and needs none
    simp only [revoke, Function.update_apply] at hid' ⊢
    split_ifs at hid' ⊢
    · exact absurd rfl hid'
    · rfl
  | @configured _ call hconf =>
    refine h.later (fun id _ => by rw [hconf.trustedPublicKeys]) ?_
    rw [hconf.usageBitMaskIntermediate, h.usage]
    rfl

end

section Runs

variable {pki : Pki} {trace : List Event} {c : Config}

theorem trustedByChain (h : (x509System pki).Run trace c) :
    TrustedByChain pki trace c.state := by
  refine h.invariant (P := fun _ => True) (I := fun trace c => TrustedByChain pki trace c.state)
    (fun _ _ => trivial) ?_ ?_
  · rintro c ⟨owner, hstate⟩
    rw [hstate]
    exact ⟨fun _ hid => absurd rfl hid, rfl⟩
  · rintro trace c e c' - hI ⟨call, hexec⟩
    obtain ⟨-, -, hbefore, -, hst⟩ := execAt_step hexec
    rw [← hbefore] at hI hst
    exact hI.step hst

/-- **An accepted end-user certificate rests on a chain that starts at a key the owner set.** -/
theorem chain_of_trust (h : (x509System pki).Run trace c) {past : List Event} {e : Event}
    (hsuffix : e :: past <:+ trace) {cert : Certificate} {addr : Address} {checkOnly : Bool}
    (ha : e.action = .endUser cert addr checkOnly) :
    ∃ certs, RestsOn pki past e cert certs := by
  induction h with
  | init => exact absurd hsuffix (by simp)
  | step hrun hst ih =>
    rcases List.suffix_cons_iff.1 hsuffix with heq | hsuffix
    · cases heq
      obtain ⟨call, hexec⟩ := hst
      obtain ⟨-, -, hbefore, -, hst⟩ := execAt_step hexec
      rw [ha, ← hbefore] at hst
      have haccepted := hst.accepted
      have htrusted := trustedByChain hrun
      rw [← hbefore] at htrusted
      obtain ⟨certs, hchain⟩ := htrusted.chain _ haccepted.authority_ne_zero
      exact ⟨certs, ⟨_, hchain, haccepted.signed⟩,
        List.forall_mem_singleton.2 ⟨haccepted.notBefore_lt, haccepted.lt_notAfter,
          haccepted.subject_live, haccepted.authority_live⟩, hchain.keyUsage⟩
    · exact ih hsuffix

end Runs

/-! ### A chain that is not live -/

theorem Chain.last {pki : Pki} {trace : List Event} {id : U256} {key : RSAPublicKey}
    {certs : List Certificate} (h : Chain pki trace id key certs) :
    (∃ e ∈ trace, e.action = .trusted id key) ∨
      ∃ e ∈ trace, ∃ cert ∈ certs, e.action = .intermediate cert false ∧
        cert.subjectKeyIdentifier = id := by
  induction h with
  | root ha => exact .inl ⟨_, List.mem_cons_self, ha⟩
  | issued ha => exact .inr ⟨_, List.mem_cons_self, _, List.mem_cons_self, ha, rfl⟩
  | later _ ih =>
    rcases ih with ⟨e, he, ha⟩ | ⟨e, he, cert, hcert, ha⟩
    · exact .inl ⟨e, List.mem_cons_of_mem _ he, ha⟩
    · exact .inr ⟨e, List.mem_cons_of_mem _ he, cert, hcert, ha⟩

/-- An intermediate certificate that expires at the time 50, and one that it signs. -/
def chainCertificates : List Certificate :=
  [sampleCertificate 1 3 50 0x06, sampleCertificate 3 2 100 0x80]

/-- The intermediate certificate is accepted, and after the given calls the other one. -/
def chainCalls (between : List (Context × Command)) (timestamp : ℕ) : List (Context × Command) :=
  setupCalls ++ validateCall admin 2 0 3 false :: between ++ [validateCall dealer timestamp 1 2 true]

/-- The owner revokes the key that the chain starts at. -/
def rootCalls : List (Context × Command) := [callAt admin 3 (.revokeKeyFromUserAddress 1)]

theorem chainCalls_isSome : (x509Run chainCertificates (chainCalls rootCalls 4)).isSome ∧
    (x509Run chainCertificates (chainCalls [] 60)).isSome := by decide +kernel

theorem chain_of_trust_sample : ∃ certs, RestsOn (samplePki chainCertificates)
    ((x509Run chainCertificates (chainCalls [] 60)).get chainCalls_isSome.2).1.tail
    (((x509Run chainCertificates (chainCalls [] 60)).get chainCalls_isSome.2).1.head
      (by decide +kernel)) (sampleCertificate 3 2 100 0x80) certs :=
  chain_of_trust (run_x509Run chainCalls_isSome.2) (List.cons_head_tail _ ▸ List.suffix_rfl)
    (show Event.action _ = .endUser _ dealer false by decide +kernel)

/-- The events before the end-user certificate. -/
def ChainAction (a : Action) : Prop :=
  a ∈ [.intermediate (sampleCertificate 1 3 50 0x06) false, .configured (.addExtendedKeyUsage []),
    .configured (.addCertificatePolicies []), .trusted 1 (sampleKey 1), .revoked 1]

instance : DecidablePred ChainAction := fun _ => inferInstanceAs (Decidable (_ ∈ _))

/-- A chain for the key `3` passes through the intermediate certificate. -/
theorem Chain.mem_of_chainAction {pki : Pki} {trace : List Event} {key : RSAPublicKey}
    {certs : List Certificate} (h : Chain pki trace 3 key certs)
    (hactions : ∀ e ∈ trace, ChainAction e.action) :
    sampleCertificate 1 3 50 0x06 ∈ certs := by
  rcases h.last with ⟨e, he, ha⟩ | ⟨e, he, cert, hcert, ha, -⟩
  · have hmem := hactions e he
    rw [ha] at hmem
    simp [ChainAction] at hmem
  · have hmem := hactions e he
    rw [ha] at hmem
    simp only [ChainAction, List.mem_cons, Action.intermediate.injEq, and_true, reduceCtorEq,
      List.not_mem_nil, or_false] at hmem
    exact hmem ▸ hcert

/-- An end-user certificate is accepted although the key that the chain starts at is revoked, or an
intermediate certificate has expired. -/
theorem chain_outlived :
    (∃ (pki : Pki) (trace past : List Event) (c : Config) (e : Event) (cert : Certificate)
      (addr : Address), (x509System pki).Run trace c ∧ e :: past <:+ trace ∧
        e.action = .endUser cert addr false ∧ ∀ certs, RestsOn pki past e cert certs →
          ∃ cert' ∈ certs, e.before.revokedKeys cert'.authorityKeyIdentifier = true) ∧
    ∃ (pki : Pki) (trace past : List Event) (c : Config) (e : Event) (cert : Certificate)
      (addr : Address), (x509System pki).Run trace c ∧ e :: past <:+ trace ∧
        e.action = .endUser cert addr false ∧ ∀ certs, RestsOn pki past e cert certs →
          ∃ cert' ∈ certs, cert'.notAfter ≤ e.timestamp := by
  constructor
  · refine ⟨_, _, _, _, _, sampleCertificate 3 2 100 0x80, dealer, run_x509Run chainCalls_isSome.1,
      ⟨[], rfl⟩, by decide +kernel, fun certs hrests => ?_⟩
    obtain ⟨issuer, hchain, -⟩ := hrests.chain
    refine ⟨sampleCertificate 1 3 50 0x06, ?_, by decide +kernel⟩
    exact hchain.mem_of_chainAction (by decide +kernel)
  · refine ⟨_, _, _, _, _, sampleCertificate 3 2 100 0x80, dealer, run_x509Run chainCalls_isSome.2,
      ⟨[], rfl⟩, by decide +kernel, fun certs hrests => ?_⟩
    obtain ⟨issuer, hchain, -⟩ := hrests.chain
    refine ⟨sampleCertificate 1 3 50 0x06, ?_, by decide +kernel⟩
    exact hchain.mem_of_chainAction (by decide +kernel)

end X509

end Nightfall
