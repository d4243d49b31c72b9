import Nightfall.Data.Correspondence
import Nightfall.X509.Calls

/-!
# Certificates and addresses

Each address is bound to at most one certificate and each certificate to at most one address, and
the holder of a bound certificate can revoke it by a signature.  Both hold in every state of a run
exactly if all steps of the run are regular (`bindings_iff`).  What breaks them is the zero key,
which an address may be bound to besides another one, and the mapping in which the revocation looks
up the key of the certificate: a binding does not write it.
-/

namespace Nightfall

namespace X509

open Evm

open Contract (Address)

/-- The certificate that a step binds an address to, if it has the given subject key. -/
def Action.bound (id : U256) : Action → Option Certificate
  | .endUser cert _ false => if cert.subjectKeyIdentifier = id then some cert else none
  | _ => none

/-- The latest certificate with the given subject key that an address was bound to. -/
def boundCertificate (id : U256) (trace : List Event) : Option Certificate :=
  trace.findSome? fun e => e.action.bound id

/-- Whoever holds the private key of the first key can sign addresses for the second one. -/
def SignsFor (pki : Pki) (key key' : RSAPublicKey) : Prop :=
  ∀ (addr : Address) (signature : Bytes), addr ≠ 0 →
    pki.verifies key (addressBytes addr) signature = true →
    pki.verifies key' (addressBytes addr) signature = true

/-- The bindings after a run. -/
structure BindingsSound (pki : Pki) (trace : List Event) (s : State) : Prop where
  /-- One certificate per address and one address per certificate. -/
  corresponds : ∀ k, k ≠ 0 → ∀ a, a ≠ 0 → (s.keysByUser a = k ↔ s.addressByKey k = a)
  /-- The holder of a bound certificate can revoke it from any address. -/
  revocable : ∀ id, s.addressByKey id ≠ 0 → ∃ cert, boundCertificate id trace = some cert ∧
    ∀ (ctx : Context) (signature : Bytes),
      pki.verifies cert.publicKey (addressBytes ctx.sender) signature = true →
      revokeKeyByAddressSignature pki ctx id signature s = .ok (revoke id s)

/-- The key that becomes trusted is not that of a bound certificate, or the holder of the
certificate can sign for it. -/
def KeepsHolder (pki : Pki) (past : List Event) (s : State) (id : U256) (key : RSAPublicKey) :
    Prop :=
  s.addressByKey id ≠ 0 → ∀ cert, boundCertificate id past = some cert →
    SignsFor pki cert.publicKey key

/-- A step that leaves the bindings sound. -/
def Regular (pki : Pki) (past : List Event) (e : Event) : Prop :=
  match e.action with
  | .trusted id key => KeepsHolder pki past e.before id key
  | .intermediate cert false =>
    KeepsHolder pki past e.before cert.subjectKeyIdentifier cert.publicKey
  | .endUser cert _ false =>
    SignsFor pki cert.publicKey (e.before.trustedPublicKeys cert.subjectKeyIdentifier)
  | .revoked id => id = 0 → e.before.keysByUser (e.before.addressByKey 0) = 0
  | _ => True

/-- The bindings are sound in all states of a run. -/
def AlwaysSound (pki : Pki) (trace : List Event) : Prop :=
  ∀ past c, past <:+ trace → (x509System pki).Run past c → BindingsSound pki past c.state

/-- What holds after every run. -/
structure Recorded (trace : List Event) (s : State) : Prop where
  keysByUser_zero : s.keysByUser 0 = 0
  isSome : ∀ id, s.addressByKey id ≠ 0 → (boundCertificate id trace).isSome

section

variable {pki : Pki} {ctx : Context} {s s' : State} {id : U256} {trace : List Event} {e : Event}

@[simp] theorem boundCertificate_cons :
    boundCertificate id (e :: trace) =
      ((e.action.bound id).or (boundCertificate id trace)) := by
  unfold boundCertificate
  rw [List.findSome?_cons]
  cases e.action.bound id <;> rfl

theorem revokeKeyByAddressSignature_eq_ok {signature : Bytes} :
    revokeKeyByAddressSignature pki ctx id signature s = .ok s' ↔
      pki.verifies (s.trustedPublicKeys id) (addressBytes ctx.sender) signature = true ∧
        s' = revoke id s := by
  simp only [revokeKeyByAddressSignature, checkSignature, bind_eq_ok, require_eq_ok, pure_eq_ok]
  constructor
  · rintro ⟨_, hsigned, heq⟩
    exact ⟨hsigned, heq.symm⟩
  · rintro ⟨hsigned, heq⟩
    exact ⟨(), hsigned, heq.symm⟩

theorem bindingsSound_iff (h : Recorded trace s) :
    BindingsSound pki trace s ↔ Corresponds s.keysByUser s.addressByKey ∧
      ∀ id, KeepsHolder pki trace s id (s.trustedPublicKeys id) := by
  constructor
  · rintro ⟨hcorresponds, hrevocable⟩
    refine ⟨hcorresponds, fun id hid cert hcert addr signature haddr hsigned => ?_⟩
    obtain ⟨cert', hcert', hrevoke⟩ := hrevocable id hid
    rw [hcert] at hcert'
    cases hcert'
    exact (revokeKeyByAddressSignature_eq_ok.1 (hrevoke ⟨addr, haddr, 0⟩ signature hsigned)).1
  · rintro ⟨hcorresponds, hholders⟩
    refine ⟨hcorresponds, fun id hid => ?_⟩
    obtain ⟨cert, hcert⟩ := Option.isSome_iff_exists.1 (h.isSome id hid)
    refine ⟨cert, hcert, fun ctx signature hsigned => ?_⟩
    exact revokeKeyByAddressSignature_eq_ok.2
      ⟨hholders id hid cert hcert ctx.sender signature ctx.sender_ne hsigned, rfl⟩

/-! ### Steps -/

/-- Only the key with the given identifier becomes trusted. -/
theorem keepsHolder_trust_iff {key : RSAPublicKey}
    (h : ∀ id, KeepsHolder pki trace s id (s.trustedPublicKeys id)) :
    (∀ id', KeepsHolder pki trace (trust id key s) id' ((trust id key s).trustedPublicKeys id')) ↔
      KeepsHolder pki trace s id key := by
  have hself : (trust id key s).trustedPublicKeys id = key := Function.update_self ..
  constructor
  · intro hall
    have hkeeps := hall id
    rw [hself] at hkeeps
    exact hkeeps
  · intro hkeeps id'
    by_cases hid : id' = id
    · rw [hid, hself]
      exact hkeeps
    · rw [show (trust id key s).trustedPublicKeys id' = s.trustedPublicKeys id' from
        Function.update_of_ne hid ..]
      exact h id'

/-- Only the holder of the new certificate changes. -/
theorem keepsHolder_bind_iff {cert : Certificate} {addr : Address} (haddr : addr ≠ 0)
    (hbound : ∀ id, e.action.bound id = if cert.subjectKeyIdentifier = id then some cert else none)
    (h : ∀ id, KeepsHolder pki trace s id (s.trustedPublicKeys id)) :
    (∀ id, KeepsHolder pki (e :: trace) (bindCertificate cert addr s) id
        ((bindCertificate cert addr s).trustedPublicKeys id)) ↔
      SignsFor pki cert.publicKey (s.trustedPublicKeys cert.subjectKeyIdentifier) := by
  constructor
  · intro hall
    refine hall cert.subjectKeyIdentifier ?_ cert ?_
    · show Function.update s.addressByKey _ addr _ ≠ 0
      rw [Function.update_self]
      exact haddr
    · rw [boundCertificate_cons, hbound, if_pos rfl, Option.some_or]
  · intro hsigns id hid cert' hcert'
    rw [boundCertificate_cons, hbound] at hcert'
    split_ifs at hcert' with hself
    · cases hcert'
      exact hself ▸ hsigns
    · refine h id ?_ cert' hcert'
      have hsame : (bindCertificate cert addr s).addressByKey id = s.addressByKey id :=
        Function.update_of_ne (Ne.symm hself) ..
      exact hsame ▸ hid

/-- The revoked key is not bound any more. -/
theorem keepsHolder_revoke (h : ∀ id, KeepsHolder pki trace s id (s.trustedPublicKeys id)) (id') :
    KeepsHolder pki trace (revoke id s) id' ((revoke id s).trustedPublicKeys id') := by
  intro hid'
  simp only [revoke, Function.update_apply] at hid' ⊢
  split_ifs at hid' ⊢ with hself
  · exact absurd rfl hid'
  · exact h id' hid'

theorem Recorded.step (h : Recorded trace e.before)
    (hst : Step pki e.sender e.timestamp e.before e.action s') : Recorded (e :: trace) s' := by
  obtain ⟨before, sender, timestamp, action, after⟩ := e
  cases hst with
  | trusted | checked | intermediate | endUserChecked => exact ⟨h.keysByUser_zero, h.isSome⟩
  | @endUser cert addr _ hbindable =>
    constructor
    · exact (Function.update_of_ne (Ne.symm hbindable.addr_ne) ..).trans h.keysByUser_zero
    · intro id hid
      rw [boundCertificate_cons]
      by_cases hself : cert.subjectKeyIdentifier = id
      · rw [Action.bound, if_pos hself]
        rfl
      · rw [Action.bound, if_neg hself, Option.none_or]
        refine h.isSome id ?_
        have hsame : (bindCertificate cert addr before).addressByKey id = before.addressByKey id :=
          Function.update_of_ne (Ne.symm hself) ..
        exact hsame ▸ hid
  | @revoked id =>
    constructor
    · simp only [revoke, Function.update_apply]
      split_ifs
      · rfl
      · exact h.keysByUser_zero
    · intro id' hid'
      simp only [revoke, Function.update_apply] at hid'
      split_ifs at hid' with hself
      · exact absurd rfl hid'
      · exact h.isSome id' hid'
  | configured hconf =>
    constructor
    · rw [hconf.keysByUser, h.keysByUser_zero]
    · intro id hid
      exact h.isSome id (hconf.addressByKey ▸ hid)

/-- A step leaves the bindings sound exactly if it is regular. -/
theorem Step.sound_iff (h : Recorded trace e.before)
    (hcorresponds : Corresponds e.before.keysByUser e.before.addressByKey)
    (hholders : ∀ id, KeepsHolder pki trace e.before id (e.before.trustedPublicKeys id))
    (hst : Step pki e.sender e.timestamp e.before e.action s') :
    (Corresponds s'.keysByUser s'.addressByKey ∧
      ∀ id, KeepsHolder pki (e :: trace) s' id (s'.trustedPublicKeys id)) ↔
        Regular pki trace e := by
  obtain ⟨before, sender, timestamp, action, after⟩ := e
  cases hst with
  | trusted | intermediate =>
    exact (and_iff_right hcorresponds).trans (keepsHolder_trust_iff hholders)
  | checked | endUserChecked => exact iff_of_true ⟨hcorresponds, hholders⟩ trivial
  | @endUser cert addr _ hbindable =>
    have hcorresponds' := Corresponds.bind hcorresponds hbindable.addr_ne hbindable.address_free
      hbindable.key_free
    exact (and_iff_right hcorresponds').trans
      (keepsHolder_bind_iff hbindable.addr_ne (fun _ => rfl) hholders)
  | @revoked id =>
    refine (and_iff_left (keepsHolder_revoke hholders)).trans ?_
    by_cases hid : id = 0
    · subst hid
      exact (Corresponds.unbind_zero_iff hcorresponds h.keysByUser_zero).trans
        ⟨fun hzero _ => hzero, fun hregular => hregular rfl⟩
    · exact iff_of_true (Corresponds.unbind hcorresponds fun heq => absurd heq hid)
        fun heq => absurd heq hid
  | configured hconf =>
    refine iff_of_true ⟨?_, fun id => ?_⟩ trivial
    · rw [hconf.keysByUser, hconf.addressByKey]
      exact hcorresponds
    · rw [hconf.trustedPublicKeys, KeepsHolder, hconf.addressByKey]
      exact hholders id

end

/-! ### Runs -/

section Runs

variable {pki : Pki} {trace : List Event} {c : Config}

theorem recorded (h : (x509System pki).Run trace c) : Recorded trace c.state := by
  refine h.invariant (P := fun _ => True) (I := fun trace c => Recorded trace c.state)
    (fun _ _ => trivial) ?_ ?_
  · rintro c ⟨owner, hstate⟩
    rw [hstate]
    exact ⟨rfl, fun _ hid => absurd rfl hid⟩
  · rintro trace c e c' - hI ⟨call, hexec⟩
    obtain ⟨-, -, hbefore, -, hst⟩ := execAt_step hexec
    rw [← hbefore] at hI hst
    exact hI.step hst

theorem bindingsSound_init (h : (x509System pki).Run [] c) : BindingsSound pki [] c.state := by
  cases h with
  | init hinit =>
    obtain ⟨owner, hstate⟩ := hinit
    rw [hstate]
    exact ⟨Corresponds.zero, fun _ hid => absurd rfl hid⟩

theorem bindingsSound_cons_iff {e : Event} {c₀ : Config} (hrun : (x509System pki).Run trace c₀)
    (hst : (x509System pki).Step c₀ e c) (hsound : BindingsSound pki trace c₀.state) :
    BindingsSound pki (e :: trace) c.state ↔ Regular pki trace e := by
  have hrec := recorded hrun
  rw [bindingsSound_iff (recorded (hrun.step hst))]
  obtain ⟨hcorresponds, hholders⟩ := (bindingsSound_iff hrec).1 hsound
  obtain ⟨call, hexec⟩ := hst
  obtain ⟨-, -, hbefore, -, hst⟩ := execAt_step hexec
  rw [← hbefore] at hrec hcorresponds hholders hst
  exact hst.sound_iff hrec hcorresponds hholders

/-- **The bindings are sound in all states of a run exactly if all its steps are regular.** -/
theorem bindings_iff (h : (x509System pki).Run trace c) :
    AlwaysSound pki trace ↔ ∀ e past, e :: past <:+ trace → Regular pki past e := by
  induction h with
  | init =>
    constructor
    · intro _ e past hsuffix
      exact absurd hsuffix (by simp)
    · intro _ past c' hsuffix hrun
      obtain rfl := List.suffix_nil.1 hsuffix
      exact bindingsSound_init hrun
  | @step trace c₀ c e hrun hst ih =>
    constructor
    · intro hsound e' past hsuffix
      have hsound' := fun past c' hsuffix => hsound past c' (List.suffix_cons_iff.2 (.inr hsuffix))
      rcases List.suffix_cons_iff.1 hsuffix with heq | hsuffix
      · cases heq
        exact (bindingsSound_cons_iff hrun hst (hsound' trace c₀ List.suffix_rfl hrun)).1
          (hsound (e :: trace) c List.suffix_rfl (hrun.step hst))
      · exact ih.1 hsound' e' past hsuffix
    · intro hregular past c' hsuffix hrun'
      have hsound := ih.2 fun e' past hsuffix =>
        hregular e' past (List.suffix_cons_iff.2 (.inr hsuffix))
      rcases List.suffix_cons_iff.1 hsuffix with rfl | hsuffix
      · cases hrun' with
        | step hrun' hst' =>
          exact (bindingsSound_cons_iff hrun' hst' (hsound _ _ List.suffix_rfl hrun')).2
            (hregular e trace List.suffix_rfl)
      · exact hsound past c' hsuffix hrun'

end Runs

/-- A step that the state before it shows to be regular. -/
def Tidy (e : Event) : Prop :=
  match e.action with
  | .trusted id _ => e.before.addressByKey id = 0
  | .intermediate cert false => e.before.addressByKey cert.subjectKeyIdentifier = 0
  | .endUser cert _ false =>
    e.before.trustedPublicKeys cert.subjectKeyIdentifier = cert.publicKey
  | .revoked id => id ≠ 0 ∨ e.before.keysByUser (e.before.addressByKey 0) = 0
  | _ => True

instance : DecidablePred Tidy := fun e =>
  match e with
  | ⟨_, _, _, .trusted _ _, _⟩ | ⟨_, _, _, .intermediate _ false, _⟩
  | ⟨_, _, _, .endUser _ _ false, _⟩ => inferInstanceAs (Decidable (_ = _))
  | ⟨_, _, _, .revoked _, _⟩ => inferInstanceAs (Decidable (_ ∨ _))
  | ⟨_, _, _, .intermediate _ true, _⟩ | ⟨_, _, _, .endUser _ _ true, _⟩
  | ⟨_, _, _, .configured _, _⟩ => isTrue trivial

theorem Tidy.regular {pki : Pki} {past : List Event} {e : Event} (h : Tidy e) :
    Regular pki past e := by
  obtain ⟨before, sender, timestamp, action, after⟩ := e
  match action, h with
  | .trusted _ _, h | .intermediate _ false, h => exact fun hid => absurd h hid
  | .endUser _ _ false, h => exact fun _ _ _ hsigned => h ▸ hsigned
  | .revoked _, h => exact fun hid => h.resolve_left fun hne => hne hid
  | .intermediate _ true, _ | .endUser _ _ true, _ | .configured _, _ => exact trivial

/-- The certificates of a user, of which one has the subject key zero. -/
def bindingCertificates : List Certificate :=
  [sampleCertificate 1 2 100 0x80, sampleCertificate 1 0 100 0x80]

/-- The key of the user is trusted before it is bound, and revoked by a signature. -/
def tidyCalls : List (Context × Command) :=
  setupCalls ++ [callAt admin 2 (.setTrustedPublicKey (sampleKey 2) 2),
    validateCall dealer 2 0 2 true,
    callAt admin 3 (.revokeKeyByAddressSignature 2
      ((sampleKey 2).modulus ++ addressBytes admin.1))]

/-- A user is bound to a certificate. -/
def boundCalls : List (Context × Command) := setupCalls ++ [validateCall dealer 2 0 2 true]

/-- A user is bound to the subject key zero, and to another one besides; the owner revokes the key
zero. -/
def zeroKeyCalls : List (Context × Command) :=
  setupCalls ++ [validateCall dealer 2 1 0 true, validateCall dealer 3 0 2 true,
    callAt admin 4 (.revokeKeyFromUserAddress 0)]

theorem tidyCalls_isSome : (x509Run bindingCertificates tidyCalls).isSome := by decide +kernel

theorem boundCalls_isSome : (x509Run bindingCertificates boundCalls).isSome := by decide +kernel

theorem zeroKeyCalls_isSome : (x509Run bindingCertificates zeroKeyCalls).isSome := by
  decide +kernel

theorem bindings_iff_sample : AlwaysSound (samplePki bindingCertificates)
    ((x509Run bindingCertificates tidyCalls).get tidyCalls_isSome).1 := by
  have htidy : ∀ e ∈ ((x509Run bindingCertificates tidyCalls).get tidyCalls_isSome).1, Tidy e := by
    decide +kernel
  exact (bindings_iff (run_x509Run tidyCalls_isSome)).2 fun e past hsuffix =>
    (htidy e (hsuffix.subset List.mem_cons_self)).regular

/-- The holder of a bound certificate cannot revoke it, and an address loses one direction of its
binding. -/
theorem bindings_broken :
    (∃ (pki : Pki) (trace : List Event) (c : Config) (id : U256) (cert : Certificate)
      (addr : Address), (x509System pki).Run trace c ∧ addr ≠ 0 ∧
        c.state.keysByUser addr = id ∧ c.state.addressByKey id = addr ∧
        boundCertificate id trace = some cert ∧ ∀ ctx : Context,
          (∃ signature, pki.verifies cert.publicKey (addressBytes ctx.sender) signature = true) ∧
          ∀ signature s', revokeKeyByAddressSignature pki ctx id signature c.state ≠ .ok s') ∧
    ∃ (pki : Pki) (trace : List Event) (c : Config) (id : U256) (addr : Address),
      (x509System pki).Run trace c ∧ id ≠ 0 ∧ addr ≠ 0 ∧ c.state.addressByKey id = addr ∧
        c.state.keysByUser addr ≠ id := by
  constructor
  · refine ⟨_, _, _, 2, sampleCertificate 1 2 100 0x80, dealer, run_x509Run boundCalls_isSome,
      by decide +kernel, by decide +kernel, by decide +kernel, by decide +kernel, fun ctx => ?_⟩
    constructor
    · exact ⟨(sampleKey 2).modulus ++ addressBytes ctx.sender, by
        simp [samplePki, sampleCertificate, sampleKey, RSAPublicKey.zero]⟩
    · intro signature s' hok
      have hsigned := (revokeKeyByAddressSignature_eq_ok.1 hok).1
      have hkey : ((x509Run bindingCertificates boundCalls).get
          boundCalls_isSome).2.state.trustedPublicKeys 2 = .zero := by decide +kernel
      rw [hkey, Pki.verifies_zero] at hsigned
      cases hsigned
  · exact ⟨_, _, _, 2, dealer, run_x509Run zeroKeyCalls_isSome, by decide +kernel,
      by decide +kernel, by decide +kernel, by decide +kernel⟩

end X509

end Nightfall
