import Nightfall.X509.Contract
import Nightfall.Semantics.Run

/-!
# Runs of the X509 contract

Runs of the functions of the contract in any order and by any callers, at times that do not
decrease.  `Step` says what each action needs and does, and `exec_step` that calls do nothing else.
-/

namespace Nightfall

namespace X509

open Evm

open Contract (Address)

/-- A call of a function of the contract. -/
inductive Command
  | setTrustedPublicKey (key : RSAPublicKey) (id : U256)
  | validateCertificate (args : CertificateArgs)
  | revokeKeyFromUserAddress (id : U256)
  | revokeKeyByAddressSignature (id : U256) (addressSignature : Bytes)
  | configure (call : Configuration)

/-- What happens in a step. -/
inductive Action
  /-- The owner trusts a key. -/
  | trusted (id : U256) (key : RSAPublicKey)
  /-- An intermediate certificate is accepted. -/
  | intermediate (cert : Certificate) (checkOnly : Bool)
  /-- An end-user certificate is accepted for an address. -/
  | endUser (cert : Certificate) (addr : Address) (checkOnly : Bool)
  | revoked (id : U256)
  | configured (call : Configuration)
  deriving DecidableEq, Repr

/-- An action with its sender and its time, and the storage before and after it. -/
structure Event where
  before : State
  sender : Address
  timestamp : ℕ
  action : Action
  after : State

/-- The storage and the time of the last call. -/
structure Config where
  state : State
  clock : ℕ

/-- The certificate passes the checks of `checkCertificate`. -/
structure Accepted (pki : Pki) (timestamp : ℕ) (cert : Certificate) (s : State) : Prop where
  signed : pki.verifies (s.trustedPublicKeys cert.authorityKeyIdentifier) cert.message
    cert.signature = true
  notBefore_lt : cert.notBefore < timestamp
  lt_notAfter : timestamp < cert.notAfter
  subject_live : s.revokedKeys cert.subjectKeyIdentifier = false
  authority_live : s.revokedKeys cert.authorityKeyIdentifier = false

section System

variable (pki : Pki)

/-- What an accepted certificate is recorded as. -/
def CertificateArgs.action (ctx : Context) (args : CertificateArgs) (cert : Certificate) : Action :=
  if args.isEndUser then .endUser cert (args.target ctx) args.checkOnly
  else .intermediate cert args.checkOnly

/-- Execute a call. -/
def exec (ctx : Context) (cmd : Command) (s : State) : Except Revert (State × Action) :=
  match cmd with
  | .setTrustedPublicKey key id => do
    let s ← setTrustedPublicKey ctx key id s
    return (s, .trusted id key)
  | .validateCertificate args => do
    let s ← validateCertificate pki ctx args s
    let cert ← pki.decode args.certificate args.tlvLength
    return (s, args.action ctx cert)
  | .revokeKeyFromUserAddress id => do
    let s ← revokeKeyFromUserAddress ctx id s
    return (s, .revoked id)
  | .revokeKeyByAddressSignature id addressSignature => do
    let s ← revokeKeyByAddressSignature pki ctx id addressSignature s
    return (s, .revoked id)
  | .configure call => do
    let s ← configure ctx call s
    return (s, .configured call)

/-- Execute a call that does not revert, at the time of the last one or a later one. -/
def execAt (c : Config) (call : Context × Command) : Option (Event × Config) :=
  if c.clock ≤ call.1.timestamp then
    (exec pki call.1 call.2 c.state).toOption.map fun r =>
      (⟨c.state, call.1.sender, call.1.timestamp, r.2, r.1⟩, ⟨r.1, call.1.timestamp⟩)
  else none

/-- The contract from its initialization on. -/
def x509System : TransitionSystem Config Event :=
  .ofExec (fun c => ∃ owner, c.state = initialState owner) (execAt pki)

/-- The key usage that is required of intermediate certificates after a call of the owner. -/
def Configuration.intermediateMask (mask : BitVec 8) : Configuration → BitVec 8
  | .setUsageBitMaskIntermediate mask' => mask'
  | _ => mask

/-- A call of the owner leaves keys and users alone. -/
structure Configured (call : Configuration) (s s' : State) : Prop where
  users : s'.users = s.users
  expires : s'.expires = s.expires
  trustedPublicKeys : s'.trustedPublicKeys = s.trustedPublicKeys
  revokedKeys : s'.revokedKeys = s.revokedKeys
  keysByUser : s'.keysByUser = s.keysByUser
  addressByKey : s'.addressByKey = s.addressByKey
  usageBitMaskIntermediate :
    s'.usageBitMaskIntermediate = call.intermediateMask s.usageBitMaskIntermediate

/-- The address may be bound to the certificate. -/
structure Bindable (cert : Certificate) (addr : Address) (s : State) : Prop where
  addr_ne : addr ≠ 0
  address_free : s.keysByUser addr = 0 ∨ s.keysByUser addr = cert.subjectKeyIdentifier
  key_free : s.addressByKey cert.subjectKeyIdentifier = 0 ∨
    s.addressByKey cert.subjectKeyIdentifier = addr
  /-- The key of the certificate signed the address. -/
  signed : ∃ signature, pki.verifies cert.publicKey (addressBytes addr) signature = true

/-- What each action needs and does. -/
inductive Step (sender : Address) (timestamp : ℕ) : State → Action → State → Prop
  | trusted {s : State} {id : U256} {key : RSAPublicKey} :
      sender = s.owner → Step sender timestamp s (.trusted id key) (trust id key s)
  | checked {s : State} {cert : Certificate} :
      Accepted pki timestamp cert s →
      cert.keyUsage &&& s.usageBitMaskIntermediate = s.usageBitMaskIntermediate →
      Step sender timestamp s (.intermediate cert true) s
  | intermediate {s : State} {cert : Certificate} :
      Accepted pki timestamp cert s →
      cert.keyUsage &&& s.usageBitMaskIntermediate = s.usageBitMaskIntermediate →
      Step sender timestamp s (.intermediate cert false)
        (trust cert.subjectKeyIdentifier cert.publicKey s)
  | endUserChecked {s : State} {cert : Certificate} {addr : Address} :
      Accepted pki timestamp cert s → Step sender timestamp s (.endUser cert addr true) s
  | endUser {s : State} {cert : Certificate} {addr : Address} :
      Accepted pki timestamp cert s → Bindable pki cert addr s →
      Step sender timestamp s (.endUser cert addr false) (bindCertificate cert addr s)
  | revoked {s : State} {id : U256} : Step sender timestamp s (.revoked id) (revoke id s)
  | configured {s s' : State} {call : Configuration} :
      Configured call s s' → Step sender timestamp s (.configured call) s'

end System

variable {pki : Pki} {ctx : Context} {s s' : State}

theorem checkCertificate_eq_ok {cert : Certificate} {u : Unit} :
    checkCertificate pki ctx cert s = .ok u ↔ Accepted pki ctx.timestamp cert s := by
  simp only [checkCertificate, checkSignature, checkDates, bind_eq_ok, require_eq_ok]
  constructor
  · rintro ⟨_, hsigned, _, ⟨_, hbefore, hafter⟩, _, hsubject, hauthority⟩
    exact ⟨hsigned, hbefore, hafter, hsubject, hauthority⟩
  · rintro ⟨hsigned, hbefore, hafter, hsubject, hauthority⟩
    exact ⟨(), hsigned, (), ⟨(), hbefore, hafter⟩, (), hsubject, hauthority⟩

theorem CertificateArgs.target_ne (args : CertificateArgs) : args.target ctx ≠ 0 := by
  unfold CertificateArgs.target
  split_ifs with h
  · exact ctx.sender_ne
  · exact h

theorem configure_configured {call : Configuration} (h : configure ctx call s = .ok s') :
    Configured call s s' := by
  obtain ⟨-, -, h⟩ := bind_eq_ok.1 h
  cases call with
  | transferOwnership newOwner =>
    obtain ⟨-, -, h⟩ := bind_eq_ok.1 h
    cases h
    exact ⟨rfl, rfl, rfl, rfl, rfl, rfl, rfl⟩
  | _ =>
    cases h
    exact ⟨rfl, rfl, rfl, rfl, rfl, rfl, rfl⟩

theorem acceptEndUser_step {args : CertificateArgs} {cert : Certificate}
    (haccepted : Accepted pki ctx.timestamp cert s)
    (h : acceptEndUser pki ctx args cert s = .ok s') :
    Step pki ctx.sender ctx.timestamp s (.endUser cert (args.target ctx) args.checkOnly) s' := by
  obtain ⟨-, -, h⟩ := bind_eq_ok.1 h
  obtain ⟨-, -, h⟩ := bind_eq_ok.1 h
  obtain ⟨-, -, h⟩ := bind_eq_ok.1 h
  cases hcheck : args.checkOnly with
  | true =>
    rw [hcheck] at h
    cases h
    exact .endUserChecked haccepted
  | false =>
    rw [hcheck] at h
    obtain ⟨_, hbinding, h⟩ := bind_eq_ok.1 h
    cases h
    simp only [checkBinding, checkSignature, bind_eq_ok, require_eq_ok] at hbinding
    obtain ⟨-, haddress, -, hkey, hsigned⟩ := hbinding
    exact .endUser haccepted ⟨args.target_ne, haddress, hkey, _, hsigned⟩

theorem acceptIntermediate_step {args : CertificateArgs} {cert : Certificate}
    (haccepted : Accepted pki ctx.timestamp cert s)
    (h : acceptIntermediate args cert s = .ok s') :
    Step pki ctx.sender ctx.timestamp s (.intermediate cert args.checkOnly) s' := by
  obtain ⟨_, husage, h⟩ := bind_eq_ok.1 h
  rw [checkKeyUsage, require_eq_ok] at husage
  cases hcheck : args.checkOnly with
  | true =>
    rw [hcheck] at h
    cases h
    exact .checked haccepted husage
  | false =>
    rw [hcheck] at h
    cases h
    exact .intermediate haccepted husage

/-- Everything that a call can do. -/
theorem exec_step {cmd : Command} {a : Action} (h : exec pki ctx cmd s = .ok (s', a)) :
    Step pki ctx.sender ctx.timestamp s a s' := by
  cases cmd with
  | setTrustedPublicKey key id =>
    obtain ⟨s₁, hcall, heq⟩ := bind_eq_ok.1 h
    cases heq
    obtain ⟨_, howner, heq⟩ := bind_eq_ok.1 hcall
    cases heq
    exact .trusted (require_eq_ok.1 howner)
  | validateCertificate args =>
    obtain ⟨s₁, hcall, h⟩ := bind_eq_ok.1 h
    obtain ⟨cert, hdecode, heq⟩ := bind_eq_ok.1 h
    cases heq
    obtain ⟨cert', hdecode', hcall⟩ := bind_eq_ok.1 hcall
    rw [hdecode] at hdecode'
    cases hdecode'
    obtain ⟨_, hchecks, hcall⟩ := bind_eq_ok.1 hcall
    have haccepted := checkCertificate_eq_ok.1 hchecks
    unfold CertificateArgs.action
    split_ifs at hcall ⊢
    · exact acceptEndUser_step haccepted hcall
    · exact acceptIntermediate_step haccepted hcall
  | revokeKeyFromUserAddress id | revokeKeyByAddressSignature id _ =>
    obtain ⟨s₁, hcall, heq⟩ := bind_eq_ok.1 h
    cases heq
    obtain ⟨-, -, heq⟩ := bind_eq_ok.1 hcall
    cases heq
    exact .revoked
  | configure call =>
    obtain ⟨s₁, hcall, heq⟩ := bind_eq_ok.1 h
    cases heq
    exact .configured (configure_configured hcall)

theorem execAt_step {c c' : Config} {call : Context × Command} {e : Event}
    (h : execAt pki c call = some (e, c')) :
    c.clock ≤ e.timestamp ∧ c'.clock = e.timestamp ∧ e.before = c.state ∧ e.after = c'.state ∧
      Step pki e.sender e.timestamp c.state e.action c'.state := by
  unfold execAt at h
  split_ifs at h with hclock
  obtain ⟨⟨s', a⟩, hcall, heq⟩ := Option.map_eq_some_iff.1 h
  cases heq
  exact ⟨hclock, rfl, rfl, rfl, exec_step (toOption_eq_some.1 hcall)⟩

/-! ### Sample runs -/

/-- The key of a sample certificate. -/
def sampleKey (id : U256) : RSAPublicKey := ⟨[id.truncate 8], 3⟩

/-- A certificate for the key `subject`, signed by `authority`. -/
def sampleCertificate (authority subject : U256) (notAfter : ℕ) (keyUsage : BitVec 8) :
    Certificate where
  authorityKeyIdentifier := authority
  signature := [authority.truncate 8, subject.truncate 8]
  message := [subject.truncate 8]
  notBefore := 0
  notAfter := notAfter
  publicKey := sampleKey subject
  subjectKeyIdentifier := subject
  keyUsage := keyUsage
  extendedKeyUsage := []
  certificatePolicies := []

/-- Certificates are encoded by their number, and a key signs by preceding the message. -/
def samplePki (certificates : List Certificate) : Pki where
  decode bytes _ :=
    match certificates[bytes.length]? with
    | some cert => .ok cert
    | none => .error .outOfBounds
  verifies key message signature := key ≠ .zero && signature = key.modulus ++ message
  verifies_zero := by simp

/-- The owner of the sample runs. -/
def admin : { a : Address // a ≠ 0 } := ⟨0xaa, by decide⟩

/-- A user of the sample runs. -/
def dealer : { a : Address // a ≠ 0 } := ⟨0xdd, by decide⟩

/-- A call at the given time. -/
def callAt : { a : Address // a ≠ 0 } → ℕ → Command → Context × Command
  | ⟨sender, hsender⟩, timestamp, cmd => (⟨sender, hsender, timestamp⟩, cmd)

/-- The owner trusts the sample key `1` and requires no identifiers. -/
def setupCalls : List (Context × Command) :=
  [callAt admin 1 (.setTrustedPublicKey (sampleKey 1) 1),
    callAt admin 1 (.configure (.addExtendedKeyUsage [])),
    callAt admin 1 (.configure (.addCertificatePolicies []))]

/-- A call that validates the given sample certificate for the sender. -/
def validateCall (sender : { a : Address // a ≠ 0 }) (timestamp number : ℕ) (subject : U256)
    (isEndUser : Bool) : Context × Command :=
  callAt sender timestamp (.validateCertificate {
    certificate := List.replicate number 0
    tlvLength := 0
    addressSignature := (sampleKey subject).modulus ++ addressBytes sender.1
    isEndUser := isEndUser
    checkOnly := false
    oidGroup := 0
    addr := 0 })

/-- Execute calls from the initialization on. -/
def x509Run (certificates : List Certificate) (calls : List (Context × Command)) :
    Option (List Event × Config) :=
  TransitionSystem.execAll (execAt (samplePki certificates)) ⟨initialState admin.1, 0⟩ calls

theorem run_x509Run {certificates : List Certificate} {calls : List (Context × Command)}
    (h : (x509Run certificates calls).isSome) :
    (x509System (samplePki certificates)).Run ((x509Run certificates calls).get h).1
      ((x509Run certificates calls).get h).2 :=
  TransitionSystem.run_execAll ⟨admin.1, rfl⟩ (Option.some_get h).symm

end X509

end Nightfall
