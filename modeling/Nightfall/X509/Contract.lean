import Nightfall.Contract.State
import Nightfall.Evm.Revert
import Mathlib.Logic.Function.Basic

/-!
# The X509 contract

`X509` keeps the list of addresses that may trade.  An address gets onto it by a certificate that is
signed by a trusted key: one that the owner set, or that of an intermediate certificate which was
validated before.

Decoding a certificate and verifying an RSA signature are functions of bytes that the model takes as
parameters (`Pki`).
-/

namespace Nightfall

namespace X509

open Evm

open Contract (Address)

/-- An RSA public key. -/
structure RSAPublicKey where
  modulus : Bytes
  exponent : U256
  deriving DecidableEq, Repr

/-- An entry that was never written or was deleted. -/
def RSAPublicKey.zero : RSAPublicKey := ⟨[], 0⟩

/-- What is extracted from a certificate. -/
structure Certificate where
  authorityKeyIdentifier : U256
  signature : Bytes
  /-- The part that is signed. -/
  message : Bytes
  notBefore : ℕ
  notAfter : ℕ
  publicKey : RSAPublicKey
  subjectKeyIdentifier : U256
  keyUsage : BitVec 8
  extendedKeyUsage : List U256
  certificatePolicies : List U256
  deriving DecidableEq, Repr

/-- Decoding and signatures. -/
structure Pki where
  /-- Decode a certificate with the given number of values, and extract its parts. -/
  decode : Bytes → ℕ → Except Revert Certificate
  /-- `verifies key message signature` : the signature is a PKCS#1 signature of the message. -/
  verifies : RSAPublicKey → Bytes → Bytes → Bool
  /-- Exponentiation modulo an empty modulus yields nothing to compare. -/
  verifies_zero : ∀ message signature, verifies .zero message signature = false

/-- The storage of the contract. -/
structure State where
  owner : Address
  allowlisting : Bool
  users : Address → Bool
  expires : Address → ℕ
  trustedPublicKeys : U256 → RSAPublicKey
  revokedKeys : U256 → Bool
  keysByUser : Address → U256
  addressByKey : U256 → Address
  extendedKeyUsageOIDs : List (List U256)
  certificatePoliciesOIDs : List (List U256)
  usageBitMaskEndUser : BitVec 8
  usageBitMaskIntermediate : BitVec 8

/-- What a call sees of its surroundings. -/
structure Context where
  sender : Address
  /-- Nobody calls from the zero address. -/
  sender_ne : sender ≠ 0
  timestamp : ℕ

/-- The storage that `initialize` leaves. -/
def initialState (owner : Address) : State where
  owner := owner
  allowlisting := true
  users _ := false
  expires _ := 0
  trustedPublicKeys _ := .zero
  revokedKeys _ := false
  keysByUser _ := 0
  addressByKey _ := 0
  extendedKeyUsageOIDs := []
  certificatePoliciesOIDs := []
  usageBitMaskEndUser := 0x80
  usageBitMaskIntermediate := 0x06

/-- `abi.encodePacked(uint160(addr))`. -/
def addressBytes (addr : Address) : Bytes := (toBytesBE (addr.zeroExtend 256)).drop 12

/-! ### The owner -/

/-- The modifier `onlyOwner`. -/
def onlyOwner (ctx : Context) (s : State) : Except Revert Unit :=
  require (ctx.sender = s.owner) "Caller is not the owner"

/-- A key becomes trusted. -/
def trust (id : U256) (key : RSAPublicKey) (s : State) : State :=
  { s with trustedPublicKeys := Function.update s.trustedPublicKeys id key }

/-- `setTrustedPublicKey`. -/
def setTrustedPublicKey (ctx : Context) (key : RSAPublicKey) (id : U256) (s : State) :
    Except Revert State := do
  onlyOwner ctx s
  return trust id key s

/-- The other calls by which the owner configures the contract. -/
inductive Configuration
  | setUsageBitMaskEndUser (mask : BitVec 8)
  | setUsageBitMaskIntermediate (mask : BitVec 8)
  | addExtendedKeyUsage (oids : List U256)
  | addCertificatePolicies (oids : List U256)
  | removeExtendedKeyUsage
  | removeCertificatePolicies
  | transferOwnership (newOwner : Address)
  | enableAllowlisting (allowlisting : Bool)
  deriving DecidableEq, Repr

/-- A call that configures the contract. -/
def configure (ctx : Context) (call : Configuration) (s : State) : Except Revert State := do
  onlyOwner ctx s
  match call with
  | .setUsageBitMaskEndUser mask => return { s with usageBitMaskEndUser := mask }
  | .setUsageBitMaskIntermediate mask => return { s with usageBitMaskIntermediate := mask }
  | .addExtendedKeyUsage oids =>
    return { s with extendedKeyUsageOIDs := s.extendedKeyUsageOIDs ++ [oids] }
  | .addCertificatePolicies oids =>
    return { s with certificatePoliciesOIDs := s.certificatePoliciesOIDs ++ [oids] }
  | .removeExtendedKeyUsage => return { s with extendedKeyUsageOIDs := [] }
  | .removeCertificatePolicies => return { s with certificatePoliciesOIDs := [] }
  | .transferOwnership newOwner => do
    require (newOwner ≠ 0) "Invalid owner"
    return { s with owner := newOwner }
  | .enableAllowlisting allowlisting => return { s with allowlisting := allowlisting }

/-! ### Certificates -/

section

variable (pki : Pki) (ctx : Context)

/-- `checkSignature`. -/
def checkSignature (signature message : Bytes) (publicKey : RSAPublicKey) : Except Revert Unit :=
  require (pki.verifies publicKey message signature = true) "X509: Signature is invalid"

/-- `checkDates`. -/
def checkDates (cert : Certificate) : Except Revert Unit := do
  require (cert.notBefore < ctx.timestamp) "X509: It is too early to use this certificate"
  require (ctx.timestamp < cert.notAfter) "X509: This certificate has expired"

/-- `checkKeyUsage`. -/
def checkKeyUsage (cert : Certificate) (usageBitMask : BitVec 8) : Except Revert Unit :=
  require (cert.keyUsage &&& usageBitMask = usageBitMask) "X509: Key usage is not as required"

/-- `checkExtendedKeyUsage` and `checkCertificatePolicies`: the certificate has all identifiers of
the group. -/
def checkOids (groups : List (List U256)) (oidGroup : ℕ) (oids : List U256) (message : String) :
    Except Revert Unit :=
  match groups[oidGroup]? with
  | none => .error .outOfBounds
  | some required => require (required.all (· ∈ oids) = true) message

/-- The arguments of `validateCertificate`. -/
structure CertificateArgs where
  certificate : Bytes
  tlvLength : ℕ
  addressSignature : Bytes
  isEndUser : Bool
  checkOnly : Bool
  oidGroup : ℕ
  addr : Address

/-- The address that is allowlisted: that of the sender, if none is given. -/
def CertificateArgs.target (args : CertificateArgs) : Address :=
  if args.addr = 0 then ctx.sender else args.addr

/-- The checks that all certificates have to pass. -/
def checkCertificate (cert : Certificate) (s : State) : Except Revert Unit := do
  checkSignature pki cert.signature cert.message (s.trustedPublicKeys cert.authorityKeyIdentifier)
  checkDates ctx cert
  require (s.revokedKeys cert.subjectKeyIdentifier = false)
    "X509: The subject key of this certificate has been revoked"
  require (s.revokedKeys cert.authorityKeyIdentifier = false)
    "X509: The authority key of this certificates has been revoked"

/-- An address is bound to a certificate and allowlisted. -/
def bindCertificate (cert : Certificate) (addr : Address) (s : State) : State :=
  { s with
    expires := Function.update s.expires addr cert.notAfter
    keysByUser := Function.update s.keysByUser addr cert.subjectKeyIdentifier
    addressByKey := Function.update s.addressByKey cert.subjectKeyIdentifier addr
    users := Function.update s.users addr true }

/-- `validateCertificate` for an intermediate certificate that passed the checks. -/
def acceptIntermediate (args : CertificateArgs) (cert : Certificate) (s : State) :
    Except Revert State := do
  checkKeyUsage cert s.usageBitMaskIntermediate
  return if args.checkOnly then s else trust cert.subjectKeyIdentifier cert.publicKey s

/-- The checks before an address is bound to a certificate. -/
def checkBinding (args : CertificateArgs) (cert : Certificate) (s : State) :
    Except Revert Unit := do
  let addr := args.target ctx
  require (s.keysByUser addr = 0 ∨ s.keysByUser addr = cert.subjectKeyIdentifier)
    "X509: This address is already linked to a different certificate"
  require (s.addressByKey cert.subjectKeyIdentifier = 0 ∨
    s.addressByKey cert.subjectKeyIdentifier = addr)
    "X509: This certificate is already linked to a different address"
  checkSignature pki args.addressSignature (addressBytes addr) cert.publicKey

/-- `validateCertificate` for an end-user certificate that passed the checks. -/
def acceptEndUser (args : CertificateArgs) (cert : Certificate) (s : State) :
    Except Revert State := do
  checkKeyUsage cert s.usageBitMaskEndUser
  checkOids s.extendedKeyUsageOIDs args.oidGroup cert.extendedKeyUsage
    "A required Extended Key Usage OID was not found"
  checkOids s.certificatePoliciesOIDs args.oidGroup cert.certificatePolicies
    "A required Certificate Policy OID was not found"
  if args.checkOnly then return s
  else do
    checkBinding pki ctx args cert s
    return bindCertificate cert (args.target ctx) s

/-- `validateCertificate`. -/
def validateCertificate (args : CertificateArgs) (s : State) : Except Revert State := do
  let cert ← pki.decode args.certificate args.tlvLength
  checkCertificate pki ctx cert s
  if args.isEndUser then acceptEndUser pki ctx args cert s else acceptIntermediate args cert s

/-! ### Allowed addresses and revocations -/

/-- `isAllowlisted`. -/
def isAllowlisted (user : Address) (s : State) : Bool :=
  if s.allowlisting = false then true else s.users user

/-- `x509Check` at the given time. -/
def x509Check (timestamp : ℕ) (user : Address) (s : State) : Bool :=
  !s.allowlisting || (!s.revokedKeys (s.keysByUser user) && decide (timestamp < s.expires user) &&
    isAllowlisted user s)

/-- The key is revoked, and the binding of its certificate is deleted. -/
def revoke (id : U256) (s : State) : State :=
  { s with
    revokedKeys := Function.update s.revokedKeys id true
    trustedPublicKeys := Function.update s.trustedPublicKeys id .zero
    keysByUser := Function.update s.keysByUser (s.addressByKey id) 0
    addressByKey := Function.update s.addressByKey id 0 }

/-- `revokeKeyFromUserAddress`. -/
def revokeKeyFromUserAddress (id : U256) (s : State) : Except Revert State := do
  require (s.keysByUser ctx.sender = id ∨ ctx.sender = s.owner)
    "X509: You are not the owner of this key"
  return revoke id s

/-- `revokeKeyByAddressSignature`. -/
def revokeKeyByAddressSignature (id : U256) (addressSignature : Bytes) (s : State) :
    Except Revert State := do
  checkSignature pki addressSignature (addressBytes ctx.sender) (s.trustedPublicKeys id)
  return revoke id s

end

end X509

end Nightfall
