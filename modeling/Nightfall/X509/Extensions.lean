import Nightfall.X509.DerParser

/-!
# Extensions of a certificate

The functions of the contract that read an extension look for its object identifier among all
elements at depth 5, wherever they are, and go on with the element behind it.
-/

namespace Nightfall

namespace X509

namespace Der

open Evm

/-- `bytes32(bs)` : the first 32 bytes, or zeros behind the bytes. -/
def bytes32 (bs : Bytes) : U256 := fromBytesBE ((bs ++ List.replicate 32 0).take 32)

/-! ### Looking for an extension -/

/-- The values by which the functions that look for an extension differ. -/
structure Lookup where
  /-- The object identifier, with zeros behind it. -/
  oid : U256
  /-- The message if it isn't found. -/
  message : String
  /-- Whether a boolean behind the object identifier is skipped. -/
  skipsCritical : Bool
  deriving DecidableEq, Repr

/-- The element is taken for the object identifier. -/
def Lookup.accepts (l : Lookup) (t : DecodedTlv) : Bool :=
  decide (t.depth = 5) && decide (bytes32 t.value = l.oid)

/-- The element that the value of the extension is taken from. -/
def Lookup.find (l : Lookup) (tlvs : List DecodedTlv) : Except Revert DecodedTlv := do
  let i := tlvs.findIdx l.accepts
  require (i < tlvs.length) l.message
  let tlv ← index tlvs (i + 1)
  if l.skipsCritical = true then do
    let first ← index tlv.octets 0
    if first = 0x01 then index tlvs (i + 2) else return tlv
  else return tlv

/-- The lookup of `extractSubjectKeyIdentifier`. -/
def subjectKeyIdentifier : Lookup :=
  ⟨0x551d0e0000000000000000000000000000000000000000000000000000000000,
    "X509: OID for Subject Key Identifier not found", false⟩

/-- The lookup of `extractAuthorityKeyIdentifier`. -/
def authorityKeyIdentifier : Lookup :=
  ⟨0x551d230000000000000000000000000000000000000000000000000000000000,
    "X509: OID for Authority Key Identifier not found", false⟩

/-- The lookup of `checkKeyUsage`. -/
def keyUsage : Lookup :=
  ⟨0x551d0f0000000000000000000000000000000000000000000000000000000000,
    "X509: OID for Key Usage not found", true⟩

/-- The lookup of `checkExtendedKeyUsage`. -/
def extendedKeyUsage : Lookup :=
  ⟨0x551d250000000000000000000000000000000000000000000000000000000000,
    "X509: OID for Extended Key Usage not found", true⟩

/-- The lookup of `checkCertificatePolicies`. -/
def certificatePolicies : Lookup :=
  ⟨0x551d200000000000000000000000000000000000000000000000000000000000,
    "X509: OID for Certificate Policies not found", true⟩

/-- The lookups that `validateCertificate` makes. -/
def lookups : List Lookup :=
  [authorityKeyIdentifier, subjectKeyIdentifier, keyUsage, extendedKeyUsage, certificatePolicies]

/-! ### What is read -/

/-- `bytes32(value) >> ((32 - length) * 8)`. -/
def alignRight (value : Bytes) (length : ℕ) : Except Revert U256 := do
  let n ← checkedSub 32 length
  return bytes32 value >>> (n * 8)

/-- `extractSubjectKeyIdentifier`. -/
def extractSubjectKeyIdentifier (tlvs : List DecodedTlv) : Except Revert U256 := do
  let skidBytes := (← subjectKeyIdentifier.find tlvs).value
  require (skidBytes.length < 33) "X509: SKID is too long to encode as a bytes 32"
  let skidTlvs ← parseDER skidBytes 0 2
  let skid ← index skidTlvs 0
  alignRight skid.value skid.length

/-- `extractAuthorityKeyIdentifier`. -/
def extractAuthorityKeyIdentifier (tlvs : List DecodedTlv) : Except Revert U256 := do
  let akidBytes := (← authorityKeyIdentifier.find tlvs).value
  require (akidBytes.length < 33) "X509: AKID is too long to encode as a bytes 32"
  let akidTlvs ← parseDER akidBytes 0 2
  let akid ← index akidTlvs 1
  alignRight akid.value akid.value.length

/-- `checkKeyUsage`. -/
def checkKeyUsage (tlvs : List DecodedTlv) (usageBitMask : BitVec 8) : Except Revert Unit := do
  let usageBytes := (← keyUsage.find tlvs).value
  let usageTlvs ← parseDER usageBytes 0 1
  let usage ← index usageTlvs 0
  require (usage.length = 2) "X509: Key usage bytes must be of 2 bytes"
  let ignored ← index usage.value 0
  let flags ← index usage.value 1
  let usageFlags := (flags >>> ignored.toNat) <<< ignored.toNat
  require (usageFlags &&& usageBitMask = usageBitMask) "X509: Key usage is not as required"

/-- `checkExtendedKeyUsage`. -/
def checkExtendedKeyUsage (extendedKeyUsageOIDs : List (List U256)) (tlvs : List DecodedTlv)
    (oidGroup : ℕ) : Except Revert Unit := do
  let extendedUsageBytes := (← extendedKeyUsage.find tlvs).value
  let tlvLength ← computeNumberOfTlvs extendedUsageBytes 0
  let extendedUsageTlvs ← parseDER extendedUsageBytes 0 tlvLength
  let required ← index extendedKeyUsageOIDs oidGroup
  require (required.all (fun oid => extendedUsageTlvs.any fun t => bytes32 t.octets = oid) = true)
    "A required Extended Key Usage OID was not found"

/-- `checkCertificatePolicies` : a policy is the object identifier at depth 2. -/
def checkCertificatePolicies (certificatePoliciesOIDs : List (List U256))
    (tlvs : List DecodedTlv) (oidGroup : ℕ) : Except Revert Unit := do
  let extendedUsageBytes := (← certificatePolicies.find tlvs).value
  let tlvLength ← computeNumberOfTlvs extendedUsageBytes 0
  let extendedUsageTlvs ← parseDER extendedUsageBytes 0 tlvLength
  let policyOIDs := (extendedUsageTlvs.filter fun t => t.depth = 2).map fun t => bytes32 t.octets
  let required ← index certificatePoliciesOIDs oidGroup
  require (required.all (fun oid => policyOIDs.any fun policyOID => policyOID = oid) = true)
    "A required Certificate Policy OID was not found"

end Der

end X509

end Nightfall
