import Nightfall.Data.Tlv
import Nightfall.Evm.Revert
import Nightfall.Evm.Word

/-!
# The DER parser

`walkDerTree` turns the encoding of a tree of TLVs into the list of its elements.  The walk goes
through the octets once: behind the header of a constructed element it goes on with the contents, and
behind a primitive element with what follows.  The depth of an element is tracked by an array of
offsets at which the depth goes down again.

Offsets are those of a byte string in the calldata, whose length is a word, so that sums of them
don't overflow.
-/

namespace Nightfall

namespace X509

namespace Der

open Evm

/-- `Tag`. -/
structure Tag where
  isConstructed : Bool
  tagType : BitVec 8
  deriving DecidableEq, Repr

/-- `DecodedTlv`. -/
structure DecodedTlv where
  start : ℕ
  headerLength : ℕ
  tag : Tag
  length : ℕ
  value : Bytes
  octets : Bytes
  depth : ℕ
  deriving DecidableEq, Repr

/-- An entry of a new array. -/
def DecodedTlv.zero : DecodedTlv := ⟨0, 0, ⟨false, 0⟩, 0, [], [], 0⟩

/-- `MAX_DEPTH`. -/
def MAX_DEPTH : ℕ := 5

/-! ### Arrays and byte strings -/

/-- `xs[i]`. -/
def index {α : Type} (xs : List α) (i : ℕ) : Except Revert α :=
  if h : i < xs.length then .ok xs[i] else .error .outOfBounds

/-- `bs[i:j]`. -/
def slice (bs : Bytes) (i j : ℕ) : Except Revert Bytes :=
  if i ≤ j ∧ j ≤ bs.length then .ok ((bs.take j).drop i) else .error .outOfBounds

/-- `bs[i:]`. -/
def sliceFrom (bs : Bytes) (i : ℕ) : Except Revert Bytes := slice bs i bs.length

/-- `bs[:j]`. -/
def sliceTo (bs : Bytes) (j : ℕ) : Except Revert Bytes := slice bs 0 j

/-! ### Elements -/

/-- `getTlvTag`. -/
def getTlvTag (tagByte : BitVec 8) (pointer : ℕ) : Except Revert (Tag × ℕ × ℕ) := do
  let tagClass := tagByte &&& 0xC0
  let isConstructed := decide (tagByte &&& 0x20 ≠ 0)
  let tagType := tagByte &&& 0x1F
  require (tagType < 0x1F) "DERParser: Tag is Long Form, which is not supported"
  require (tagClass = 0 ∨ tagClass = 0x80)
    "DERParser: Only the Universal or ContextSpecific tag classes are supported"
  return (⟨isConstructed, tagType⟩, pointer + 1, 1)

/-- The loop of `getTlvLength`: a word takes up octets, and those that are shifted out are lost. -/
def readLength (derSlice : Bytes) (lengthBits : ℕ) : Except Revert U256 :=
  (List.range lengthBits).foldlM (fun length i => do
    let octet ← index derSlice (i + 1)
    return (length <<< 8) ||| octet.zeroExtend 256) 0

/-- `getTlvLength`. -/
def getTlvLength (derSlice : Bytes) (pointer headerLength : ℕ) :
    Except Revert (ℕ × ℕ × ℕ) := do
  let first ← index derSlice 0
  let lengthBits := (first &&& 0x7F).toNat
  if first &&& 0x80 = 0 then return (lengthBits, pointer + 1, headerLength + 1)
  else do
    require (lengthBits ≠ 0) "DERParser: Indefinite lengths are not supported"
    require (lengthBits ≠ 0x7F)
      "DERParser: A value of 0x7F for a long form length is a reserved value"
    let length ← readLength derSlice lengthBits
    return (length.toNat, pointer + lengthBits + 1, headerLength + 1 + lengthBits)

/-- `getTlvValue`. -/
def getTlvValue (derSlice : Bytes) (length pointer : ℕ) (tag : Tag) :
    Except Revert (Bytes × ℕ) := do
  let value ← sliceTo derSlice length
  return (value, if tag.isConstructed then pointer else pointer + length)

/-- `getNextTlv`. -/
def getNextTlv (derSlice : Bytes) (start depth : ℕ) : Except Revert (DecodedTlv × ℕ) := do
  let (tag, pointer, headerLength) ← getTlvTag (← index derSlice start) start
  let (length, pointer, headerLength) ←
    getTlvLength (← sliceFrom derSlice pointer) pointer headerLength
  let (value, pointer) ← getTlvValue (← sliceFrom derSlice pointer) length pointer tag
  let octets ← slice derSlice start (start + headerLength + length)
  return (⟨start, headerLength, tag, length, value, octets, depth⟩, pointer)

/-! ### The walk -/

/-- The variables by which the walk finds its way. -/
structure Cursor where
  pointer : ℕ
  depth : ℕ
  /-- The offset at which each depth is left. -/
  depthChangesAt : List ℕ
  deriving DecidableEq, Repr

/-- The variables at the start. -/
def Cursor.start (pointer : ℕ) : Cursor := ⟨pointer, 0, List.replicate MAX_DEPTH 0⟩

/-- A constructed element is entered: `depthChangesAt[depth] = pointer + tlv.length; depth++`. -/
def enter (tlv : DecodedTlv) (pointer : ℕ) (c : Cursor) : Except Revert Cursor :=
  if tlv.tag.isConstructed then
    if c.depth < c.depthChangesAt.length then
      .ok ⟨pointer, c.depth + 1, c.depthChangesAt.set c.depth (pointer + tlv.length)⟩
    else .error .outOfBounds
  else .ok ⟨pointer, c.depth, c.depthChangesAt⟩

/-- The elements that end here are left: `if (pointer == depthChangesAt[i]) depth--` for each
entry. -/
def leave (c : Cursor) : Except Revert Cursor := do
  let depth ← c.depthChangesAt.foldlM (fun depth change =>
    if c.pointer = change then checkedSub depth 1 else .ok depth) c.depth
  return ⟨c.pointer, depth, c.depthChangesAt⟩

/-- The loop that `walkDerTree` and `computeNumberOfTlvs` share.  They differ in what they do with
an element, which is `store`.  There are no more elements than bytes, which bounds the loop. -/
def walkLoop {α : Type} (store : α → DecodedTlv → Except Revert α) (derBytes : Bytes) :
    ℕ → Cursor → α → Except Revert α
  | 0, _, _ => .error .callFailed
  | fuel + 1, c, a => do
    let (tlv, pointer) ← getNextTlv derBytes c.pointer c.depth
    let a ← store a tlv
    let c ← leave (← enter tlv pointer c)
    if c.pointer < derBytes.length then walkLoop store derBytes fuel c a else return a

/-- The array `tlvs` and the index `id` of the next entry. -/
structure Found where
  tlvs : List DecodedTlv
  id : ℕ
  deriving DecidableEq, Repr

/-- `tlvs[id++] = tlv`. -/
def Found.store (found : Found) (tlv : DecodedTlv) : Except Revert Found :=
  if found.id < found.tlvs.length then .ok ⟨found.tlvs.set found.id tlv, found.id + 1⟩
  else .error .outOfBounds

/-- `walkDerTree`. -/
def walkDerTree (derBytes : Bytes) (pointer tlvLength : ℕ) : Except Revert (List DecodedTlv) := do
  let found ← walkLoop Found.store derBytes (derBytes.length + 1) (.start pointer)
    ⟨List.replicate tlvLength .zero, 0⟩
  return found.tlvs

/-- `computeNumberOfTlvs`. -/
def computeNumberOfTlvs (derBytes : Bytes) (pointer : ℕ) : Except Revert ℕ :=
  walkLoop (fun id _ => .ok (id + 1)) derBytes (derBytes.length + 1) (.start pointer) 0

/-- `parseDER`. -/
def parseDER (derBytes : Bytes) (pointer tlvLength : ℕ) : Except Revert (List DecodedTlv) :=
  walkDerTree derBytes pointer tlvLength

end Der

end X509

end Nightfall
