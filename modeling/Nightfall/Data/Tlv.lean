import Mathlib.Data.BitVec
import Mathlib.Data.List.Basic

/-!
# Forests of TLVs

An element of a BER encoding is a tag, the length of the contents, and the contents; the contents of
a constructed element are elements again.  A forest is what a string of such elements encodes, with
the octets of each tag and of each length kept as they are, so that a forest has one encoding.

The tags are single octets of the classes universal and context-specific, and the lengths are
definite: one octet below 128, or up to 126 octets behind an octet that tells how many.
-/

namespace Nightfall

namespace Tlv

/-- A string of octets. -/
abbrev Octets := List (BitVec 8)

/-- The number that octets denote, the most significant one first. -/
def number (octets : Octets) : ℕ := octets.foldl (fun n b => 256 * n + b.toNat) 0

@[simp] theorem number_nil : number [] = 0 := rfl

theorem number_append_singleton (octets : Octets) (b : BitVec 8) :
    number (octets ++ [b]) = 256 * number octets + b.toNat := by
  rw [number, List.foldl_append]
  rfl

/-- The length that length octets encode, if they are of one of the definite forms. -/
def contentLength : Octets → Option ℕ
  | [] => none
  | first :: more =>
    if first.toNat < 128 then if more = [] then some first.toNat else none
    else if first.toNat ≠ 128 ∧ first.toNat ≠ 255 ∧ more.length = first.toNat - 128 then
      some (number more)
    else none

theorem contentLength_short {first : BitVec 8} (h : first.toNat < 128) :
    contentLength [first] = some first.toNat := by
  rw [contentLength, if_pos h, if_pos rfl]

theorem contentLength_long {first : BitVec 8} {more : Octets} (h : ¬ first.toNat < 128)
    (hindefinite : first.toNat ≠ 128) (hreserved : first.toNat ≠ 255)
    (hmore : more.length = first.toNat - 128) :
    contentLength (first :: more) = some (number more) := by
  rw [contentLength, if_neg h, if_pos ⟨hindefinite, hreserved, hmore⟩]

/-- Length octets are of the short form or of the long form. -/
theorem contentLength_eq_some {length : Octets} {n : ℕ} (h : contentLength length = some n) :
    (∃ first : BitVec 8, first.toNat < 128 ∧ length = [first] ∧ n = first.toNat) ∨
      ∃ (first : BitVec 8) (more : Octets), ¬ first.toNat < 128 ∧ first.toNat ≠ 128 ∧
        first.toNat ≠ 255 ∧ more.length = first.toNat - 128 ∧ length = first :: more ∧
        n = number more := by
  cases length with
  | nil => cases h
  | cons first more =>
    rw [contentLength] at h
    split_ifs at h with hshort hnil hlong
    · subst hnil
      exact .inl ⟨first, hshort, rfl, (Option.some.inj h).symm⟩
    · obtain ⟨hindefinite, hreserved, hmore⟩ := hlong
      exact .inr ⟨first, more, hshort, hindefinite, hreserved, hmore, rfl,
        (Option.some.inj h).symm⟩

/-- The bit of a tag that constructed elements have. -/
def isConstructed (tag : BitVec 8) : Bool := decide (tag &&& 0x20 ≠ 0)

/-- A tag of one octet, of the class universal or context-specific. -/
def Allowed (tag : BitVec 8) : Prop :=
  tag &&& 0x1F < 0x1F ∧ (tag &&& 0xC0 = 0 ∨ tag &&& 0xC0 = 0x80)

instance decidableAllowed : DecidablePred Allowed := fun tag =>
  inferInstanceAs (Decidable (tag &&& 0x1F < 0x1F ∧ (tag &&& 0xC0 = 0 ∨ tag &&& 0xC0 = 0x80)))

/-! ### Forests -/

/-- Elements one after the other, each with its tag and length octets. -/
inductive Forest
  | nil
  /-- A primitive element and the elements after it. -/
  | primitive (tag : BitVec 8) (length content : Octets) (rest : Forest)
  /-- A constructed element and the elements after it. -/
  | constructed (tag : BitVec 8) (length : Octets) (children rest : Forest)
  deriving DecidableEq, Repr

namespace Forest

/-- The octets of a forest. -/
def encode : Forest → Octets
  | nil => []
  | primitive tag length content rest => tag :: (length ++ (content ++ rest.encode))
  | constructed tag length children rest =>
    tag :: (length ++ (children.encode ++ rest.encode))

/-- The number of elements. -/
def size : Forest → ℕ
  | nil => 0
  | primitive _ _ _ rest => rest.size + 1
  | constructed _ _ children rest => children.size + rest.size + 1

/-- The largest number of constructed elements around each other. -/
def nesting : Forest → ℕ
  | nil => 0
  | primitive _ _ _ rest => rest.nesting
  | constructed _ _ children rest => max (children.nesting + 1) rest.nesting

/-- The tags are allowed and tell which elements are constructed, and the length octets encode the
lengths of the contents. -/
def WellFormed : Forest → Prop
  | nil => True
  | primitive tag length content rest =>
    Allowed tag ∧ isConstructed tag = false ∧ contentLength length = some content.length ∧
      rest.WellFormed
  | constructed tag length children rest =>
    Allowed tag ∧ isConstructed tag = true ∧
      contentLength length = some children.encode.length ∧ children.WellFormed ∧ rest.WellFormed

instance decidableWellFormed : DecidablePred WellFormed
  | nil => .isTrue trivial
  | primitive tag length content rest =>
    have := decidableWellFormed rest
    inferInstanceAs (Decidable (Allowed tag ∧ isConstructed tag = false ∧
      contentLength length = some content.length ∧ rest.WellFormed))
  | constructed tag length children rest =>
    have := decidableWellFormed children
    have := decidableWellFormed rest
    inferInstanceAs (Decidable (Allowed tag ∧ isConstructed tag = true ∧
      contentLength length = some children.encode.length ∧ children.WellFormed ∧
      rest.WellFormed))

@[simp] theorem encode_nil : nil.encode = [] := rfl

@[simp] theorem size_nil : nil.size = 0 := rfl

/-- The tags of the elements that aren't inside others. -/
def tags : Forest → List (BitVec 8)
  | nil => []
  | primitive tag _ _ rest => tag :: rest.tags
  | constructed tag _ _ rest => tag :: rest.tags

/-- One forest after the other. -/
def append : Forest → Forest → Forest
  | nil, us => us
  | primitive tag length content rest, us => primitive tag length content (rest.append us)
  | constructed tag length children rest, us => constructed tag length children (rest.append us)

theorem length_encode_pos {ts : Forest} (h : ts ≠ nil) : 0 < ts.encode.length := by
  cases ts with
  | nil => exact absurd rfl h
  | primitive tag length content rest => exact Nat.succ_pos _
  | constructed tag length children rest => exact Nat.succ_pos _

end Forest

end Tlv

end Nightfall
