import Mathlib.Data.List.GetD
import Nightfall.Evm.Word

/-!
# Memory

The memory of a call is an array of bytes that `mload`, `mstore` and `keccak256` access.  An access
far behind the start costs more gas than a call can have, and the call reverts.

`Stored mem p xs` says that the words `xs` lie in memory from `p` on.  It is what a sequence of
`mstore`s establishes, word by word (`Stored.concat`), what later ones in other places keep
(`Stored.write`), and what `mload` and `keccak256` read (`Stored.read_word`).
-/

namespace Nightfall

namespace Evm

/-- The bytes of the memory. -/
def Memory := ℕ → BitVec 8

namespace Memory

variable {mem mem' : Memory} {p q n m : ℕ}

/-- The memory of a call that starts. -/
def empty : Memory := fun _ => 0

/-- The `n` bytes from `p` on. -/
def read (mem : Memory) (p n : ℕ) : Bytes := (List.range n).map fun k => mem (p + k)

/-- The memory with `bs` from `p` on. -/
def write (mem : Memory) (p : ℕ) (bs : Bytes) : Memory :=
  fun a => if p ≤ a then bs.getD (a - p) (mem a) else mem a

/-- An access to `n` bytes; the price of memory grows with the square of its size, and for `2 ^ 64`
bytes it does not fit into the 64 bits of the gas counter. -/
def Payable (p : U256) (n : ℕ) : Prop := p.toNat + n ≤ 2 ^ 64

instance decidablePayable (p : U256) (n : ℕ) : Decidable (Payable p n) :=
  inferInstanceAs (Decidable (_ ≤ _))

/-- `mload`. -/
def mload (mem : Memory) (p : U256) : Option U256 :=
  if Payable p 32 then some (fromBytesBE (mem.read p.toNat 32)) else none

/-- `mstore`. -/
def mstore (mem : Memory) (p v : U256) : Option Memory :=
  if Payable p 32 then some (mem.write p.toNat (toBytesBE v)) else none

/-- `keccak256` of the `n` bytes at `p`. -/
def keccak256 (hash : Bytes → U256) (mem : Memory) (p : U256) (n : ℕ) : Option U256 :=
  if Payable p n then some (hash (mem.read p.toNat n)) else none

theorem mload_eq_some {p v : U256} :
    mem.mload p = some v ↔ Payable p 32 ∧ fromBytesBE (mem.read p.toNat 32) = v := by
  rw [mload]
  split_ifs with h <;> simp [h]

theorem mstore_eq_some {p v : U256} :
    mem.mstore p v = some mem' ↔ Payable p 32 ∧ mem.write p.toNat (toBytesBE v) = mem' := by
  rw [mstore]
  split_ifs with h <;> simp [h]

theorem keccak256_eq_some {hash : Bytes → U256} {p v : U256} :
    mem.keccak256 hash p n = some v ↔ Payable p n ∧ hash (mem.read p.toNat n) = v := by
  rw [keccak256]
  split_ifs with h <;> simp [h]

/-- A pointer does not wrap around as long as the memory is paid for. -/
theorem Payable.toNat_add {p : U256} (h : Payable p n) {k : ℕ} (hk : k ≤ 2 ^ 64) :
    (p + BitVec.ofNat 256 k).toNat = p.toNat + k := by
  unfold Payable at h
  rw [BitVec.toNat_add, BitVec.toNat_ofNat]
  omega

/-! ### Reading and writing -/

@[simp] theorem length_read (mem : Memory) (p n : ℕ) : (mem.read p n).length = n := by
  simp [read]

theorem read_add (mem : Memory) (p m n : ℕ) :
    mem.read p (m + n) = mem.read p m ++ mem.read (p + m) n := by
  simp only [read, List.range_add, List.map_append, List.map_map]
  congr 1
  apply List.map_congr_left
  intro k _
  simp [Nat.add_assoc]

theorem read_write_self (mem : Memory) (p : ℕ) (bs : Bytes) :
    (mem.write p bs).read p bs.length = bs := by
  apply List.ext_getElem
  · simp
  · intro k hk hk'
    simp [read, write, List.getD_eq_getElem?_getD, hk']

/-- A write elsewhere. -/
theorem read_write_of_disjoint {bs : Bytes} (h : q + n ≤ p ∨ p + bs.length ≤ q) :
    (mem.write p bs).read q n = mem.read q n := by
  apply List.map_congr_left
  intro k hk
  rw [List.mem_range] at hk
  rw [write]
  split_ifs with hle
  · exact List.getD_eq_default _ _ (by omega)
  · rfl

/-! ### Words in memory -/

/-- The words `xs` lie in memory, from `p` on. -/
def Stored (mem : Memory) (p : ℕ) (xs : List U256) : Prop :=
  mem.read p (32 * xs.length) = abiEncode xs

theorem Stored.nil : Stored mem p [] := rfl

/-- One more word behind those that are stored. -/
theorem Stored.concat {xs : List U256} (h : Stored mem p xs) (x : U256) :
    Stored (mem.write (p + 32 * xs.length) (toBytesBE x)) p (xs ++ [x]) := by
  have hword := read_write_self mem (p + 32 * xs.length) (toBytesBE x)
  rw [length_toBytesBE] at hword
  rw [Stored, List.length_append, List.length_singleton, Nat.mul_add_one, read_add, hword,
    read_write_of_disjoint (Or.inl le_rfl), h]
  simp [abiEncode]

/-- A word is written elsewhere. -/
theorem Stored.write {xs : List U256} (h : Stored mem p xs) {x : U256}
    (hdisj : p + 32 * xs.length ≤ q ∨ q + 32 ≤ p) :
    Stored (mem.write q (toBytesBE x)) p xs := by
  rw [Stored, read_write_of_disjoint (by rwa [length_toBytesBE])]
  exact h

/-- The words before and behind a word. -/
theorem Stored.read_word {xs ys : List U256} {x : U256} (h : Stored mem p (xs ++ x :: ys)) :
    mem.read (p + 32 * xs.length) 32 = toBytesBE x := by
  have hsplit : 32 * (xs ++ x :: ys).length = 32 * xs.length + (32 + 32 * ys.length) := by
    rw [List.length_append, List.length_cons]
    omega
  have henc : abiEncode (xs ++ x :: ys) = abiEncode xs ++ (toBytesBE x ++ abiEncode ys) := by
    simp [abiEncode]
  rw [Stored, hsplit, read_add, read_add, henc] at h
  have hxs := List.append_inj_right h (by rw [length_read, length_abiEncode])
  exact List.append_inj_left hxs (by rw [length_read, length_toBytesBE])

/-- What `mload` reads. -/
theorem Stored.mload {xs ys : List U256} {x v a : U256} (h : Stored mem p (xs ++ x :: ys))
    (ha : a.toNat = p + 32 * xs.length) (hv : mem.mload a = some v) : v = x := by
  obtain ⟨-, rfl⟩ := mload_eq_some.1 hv
  rw [ha, h.read_word, fromBytesBE_toBytesBE]

/-- A word that `mstore` wrote, read back. -/
theorem mload_write {a v : U256} (mem : Memory) (h : Payable a 32) :
    (mem.write a.toNat (toBytesBE v)).mload a = some v := by
  have hword := read_write_self mem a.toNat (toBytesBE v)
  rw [length_toBytesBE] at hword
  rw [mload_eq_some, hword, fromBytesBE_toBytesBE]
  exact ⟨h, rfl⟩

/-- A write behind the word that is read. -/
theorem mload_mstore_of_le {a b v : U256} (hstore : mem.mstore b v = some mem')
    (h : a.toNat + 32 ≤ b.toNat) : mem'.mload a = mem.mload a := by
  obtain ⟨-, rfl⟩ := mstore_eq_some.1 hstore
  rw [mload, mload, read_write_of_disjoint (Or.inl h)]

/-- `mstore` directly behind the words that are stored. -/
theorem Stored.mstore {xs : List U256} {x b : U256} (h : Stored mem p xs)
    (hb : b.toNat = p + 32 * xs.length) (hstore : mem.mstore b x = some mem') :
    Stored mem' p (xs ++ [x]) := by
  obtain ⟨-, rfl⟩ := mstore_eq_some.1 hstore
  rw [hb]
  exact h.concat x

/-- The next word of `xs ++ x :: ys` is copied behind the words `xs`, which were copied before. -/
theorem Stored.copy (xs : List U256) {ys : List U256} {x a b v : U256}
    (hsrc : Stored mem p (xs ++ x :: ys))
    (hdst : Stored mem q xs) (hdisj : p + 32 * (xs ++ x :: ys).length ≤ q)
    (ha : a.toNat = p + 32 * xs.length) (hb : b.toNat = q + 32 * xs.length)
    (hload : mem.mload a = some v) (hstore : mem.mstore b v = some mem') :
    Stored mem' p (xs ++ x :: ys) ∧ Stored mem' q (xs ++ [x]) := by
  obtain rfl := hsrc.mload ha hload
  obtain ⟨-, rfl⟩ := mstore_eq_some.1 hstore
  rw [hb]
  exact ⟨hsrc.write (Or.inl (by omega)), hdst.concat v⟩

end Memory

end Evm

end Nightfall
