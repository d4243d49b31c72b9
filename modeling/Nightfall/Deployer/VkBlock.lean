import Nightfall.Data.Regex
import Nightfall.Verifier.Types

/-!
# The section of a verification key

`write_vk_to_nightfall_toml` writes a verification key as a section of the configuration file: a header
with the name of the run mode, a comment, an entry for each value and an empty line.  Only the header
looks like the header of a section.
-/

namespace Nightfall

namespace Deployer

open Lines Regex Verifier
open Evm (U256)

/-- A character of a key that stands without quotes. -/
def IsBareKey (c : Char) : Prop := c.isAlphanum ∨ c = '-' ∨ c = '_'

instance decidableIsBareKey (c : Char) : Decidable (IsBareKey c) :=
  inferInstanceAs (Decidable (_ ∨ _))

/-- The name of a run mode, which is written into a header as it is. -/
structure RunMode where
  name : List Char
  ne_nil : name ≠ []
  bare : ∀ c ∈ name, IsBareKey c

/-! ### The text -/

/-- `as_hex`. -/
def asHex (u : U256) : List Char := "0x".toList ++ Nat.toDigits 16 u.toNat

/-- `as_q`. -/
def asQ (u : U256) : List Char := "\"".toList ++ asHex u ++ "\"".toList

/-- The quoted values of an array, and the bracket behind it. -/
def quoted : List U256 → List Char
  | [] => "]".toList
  | [u] => asQ u ++ "]".toList
  | u :: us => asQ u ++ ", ".toList ++ quoted us

/-- `pair_q`, and the arrays of four values. -/
def arrayQ (us : List U256) : List Char := "[".toList ++ quoted us

/-- `pair_q`. -/
def pairQ (p : G1Point) : List Char := arrayQ [p.x, p.y]

/-- An entry of the section; the key comes with the blanks that align it. -/
def entry (key : String) (value : List Char) : List Char := key.toList ++ " = ".toList ++ value

/-- An entry for each point. -/
def entries (key : String) (points : List G1Point) : List (List Char) :=
  points.zipIdx.map fun p => entry (key ++ toString (p.2 + 1)) (pairQ p.1)

/-- `[{mode}.verifier]`. -/
def header (mode : RunMode) : List Char := "[".toList ++ mode.name ++ ".verifier]".toList

/-- The lines behind the header. -/
def vkLines (vk : VerificationKey) : List (List Char) :=
  ["# Auto-generated by key_generation: VK values that the UUPS provider will initialize with".toList,
    entry "domain_size" (asHex vk.domainSize),
    entry "num_inputs " (asHex vk.numInputs)] ++
  entries "sigma_comms_" [vk.sigmaComms1, vk.sigmaComms2, vk.sigmaComms3, vk.sigmaComms4,
    vk.sigmaComms5, vk.sigmaComms6] ++
  entries "selector_comms_" [vk.selectorComms1, vk.selectorComms2, vk.selectorComms3,
    vk.selectorComms4, vk.selectorComms5, vk.selectorComms6, vk.selectorComms7, vk.selectorComms8,
    vk.selectorComms9, vk.selectorComms10, vk.selectorComms11, vk.selectorComms12,
    vk.selectorComms13, vk.selectorComms14, vk.selectorComms15, vk.selectorComms16,
    vk.selectorComms17, vk.selectorComms18] ++
  [entry "k1" (asQ vk.k1), entry "k2" (asQ vk.k2), entry "k3" (asQ vk.k3), entry "k4" (asQ vk.k4),
    entry "k5" (asQ vk.k5), entry "k6" (asQ vk.k6),
    entry "range_table_comm    " (pairQ vk.rangeTableComm),
    entry "key_table_comm      " (pairQ vk.keyTableComm),
    entry "table_dom_sep_comm  " (pairQ vk.tableDomSepComm),
    entry "q_dom_sep_comm      " (pairQ vk.qDomSepComm),
    entry "size_inv     " (asQ vk.sizeInv), entry "group_gen    " (asQ vk.groupGen),
    entry "group_gen_inv" (asQ vk.groupGenInv), entry "open_key_g" (pairQ vk.openKeyG),
    entry "h" (arrayQ [vk.h.x0, vk.h.x1, vk.h.y0, vk.h.y1]),
    entry "beta_h" (arrayQ [vk.betaH.x0, vk.betaH.x1, vk.betaH.y0, vk.betaH.y1]),
    []]

/-- `block`. -/
def vkBlock (mode : RunMode) (vk : VerificationKey) : List Char :=
  terminated (header mode :: vkLines vk)

/-! ### Characters -/

/-- There is neither a line end nor the first half of one in the text. -/
def Solid (l : List Char) : Prop := ∀ c ∈ l, c ≠ '\n' ∧ c ≠ '\r'

instance decidableSolid (l : List Char) : Decidable (Solid l) := List.decidableBAll _ l

theorem Solid.append {l m : List Char} (hl : Solid l) (hm : Solid m) : Solid (l ++ m) :=
  List.forall_mem_append.2 ⟨hl, hm⟩

theorem Solid.oneLine {l : List Char} (h : Solid l) : OneLine l := fun hmem => (h _ hmem).1 rfl

theorem solid_toDigits {b : ℕ} (hb : 1 < b) (hb' : b ≤ 16) (n : ℕ) : Solid (Nat.toDigits b n) := by
  have hdigit : ∀ d < 16, Nat.digitChar d ≠ '\n' ∧ Nat.digitChar d ≠ '\r' := by decide
  induction n using Nat.strong_induction_on with
  | _ n ih =>
    have hmod : n % b < b := Nat.mod_lt n (by omega)
    rw [Nat.toDigits_eq_if hb]
    split_ifs with hn
    · exact List.forall_mem_singleton.2 (hdigit n (by omega))
    · exact (ih (n / b) (Nat.div_lt_self (by omega) hb)).append
        (List.forall_mem_singleton.2 (hdigit _ (by omega)))

theorem solid_asQ (u : U256) : Solid (asQ u) :=
  Solid.append (.append (by decide) (.append (by decide) (solid_toDigits (by decide) le_rfl _)))
    (by decide)

theorem solid_arrayQ (us : List U256) : Solid (arrayQ us) := by
  refine Solid.append (by decide) ?_
  induction us with
  | nil => decide
  | cons u us ih =>
    cases us with
    | nil => exact (solid_asQ u).append (by decide)
    | cons u' us => exact ((solid_asQ u).append (by decide)).append ih

/-! ### Lines -/

/-- A character with which neither a space nor the header of a section begins. -/
def isOrdinary (c : Char) : Bool := !isSpace c && c != '['

/-- A line that is not empty and begins like an entry. -/
def BeginsOrdinary (l : List Char) : Prop := l.head?.any isOrdinary = true

instance decidableBeginsOrdinary (l : List Char) : Decidable (BeginsOrdinary l) :=
  inferInstanceAs (Decidable (_ = _))

/-- A line of the section that is not its header. -/
structure IsEntry (l : List Char) : Prop where
  solid : Solid l
  begins : l = [] ∨ BeginsOrdinary l

theorem isEntry_entry {key : String} {value : List Char} (hkey : Solid key.toList)
    (hbegins : BeginsOrdinary key.toList) (hvalue : Solid value) : IsEntry (entry key value) := by
  refine ⟨(hkey.append (by decide)).append hvalue, Or.inr ?_⟩
  rw [BeginsOrdinary] at hbegins ⊢
  cases hlist : key.toList with
  | nil =>
    rw [hlist] at hbegins
    cases hbegins
  | cons c l =>
    rw [hlist] at hbegins
    rw [entry, hlist]
    exact hbegins

theorem isEntry_of_mem_entries {key : String} {points : List G1Point} {l : List Char}
    (hkey : Solid key.toList) (hbegins : BeginsOrdinary key.toList) (hl : l ∈ entries key points) :
    IsEntry l := by
  obtain ⟨⟨p, i⟩, -, rfl⟩ := List.mem_map.1 hl
  have hdigits : (toString (i + 1)).toList = Nat.toDigits 10 (i + 1) := Nat.toList_repr
  refine isEntry_entry ?_ ?_ (solid_arrayQ _)
  · rw [String.toList_append, hdigits]
    exact hkey.append (solid_toDigits (by decide) (by decide) _)
  · rw [BeginsOrdinary, String.toList_append]
    cases hlist : key.toList with
    | nil =>
      rw [BeginsOrdinary, hlist] at hbegins
      cases hbegins
    | cons c l =>
      rw [BeginsOrdinary, hlist] at hbegins
      exact hbegins

/-- **Behind the header are entries only.** -/
theorem isEntry_of_mem_vkLines {vk : VerificationKey} : ∀ l ∈ vkLines vk, IsEntry l := by
  have hpair (p : G1Point) : Solid (pairQ p) := solid_arrayQ _
  have hhex (u : U256) : Solid (asHex u) :=
    Solid.append (by decide) (solid_toDigits (by decide) le_rfl _)
  have hlast : ∀ l ∈ [[]], IsEntry l := List.forall_mem_singleton.2 ⟨by decide, Or.inl rfl⟩
  rw [vkLines]
  refine List.forall_mem_append.2 ⟨List.forall_mem_append.2 ⟨List.forall_mem_append.2 ⟨?_,
    fun l => isEntry_of_mem_entries (by decide) (by decide)⟩,
    fun l => isEntry_of_mem_entries (by decide) (by decide)⟩, ?_⟩
  · refine List.forall_mem_cons.2 ⟨⟨by decide, Or.inr (by decide)⟩, List.forall_mem_cons.2
      ⟨isEntry_entry (by decide) (by decide) (hhex _), List.forall_mem_singleton.2 ?_⟩⟩
    exact isEntry_entry (by decide) (by decide) (hhex _)
  · -- sixteen entries, with one value or with several
    iterate 16
      refine List.forall_mem_cons.2 ⟨?_, ?_⟩
      · first
        | exact isEntry_entry (by decide) (by decide) (solid_asQ _)
        | exact isEntry_entry (by decide) (by decide) (solid_arrayQ _)
    exact hlast

end Deployer

end Nightfall
