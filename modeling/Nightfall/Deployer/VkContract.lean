import Nightfall.Data.Scan
import Nightfall.Deployer.VkBlock

/-!
# Installing a verification key

`write_vk_to_nightfall_toml` replaces the section of a run mode in the configuration file by the
section of a key, or appends it.  The old section is cut out by two patterns, and the line ends are
converted.

What it should do is said line by line (`installed`), and `EditsOwnSection` that it does so.
-/

namespace Nightfall

namespace Deployer

open Lines Regex Scan Verifier

/-! ### The function -/

/-- `contains("\r\n")`. -/
def hasCrlf (s : List Char) : Bool := decide (['\r', '\n'] <:+: s)

/-- `replace("\r\n", "\n")`. -/
def fromCrlf : List Char → List Char
  | [] => []
  | c :: s =>
    match c, s with
    | '\r', '\n' :: s => '\n' :: fromCrlf s
    | c, s => c :: fromCrlf s

/-- `replace('\n', "\r\n")`. -/
def toCrlf (s : List Char) : List Char := s.flatMap fun c => if c = '\n' then ['\r', '\n'] else [c]

/-- `ends_with('\n')`. -/
def EndsLine (s : List Char) : Prop := s.getLast? = some '\n'

instance decidableEndsLine (s : List Char) : Decidable (EndsLine s) :=
  inferInstanceAs (Decidable (_ = _))

/-- `header_re`, behind the start of the line. -/
def headerAtoms (mode : RunMode) : List Atom :=
  .char '[' :: .star isSpace :: (mode.name.map .char ++ .star isSpace ::
    (".verifier".toList.map .char ++ [.star isSpace, .char ']', .star isSpace]))

/-- `header_re`. -/
def headerRe (mode : RunMode) : List Atom := .lineStart :: headerAtoms mode

/-- `next_table_re`. -/
def nextTableRe : List Atom := [.lineStart, .char '[']

/-- `replace_verifier_block`. -/
def replaceVerifierBlock (full : List Char) (mode : RunMode) (newBlock : List Char) : List Char :=
  let hadCrlf := hasCrlf full
  let s := fromCrlf full
  let out :=
    match find (headerRe mode) none s with
    | some m =>
      -- the next table, or the end of the text
      let rest := ((find nextTableRe none m.after).map Match.tail).getD []
      let out := if m.before ≠ [] ∧ ¬EndsLine m.before then m.before ++ ['\n'] else m.before
      let out := out ++ newBlock
      let out := if EndsLine newBlock then out else out ++ ['\n']
      out ++ rest
    | none =>
      let s := if EndsLine s then s else s ++ ['\n']
      let s := s ++ newBlock
      if EndsLine newBlock then s else s ++ ['\n']
  if hadCrlf then toCrlf out else out

/-- `write_vk_to_nightfall_toml`, from the text of the file to the new text. -/
def writeVk (mode : RunMode) (vk : VerificationKey) (tomlTxt : List Char) : List Char :=
  let hadCrlf := hasCrlf tomlTxt
  let tomlTxt := replaceVerifierBlock tomlTxt mode (vkBlock mode vk)
  if hadCrlf then toCrlf tomlTxt else tomlTxt

/-! ### What it is for -/

/-- A space that does not end the line. -/
def isBlank (c : Char) : Bool := isSpace c && c != '\n'

/-- What is behind the header in a header line of the mode: blanks are allowed wherever they are in
the headers of tables. -/
def headerRest (mode : RunMode) (l : List Char) : Option (List Char) :=
  scan isBlank [['['], mode.name, ['.'], "verifier".toList, [']']] l

/-- The line is the header of the section of the mode. -/
def isHeader (mode : RunMode) (l : List Char) : Bool := (headerRest mode l).isSome

/-- The line is the header of a table. -/
def isTable (l : List Char) : Bool := (l.dropWhile isBlank).head? = some '['

/-- The line end of a text. -/
def lineEnd (s : List Char) : List Char := if hasCrlf s then ['\r', '\n'] else ['\n']

/-- The block in the line ends of a text. -/
def inLineEnds (s block : List Char) : List Char := if hasCrlf s then toCrlf block else block

/-- The text with the section of the mode replaced by a block, or with the block behind it. -/
def installed (mode : RunMode) (block old : List Char) : List Char :=
  let before := (lines old).takeWhile fun l => !isHeader mode l
  match (lines old).dropWhile fun l => !isHeader mode l with
  | [] => (if EndsLine old then old else old ++ lineEnd old) ++ inLineEnds old block
  | _ :: behind =>
    terminated before ++ inLineEnds old block ++ joined (behind.dropWhile fun l => !isTable l)

/-- **Only the section of the mode is edited**: the text is the old one with the new section in the
place of the old one, there is one section of the mode, and the same key is written once. -/
structure EditsOwnSection (mode : RunMode) (vk : VerificationKey) (old : List Char) : Prop where
  installed_eq : writeVk mode vk old = installed mode (vkBlock mode vk) old
  once : (lines (writeVk mode vk old)).countP (isHeader mode) = 1
  again : writeVk mode vk (writeVk mode vk old) = writeVk mode vk old

/-- The texts of which only the section is edited. -/
structure Plain (mode : RunMode) (old : List Char) : Prop where
  /-- The lines end with a line feed alone. -/
  lf : hasCrlf old = false
  /-- There is at most one header of the mode. -/
  atMostOne : (lines old).countP (isHeader mode) ≤ 1
  /-- Up to it, the pattern for the header matches at the lines that are headers: the header is not
  indented, and it is not spread over several lines. -/
  matches_iff : ∀ before l behind, lines old = before ++ l :: behind →
    (∀ b ∈ before, isHeader mode b = false) →
    (rests (headerAtoms mode) (joined (l :: behind)) ≠ [] ↔ isHeader mode l = true)
  /-- There is no bracket behind it on its line. -/
  alone : ∀ l ∈ lines old, ∀ rest, headerRest mode l = some rest →
    (rest.dropWhile isBlank).head? ≠ some '['
  /-- The header of the next table is not indented. -/
  next : ∀ before l behind, lines old = before ++ l :: behind → isHeader mode l = true →
    ∀ t ∈ (behind.dropWhile fun l => !isTable l).head?, t.head? = some '['
  /-- If the section is appended, no carriage return stands alone at the end. -/
  ending : (∀ l ∈ lines old, isHeader mode l = false) → old.getLast? ≠ some '\r'

/-! ### The pattern of the header -/

theorem isSpace_of_isBareKey {c : Char} (h : IsBareKey c) : isSpace c = false := by
  rcases h with h | rfl | rfl
  · have hval : c.toNat = c.val.toNat := rfl
    have hrange : 0x30 ≤ c.toNat ∧ c.toNat ≤ 0x7A := by
      change ((decide ('A'.val ≤ c.val ∧ c.val ≤ 'Z'.val) ||
        (decide ('a'.val ≤ c.val) && decide (c.val ≤ 'z'.val))) ||
        (decide ('0'.val ≤ c.val) && decide (c.val ≤ '9'.val))) = true at h
      simp [UInt32.le_iff_toNat_le] at h
      omega
    simp [isSpace]
    omega
  · decide
  · decide

theorem isWord_name (mode : RunMode) : IsWord isSpace mode.name := by
  obtain ⟨c, name, hc⟩ := List.exists_cons_of_ne_nil mode.ne_nil
  have hbare := mode.bare c (by rw [hc]; exact List.mem_cons_self)
  rw [IsWord, hc]
  simp [isSpace_of_isBareKey hbare]

/-- The words of the pattern behind the opening bracket. -/
def patternWords (mode : RunMode) : List (List Char) := [mode.name, ".verifier".toList, [']']]

/-- **What the pattern of the header takes** at the start of a text. -/
theorem head?_rests_headerAtoms (mode : RunMode) (s : List Char) :
    (rests (headerAtoms mode) s).head? = ((s.dropPrefix? ['[']).bind
      (scan isSpace (patternWords mode))).map (List.dropWhile isSpace) := by
  have hend : Forward [Atom.star isSpace] := forward_star forward_nil
  have hbracket : Forward (Atom.star isSpace :: ([']'].map Atom.char ++ [Atom.star isSpace])) :=
    forward_star (forward_chars hend _)
  have hverifier : Forward (Atom.star isSpace :: (".verifier".toList.map Atom.char ++
      (Atom.star isSpace :: ([']'].map Atom.char ++ [Atom.star isSpace])))) :=
    forward_star (forward_chars hbracket _)
  have hatoms : headerAtoms mode = ['['].map .char ++ (.star isSpace :: (mode.name.map .char ++
      (.star isSpace :: (".verifier".toList.map .char ++
        (.star isSpace :: ([']'].map .char ++ [.star isSpace])))))) := rfl
  rw [hatoms, rests_chars (forward_star (forward_chars hverifier _))]
  cases s.dropPrefix? ['['] with
  | none => rfl
  | some s =>
    -- one step for each word, and one for the spaces behind the last
    rw [Option.map_some, Option.getD_some, head?_rests_star_chars hverifier (isWord_name mode),
      Option.bind_some, patternWords, scan_cons, Option.map_bind]
    congr 1
    funext s
    rw [head?_rests_star_chars hbracket (by decide), Function.comp_apply, scan_cons, Option.map_bind]
    congr 1
    funext s
    rw [head?_rests_star_chars hend (by decide), Function.comp_apply, scan_cons, Option.map_bind]
    congr 1
    funext s
    rw [head?_rests_star, Function.comp_apply, scan_nil, Option.map_some]

end Deployer

end Nightfall
