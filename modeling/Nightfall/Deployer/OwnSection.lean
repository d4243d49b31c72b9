import Nightfall.Deployer.VkContract

/-!
# Which texts keep everything but the section

`editsOwnSection_iff`: installing a key edits only its section exactly where the text is `Plain`.

In a plain text the first match of the pattern for the header is the header line, and behind the
spaces that the pattern takes the next table is the next line that looks like one
(`joined_dropWhile_behind`).  The new text is plain again.  In the other direction the new text is
compared with the one that is wanted: by its line ends, by the number of its lines and headers, and
by its length.
-/

namespace Nightfall

namespace Deployer

open Lines Regex Scan Verifier

variable {mode : RunMode} {vk : VerificationKey} {ls : List (List Char)} {l s t : List Char}

/-! ### Line ends -/

/-- A carriage return stands at the end. -/
def EndsCr (l : List Char) : Prop := l.getLast? = some '\r'

instance decidableEndsCr (l : List Char) : Decidable (EndsCr l) :=
  inferInstanceAs (Decidable (_ = _))

theorem hasCrlf_line (h : OneLine l) (s : List Char) :
    hasCrlf (l ++ '\n' :: s) = (decide (EndsCr l) || hasCrlf s) := by
  rw [hasCrlf, hasCrlf, ← Bool.decide_or, decide_eq_decide]
  induction l with
  | nil => simp [List.infix_cons_iff, EndsCr]
  | cons c l ih =>
    rw [OneLine, List.mem_cons, not_or] at h
    rw [List.cons_append, List.infix_cons_iff, List.cons_prefix_cons, ih h.2]
    cases l with
    | nil => simp [EndsCr, eq_comm]
    | cons d l =>
      have hd : d ≠ '\n' := fun hd => h.2 (by rw [hd]; exact List.mem_cons_self)
      simp [EndsCr, List.cons_prefix_cons, hd.symm]

theorem hasCrlf_terminated_append (h : ∀ l ∈ ls, OneLine l) (s : List Char) :
    hasCrlf (terminated ls ++ s) = false ↔ (∀ l ∈ ls, ¬EndsCr l) ∧ hasCrlf s = false := by
  induction ls with
  | nil => simp
  | cons l ls ih =>
    rw [List.forall_mem_cons] at h ⊢
    rw [terminated_cons, List.append_assoc, List.cons_append, hasCrlf_line h.1, Bool.or_eq_false_iff,
      decide_eq_false_iff_not, ih h.2, and_assoc]

theorem fromCrlf_of_hasCrlf (h : hasCrlf s = false) : fromCrlf s = s := by
  fun_induction fromCrlf with
  | case1 => rfl
  | case2 s ih => exact absurd h (by simp [hasCrlf, List.infix_cons_iff])
  | case3 c s hne ih =>
    rw [hasCrlf, decide_eq_false_iff_not, List.infix_cons_iff, not_or] at h
    rw [ih (decide_eq_false h.2)]

theorem toCrlf_cons (c : Char) (s : List Char) :
    toCrlf (c :: s) = (if c = '\n' then ['\r', '\n'] else [c]) ++ toCrlf s := List.flatMap_cons

/-- Where line ends were converted two times there are two carriage returns before each. -/
theorem endsCr_of_toCrlf_toCrlf {u v : List Char} (h : toCrlf (toCrlf s) = u ++ '\n' :: v) :
    ∃ w, u = w ++ ['\r', '\r'] := by
  induction s generalizing u with
  | nil => simp [toCrlf] at h
  | cons c s ih =>
    have hcr : toCrlf (toCrlf (c :: s)) =
        (if c = '\n' then ['\r', '\r', '\n'] else [c]) ++ toCrlf (toCrlf s) := by
      rw [toCrlf_cons]
      split_ifs with hc
      · rfl
      · rw [List.singleton_append, toCrlf_cons, if_neg hc]
    rw [hcr] at h
    split_ifs at h with hc
    · -- the line end is this one, or it is behind it
      rcases u with _ | ⟨a, _ | ⟨b, _ | ⟨d, u⟩⟩⟩
      · simp at h
      · simp at h
      · obtain ⟨rfl, rfl, -⟩ : '\r' = a ∧ '\r' = b ∧ _ := by simpa using h
        exact ⟨[], rfl⟩
      · obtain ⟨-, -, -, h⟩ : '\r' = a ∧ '\r' = b ∧ '\n' = d ∧ _ := by simpa using h
        obtain ⟨w, rfl⟩ := ih h
        exact ⟨a :: b :: d :: w, rfl⟩
    · cases u with
      | nil => exact absurd (List.cons.inj h).1 hc
      | cons d u =>
        obtain ⟨w, rfl⟩ := ih (List.cons.inj h).2
        exact ⟨d :: w, rfl⟩

/-! ### Kinds of lines -/

theorem isBlank_of_isSpace {c : Char} (h : isSpace c = false) : isBlank c = false := by
  rw [isBlank, h, Bool.false_and]

theorem dropWhile_isSpace (h : OneLine l) : l.dropWhile isSpace = l.dropWhile isBlank := by
  induction l with
  | nil => rfl
  | cons c l ih =>
    rw [OneLine, List.mem_cons, not_or] at h
    have hc : isBlank c = isSpace c := by simp [isBlank, Ne.symm h.1]
    rw [List.dropWhile_cons, List.dropWhile_cons, hc, ih h.2]

/-- The header of a table, at the start of its line. -/
def isFlush (l : List Char) : Bool := l.head? = some '['

theorem isTable_of_isFlush (h : isFlush l = true) : isTable l = true := by
  cases l with
  | nil => cases h
  | cons c l =>
    obtain rfl : c = '[' := by simpa [isFlush] using h
    rfl

theorem isFlush_dropWhile (l : List Char) : isFlush (l.dropWhile isBlank) = isTable l := rfl

/-- The words of a header. -/
def headerWords (mode : RunMode) : List (List Char) :=
  [['['], mode.name, ['.'], "verifier".toList, [']']]

theorem isWord_headerWords : ∀ w ∈ headerWords mode, IsWord isSpace w := by
  rw [headerWords]
  refine List.forall_mem_cons.2 ⟨by decide, List.forall_mem_cons.2 ⟨isWord_name mode, ?_⟩⟩
  decide

theorem isWord_isBlank {w : List Char} (h : IsWord isSpace w) : IsWord isBlank w := by
  obtain ⟨c, v, rfl, hc⟩ := h.exists_cons
  simp [IsWord, isBlank_of_isSpace hc]

theorem isTable_of_isHeader (h : isHeader mode l = true) : isTable l = true := by
  obtain ⟨r, hr⟩ := Option.isSome_iff_exists.1 h
  rw [headerRest, scan_cons, Option.bind_eq_some_iff] at hr
  obtain ⟨m, hm, -⟩ := hr
  rw [dropPrefix?_eq_some] at hm
  rw [isTable, hm]
  rfl

theorem headerRest_header : headerRest mode (header mode) = some [] := by
  have hheader : header mode = (headerWords mode).flatten ++ [] := by
    simp [header, headerWords]
  rw [hheader]
  exact scan_flatten (fun w hw => isWord_isBlank (isWord_headerWords w hw)) []

theorem isHeader_header : isHeader mode (header mode) = true := by
  rw [isHeader, headerRest_header]
  rfl

theorem isTable_of_isEntry (h : IsEntry l) : isTable l = false := by
  rcases h.begins with rfl | hbegins
  · rfl
  · cases l with
    | nil => rfl
    | cons c l =>
      have hc : isSpace c = false ∧ c ≠ '[' := by
        simpa [BeginsOrdinary, isOrdinary] using hbegins
      simp [isTable, isBlank_of_isSpace hc.1, hc.2]

theorem isHeader_of_isTable (h : isTable l = false) : isHeader mode l = false :=
  Bool.eq_false_iff.2 fun hheader => Bool.false_ne_true (h.symm.trans (isTable_of_isHeader hheader))

theorem isTable_of_mem_vkLines : ∀ l ∈ vkLines vk, isTable l = false := fun l hl =>
  isTable_of_isEntry (isEntry_of_mem_vkLines l hl)

theorem solid_header (mode : RunMode) : Solid (header mode) := by
  refine Solid.append (Solid.append (by decide) fun c hc => ?_) (by decide)
  have hspace := isSpace_of_isBareKey (mode.bare c hc)
  constructor <;> rintro rfl <;> exact absurd hspace (by decide)

/-- The lines of a section. -/
def sectionLines (mode : RunMode) (vk : VerificationKey) : List (List Char) :=
  header mode :: vkLines vk

theorem vkBlock_eq : vkBlock mode vk = terminated (sectionLines mode vk) := rfl

theorem solid_of_mem_sectionLines : ∀ l ∈ sectionLines mode vk, Solid l :=
  List.forall_mem_cons.2 ⟨solid_header mode, fun l hl => (isEntry_of_mem_vkLines l hl).solid⟩

theorem countP_sectionLines : (sectionLines mode vk).countP (isHeader mode) = 1 := by
  rw [sectionLines, List.countP_cons_of_pos isHeader_header, List.countP_eq_zero.2 fun l hl => by
    simp [isHeader_of_isTable (isTable_of_mem_vkLines l hl)]]

/-! ### The text that is written -/

/-- The section between lines that end and the lines behind it. -/
def withSection (mode : RunMode) (vk : VerificationKey) (before behind : List (List Char)) :
    List Char :=
  terminated before ++ vkBlock mode vk ++ joined behind

variable {old r : List Char} {before behind tail : List (List Char)}

theorem endsLine_terminated (h : ls ≠ []) : EndsLine (terminated ls) := by
  rw [terminated_eq h, EndsLine, List.getLast?_concat]

/-- The lines of a text, with a line end behind the last one. -/
def endedLines (s : List Char) : List (List Char) :=
  if EndsLine s then (lines s).dropLast else lines s

/-- A text that ends with a line end has an empty last line. -/
theorem lines_of_endsLine (h : EndsLine s) : lines s = (lines s).dropLast ++ [[]] := by
  obtain ⟨u, rfl⟩ := List.getLast?_eq_some_iff.1 h
  have hlines : lines (terminated (lines u) ++ []) = lines u ++ [[]] :=
    lines_terminated_append (fun l hl => oneLine_of_mem_lines hl) []
  rw [List.append_nil, terminated_lines] at hlines
  rw [hlines, List.dropLast_concat]

theorem terminated_endedLines (s : List Char) :
    terminated (endedLines s) = if EndsLine s then s else s ++ ['\n'] := by
  rw [endedLines]
  split_ifs with h
  · have hs := eq_of_lines_eq (lines_of_endsLine h) (List.cons_ne_nil _ _)
    rw [joined_singleton, List.append_nil] at hs
    exact hs.symm
  · exact terminated_lines s

theorem endedLines_subset (s : List Char) : endedLines s ⊆ lines s := by
  rw [endedLines]
  split_ifs
  · exact List.dropLast_subset _
  · exact fun l hl => hl

/-- No line ends with a carriage return, unless it is the last character of the text. -/
theorem noCr_endedLines (hlf : hasCrlf s = false) (hend : s.getLast? ≠ some '\r') :
    ∀ l ∈ endedLines s, ¬EndsCr l := by
  have hone : ∀ l ∈ endedLines s, OneLine l := fun l hl =>
    oneLine_of_mem_lines (endedLines_subset s hl)
  have hterminated := terminated_endedLines s
  split_ifs at hterminated with h
  · rw [← hterminated, ← List.append_nil (terminated _), hasCrlf_terminated_append hone] at hlf
    exact hlf.1
  · intro l hl hcr
    rw [endedLines, if_neg h] at hl
    have hsplit := List.dropLast_concat_getLast (lines_ne_nil s)
    have hs := eq_of_lines_eq hsplit.symm (List.cons_ne_nil _ _)
    rw [joined_singleton] at hs
    rw [hs, hasCrlf_terminated_append fun l hl =>
      oneLine_of_mem_lines ((List.dropLast_subset _) hl)] at hlf
    rw [← hsplit, List.mem_append, List.mem_singleton] at hl
    rcases hl with hl | hl
    · exact hlf.1 l hl hcr
    · refine hend ?_
      rw [hs, ← hl, List.getLast?_append, hcr]
      rfl

/-- The next table is found from its line on. -/
theorem next_table (s : List Char) : ((find nextTableRe none s).map Match.tail).getD [] =
    joined ((lines s).dropWhile fun l => !isFlush l) := by
  have hbracket : Forward [Atom.char '['] := forward_char forward_nil
  have hfind (ls : List (List Char)) :
      ((findLines [.char '['] ls).map fun m => joined m.2.1).getD [] =
        joined (ls.dropWhile fun l => !isFlush l) := by
    induction ls with
    | nil => rfl
    | cons l ls ih =>
      have hhead : (joined (l :: ls)).head? = some '[' ↔ isFlush l = true := by
        rcases eq_or_ne ls [] with rfl | hls
        · simp [isFlush]
        · rw [joined_cons hls]
          cases l <;> simp [isFlush]
      rw [findLines]
      by_cases hl : isFlush l = true
      · rw [List.dropWhile_cons_of_neg (by simp [hl])]
        obtain ⟨u, hu⟩ := List.head?_eq_some_iff.1 (hhead.2 hl)
        rw [hu, rests_char_cons forward_nil, if_pos rfl, rests_nil, ← hu]
        rfl
      · have hnone : rests [.char '['] (joined (l :: ls)) = [] := by
          cases hu : joined (l :: ls) with
          | nil => rfl
          | cons c u =>
            rw [hu] at hhead
            rw [rests_char_cons forward_nil, if_neg fun hc => hl (hhead.1 (by rw [hc]; rfl))]
        rw [hnone, List.head?_nil, List.dropWhile_cons_of_pos (by simp [hl]), Option.map_map]
        exact ih
  have hlines := find_eq hbracket (Or.inl rfl) (fun l hl => oneLine_of_mem_lines hl)
    (lines_ne_nil s)
  rw [joined_lines] at hlines
  rw [nextTableRe, hlines, Option.map_map]
  exact hfind (lines s)

theorem endsLine_vkBlock : EndsLine (vkBlock mode vk) := endsLine_terminated (List.cons_ne_nil _ _)

theorem forward_headerAtoms (mode : RunMode) : Forward (headerAtoms mode) :=
  forward_char (forward_star (forward_chars (forward_star (forward_chars
    (forward_star (forward_char (forward_star forward_nil))) _)) _))

theorem find_headerRe (s : List Char) : find (headerRe mode) none s =
    (findLines (headerAtoms mode) (lines s)).map
      fun m => ⟨terminated m.1, joined m.2.1, m.2.2⟩ := by
  have hlines := find_eq (forward_headerAtoms mode) (Or.inl rfl)
    (fun l hl => oneLine_of_mem_lines hl) (lines_ne_nil s)
  rw [joined_lines] at hlines
  exact hlines

/-- Where the pattern for the header is found the section is written there. -/
theorem writeVk_of_some (vk : VerificationKey) (hlf : hasCrlf old = false)
    (hfind : findLines (headerAtoms mode) (lines old) = some (before, tail, r)) :
    writeVk mode vk old =
      withSection mode vk before ((lines r).dropWhile fun l => !isFlush l) := by
  have hbefore : ¬(terminated before ≠ [] ∧ ¬EndsLine (terminated before)) := by
    rintro ⟨hne, hend⟩
    exact hend (endsLine_terminated fun hnil => hne (by rw [hnil]; rfl))
  simp only [writeVk, replaceVerifierBlock, hlf, fromCrlf_of_hasCrlf hlf, find_headerRe, hfind,
    Option.map_some, if_neg hbefore, if_pos endsLine_vkBlock, next_table, Bool.false_eq_true,
    if_false]
  rfl

/-- Where it is not found the section is written at the end. -/
theorem writeVk_of_none (vk : VerificationKey) (hlf : hasCrlf old = false)
    (hfind : findLines (headerAtoms mode) (lines old) = none) :
    writeVk mode vk old = withSection mode vk (endedLines old) [] := by
  simp only [writeVk, replaceVerifierBlock, hlf, fromCrlf_of_hasCrlf hlf, find_headerRe, hfind,
    Option.map_none, if_pos endsLine_vkBlock, Bool.false_eq_true, if_false, withSection,
    terminated_endedLines, joined_nil, List.append_nil]

/-- There is no header of the mode, or there is a first one. -/
theorem header_cases (mode : RunMode) (old : List Char) :
    (∀ l ∈ lines old, isHeader mode l = false) ∨ ∃ before l behind,
      lines old = before ++ l :: behind ∧ (∀ b ∈ before, isHeader mode b = false) ∧
        isHeader mode l = true := by
  cases hfind : (lines old).find? (isHeader mode) with
  | none => exact Or.inl (by simpa using hfind)
  | some l =>
    obtain ⟨hl, before, behind, hlines, hbefore⟩ := List.find?_eq_some_iff_append.1 hfind
    exact Or.inr ⟨before, l, behind, hlines, by simpa using hbefore, hl⟩

theorem installed_of_none (hlf : hasCrlf old = false)
    (hnone : ∀ l ∈ lines old, isHeader mode l = false) :
    installed mode (vkBlock mode vk) old = withSection mode vk (endedLines old) [] := by
  have hdrop : (lines old).dropWhile (fun l => !isHeader mode l) = [] :=
    List.dropWhile_eq_nil_iff.2 (by simpa using hnone)
  simp [installed, hdrop, inLineEnds, lineEnd, hlf, withSection, terminated_endedLines]

theorem installed_of_header (hlf : hasCrlf old = false) (hlines : lines old = before ++ l :: behind)
    (hbefore : ∀ b ∈ before, isHeader mode b = false) (hl : isHeader mode l = true) :
    installed mode (vkBlock mode vk) old =
      withSection mode vk before (behind.dropWhile fun l => !isTable l) := by
  have hall : ∀ b ∈ before, (!isHeader mode b) = true := by simpa using hbefore
  have hdrop : (lines old).dropWhile (fun l => !isHeader mode l) = l :: behind := by
    rw [hlines, List.dropWhile_append_of_pos hall, List.dropWhile_cons_of_neg (by simp [hl])]
  have htake : (lines old).takeWhile (fun l => !isHeader mode l) = before := by
    rw [hlines, List.takeWhile_append_of_pos hall, List.takeWhile_cons_of_neg (by simp [hl]),
      List.append_nil]
  simp only [installed, hdrop, htake, inLineEnds, hlf, Bool.false_eq_true, if_false]
  rfl

theorem lines_withSection (mode : RunMode) (vk : VerificationKey) (hbefore : ∀ b ∈ before, OneLine b)
    (behind : List (List Char)) :
    lines (withSection mode vk before behind) =
      before ++ sectionLines mode vk ++ lines (joined behind) := by
  rw [withSection, vkBlock_eq, ← terminated_append]
  exact lines_terminated_append (List.forall_mem_append.2 ⟨hbefore, fun l hl =>
    (solid_of_mem_sectionLines l hl).oneLine⟩) _

/-! ### Where the pattern matches -/

theorem rests_headerAtoms_eq_nil : rests (headerAtoms mode) s = [] ↔
    (s.dropPrefix? ['[']).bind (scan isSpace (patternWords mode)) = none := by
  rw [← List.head?_eq_none_iff, head?_rests_headerAtoms, Option.map_eq_none_iff]

theorem patternWords_props : ∀ w ∈ patternWords mode, IsWord isSpace w ∧ '[' ∉ w ∧ '\n' ∉ w := by
  rw [patternWords]
  refine List.forall_mem_cons.2 ⟨⟨isWord_name mode, fun hmem => ?_, fun hmem => ?_⟩, by decide⟩
  · exact absurd (mode.bare _ hmem) (by decide)
  · exact absurd (mode.bare _ hmem) (by decide)

theorem head?_of_match (h : rests (headerAtoms mode) s ≠ []) : s.head? = some '[' := by
  rw [Ne, rests_headerAtoms_eq_nil, Option.bind_eq_none_iff] at h
  cases s with
  | nil => exact absurd (fun m hm => by cases hm) h
  | cons c s =>
    rw [dropPrefix?_singleton] at h
    split_ifs at h with hc
    · rw [hc]
      rfl
    · exact absurd (fun m hm => by cases hm) h

/-- A bracket does not help to match before it. -/
theorem rests_append_bracket (hs : s ≠ []) (t : List Char) :
    rests (headerAtoms mode) (s ++ '[' :: t) = [] ↔ rests (headerAtoms mode) s = [] := by
  have hbracket : isSpace '[' = false := by decide
  rw [rests_headerAtoms_eq_nil, rests_headerAtoms_eq_nil]
  cases s with
  | nil => exact absurd rfl hs
  | cons c s =>
    rw [List.cons_append, dropPrefix?_singleton, dropPrefix?_singleton]
    split_ifs
    · rw [Option.bind_some, Option.bind_some, scan_append_cons hbracket fun w hw => (patternWords_props w hw).2.1, Option.map_eq_none_iff]
    · rfl

/-- A line end at the end does not help either. -/
theorem rests_append_newline (h : rests (headerAtoms mode) s = []) :
    rests (headerAtoms mode) (s ++ ['\n']) = [] := by
  rw [rests_headerAtoms_eq_nil] at h ⊢
  cases s with
  | nil => rfl
  | cons c s =>
    rw [dropPrefix?_singleton] at h
    rw [List.cons_append, dropPrefix?_singleton]
    split_ifs at h ⊢
    · rw [Option.bind_some] at h ⊢
      rw [← Option.not_isSome_iff_eq_none] at h ⊢
      exact fun hsome => h (isSome_scan_of_append_singleton (fun w hw =>
        ⟨(patternWords_props w hw).1, (patternWords_props w hw).2.2⟩) s hsome)
    · rfl

theorem joined_append_empty (l : List Char) (ls : List (List Char)) :
    joined (l :: ls ++ [[]]) = terminated (l :: ls) := joined_append_nil

/-- Before a line with a bracket at its start lines match as they do at the end. -/
theorem noMatch_bracket (htail : (joined tail).head? = some '[') :
    NoMatch (headerAtoms mode) ls tail ↔ NoMatch (headerAtoms mode) ls [[]] := by
  obtain ⟨u, hu⟩ := List.head?_eq_some_iff.1 htail
  have hne : tail ≠ [] := fun hnil => by rw [hnil] at hu; cases hu
  have hiff (l : List Char) (ls : List (List Char)) :
      rests (headerAtoms mode) (joined (l :: ls ++ tail)) = [] ↔
        rests (headerAtoms mode) (joined (l :: ls ++ [[]])) = [] := by
    rw [joined_append hne, hu, joined_append_empty]
    exact rests_append_bracket (by simp [terminated_cons]) u
  exact ⟨.imp fun l ls => (hiff l ls).1, .imp fun l ls => (hiff l ls).2⟩

theorem noMatch_ended (h : NoMatch (headerAtoms mode) ls []) :
    NoMatch (headerAtoms mode) ls [[]] := by
  refine h.imp fun l ls hrests => ?_
  rw [joined_append_empty, terminated_eq (List.cons_ne_nil _ _)]
  rw [List.append_nil] at hrests
  exact rests_append_newline hrests

/-- The words of the pattern are words of a header. -/
theorem scan_headerWords (h : (s.dropPrefix? ['[']).bind (scan isSpace (patternWords mode)) = some r) :
    scan isSpace (headerWords mode) s = some r := by
  obtain ⟨m, hm, h⟩ := Option.bind_eq_some_iff.1 h
  rw [dropPrefix?_eq_some] at hm
  have hbracket : (['['] ++ m).dropWhile isSpace = ['['] ++ m :=
    IsWord.dropWhile_append (by decide) m
  rw [patternWords, scan_cons, Option.bind_eq_some_iff] at h
  obtain ⟨x, hx, h⟩ := h
  rw [scan_cons, Option.bind_eq_some_iff] at h
  obtain ⟨y, hy, h⟩ := h
  -- in the pattern there is no place for blanks behind the dot
  have hdot : x.dropWhile isSpace = ['.'] ++ ("verifier".toList ++ y) := by
    rw [dropPrefix?_eq_some] at hy
    rw [hy]
    rfl
  have hverifier : ("verifier".toList ++ y).dropWhile isSpace = "verifier".toList ++ y :=
    IsWord.dropWhile_append (by decide) y
  rw [headerWords, scan_cons, hm, hbracket, dropPrefix?_eq_some.2 rfl, Option.bind_some, scan_cons,
    hx, Option.bind_some, scan_cons, hdot, dropPrefix?_eq_some.2 rfl, Option.bind_some, scan_cons,
    hverifier, dropPrefix?_eq_some.2 rfl, Option.bind_some, h]

/-- What is behind a match at a header line. -/
theorem eq_of_match {rest : List Char} (hrest : headerRest mode l = some rest)
    (hmatch : (rests (headerAtoms mode) (joined (l :: behind))).head? = some r) :
    r = (joined (rest :: behind)).dropWhile isSpace := by
  obtain ⟨u, hu⟩ := exists_joined_cons behind
  rw [hu] at hmatch ⊢
  rw [head?_rests_headerAtoms, Option.map_eq_some_iff] at hmatch
  obtain ⟨r', hr', rfl⟩ := hmatch
  have hblank : ∀ c, isBlank c = true → isSpace c = true := fun c hc => (Bool.and_eq_true _ _ ▸ hc).1
  have hscan := scan_append hblank isWord_headerWords hrest u
  rw [scan_headerWords hr', Option.some.injEq] at hscan
  rw [hscan]

theorem match_header (mode : RunMode) (behind : List (List Char)) :
    rests (headerAtoms mode) (joined (header mode :: behind)) ≠ [] := by
  obtain ⟨u, hu⟩ := exists_joined_cons behind
  have hheader : header mode ++ u = '[' :: ((patternWords mode).flatten ++ u) := by
    simp [header, patternWords]
  rw [hu, Ne, rests_headerAtoms_eq_nil, hheader, dropPrefix?_singleton, if_pos rfl,
    Option.bind_some, scan_flatten fun w hw => (patternWords_props w hw).1]
  exact Option.some_ne_none _

/-! ### What the spaces behind the header hide -/

theorem dropWhile_isFlush
    (h : ∀ t ∈ (ls.dropWhile fun l => !isTable l).head?, isFlush t = true) :
    (ls.dropWhile fun l => !isFlush l) = ls.dropWhile fun l => !isTable l := by
  induction ls with
  | nil => rfl
  | cons l ls ih =>
    by_cases hl : isTable l = true
    · rw [List.dropWhile_cons_of_neg (by simp [hl])] at h
      have hflush := h l rfl
      rw [List.dropWhile_cons_of_neg (by simp [hflush]), List.dropWhile_cons_of_neg (by simp [hl])]
    · rw [List.dropWhile_cons_of_pos (by simp [hl])] at h
      have hflush := mt isTable_of_isFlush hl
      rw [List.dropWhile_cons_of_pos (by simp [hflush]), List.dropWhile_cons_of_pos (by simp [hl]),
        ih h]

/-- **The next table behind spaces**: if its header is not indented it is the next line that is the
header of a table. -/
theorem joined_dropWhile_behind (hone : ∀ l ∈ ls, OneLine l)
    (h : ∀ t ∈ (ls.dropWhile fun l => !isTable l).head?, isFlush t = true) :
    joined ((lines ((joined ls).dropWhile isSpace)).dropWhile fun l => !isFlush l) =
      joined (ls.dropWhile fun l => !isTable l) := by
  induction ls with
  | nil => rfl
  | cons l ls ih =>
    rw [List.forall_mem_cons] at hone
    obtain ⟨u, hu⟩ := exists_joined_cons ls
    have hlines (l' : List Char) (hl' : OneLine l') : lines (l' ++ u) = l' :: ls := by
      rw [← hu, lines_joined (List.forall_mem_cons.2 ⟨hl', hone.2⟩) (List.cons_ne_nil _ _)]
    by_cases hl : isTable l = true
    · -- the bracket is the first character of the line, so that there are no spaces
      rw [List.dropWhile_cons_of_neg (by simp [hl])] at h ⊢
      have hflush := h l rfl
      obtain ⟨m, rfl⟩ := List.head?_eq_some_iff.1 (of_decide_eq_true hflush)
      have hskip : ('[' :: m ++ u).dropWhile isSpace = '[' :: m ++ u := rfl
      rw [hu, hskip, hlines _ hone.1, List.dropWhile_cons_of_neg (by simp [hflush]), hu]
    · rw [List.dropWhile_cons_of_pos (by simp [hl])] at h ⊢
      rw [hu, List.dropWhile_append]
      split_ifs with hempty
      · -- a line of blanks is skipped with its end
        rw [← ih hone.2 h]
        rcases eq_or_ne ls [] with rfl | hls
        · have hu' : l ++ u = l ++ [] := by rw [← hu, joined_singleton, List.append_nil]
          rw [List.append_cancel_left hu']
          rfl
        · have hu' : l ++ u = l ++ '\n' :: joined ls := by rw [← hu, joined_cons hls]
          rw [List.append_cancel_left hu', List.dropWhile_cons_of_pos (by decide)]
      · have hflush : isFlush (l.dropWhile isSpace) = false := by
          rw [dropWhile_isSpace hone.1, isFlush_dropWhile, Bool.eq_false_iff.2 hl]
        rw [hlines _ fun hmem => hone.1 ((List.dropWhile_sublist _).subset hmem),
          List.dropWhile_cons_of_pos (by simp [hflush]), dropWhile_isFlush h]

/-! ### From a plain text -/

/-- At a header line the old section is replaced. -/
theorem writeVk_of_header {rest : List Char} (hlf : hasCrlf old = false)
    (hfind : findLines (headerAtoms mode) (lines old) = some (before, l :: behind, r))
    (hrest : headerRest mode l = some rest) (halone : isTable rest = false)
    (hnext : ∀ t ∈ (behind.dropWhile fun l => !isTable l).head?, isFlush t = true) :
    writeVk mode vk old = withSection mode vk before (behind.dropWhile fun l => !isTable l) := by
  obtain ⟨hlines, -, hmatch, -⟩ := findLines_eq_some.1 hfind
  have hdrop : ((rest :: behind).dropWhile fun l => !isTable l) =
      behind.dropWhile fun l => !isTable l := List.dropWhile_cons_of_pos (by simp [halone])
  have hone : ∀ m ∈ l :: behind, OneLine m := fun m hm =>
    oneLine_of_mem_lines (by rw [hlines]; exact List.mem_append_right _ hm)
  rw [List.forall_mem_cons] at hone
  have hrestOne : OneLine rest := fun hmem =>
    hone.1 ((suffix_of_scan hrest).subset hmem)
  rw [writeVk_of_some vk hlf hfind, eq_of_match hrest hmatch, withSection, withSection,
    joined_dropWhile_behind (List.forall_mem_cons.2 ⟨hrestOne, hone.2⟩) (by rwa [hdrop]), hdrop]

/-- Lines between which a section can be written again and again. -/
structure Settled (mode : RunMode) (before behind : List (List Char)) : Prop where
  oneLine : ∀ l ∈ before ++ behind, OneLine l
  noHeader : ∀ l ∈ before ++ behind, isHeader mode l = false
  noCr : ∀ l ∈ before, ¬EndsCr l
  lf : hasCrlf (joined behind) = false
  noMatch : NoMatch (headerAtoms mode) before [[]]
  next : ∀ t ∈ behind.head?, isFlush t = true

section

variable (h : Settled mode before behind)

include h

theorem Settled.lines_eq : lines (withSection mode vk before behind) =
    before ++ header mode :: (vkLines vk ++ lines (joined behind)) := by
  rw [lines_withSection mode vk fun b hb => h.oneLine b (List.mem_append_left _ hb), sectionLines,
    List.append_assoc, List.cons_append]

theorem Settled.once : (lines (withSection mode vk before behind)).countP (isHeader mode) = 1 := by
  have hbefore : before.countP (isHeader mode) = 0 :=
    List.countP_eq_zero.2 fun l hl => by simp [h.noHeader l (List.mem_append_left _ hl)]
  have hbehind : (lines (joined behind)).countP (isHeader mode) = 0 := by
    rcases eq_or_ne behind [] with rfl | hne
    · rfl
    · rw [lines_joined (fun l hl => h.oneLine l (List.mem_append_right _ hl)) hne]
      exact List.countP_eq_zero.2 fun l hl => by simp [h.noHeader l (List.mem_append_right _ hl)]
  rw [lines_withSection mode vk fun b hb => h.oneLine b (List.mem_append_left _ hb), List.countP_append,
    List.countP_append, hbefore, countP_sectionLines, hbehind]

theorem Settled.hasCrlf_eq : hasCrlf (withSection mode vk before behind) = false := by
  have hsection (l : List Char) (hl : l ∈ sectionLines mode vk) : ¬EndsCr l := fun hcr =>
    (solid_of_mem_sectionLines l hl '\r' (List.mem_of_getLast? hcr)).2 rfl
  rw [withSection, vkBlock_eq, ← terminated_append, hasCrlf_terminated_append
    (List.forall_mem_append.2 ⟨fun b hb => h.oneLine b (List.mem_append_left _ hb),
      fun l hl => (solid_of_mem_sectionLines l hl).oneLine⟩)]
  exact ⟨List.forall_mem_append.2 ⟨h.noCr, hsection⟩, h.lf⟩

/-- **The section is written again.** -/
theorem Settled.again : writeVk mode vk (withSection mode vk before behind) =
    withSection mode vk before behind := by
  have hmatch := match_header mode (vkLines vk ++ lines (joined behind))
  obtain ⟨r, rs, hr⟩ := List.exists_cons_of_ne_nil hmatch
  have hbracket : (joined (header mode :: (vkLines vk ++ lines (joined behind)))).head? =
      some '[' := by
    obtain ⟨u, hu⟩ := exists_joined_cons (vkLines vk ++ lines (joined behind))
    rw [hu]
    rfl
  have hfind : findLines (headerAtoms mode) (lines (withSection mode vk before behind)) =
      some (before, header mode :: (vkLines vk ++ lines (joined behind)), r) :=
    findLines_eq_some.2 ⟨h.lines_eq, List.cons_ne_nil _ _, by rw [hr]; rfl,
      (noMatch_bracket hbracket).2 h.noMatch⟩
  have hdrop : ((vkLines vk ++ lines (joined behind)).dropWhile fun l => !isTable l) = behind := by
    rw [List.dropWhile_append_of_pos fun l hl => by simp [isTable_of_mem_vkLines l hl]]
    cases behind with
    | nil => rfl
    | cons t behind =>
      have ht := isTable_of_isFlush (h.next t rfl)
      rw [lines_joined (fun l hl => h.oneLine l (List.mem_append_right _ hl)) (List.cons_ne_nil _ _),
        List.dropWhile_cons_of_neg (by simp [ht])]
  rw [writeVk_of_header h.hasCrlf_eq hfind headerRest_header rfl (by rw [hdrop]; exact h.next),
    hdrop]

end

theorem headerRest_of_isHeader (h : isHeader mode l = true) : ∃ rest, headerRest mode l = some rest :=
  Option.isSome_iff_exists.1 h

/-- **A plain text has a settled place for the section**, which is the place of the old one. -/
theorem Plain.exists_settled (vk : VerificationKey) (h : Plain mode old) : ∃ before behind, Settled mode before behind ∧
    writeVk mode vk old = withSection mode vk before behind ∧
    installed mode (vkBlock mode vk) old = withSection mode vk before behind := by
  have hone : ∀ l ∈ lines old, OneLine l := fun l hl => oneLine_of_mem_lines hl
  rcases header_cases mode old with hnone | ⟨before, l, behind, hlines, hbefore, hl⟩
  · -- the section is appended
    have hmatches : NoMatch (headerAtoms mode) (lines old) [] := by
      rw [noMatch_iff]
      intro before l behind hlines
      have hiff := h.matches_iff before l behind hlines fun b hb =>
        hnone b (by rw [hlines]; exact List.mem_append_left _ hb)
      rw [List.append_nil]
      by_contra hmatch
      have hl := hiff.1 hmatch
      rw [hnone l (by rw [hlines]; simp)] at hl
      cases hl
    refine ⟨endedLines old, [], ⟨?_, ?_, ?_, rfl, ?_, by simp⟩,
      writeVk_of_none vk h.lf (findLines_eq_none.2 hmatches), installed_of_none h.lf hnone⟩
    · rw [List.append_nil]
      exact fun l hl => hone l (endedLines_subset old hl)
    · rw [List.append_nil]
      exact fun l hl => hnone l (endedLines_subset old hl)
    · exact noCr_endedLines h.lf (h.ending hnone)
    · rw [endedLines]
      split_ifs with hend
      · rw [lines_of_endsLine hend] at hmatches ⊢
        rw [noMatch_append] at hmatches
        rw [List.dropLast_concat]
        exact hmatches.1
      · exact noMatch_ended hmatches
  · -- the section is replaced
    obtain ⟨rest, hrest⟩ := headerRest_of_isHeader hl
    have hmatch := (h.matches_iff before l behind hlines hbefore).2 hl
    obtain ⟨r, rs, hr⟩ := List.exists_cons_of_ne_nil hmatch
    have hnoMatch : NoMatch (headerAtoms mode) before (l :: behind) := by
      rw [noMatch_iff]
      intro ls₁ l' ls₂ hbefore'
      have hl' := hbefore l' (by rw [hbefore']; simp)
      have hiff := h.matches_iff ls₁ l' (ls₂ ++ l :: behind) (by rw [hlines, hbefore']; simp)
        fun b hb => hbefore b (by rw [hbefore']; exact List.mem_append_left _ hb)
      by_contra hmatch
      rw [hiff.1 hmatch] at hl'
      cases hl'
    have hfind : findLines (headerAtoms mode) (lines old) = some (before, l :: behind, r) :=
      findLines_eq_some.2 ⟨hlines, List.cons_ne_nil _ _, by rw [hr]; rfl, hnoMatch⟩
    have hnext : ∀ t ∈ (behind.dropWhile fun l => !isTable l).head?, isFlush t = true :=
      fun t ht => decide_eq_true (h.next before l behind hlines hl t ht)
    have halone : isTable rest = false :=
      decide_eq_false (h.alone l (by rw [hlines]; simp) rest hrest)
    have hsub : (before ++ behind.dropWhile fun l => !isTable l).Sublist (lines old) := by
      rw [hlines]
      exact (List.Sublist.refl before).append ((List.dropWhile_sublist _).cons l)
    refine ⟨before, _, ⟨fun m hm => hone m (hsub.subset hm), ?_, ?_, ?_,
      (noMatch_bracket (head?_of_match hmatch)).1 hnoMatch, hnext⟩,
      writeVk_of_header h.lf hfind hrest halone hnext, installed_of_header h.lf hlines hbefore hl⟩
    · -- the header is the only one
      have hcount := h.atMostOne
      rw [hlines, List.countP_append, List.countP_cons_of_pos hl] at hcount
      have hbehind : ∀ m ∈ behind, ¬isHeader mode m = true := List.countP_eq_zero.1 (by omega)
      exact List.forall_mem_append.2 ⟨hbefore, fun m hm =>
        Bool.eq_false_iff.2 (hbehind m ((List.dropWhile_sublist _).subset hm))⟩
    · have hlf := h.lf
      rw [eq_of_lines_eq hlines (List.cons_ne_nil _ _), hasCrlf_terminated_append fun b hb =>
        hone b (by rw [hlines]; exact List.mem_append_left _ hb)] at hlf
      exact hlf.1
    · have hlf := h.lf
      have hlines' : lines old = (before ++ l :: behind.takeWhile fun l => !isTable l) ++
          behind.dropWhile fun l => !isTable l := by
        rw [hlines, List.append_assoc, List.cons_append, List.takeWhile_append_dropWhile]
      by_cases hnil : (behind.dropWhile fun l => !isTable l) = []
      · rw [hnil]
        rfl
      · rw [eq_of_lines_eq hlines' hnil, hasCrlf_terminated_append fun b hb =>
          hone b (by rw [hlines']; exact List.mem_append_left _ hb)] at hlf
        exact hlf.2

theorem Plain.editsOwnSection (h : Plain mode old) : EditsOwnSection mode vk old := by
  obtain ⟨before, behind, hsettled, hwrite, hinstalled⟩ := h.exists_settled vk
  exact ⟨hwrite.trans hinstalled.symm, by rw [hwrite]; exact hsettled.once,
    by rw [hwrite]; exact hsettled.again⟩

/-! ### To a plain text -/

theorem exists_toCrlf_of_hasCrlf (mode : RunMode) (vk : VerificationKey) (h : hasCrlf old = true) :
    ∃ s, writeVk mode vk old = toCrlf (toCrlf s) := by
  simp only [writeVk, replaceVerifierBlock, h, if_true]
  exact ⟨_, rfl⟩

theorem header_eq (mode : RunMode) :
    header mode = ('[' :: mode.name ++ ".verifier".toList) ++ [']'] := by
  simp [header]

theorem toCrlf_of_solid (h : Solid l) : toCrlf l = l := by
  induction l with
  | nil => rfl
  | cons c l ih =>
    rw [Solid, List.forall_mem_cons] at h
    rw [toCrlf_cons, if_neg h.1.1, List.singleton_append, ih h.2]

/-- The block keeps its line ends in no text whose line ends were converted two times. -/
theorem vkBlock_not_in_toCrlf (u v : List Char) :
    toCrlf (toCrlf s) ≠ u ++ vkBlock mode vk ++ v := by
  intro h
  have hsplit : u ++ vkBlock mode vk ++ v = (u ++ ('[' :: mode.name ++ ".verifier".toList)) ++ [']'] ++
      '\n' :: (terminated (vkLines vk) ++ v) := by
    rw [vkBlock, terminated_cons, header_eq]
    simp
  obtain ⟨w, hw⟩ := endsCr_of_toCrlf_toCrlf (h.trans hsplit)
  have hlast := List.append_inj_right' (hw.trans (List.append_assoc w ['\r'] ['\r']).symm) rfl
  simp at hlast

theorem toCrlf_vkBlock_not_in_toCrlf (u v : List Char) :
    toCrlf (toCrlf s) ≠ u ++ toCrlf (vkBlock mode vk) ++ v := by
  intro h
  have hblock : toCrlf (vkBlock mode vk) = ('[' :: mode.name ++ ".verifier".toList) ++ [']', '\r'] ++
      '\n' :: toCrlf (terminated (vkLines vk)) := by
    rw [vkBlock, terminated_cons, toCrlf, List.flatMap_append, ← toCrlf,
      toCrlf_of_solid (solid_header mode), header_eq]
    simp [toCrlf]
  have hsplit : u ++ toCrlf (vkBlock mode vk) ++ v =
      (u ++ ('[' :: mode.name ++ ".verifier".toList)) ++ [']', '\r'] ++
        '\n' :: (toCrlf (terminated (vkLines vk)) ++ v) := by
    rw [hblock]
    simp
  obtain ⟨w, hw⟩ := endsCr_of_toCrlf_toCrlf (h.trans hsplit)
  have hlast := List.append_inj_right' hw rfl
  simp at hlast

/-- The section that is wanted stands in the text that is wanted. -/
theorem exists_installed_eq (mode : RunMode) (block old : List Char) :
    ∃ u v, installed mode block old = u ++ inLineEnds old block ++ v := by
  rw [installed]
  split
  · exact ⟨_, [], (List.append_nil _).symm⟩
  · exact ⟨_, _, rfl⟩

theorem EditsOwnSection.lf (h : EditsOwnSection mode vk old) : hasCrlf old = false := by
  by_contra hcrlf
  rw [Bool.not_eq_false] at hcrlf
  obtain ⟨s, hs⟩ := exists_toCrlf_of_hasCrlf mode vk hcrlf
  obtain ⟨u, v, hinstalled⟩ := exists_installed_eq mode (vkBlock mode vk) old
  rw [inLineEnds, if_pos hcrlf] at hinstalled
  exact toCrlf_vkBlock_not_in_toCrlf u v (hs.symm.trans (h.installed_eq.trans hinstalled))

theorem length_joined_dropWhile_le (p : List Char → Bool) (ls : List (List Char)) :
    (joined (ls.dropWhile p)).length ≤ (joined ls).length := by
  induction ls with
  | nil => exact le_rfl
  | cons l ls ih =>
    rw [List.dropWhile_cons]
    split_ifs
    · refine ih.trans ?_
      by_cases hls : ls = []
      · simp [hls]
      · rw [joined_cons hls, List.length_append, List.length_cons]
        omega
    · exact le_rfl

theorem length_joined_le (l : List Char) (ls : List (List Char)) :
    l.length + (joined ls).length ≤ (joined (l :: ls)).length := by
  by_cases hls : ls = []
  · simp [hls]
  · rw [joined_cons hls, List.length_append, List.length_cons]
    omega

theorem length_le_terminated_endedLines (s : List Char) :
    s.length ≤ (terminated (endedLines s)).length := by
  rw [terminated_endedLines]
  split_ifs
  · exact le_rfl
  · rw [List.length_append]
    exact Nat.le_add_right _ _

/-- A match takes at least the bracket. -/
theorem length_lt_of_match (h : (rests (headerAtoms mode) s).head? = some r) :
    r.length < s.length := by
  rw [head?_rests_headerAtoms, Option.map_eq_some_iff] at h
  obtain ⟨r', hr', rfl⟩ := h
  obtain ⟨m, hm, hscan⟩ := Option.bind_eq_some_iff.1 hr'
  rw [dropPrefix?_eq_some] at hm
  have hr := (List.dropWhile_sublist (l := r') isSpace).length_le
  have hm' := (suffix_of_scan hscan).length_le
  rw [hm, List.singleton_append, List.length_cons]
  omega

theorem length_withSection : (withSection mode vk before behind).length =
    (terminated before).length + (vkBlock mode vk).length + (joined behind).length := by
  rw [withSection, List.length_append, List.length_append]

theorem ne_nil_of_isTable (h : isTable l = true) : l ≠ [] := fun hnil => by
  rw [hnil] at h
  cases h

/-- Without a header nothing is found, because a match is removed. -/
theorem EditsOwnSection.noMatch (h : EditsOwnSection mode vk old)
    (hnone : ∀ l ∈ lines old, isHeader mode l = false) :
    findLines (headerAtoms mode) (lines old) = none := by
  rw [Option.eq_none_iff_forall_ne_some]
  rintro ⟨before, tail, r⟩ hfind
  obtain ⟨hlines, hne, hmatch, -⟩ := findLines_eq_some.1 hfind
  have hlength := congrArg List.length ((writeVk_of_some vk h.lf hfind).symm.trans
    (h.installed_eq.trans (installed_of_none h.lf hnone)))
  have hold := congrArg List.length (eq_of_lines_eq hlines hne)
  have hle := length_le_terminated_endedLines old
  have hlt := length_lt_of_match hmatch
  have hdrop := length_joined_dropWhile_le (fun l => !isFlush l) (lines r)
  rw [joined_lines] at hdrop
  rw [length_withSection, length_withSection, joined_nil, List.length_nil] at hlength
  rw [List.length_append] at hold
  omega

/-- Two places in a list: they are the same one, or each place stands on one side of the other. -/
theorem splits_cases {α : Type} {before before' behind behind' : List α} {a a' : α}
    (h : before ++ a :: behind = before' ++ a' :: behind') :
    (before = before' ∧ a = a' ∧ behind = behind') ∨
      (∃ between, before' = before ++ a :: between ∧ behind = between ++ a' :: behind') ∨
      ∃ between, before = before' ++ a' :: between ∧ behind' = between ++ a :: behind := by
  rcases List.append_eq_append_iff.1 h with ⟨c, hc, htail⟩ | ⟨c, hc, htail⟩
  · cases c with
    | nil =>
      obtain ⟨rfl, rfl⟩ := List.cons.inj htail
      exact .inl ⟨by rw [hc, List.append_nil], rfl, rfl⟩
    | cons x c =>
      obtain ⟨rfl, hbehind⟩ := List.cons.inj htail
      exact .inr (.inl ⟨c, hc, hbehind⟩)
  · cases c with
    | nil =>
      obtain ⟨rfl, rfl⟩ := List.cons.inj htail
      exact .inl ⟨by rw [hc, List.append_nil], rfl, rfl⟩
    | cons x c =>
      obtain ⟨rfl, hbehind⟩ := List.cons.inj htail
      exact .inr (.inr ⟨c, hc, hbehind⟩)

/-- **With a header the first one is found**, because otherwise it stays in the text. -/
theorem EditsOwnSection.exists_match (h : EditsOwnSection mode vk old)
    (hlines : lines old = before ++ l :: behind) (hbefore : ∀ b ∈ before, isHeader mode b = false)
    (hl : isHeader mode l = true) :
    ∃ r, findLines (headerAtoms mode) (lines old) = some (before, l :: behind, r) := by
  have hinstalled := h.installed_eq.trans (installed_of_header h.lf hlines hbefore hl)
  have hone : ∀ m ∈ lines old, OneLine m := fun m hm => oneLine_of_mem_lines hm
  cases hfind : findLines (headerAtoms mode) (lines old) with
  | none =>
    -- the text is longer than the one that is wanted
    have hlength := congrArg List.length ((writeVk_of_none vk h.lf hfind).symm.trans
      hinstalled)
    have hold := congrArg List.length (eq_of_lines_eq hlines (List.cons_ne_nil _ _))
    have hle := length_le_terminated_endedLines old
    have hdrop := length_joined_dropWhile_le (fun l => !isTable l) behind
    have hcons := length_joined_le l behind
    have hpos := List.length_pos_iff.2 (ne_nil_of_isTable (isTable_of_isHeader hl))
    rw [length_withSection, length_withSection, joined_nil, List.length_nil] at hlength
    rw [List.length_append] at hold
    omega
  | some m =>
    obtain ⟨before', tail, r⟩ := m
    obtain ⟨hlines', hne, hmatch, hnoMatch⟩ := findLines_eq_some.1 hfind
    have hwrite := writeVk_of_some vk h.lf hfind
    have hlinesWrite := lines_withSection mode vk
      (fun b hb => hone b (by rw [hlines']; exact List.mem_append_left _ hb))
      ((lines r).dropWhile fun l => !isFlush l)
    refine ⟨r, ?_⟩
    obtain ⟨l', behind', rfl⟩ := List.exists_cons_of_ne_nil hne
    rcases splits_cases (hlines'.symm.trans hlines) with
      ⟨rfl, rfl, rfl⟩ | ⟨between, ha, htail⟩ | ⟨between, hc, htail⟩
    · rfl
    · -- the new header is at a line without one
      have hlinesInstalled := lines_withSection mode vk
        (fun b hb => hone b (by rw [hlines]; exact List.mem_append_left _ hb))
        (behind.dropWhile fun l => !isTable l)
      rw [← hinstalled, hwrite, hlinesWrite, ha, List.append_assoc, List.append_assoc,
        List.append_assoc, List.append_cancel_left_eq] at hlinesInstalled
      have hx : header mode = l' := (List.cons.inj hlinesInstalled).1
      have hxHeader := hbefore l' (by rw [ha]; simp)
      rw [← hx, isHeader_header] at hxHeader
      cases hxHeader
    · -- the old header is still there
      have honce := h.once
      rw [hwrite, hlinesWrite, hc, List.countP_append, List.countP_append, List.countP_append,
        List.countP_cons_of_pos hl, countP_sectionLines] at honce
      omega

theorem EditsOwnSection.countP_le (h : EditsOwnSection mode vk old) :
    (lines old).countP (isHeader mode) ≤ 1 := by
  rcases header_cases mode old with hnone | ⟨before, l, behind, hlines, hbefore, hl⟩
  · rw [List.countP_eq_zero.2 fun l hl => by simp [hnone l hl]]
    exact Nat.zero_le 1
  · have honce := h.once
    have hone : ∀ m ∈ lines old, OneLine m := fun m hm => oneLine_of_mem_lines hm
    rw [h.installed_eq, installed_of_header h.lf hlines hbefore hl, lines_withSection mode vk
      (fun b hb => hone b (by rw [hlines]; exact List.mem_append_left _ hb)), List.countP_append,
      List.countP_append, countP_sectionLines] at honce
    -- what is removed ends before the next table
    have htake : (behind.takeWhile fun l => !isTable l).countP (isHeader mode) = 0 :=
      List.countP_eq_zero.2 fun m hm => by
        have hm' := List.mem_takeWhile_imp hm
        simp [isHeader_of_isTable (Bool.not_eq_true' _ ▸ hm')]
    have hdrop : (behind.dropWhile fun l => !isTable l).countP (isHeader mode) = 0 := by
      by_cases hnil : (behind.dropWhile fun l => !isTable l) = []
      · rw [hnil]
        rfl
      · rw [lines_joined (fun m hm => hone m (by
          rw [hlines]
          exact List.mem_append_right _ (List.mem_cons_of_mem _
            ((List.dropWhile_sublist _).subset hm)))) hnil] at honce
        omega
    have hbefore' : before.countP (isHeader mode) = 0 :=
      List.countP_eq_zero.2 fun b hb => by simp [hbefore b hb]
    rw [hlines, List.countP_append, List.countP_cons_of_pos hl, hbefore',
      ← List.takeWhile_append_dropWhile (p := fun l => !isTable l) (l := behind),
      List.countP_append, htake, hdrop]

/-- What is behind the section, as it is written and as it is wanted. -/
theorem EditsOwnSection.behind_eq {rest : List Char} (h : EditsOwnSection mode vk old)
    (hlines : lines old = before ++ l :: behind) (hbefore : ∀ b ∈ before, isHeader mode b = false)
    (hrest : headerRest mode l = some rest) :
    joined ((lines ((joined (rest :: behind)).dropWhile isSpace)).dropWhile fun l => !isFlush l) =
      joined (behind.dropWhile fun l => !isTable l) := by
  have hl : isHeader mode l = true := by rw [isHeader, hrest]; rfl
  obtain ⟨r, hfind⟩ := h.exists_match hlines hbefore hl
  obtain ⟨-, -, hmatch, -⟩ := findLines_eq_some.1 hfind
  have hwrite := (writeVk_of_some vk h.lf hfind).symm.trans
    (h.installed_eq.trans (installed_of_header h.lf hlines hbefore hl))
  rw [withSection, withSection, List.append_cancel_left_eq, eq_of_match hrest hmatch] at hwrite
  exact hwrite

theorem head?_joined_cons (h : l ≠ []) : (joined (l :: ls)).head? = l.head? := by
  obtain ⟨u, hu⟩ := exists_joined_cons ls
  obtain ⟨c, m, rfl⟩ := List.exists_cons_of_ne_nil h
  rw [hu]
  rfl

theorem noHeader_of_countP_le (hcount : (before ++ l :: behind).countP (isHeader mode) ≤ 1)
    (hl : isHeader mode l = true) : ∀ b ∈ before, isHeader mode b = false := by
  rw [List.countP_append, List.countP_cons_of_pos hl] at hcount
  have hbefore : ∀ b ∈ before, ¬isHeader mode b = true := List.countP_eq_zero.1 (by omega)
  simpa using hbefore

/-- Up to the header the pattern matches where a line is a header. -/
theorem EditsOwnSection.matches_iff (h : EditsOwnSection mode vk old)
    (hlines : lines old = before ++ l :: behind) (hbefore : ∀ b ∈ before, isHeader mode b = false) :
    rests (headerAtoms mode) (joined (l :: behind)) ≠ [] ↔ isHeader mode l = true := by
  rcases header_cases mode old with hnone | ⟨before', l', behind', hlines', hbefore', hl'⟩
  · have hnoMatch := findLines_eq_none.1 (h.noMatch hnone)
    have hrests := noMatch_iff.1 hnoMatch before l behind hlines
    rw [List.append_nil] at hrests
    simp [hrests, hnone l (by rw [hlines]; simp)]
  · obtain ⟨r, hfind⟩ := h.exists_match hlines' hbefore' hl'
    obtain ⟨-, -, hmatch, hnoMatch⟩ := findLines_eq_some.1 hfind
    rcases splits_cases (hlines'.symm.trans hlines) with
      ⟨rfl, rfl, rfl⟩ | ⟨between, ha, -⟩ | ⟨between, hc, htail⟩
    · refine iff_of_true (fun hnil => ?_) hl'
      rw [hnil] at hmatch
      cases hmatch
    · -- the lines before do not contain the header
      have hx := hbefore l' (by rw [ha]; simp)
      rw [hl'] at hx
      cases hx
    · have hrests := noMatch_iff.1 hnoMatch before l between hc
      rw [List.cons_append, ← htail] at hrests
      simp [hrests, hbefore' l (by rw [hc]; simp)]

/-- A bracket behind the header would keep the rest of its line in the text. -/
theorem EditsOwnSection.alone {rest : List Char} (h : EditsOwnSection mode vk old)
    (hl : l ∈ lines old) (hrest : headerRest mode l = some rest) :
    (rest.dropWhile isBlank).head? ≠ some '[' := by
  intro hbracket
  obtain ⟨before, behind, hlines⟩ := List.append_of_mem hl
  have hcount := h.countP_le
  rw [hlines] at hcount
  have hbefore := noHeader_of_countP_le hcount (by rw [isHeader, hrest]; rfl)
  have hbehind := h.behind_eq hlines hbefore hrest
  have hrestOne : OneLine rest := fun hmem =>
    oneLine_of_mem_lines hl ((suffix_of_scan hrest).subset hmem)
  obtain ⟨u, hu⟩ := exists_joined_cons behind
  obtain ⟨m, hm⟩ := List.head?_eq_some_iff.1 hbracket
  have hskip : (rest ++ u).dropWhile isSpace = '[' :: m ++ u := by
    rw [List.dropWhile_append, dropWhile_isSpace hrestOne, hm]
    rfl
  have hone : OneLine ('[' :: m) := fun hmem => hrestOne ((List.dropWhile_sublist isBlank).subset (by
    rw [hm]
    exact hmem))
  have hlines' : lines ('[' :: m ++ u) = ('[' :: m) :: behind := by
    rw [← hu, lines_joined (List.forall_mem_cons.2 ⟨hone, fun b hb => oneLine_of_mem_lines (by
      rw [hlines]
      exact List.mem_append_right _ (List.mem_cons_of_mem _ hb))⟩) (List.cons_ne_nil _ _)]
  -- then the rest of the line stays, and the text is too long
  rw [hu, hskip, hlines', List.dropWhile_cons_of_neg (by simp [isFlush])] at hbehind
  have hlength := congrArg List.length hbehind
  have hcons := length_joined_le ('[' :: m) behind
  have hdrop := length_joined_dropWhile_le (fun l => !isTable l) behind
  rw [List.length_cons] at hcons
  omega

/-- What is written behind the section begins with the bracket of the next table. -/
theorem EditsOwnSection.next (h : EditsOwnSection mode vk old)
    (hlines : lines old = before ++ l :: behind) (hl : isHeader mode l = true)
    (ht : t ∈ (behind.dropWhile fun l => !isTable l).head?) : t.head? = some '[' := by
  have hcount := h.countP_le
  rw [hlines] at hcount
  obtain ⟨rest, hrest⟩ := headerRest_of_isHeader hl
  have hbehind := h.behind_eq hlines (noHeader_of_countP_le hcount hl) hrest
  have hdropTable := List.head?_dropWhile_not (fun l => !isTable l) behind
  rw [Option.mem_def] at ht
  rw [ht] at hdropTable
  have htable : isTable t = true := by simpa using hdropTable
  obtain ⟨ts, hts⟩ := List.head?_eq_some_iff.1 ht
  have hhead := congrArg List.head? hbehind
  rw [hts, head?_joined_cons (ne_nil_of_isTable htable)] at hhead
  rw [← hhead]
  -- what is written behind the section is nothing, or it begins with a bracket
  have hdropFlush := List.head?_dropWhile_not (fun l => !isFlush l)
    (lines ((joined (rest :: behind)).dropWhile isSpace))
  cases hdrop : (lines ((joined (rest :: behind)).dropWhile isSpace)).dropWhile
      fun l => !isFlush l with
  | nil =>
    rw [hdrop] at hhead
    exact absurd (List.head?_eq_none_iff.1 hhead.symm) (ne_nil_of_isTable htable)
  | cons m ms =>
    rw [hdrop] at hdropFlush
    have hflush : isFlush m = true := by simpa using hdropFlush
    rw [head?_joined_cons (ne_nil_of_isTable (isTable_of_isFlush hflush))]
    exact of_decide_eq_true hflush

/-- A carriage return at the end would have its line ends converted the second time. -/
theorem EditsOwnSection.ending (h : EditsOwnSection mode vk old)
    (hnone : ∀ l ∈ lines old, isHeader mode l = false) : old.getLast? ≠ some '\r' := by
  intro hcr
  have hend : ¬EndsLine old := fun hend => by
    rw [EndsLine, hcr] at hend
    cases hend
  have hwrite := h.installed_eq.trans (installed_of_none h.lf hnone)
  rw [withSection, terminated_endedLines, if_neg hend] at hwrite
  obtain ⟨u, hu⟩ := List.getLast?_eq_some_iff.1 hcr
  have hcrlf : hasCrlf (writeVk mode vk old) = true := by
    rw [hwrite, hu]
    exact decide_eq_true ⟨u, vkBlock mode vk, by simp⟩
  obtain ⟨s, hs⟩ := exists_toCrlf_of_hasCrlf mode vk hcrlf
  exact vkBlock_not_in_toCrlf _ _ (hs.symm.trans (h.again.trans hwrite))

theorem EditsOwnSection.plain (h : EditsOwnSection mode vk old) : Plain mode old where
  lf := h.lf
  atMostOne := h.countP_le
  matches_iff _ _ _ := h.matches_iff
  alone _ hl _ := h.alone hl
  next _ _ _ hlines hl _ := h.next hlines hl
  ending := h.ending

/-- **Installing a key edits only its own section exactly in a plain text**: the lines end with a line
feed, the header of the section stands alone at the start of the one line where the pattern matches
first, and the header of the next table is not indented. -/
theorem editsOwnSection_iff (mode : RunMode) (vk : VerificationKey) (old : List Char) :
    EditsOwnSection mode vk old ↔ Plain mode old :=
  ⟨EditsOwnSection.plain, Plain.editsOwnSection⟩

/-- The mode that is used when none is chosen. -/
def development : RunMode where
  name := "development".toList
  ne_nil := by decide
  bare := by
    have hall : "development".toList.all (fun c => decide (IsBareKey c)) = true := by decide
    simpa using hall

/-- A text with CRLF line ends gets two carriage returns before each line feed. -/
theorem not_editsOwnSection_crlf :
    ¬∃ vk, EditsOwnSection development vk "[log]\r\nlevel = 1\r\n".toList := by
  rintro ⟨vk, h⟩
  have hlf := h.lf
  revert hlf
  decide

end Deployer

end Nightfall
