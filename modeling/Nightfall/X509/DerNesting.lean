import Nightfall.X509.DerForest
import Mathlib.Data.List.TakeWhile

/-!
# What the walk accepts

The walk compares the offset with the ends of the open elements, and doesn't check that an element
ends before they do, that none is open at the end, or that the length octets fit into a word.  The
elements that it returns are properly nested exactly when the octets encode a forest
(`properly_nested_iff`).
-/

namespace Nightfall

namespace X509

namespace Der

open Evm Tlv

/-! ### Properly nested elements -/

/-- Where the content of an element starts. -/
def DecodedTlv.contentStart (t : DecodedTlv) : ℕ := t.start + t.headerLength

/-- Where an element ends. -/
def DecodedTlv.stop (t : DecodedTlv) : ℕ := t.start + t.headerLength + t.length

/-- The octets of an element that encode its length. -/
def DecodedTlv.lengthOctets (t : DecodedTlv) : Bytes := (t.octets.take t.headerLength).drop 1

/-- An element lies wholly inside the content of another one. -/
def Inside (t u : DecodedTlv) : Prop := u.contentStart ≤ t.start ∧ t.stop ≤ u.stop

instance decidableInside (t u : DecodedTlv) : Decidable (Inside t u) :=
  inferInstanceAs (Decidable (u.contentStart ≤ t.start ∧ t.stop ≤ u.stop))

/-- The children of an element, among the elements after it: those one deeper, before the next one
that isn't deeper. -/
def children (t : DecodedTlv) (after : List DecodedTlv) : List DecodedTlv :=
  (after.takeWhile fun u => t.depth < u.depth).filter fun u => u.depth = t.depth + 1

/-- The elements of an array that were found; the other entries have no octets. -/
def found (tlvs : List DecodedTlv) : List DecodedTlv := tlvs.filter fun t => t.octets ≠ []

/-- Elements are properly nested and cover the input. -/
structure ProperlyNested (input : Bytes) (tlvs : List DecodedTlv) : Prop where
  /-- A child lies wholly inside its parent's content. -/
  inside : ∀ before t after, tlvs = before ++ t :: after → ∀ u ∈ children t after, Inside u t
  /-- The content of a constructed element is that of its children. -/
  content_eq : ∀ before t after, tlvs = before ++ t :: after → t.tag.isConstructed = true →
    t.value = (children t after).flatMap (·.octets)
  /-- The depth is the number of enclosing elements. -/
  depth_eq : ∀ t ∈ tlvs, t.depth = tlvs.countP fun u => Inside t u
  /-- The content has the length that the length octets encode. -/
  length_eq : ∀ t ∈ tlvs, contentLength t.lengthOctets = some t.length
  /-- The elements at depth 0 cover the input. -/
  covers : (tlvs.filter fun t => t.depth = 0).flatMap (·.octets) = input

/-- Elements behind the children, which aren't deeper, don't matter. -/
theorem children_append {t : DecodedTlv} {after rest : List DecodedTlv}
    (h : ∀ u us, rest = u :: us → ¬ t.depth < u.depth) :
    children t (after ++ rest) = children t after := by
  have hrest : rest.takeWhile (fun u => t.depth < u.depth) = [] := by
    cases rest with
    | nil => rfl
    | cons u us => rw [List.takeWhile_cons_of_neg (by simpa using h u us rfl)]
  rw [children, children, List.takeWhile_append]
  split_ifs with hall
  · rw [hrest, List.append_nil, List.IsPrefix.eq_of_length (List.takeWhile_prefix _) hall]
  · rfl

/-! ### Forests are properly nested -/

section

variable {start depth : ℕ} {ts : Forest} {t : DecodedTlv}

theorem contentStart_element (tag : BitVec 8) (length content : Bytes) :
    (element start depth tag length content).contentStart = start + (1 + length.length) := rfl

theorem stop_element (tag : BitVec 8) (length content : Bytes) :
    (element start depth tag length content).stop =
      start + (1 + length.length) + content.length := rfl

theorem lengthOctets_element (tag : BitVec 8) (length content : Bytes) :
    (element start depth tag length content).lengthOctets = length := by
  rw [DecodedTlv.lengthOctets, element, Nat.add_comm 1, List.take_succ_cons, List.drop_succ_cons,
    List.drop_zero, List.take_left]

/-- The elements of a forest lie between its ends. -/
structure Within (start stop depth : ℕ) (t : DecodedTlv) : Prop where
  start_le : start ≤ t.start
  start_lt : t.start < t.contentStart
  contentStart_le : t.contentStart ≤ t.stop
  stop_le : t.stop ≤ stop
  depth_le : depth ≤ t.depth

theorem Within.mono {stop start' stop' depth' : ℕ} (h : Within start stop depth t)
    (hstart : start' ≤ start) (hstop : stop ≤ stop') (hdepth : depth' ≤ depth) :
    Within start' stop' depth' t :=
  ⟨hstart.trans h.start_le, h.start_lt, h.contentStart_le, h.stop_le.trans hstop,
    hdepth.trans h.depth_le⟩

theorem within_of_mem_preorder (h : t ∈ preorder start depth ts) :
    Within start (start + ts.encode.length) depth t := by
  induction ts generalizing start depth with
  | nil => exact absurd h List.not_mem_nil
  | primitive tag length content ts ih =>
    rw [Forest.encode, List.length_cons, List.length_append, List.length_append]
    rcases List.mem_cons.1 h with rfl | h
    · exact ⟨le_refl _, by rw [contentStart_element]; simp only [element]; omega,
        by rw [contentStart_element, stop_element]; omega, by rw [stop_element]; omega, le_refl _⟩
    · exact (ih h).mono (by omega) (by omega) (le_refl _)
  | constructed tag length children ts ihc ih =>
    rw [Forest.encode, List.length_cons, List.length_append, List.length_append]
    rcases List.mem_cons.1 h with rfl | h
    · exact ⟨le_refl _, by rw [contentStart_element]; simp only [element]; omega,
        by rw [contentStart_element, stop_element]; omega, by rw [stop_element]; omega, le_refl _⟩
    · rcases List.mem_append.1 h with h | h
      · exact (ihc h).mono (by omega) (by omega) (Nat.le_succ _)
      · exact (ih h).mono (by omega) (by omega) (le_refl _)

theorem length_eq_of_mem_preorder (hwf : ts.WellFormed) (h : t ∈ preorder start depth ts) :
    contentLength t.lengthOctets = some t.length := by
  induction ts generalizing start depth with
  | nil => exact absurd h List.not_mem_nil
  | primitive tag length content ts ih =>
    rcases List.mem_cons.1 h with rfl | h
    · rw [lengthOctets_element]
      exact hwf.2.2.1
    · exact ih hwf.2.2.2 h
  | constructed tag length children ts ihc ih =>
    rcases List.mem_cons.1 h with rfl | h
    · rw [lengthOctets_element]
      exact hwf.2.2.1
    · rcases List.mem_append.1 h with h | h
      · exact ihc hwf.2.2.2.1 h
      · exact ih hwf.2.2.2.2 h

theorem flatMap_octets_preorder (start depth : ℕ) (ts : Forest) :
    ((preorder start depth ts).filter fun t => t.depth = depth).flatMap (·.octets) =
      ts.encode := by
  induction ts generalizing start depth with
  | nil => rfl
  | primitive tag length content ts ih =>
    rw [preorder, List.filter_cons_of_pos (by simp [element]), List.flatMap_cons, ih]
    simp [element, Forest.encode]
  | constructed tag length children ts ihc ih =>
    have hinside : (preorder (start + (1 + length.length)) (depth + 1) children).filter
        (fun t => t.depth = depth) = [] := by
      rw [List.filter_eq_nil_iff]
      intro t ht
      have hle := (within_of_mem_preorder ht).depth_le
      simp only [decide_eq_true_eq]
      omega
    rw [preorder, List.filter_cons_of_pos (by simp [element]), List.filter_append, hinside,
      List.nil_append, List.flatMap_cons, ih]
    simp [element, Forest.encode]

theorem countP_inside_eq_zero {us : List DecodedTlv}
    (h : ∀ u ∈ us, t.start < u.contentStart ∨ u.stop < t.stop) :
    (us.countP fun u => Inside t u) = 0 := by
  rw [List.countP_eq_zero]
  intro u hu
  rw [decide_eq_true_eq]
  rintro ⟨hstart, hstop⟩
  rcases h u hu with hlt | hlt
  · omega
  · omega

/-- No element encloses one that starts before its content. -/
theorem countP_inside_element {tag : BitVec 8} {length content : Bytes} {us : List DecodedTlv}
    (h : ∀ u ∈ us, start < u.contentStart) :
    ((element start depth tag length content :: us).countP fun u =>
      Inside (element start depth tag length content) u) = 0 := by
  refine countP_inside_eq_zero (List.forall_mem_cons.2 ⟨.inl ?_, fun u hu => .inl (h u hu)⟩)
  rw [contentStart_element]
  exact Nat.lt_add_of_pos_right (by omega)

/-- The depth of an element of a forest is the number of elements around the forest, and of those
around the element inside the forest. -/
theorem depth_eq_of_mem_preorder (h : t ∈ preorder start depth ts) :
    t.depth = depth + (preorder start depth ts).countP fun u => Inside t u := by
  induction ts generalizing start depth with
  | nil => exact absurd h List.not_mem_nil
  | primitive tag length content ts ih =>
    rw [preorder] at h ⊢
    rcases List.mem_cons.1 h with rfl | h
    · refine (congrArg (depth + ·) (countP_inside_element fun u hu => ?_)).symm
      have hu := within_of_mem_preorder hu
      have hule := hu.start_le
      have hult := hu.start_lt
      omega
    · have ht := within_of_mem_preorder h
      have hstart := ht.start_le
      have hlt := ht.start_lt.trans_le ht.contentStart_le
      rw [List.countP_cons_of_neg, ← ih h]
      rw [decide_eq_true_eq]
      rintro ⟨-, hstop⟩
      rw [stop_element] at hstop
      omega
  | constructed tag length children ts ihc ih =>
    rw [preorder] at h ⊢
    rcases List.mem_cons.1 h with rfl | h
    · refine (congrArg (depth + ·) (countP_inside_element fun u hu => ?_)).symm
      rcases List.mem_append.1 hu with hu | hu
      · have hu := within_of_mem_preorder hu
        have hule := hu.start_le
        have hult := hu.start_lt
        omega
      · have hu := within_of_mem_preorder hu
        have hule := hu.start_le
        have hult := hu.start_lt
        omega
    · rcases List.mem_append.1 h with h | h
      · have ht := within_of_mem_preorder h
        have hstart := ht.start_le
        have hstop := ht.stop_le
        have hlt := ht.start_lt.trans_le ht.contentStart_le
        have hlater : ((preorder (start + (1 + length.length) + children.encode.length) depth
            ts).countP fun u => Inside t u) = 0 :=
          countP_inside_eq_zero fun u hu => by
            have hu := within_of_mem_preorder hu
            have hule := hu.start_le
            have hult := hu.start_lt
            omega
        rw [List.countP_cons_of_pos, List.countP_append, hlater, ihc h]
        · omega
        · rw [decide_eq_true_eq]
          exact ⟨hstart, hstop⟩
      · have ht := within_of_mem_preorder h
        have hstart := ht.start_le
        have hlt := ht.start_lt.trans_le ht.contentStart_le
        have hearlier : ((preorder (start + (1 + length.length)) (depth + 1)
            children).countP fun u => Inside t u) = 0 :=
          countP_inside_eq_zero fun u hu => by
            have hule := (within_of_mem_preorder hu).stop_le
            omega
        rw [List.countP_cons_of_neg, List.countP_append, hearlier, Nat.zero_add, ← ih h]
        rw [decide_eq_true_eq]
        rintro ⟨-, hstop⟩
        rw [stop_element] at hstop
        omega

theorem depth_of_preorder_eq_cons {u : DecodedTlv} {us : List DecodedTlv}
    (h : preorder start depth ts = u :: us) : u.depth = depth := by
  cases ts with
  | nil => cases h
  | primitive tag length content ts => rw [← (List.cons.inj h).1, element]
  | constructed tag length children ts => rw [← (List.cons.inj h).1, element]

theorem children_element {tag : BitVec 8} {length content : Bytes} (inner outer : Forest)
    (i o : ℕ) :
    children (element start depth tag length content)
        (preorder i (depth + 1) inner ++ preorder o depth outer) =
      (preorder i (depth + 1) inner).filter fun u => u.depth = depth + 1 := by
  rw [children_append, children, List.takeWhile_eq_self_iff.2]
  · rfl
  · intro u hu
    exact decide_eq_true (within_of_mem_preorder hu).depth_le
  · intro u us hus
    rw [depth_of_preorder_eq_cons hus]
    exact Nat.lt_irrefl _

/-- The children of an element of a forest lie inside it and, if it is constructed, make up its
content. -/
theorem children_of_preorder (hwf : ts.WellFormed) (before after : List DecodedTlv)
    (h : preorder start depth ts = before ++ t :: after) :
    (∀ u ∈ children t after, Inside u t) ∧
      (t.tag.isConstructed = true → t.value = (children t after).flatMap (·.octets)) := by
  induction ts generalizing start depth before after with
  | nil =>
    rw [preorder] at h
    exact absurd h.symm (by simp)
  | primitive tag length content ts ih =>
    rw [preorder] at h
    cases before with
    | nil =>
      obtain ⟨rfl, rfl⟩ := List.cons.inj h
      have hnone := @children_element start depth tag length content .nil ts 0
        (start + (1 + length.length) + content.length)
      rw [preorder, List.nil_append, List.filter_nil] at hnone
      rw [hnone]
      refine ⟨List.forall_mem_nil _, fun hconstructed => ?_⟩
      rw [element, hwf.2.1] at hconstructed
      cases hconstructed
    | cons u before => exact ih hwf.2.2.2 before after (List.cons.inj h).2
  | constructed tag length inner ts ihc ih =>
    obtain ⟨-, -, -, hinner, hts⟩ := hwf
    rw [preorder] at h
    cases before with
    | nil =>
      obtain ⟨rfl, rfl⟩ := List.cons.inj h
      rw [children_element, flatMap_octets_preorder]
      refine ⟨fun u hu => ?_, fun _ => rfl⟩
      have hwithin := within_of_mem_preorder (List.mem_of_mem_filter hu)
      exact ⟨hwithin.start_le, hwithin.stop_le⟩
    | cons u before =>
      rcases List.append_eq_append_iff.1 (List.cons.inj h).2 with
        ⟨between, hbefore, hlater⟩ | ⟨between, hinside, hafter⟩
      · exact ih hts between after hlater
      · cases between with
        | nil => exact ih hts [] after (by rw [List.nil_append]; exact hafter.symm)
        | cons v between =>
          obtain ⟨rfl, htail⟩ := List.cons.inj hafter
          rw [htail, List.append_eq]
          have hdepth := (within_of_mem_preorder 
            (hinside ▸ List.mem_append_right before List.mem_cons_self)).depth_le
          rw [children_append]
          · exact ihc hinner before between hinside
          · intro w ws hw
            rw [depth_of_preorder_eq_cons hw]
            omega

/-- **The elements of a forest are properly nested.** -/
theorem properlyNested_preorder (hwf : ts.WellFormed) (start : ℕ) :
    ProperlyNested ts.encode (preorder start 0 ts) where
  inside before _ after h := (children_of_preorder hwf before after h).1
  content_eq before _ after h := (children_of_preorder hwf before after h).2
  depth_eq _ ht := (depth_eq_of_mem_preorder ht).trans (Nat.zero_add _)
  length_eq _ ht := length_eq_of_mem_preorder hwf ht
  covers := flatMap_octets_preorder start 0 ts

end

/-! ### Properly nested elements are a forest -/

section

variable {derBytes : Bytes} {c c' : Cursor} {t : DecodedTlv} {ts : List DecodedTlv}

theorem Reads.split {us : List DecodedTlv} (h : Reads derBytes c (ts ++ us) c') :
    ∃ d, Reads derBytes c ts d ∧ Reads derBytes d us c' := by
  induction ts generalizing c with
  | nil => exact ⟨c, .nil c, h⟩
  | cons t ts ih =>
    cases h with
    | cons hone hrest =>
      obtain ⟨d, hfirst, hsecond⟩ := ih hrest
      exact ⟨d, .cons hone hfirst, hsecond⟩

/-- The contents of the constructed elements are those of their children. -/
def Exact (ts : List DecodedTlv) : Prop :=
  ∀ before t after, ts = before ++ t :: after → t.tag.isConstructed = true →
    t.value = (children t after).flatMap (·.octets)

theorem Exact.segment {first us rest : List DecodedTlv} (h : Exact (first ++ (us ++ rest)))
    (hdeeper : ∀ u us', rest = u :: us' → ∀ t ∈ us, ¬ t.depth < u.depth) : Exact us := by
  intro before t after hus hconstructed
  have hsplit : first ++ (us ++ rest) = (first ++ before) ++ t :: (after ++ rest) := by
    rw [hus]
    simp
  rw [h _ t _ hsplit hconstructed, children_append]
  intro u us' hrest
  exact hdeeper u us' hrest t (hus ▸ List.mem_append_right before List.mem_cons_self)

/-- The elements that are deeper than one before them, up to the first that isn't. -/
theorem exists_deeper (depth : ℕ) (ts : List DecodedTlv) :
    ∃ run later, ts = run ++ later ∧ run = (ts.takeWhile fun u => depth < u.depth) ∧
      (∀ u ∈ run, depth + 1 ≤ u.depth) ∧ ∀ u us, later = u :: us → u.depth ≤ depth := by
  refine ⟨_, ts.dropWhile fun u => depth < u.depth, List.takeWhile_append_dropWhile.symm, rfl,
    fun u hu => ?_, fun u us hus => ?_⟩
  · have hlt := @List.mem_takeWhile_imp _ (fun u => decide (depth < u.depth)) ts u hu
    exact of_decide_eq_true hlt
  · have hnot := List.head?_dropWhile_not (fun u => decide (depth < u.depth)) ts
    rw [hus] at hnot
    exact Nat.le_of_not_lt (of_decide_eq_false hnot)

/-- The elements of a depth are one of them and those behind its contents. -/
theorem flatMap_octets_filter {depth : ℕ} {run later : List DecodedTlv} (ht : t.depth = depth)
    (hrun : ∀ u ∈ run, depth + 1 ≤ u.depth) :
    ((t :: (run ++ later)).filter fun u => u.depth = depth).flatMap (·.octets) =
      t.octets ++ (later.filter fun u => u.depth = depth).flatMap (·.octets) := by
  have hnone : (run.filter fun u => u.depth = depth) = [] := by
    rw [List.filter_eq_nil_iff]
    intro u hu heq
    have hle := hrun u hu
    have heq := of_decide_eq_true heq
    omega
  rw [List.filter_cons_of_pos (by simpa using ht), List.filter_append, hnone, List.nil_append,
    List.flatMap_cons]

/-- Elements that are read one after the other, none of them outside the first one's depth, are the
elements of a forest if their contents are those of their children. -/
theorem forest_of_exact {depth : ℕ} (h : Reads derBytes c ts c') (hexact : Exact ts)
    (hlength : ∀ t ∈ ts, contentLength t.lengthOctets = some t.length)
    (hdeep : ∀ t ∈ ts, depth ≤ t.depth) (hfirst : ∀ t us, ts = t :: us → t.depth ≤ depth)
    (hchanges : c.depthChangesAt.length = MAX_DEPTH) (hdepth : depth ≤ MAX_DEPTH) :
    ∃ forest : Forest, forest.WellFormed ∧ depth + forest.nesting ≤ MAX_DEPTH ∧
      forest.encode = (ts.filter fun t => t.depth = depth).flatMap (·.octets) := by
  obtain ⟨n, hn⟩ : ∃ n, ts.length ≤ n := ⟨_, le_refl _⟩
  induction n generalizing c c' ts depth with
  | zero =>
    rw [List.eq_nil_of_length_eq_zero (Nat.le_zero.1 hn)]
    exact ⟨.nil, trivial, hdepth, rfl⟩
  | succ n ih =>
    cases h with
    | nil => exact ⟨.nil, trivial, hdepth, rfl⟩
    | @cons _ c₁ _ t ts hone hrest =>
      obtain ⟨tag, length, content, _, _, -, hallowed, -, -, ht⟩ := hone.element_eq
      have htdepth : t.depth = depth :=
        Nat.le_antisymm (hfirst t ts rfl) (hdeep t List.mem_cons_self)
      obtain ⟨hdepth₁, hroom, hchanges₁⟩ := hone.depth_le
      have hcdepth := hone.depth_eq
      -- the elements inside `t`, and those behind them
      obtain ⟨run, later, rfl, hrun, hrundeep, hlaterfirst⟩ := exists_deeper depth ts
      obtain ⟨d, hreadsrun, hreadslater⟩ := hrest.split
      rw [List.length_cons, List.length_append] at hn
      rw [List.forall_mem_cons, List.forall_mem_append] at hlength hdeep
      obtain ⟨behind, hbehindwf, hbehindnesting, hbehind⟩ := ih hreadslater
        (@Exact.segment (t :: run) later [] (by simpa using hexact) (by simp)) hlength.2.2 hdeep.2.2
        hlaterfirst (by rw [hreadsrun.length_changes, hchanges₁, hchanges]) hdepth (by omega)
      rw [flatMap_octets_filter htdepth hrundeep, ← hbehind]
      have hcontent : contentLength length = some content.length := by
        have hlen := hlength.1
        rw [ht, lengthOctets_element] at hlen
        exact hlen
      cases htag : isConstructed tag with
      | false =>
        refine ⟨.primitive tag length content behind, ⟨hallowed, htag, hcontent, hbehindwf⟩,
          hbehindnesting, ?_⟩
        rw [ht]
        simp [element, Forest.encode]
      | true =>
        have hconstructed : t.tag.isConstructed = true := by rw [ht]; exact htag
        have hlt := hroom hconstructed
        rw [if_pos hconstructed] at hdepth₁
        have hrunfirst : ∀ u us, run = u :: us → u.depth ≤ depth + 1 := by
          intro u us hus
          rw [hus] at hreadsrun
          cases hreadsrun with
          | cons hone' _ => exact hone'.depth_eq.trans_le (by omega)
        obtain ⟨inner, hinnerwf, hinnernesting, hinner⟩ := ih hreadsrun
          (@Exact.segment [t] run later (by simpa using hexact)
            (fun u us hus v hv => by
              have hle := hlaterfirst u us hus
              have hge := hrundeep v hv
              omega))
          hlength.2.1 hrundeep hrunfirst (by rw [hchanges₁, hchanges]) (by omega) (by omega)
        have hvalue : inner.encode = content := by
          have hexact' := hexact [] t (run ++ later) rfl hconstructed
          rw [children, htdepth, ← hrun, ← hinner, ht] at hexact'
          exact hexact'.symm
        refine ⟨.constructed tag length inner behind, ⟨hallowed, htag, ?_, hinnerwf, hbehindwf⟩,
          ?_, ?_⟩
        · rw [hvalue]
          exact hcontent
        · rw [Forest.nesting]
          omega
        · rw [ht, Forest.encode, hvalue]
          simp [element]

end

/-! ### Accepted input -/

theorem found_of_reads {derBytes : Bytes} {c c' : Cursor} {ts : List DecodedTlv} (n : ℕ)
    (h : Reads derBytes c ts c') : found (ts ++ List.replicate n .zero) = ts := by
  have hzero : found (List.replicate n .zero) = [] := by
    rw [found, List.filter_eq_nil_iff]
    intro t ht
    rw [List.eq_of_mem_replicate ht]
    exact Bool.false_ne_true
  rw [found, List.filter_append, ← found, ← found, hzero, List.append_nil]
  induction h with
  | nil c => rfl
  | cons hone _ ih =>
    obtain ⟨_, _, _, _, _, -, -, -, -, rfl⟩ := hone.element_eq
    rw [found, List.filter_cons_of_pos (by simp [element]), ← found, ih]

/-- **What the walk accepts is properly nested exactly when it is the encoding of a forest.**
(`hsize`: the size of a byte string is a word.) -/
theorem properly_nested_iff {derBytes : Bytes} {pointer tlvLength : ℕ} {tlvs : List DecodedTlv}
    (hsize : derBytes.length < 2 ^ 256) (h : walkDerTree derBytes pointer tlvLength = .ok tlvs) :
    ProperlyNested (derBytes.drop pointer) (found tlvs) ↔
      ∃ ts : Forest, ts.WellFormed ∧ derBytes.drop pointer = ts.encode := by
  constructor
  · obtain ⟨ts, c', hreads, -, -, -, rfl⟩ := walkDerTree_eq_ok.1 h
    rw [found_of_reads _ hreads]
    intro hnested
    have hfirst : ∀ t us, ts = t :: us → t.depth ≤ 0 := by
      intro t us heq
      rw [heq] at hreads
      cases hreads with
      | cons hone _ => exact hone.depth_eq.le
    obtain ⟨forest, hwf, -, hencode⟩ := forest_of_exact hreads hnested.content_eq
      hnested.length_eq (fun _ _ => Nat.zero_le _) hfirst List.length_replicate (Nat.zero_le _)
    exact ⟨forest, hwf, by rw [hencode, hnested.covers]⟩
  · rintro ⟨forest, hwf, hdrop⟩
    have hlen := congrArg List.length hdrop
    rw [List.length_drop] at hlen
    obtain ⟨hnesting, rfl⟩ := tlvs_of_walkDerTree (by omega) hwf hdrop h
    obtain ⟨c', hreads, -⟩ := reads_encode (by omega) hwf hnesting hdrop
    rw [hdrop, found_of_reads _ hreads]
    exact properlyNested_preorder hwf pointer

theorem properly_nested_iff_sample :
    ProperlyNested (sampleForest.encode.drop 0)
        (found (preorder 0 0 sampleForest ++ [.zero])) ↔
      ∃ ts : Forest, ts.WellFormed ∧ sampleForest.encode.drop 0 = ts.encode :=
  @properly_nested_iff sampleForest.encode 0 6 _ (by decide)
    (walkDerTree_of_encode (by decide) (by decide) (by decide) (by decide) rfl (by decide))

/-- A sequence with three octets of content, in which an integer starts that is longer. -/
theorem overrun_accepted :
    walkDerTree [0x30, 0x03, 0x02, 0x03, 0x01, 0x02, 0x03] 0 2 =
        .ok [element 0 0 0x30 [0x03] [0x02, 0x03, 0x01],
          element 2 1 0x02 [0x03] [0x01, 0x02, 0x03]] ∧
      ¬ ∀ (derBytes : Bytes) (pointer tlvLength : ℕ) (tlvs : List DecodedTlv),
        derBytes.length < 2 ^ 256 → walkDerTree derBytes pointer tlvLength = .ok tlvs →
        ProperlyNested (derBytes.drop pointer) (found tlvs) := by
  have hwalk : walkDerTree [0x30, 0x03, 0x02, 0x03, 0x01, 0x02, 0x03] 0 2 =
      .ok [element 0 0 0x30 [0x03] [0x02, 0x03, 0x01],
        element 2 1 0x02 [0x03] [0x01, 0x02, 0x03]] := by decide +kernel
  refine ⟨hwalk, fun h => ?_⟩
  have hinside := (h _ 0 2 _ (by decide) hwalk).inside [] _ _ rfl
    (element 2 1 0x02 [0x03] [0x01, 0x02, 0x03]) (by decide +kernel)
  exact absurd hinside (by decide)

/-- The length octets of 33 octets denote `2 ^ 256`, and are read as 0. -/
example : walkDerTree (0x04 :: 0xa1 :: 0x01 :: List.replicate 32 0) 0 1 =
    .ok [element 0 0 0x04 (0xa1 :: 0x01 :: List.replicate 32 0) []] := by decide +kernel

end Der

end X509

end Nightfall
