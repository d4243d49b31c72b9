import Nightfall.X509.DerWalk

/-!
# Walks over forests

On the encoding of a forest the walk reads the elements in preorder, each at its offset and depth
(`preorder`).  The invariant is that the array `depthChangesAt` starts with the ends of the elements
that are open, outermost first, as many as the depth, and that the offsets behind them, which are
never cleared, have been passed (`Tracks`).
-/

namespace Nightfall

namespace X509

namespace Der

open Evm Tlv

/-- The elements of a forest at an offset and a depth: an element comes before those inside it. -/
def preorder (start depth : ℕ) : Forest → List DecodedTlv
  | .nil => []
  | .primitive tag length content rest =>
    element start depth tag length content ::
      preorder (start + (1 + length.length) + content.length) depth rest
  | .constructed tag length children rest =>
    element start depth tag length children.encode ::
      (preorder (start + (1 + length.length)) (depth + 1) children ++
        preorder (start + (1 + length.length) + children.encode.length) depth rest)

theorem length_preorder (start depth : ℕ) (ts : Forest) :
    (preorder start depth ts).length = ts.size := by
  induction ts generalizing start depth with
  | nil => rfl
  | primitive tag length content rest ih => rw [preorder, List.length_cons, ih, Forest.size]
  | constructed tag length children rest ihc ih =>
    rw [preorder, List.length_cons, List.length_append, ihc, ih, Forest.size]

theorem preorder_ne_nil {start depth : ℕ} {ts : Forest} (h : ts ≠ .nil) :
    preorder start depth ts ≠ [] := by
  cases ts with
  | nil => exact absurd rfl h
  | primitive tag length content rest => exact List.cons_ne_nil _ _
  | constructed tag length children rest => exact List.cons_ne_nil _ _

/-! ### The depth -/

/-- The cursor knows the ends of the open elements, outermost first. -/
structure Tracks (ends : List ℕ) (c : Cursor) : Prop where
  depth_eq : c.depth = ends.length
  length_eq : c.depthChangesAt.length = MAX_DEPTH
  /-- The other offsets have been passed. -/
  changes_eq : ∃ stale, c.depthChangesAt = ends ++ stale ∧ ∀ e ∈ stale, e ≤ c.pointer
  sorted : ends.Pairwise (· ≥ ·)
  open_lt : ∀ e ∈ ends, c.pointer < e

theorem tracks_start (pointer : ℕ) : Tracks [] (.start pointer) where
  depth_eq := rfl
  length_eq := rfl
  changes_eq := ⟨List.replicate MAX_DEPTH 0, rfl, fun _ he =>
    (List.eq_of_mem_replicate he).trans_le (Nat.zero_le _)⟩
  sorted := .nil
  open_lt := List.forall_mem_nil _

theorem Tracks.length_le {ends : List ℕ} {c : Cursor} (h : Tracks ends c) :
    ends.length ≤ MAX_DEPTH := by
  obtain ⟨stale, hchanges, -⟩ := h.changes_eq
  rw [← h.length_eq, hchanges, List.length_append]
  exact Nat.le_add_right _ _

theorem filter_append_of_sorted {ends : List ℕ} (h : ends.Pairwise (· ≥ ·)) (p : ℕ) :
    ends = ends.filter (p < ·) ++ ends.filter (¬ p < ·) := by
  induction ends with
  | nil => rfl
  | cons e ends ih =>
    rw [List.pairwise_cons] at h
    by_cases hp : p < e
    · rw [List.filter_cons_of_pos (by simpa using hp), List.filter_cons_of_neg (by simpa using hp),
        List.cons_append, ← ih h.2]
    · have hall : ∀ e' ∈ e :: ends, ¬ p < e' := by
        rw [List.forall_mem_cons]
        refine ⟨hp, fun e' he' => ?_⟩
        have hle := h.1 e' he'
        omega
      rw [List.filter_eq_nil_iff.2 (by simpa using hall), List.nil_append,
        List.filter_eq_self.2 (by simpa using hall)]

theorem count_add_length_filter {ends : List ℕ} {p : ℕ} (h : ∀ e ∈ ends, p ≤ e) :
    (ends.filter (p < ·)).length + ends.count p = ends.length := by
  induction ends with
  | nil => rfl
  | cons e ends ih =>
    rw [List.forall_mem_cons] at h
    have hrest := ih h.2
    by_cases hp : p < e
    · rw [List.filter_cons_of_pos (by simpa using hp), List.count_cons_of_ne (by omega),
        List.length_cons, List.length_cons]
      omega
    · have heq : e = p := by omega
      subst heq
      rw [List.filter_cons_of_neg (by simp), List.count_cons_self, List.length_cons]
      omega

/-- Leaving the elements that end at the offset. -/
theorem leave_eq {c : Cursor} {ends stale : List ℕ} (hdepth : c.depth = ends.length)
    (hlength : c.depthChangesAt.length = MAX_DEPTH) (hchanges : c.depthChangesAt = ends ++ stale)
    (hstale : ∀ e ∈ stale, e < c.pointer) (hsorted : ends.Pairwise (· ≥ ·))
    (hends : ∀ e ∈ ends, c.pointer ≤ e) :
    ∃ c', leave c = .ok c' ∧ c'.pointer = c.pointer ∧
      Tracks (ends.filter (c.pointer < ·)) c' := by
  have hcount : c.depthChangesAt.count c.pointer = ends.count c.pointer := by
    have hpassed : c.pointer ∉ stale := fun hmem => Nat.lt_irrefl _ (hstale _ hmem)
    rw [hchanges, List.count_append, List.count_eq_zero.2 hpassed, Nat.add_zero]
  have hle : c.depthChangesAt.count c.pointer ≤ c.depth := by
    rw [hcount, hdepth]
    exact List.count_le_length
  have hfilter := count_add_length_filter hends
  refine ⟨⟨c.pointer, c.depth - c.depthChangesAt.count c.pointer, c.depthChangesAt⟩,
    leave_eq_ok.2 ⟨foldlM_changes_eq_ok.2 (Nat.sub_add_cancel hle), rfl, rfl⟩, rfl, ?_, hlength, ?_,
    ?_, ?_⟩
  · dsimp only
    rw [hcount, hdepth]
    omega
  · refine ⟨ends.filter (¬ c.pointer < ·) ++ stale, ?_, fun e he => ?_⟩
    · dsimp only
      rw [hchanges, ← List.append_assoc, ← filter_append_of_sorted hsorted]
    · rcases List.mem_append.1 he with he | he
      · have hnot := (List.mem_filter.1 he).2
        exact Nat.le_of_not_lt (of_decide_eq_true hnot)
      · exact (hstale e he).le
  · exact hsorted.filter _
  · intro e he
    exact of_decide_eq_true (List.mem_filter.1 he).2

/-- The ends of the elements that are open inside an element. -/
def openInside (t : DecodedTlv) (ends : List ℕ) : List ℕ :=
  if t.tag.isConstructed then ends ++ [t.next + t.length] else ends

/-- The depth behind an element that ends before all open elements do. -/
theorem enter_leave_eq {c : Cursor} {ends : List ℕ} {t : DecodedTlv} (h : Tracks ends c)
    (hpointer : c.pointer < t.next) (hends : ∀ e ∈ openInside t ends, t.next ≤ e)
    (hsorted : (openInside t ends).Pairwise (· ≥ ·))
    (hdepth : (openInside t ends).length ≤ MAX_DEPTH) :
    ∃ c', (enter t t.next c >>= leave) = .ok c' ∧ c'.pointer = t.next ∧
      Tracks ((openInside t ends).filter (t.next < ·)) c' := by
  obtain ⟨stale, hchanges, hstale⟩ := h.changes_eq
  have hpassed : ∀ e ∈ stale, e < t.next := fun e he => (hstale e he).trans_lt hpointer
  unfold openInside at hends hsorted hdepth ⊢
  rw [enter]
  split_ifs at hends hsorted hdepth ⊢ with hconstructed hroom
  · have hroom' : ends.length < (ends ++ stale).length := by
      rw [← h.depth_eq, ← hchanges]
      exact hroom
    obtain ⟨e, stale', rfl⟩ : ∃ e stale', stale = e :: stale' := by
      cases stale with
      | nil => exact absurd hroom' (by simp)
      | cons e stale' => exact ⟨e, stale', rfl⟩
    have hset : c.depthChangesAt.set c.depth (t.next + t.length) =
        (ends ++ [t.next + t.length]) ++ stale' := by
      rw [hchanges, h.depth_eq]
      simp
    refine @leave_eq ⟨t.next, c.depth + 1, c.depthChangesAt.set c.depth (t.next + t.length)⟩
      (ends ++ [t.next + t.length]) stale' ?_ ?_ hset (List.forall_mem_cons.1 hpassed).2 hsorted
      hends
    · dsimp only
      rw [h.depth_eq, List.length_append, List.length_singleton]
    · dsimp only
      rw [List.length_set, h.length_eq]
  · rw [List.length_append, List.length_singleton, ← h.depth_eq, ← h.length_eq] at hdepth
    exact absurd hdepth hroom
  · exact @leave_eq ⟨t.next, c.depth, c.depthChangesAt⟩ ends stale h.depth_eq h.length_eq hchanges
      hpassed hsorted hends

/-! ### Forests -/

section

variable {derBytes : Bytes}

theorem next_primitive {start depth : ℕ} {tag : BitVec 8} {length content : Bytes}
    (h : isConstructed tag = false) : (element start depth tag length content).next =
      start + (1 + length.length) + content.length := by
  rw [DecodedTlv.next, element, if_neg (by simp [h])]

theorem next_constructed {start depth : ℕ} {tag : BitVec 8} {length content : Bytes}
    (h : isConstructed tag = true) : (element start depth tag length content).next =
      start + (1 + length.length) := by
  rw [DecodedTlv.next, element, if_pos h]

theorem openInside_primitive {start depth : ℕ} {tag : BitVec 8} {length content : Bytes}
    (h : isConstructed tag = false) (ends : List ℕ) :
    openInside (element start depth tag length content) ends = ends := by
  rw [openInside, element, if_neg (by simp [h])]

theorem openInside_constructed {start depth : ℕ} {tag : BitVec 8} {length content : Bytes}
    (h : isConstructed tag = true) (ends : List ℕ) :
    openInside (element start depth tag length content) ends =
      ends ++ [start + (1 + length.length) + content.length] := by
  rw [openInside, next_constructed h, element, if_pos h]

theorem getNextTlv_element {start : ℕ} (depth : ℕ) {tag : BitVec 8}
    {length content rest : Bytes} (hsize : content.length < 2 ^ 256)
    (hdrop : derBytes.drop start = tag :: (length ++ (content ++ rest)))
    (hallowed : Allowed tag) (hlength : contentLength length = some content.length) :
    getNextTlv derBytes start depth = .ok (element start depth tag length content,
      (element start depth tag length content).next) :=
  getNextTlv_eq_ok.2 ⟨tag, length, content, rest, _, hdrop, hallowed, hlength,
    (Nat.mod_eq_of_lt hsize).symm, rfl⟩

theorem readsOne_element {c : Cursor} {ends : List ℕ} {tag : BitVec 8}
    {length content rest : Bytes} (hsize : content.length < 2 ^ 256)
    (hdrop : derBytes.drop c.pointer = tag :: (length ++ (content ++ rest)))
    (hallowed : Allowed tag) (hlength : contentLength length = some content.length)
    (h : Tracks ends c)
    (hends : ∀ e ∈ ends, c.pointer + (1 + length.length) + content.length ≤ e)
    (hdepth : isConstructed tag = true → ends.length < MAX_DEPTH) :
    ∃ c', ReadsOne derBytes c (element c.pointer c.depth tag length content) c' ∧
      c'.pointer = (element c.pointer c.depth tag length content).next ∧
      Tracks ((openInside (element c.pointer c.depth tag length content) ends).filter
        ((element c.pointer c.depth tag length content).next < ·)) c' := by
  have hread := getNextTlv_element c.depth hsize hdrop hallowed hlength
  obtain ⟨t, ht⟩ : ∃ t, t = element c.pointer c.depth tag length content := ⟨_, rfl⟩
  rw [← ht] at hread ⊢
  suffices hleave : ∃ c', (enter t t.next c >>= leave) = .ok c' ∧ c'.pointer = t.next ∧
      Tracks ((openInside t ends).filter (t.next < ·)) c' by
    obtain ⟨c', hc', hpointer, htracks⟩ := hleave
    exact ⟨c', ⟨hread, hc'⟩, hpointer, htracks⟩
  subst ht
  cases htag : isConstructed tag with
  | false =>
    refine enter_leave_eq h ?_ ?_ ?_ ?_
    · rw [next_primitive htag]
      omega
    · rw [next_primitive htag, openInside_primitive htag]
      exact hends
    · rw [openInside_primitive htag]
      exact h.sorted
    · rw [openInside_primitive htag]
      exact h.length_le
  | true =>
    refine enter_leave_eq h ?_ ?_ ?_ ?_
    · rw [next_constructed htag]
      omega
    · rw [next_constructed htag, openInside_constructed htag]
      intro e he
      rcases List.mem_append.1 he with he | he
      · have hle := hends e he
        omega
      · rw [List.mem_singleton.1 he]
        exact Nat.le_add_right _ _
    · rw [openInside_constructed htag, List.pairwise_append]
      refine ⟨h.sorted, List.pairwise_singleton _ _, fun e he e' he' => ?_⟩
      rw [List.mem_singleton.1 he']
      exact hends e he
    · rw [openInside_constructed htag, List.length_append, List.length_singleton]
      exact hdepth htag

/-- The walk reads the elements of a forest in preorder, inside any open elements that end behind
the forest or with it. -/
def Walks (derBytes : Bytes) (ts : Forest) : Prop :=
  ∀ (c : Cursor) (ends : List ℕ) (rest : Bytes), derBytes.drop c.pointer = ts.encode ++ rest →
    Tracks ends c → (∀ e ∈ ends, c.pointer + ts.encode.length ≤ e) →
    ends.length + ts.nesting ≤ MAX_DEPTH →
    ∃ c', Reads derBytes c (preorder c.pointer ends.length ts) c' ∧
      c'.pointer = c.pointer + ts.encode.length ∧
      Tracks (ends.filter (c.pointer + ts.encode.length < ·)) c'

theorem filter_filter_lt {ends : List ℕ} {p q : ℕ} (h : p ≤ q) :
    (ends.filter (p < ·)).filter (q < ·) = ends.filter (q < ·) := by
  rw [List.filter_filter]
  refine List.filter_congr fun e _ => ?_
  rw [← Bool.decide_and, decide_eq_decide]
  exact ⟨fun hand => hand.1, fun hlt => ⟨hlt, h.trans_lt hlt⟩⟩

theorem preorder_congr {start depth depth' : ℕ} {ts : Forest}
    (h : ts ≠ .nil → depth = depth') : preorder start depth ts = preorder start depth' ts := by
  by_cases hts : ts = .nil
  · rw [hts]
    rfl
  · rw [h hts]

theorem Walks.siblings {ts : Forest} (h : Walks derBytes ts) {c : Cursor} {ends : List ℕ}
    {rest : Bytes} (hdrop : derBytes.drop c.pointer = ts.encode ++ rest)
    (htracks : Tracks (ends.filter (c.pointer < ·)) c)
    (hends : ∀ e ∈ ends, c.pointer + ts.encode.length ≤ e)
    (hnesting : ends.length + ts.nesting ≤ MAX_DEPTH) :
    ∃ c', Reads derBytes c (preorder c.pointer ends.length ts) c' ∧
      c'.pointer = c.pointer + ts.encode.length ∧
      Tracks (ends.filter (c.pointer + ts.encode.length < ·)) c' := by
  have hshorter : (ends.filter (c.pointer < ·)).length ≤ ends.length := List.length_filter_le _ _
  obtain ⟨c', hreads, hpointer, htracks'⟩ := h c _ rest hdrop htracks
    (fun e he => hends e (List.mem_of_mem_filter he)) (by omega)
  rw [filter_filter_lt (Nat.le_add_right _ _)] at htracks'
  refine ⟨c', ?_, hpointer, htracks'⟩
  rwa [@preorder_congr c.pointer ends.length (ends.filter (c.pointer < ·)).length]
  intro hts
  have hpos := Forest.length_encode_pos hts
  have hopen : ∀ e ∈ ends, decide (c.pointer < e) = true := fun e he => by
    have hle := hends e he
    exact decide_eq_true (by omega)
  rw [List.filter_eq_self.2 hopen]

theorem drop_encoded {bs length content : Bytes} {tag : BitVec 8} {start : ℕ}
    (h : bs.drop start = tag :: (length ++ content)) :
    bs.drop (start + (1 + length.length)) = content := by
  rw [← List.drop_drop, h, Nat.add_comm 1, List.drop_succ_cons, List.drop_left]

/-- **The walk over a forest** reads its elements in preorder. -/
theorem walks_of_wellFormed {ts : Forest} (hsize : ts.encode.length < 2 ^ 256)
    (hwf : ts.WellFormed) : Walks derBytes ts := by
  induction ts with
  | nil =>
    intro c ends rest _ h _ _
    have hopen : ∀ e ∈ ends, decide (c.pointer + Forest.nil.encode.length < e) = true :=
      fun e he => decide_eq_true (h.open_lt e he)
    refine ⟨c, .nil c, rfl, ?_⟩
    rw [List.filter_eq_self.2 hopen]
    exact h
  | primitive tag length content ts ih =>
    obtain ⟨hallowed, htag, hlength, hts⟩ := hwf
    intro c ends rest hdrop h hends hnesting
    rw [Forest.encode, List.cons_append, List.append_assoc, List.append_assoc] at hdrop
    rw [Forest.encode, List.length_cons, List.length_append, List.length_append] at hends hsize ⊢
    obtain ⟨c₁, hone, hpointer, htracks⟩ := readsOne_element (by omega) hdrop hallowed hlength h
      (fun e he => by have hle := hends e he; omega) (fun hconstructed => by
        rw [htag] at hconstructed
        cases hconstructed)
    rw [next_primitive htag] at hpointer htracks
    rw [openInside_primitive htag, ← hpointer] at htracks
    have hdrop' : derBytes.drop c₁.pointer = ts.encode ++ rest := by
      rw [hpointer, ← List.drop_drop, drop_encoded hdrop, List.drop_left]
    obtain ⟨c', hreads, hpointer', htracks'⟩ := (ih (by omega) hts).siblings hdrop' htracks
      (fun e he => by have hle := hends e he; omega) hnesting
    have hend : c₁.pointer + ts.encode.length =
        c.pointer + (length.length + (content.length + ts.encode.length) + 1) := by omega
    rw [hpointer] at hreads
    rw [hend] at hpointer' htracks'
    rw [h.depth_eq] at hone
    exact ⟨c', .cons hone hreads, hpointer', htracks'⟩
  | constructed tag length children ts ihc ih =>
    obtain ⟨hallowed, htag, hlength, hchildren, hts⟩ := hwf
    intro c ends rest hdrop h hends hnesting
    rw [Forest.encode, List.cons_append, List.append_assoc, List.append_assoc] at hdrop
    rw [Forest.encode, List.length_cons, List.length_append, List.length_append] at hends hsize ⊢
    rw [Forest.nesting] at hnesting
    obtain ⟨c₁, hone, hpointer, htracks⟩ := readsOne_element (by omega) hdrop hallowed hlength h
      (fun e he => by have hle := hends e he; omega) (fun _ => by omega)
    rw [next_constructed htag] at hpointer htracks
    rw [openInside_constructed htag, ← hpointer] at htracks
    have hdrop₁ : derBytes.drop c₁.pointer = children.encode ++ (ts.encode ++ rest) := by
      rw [hpointer, drop_encoded hdrop]
    obtain ⟨c₂, hreads₂, hpointer₂, htracks₂⟩ := (ihc (by omega) hchildren).siblings hdrop₁ htracks
      (fun e he => by
        rcases List.mem_append.1 he with he | he
        · have hle := hends e he
          omega
        · rw [List.mem_singleton.1 he])
      (by rw [List.length_append, List.length_singleton]; omega)
    -- The end of the element itself is passed with its last child.
    have hclosed : (ends ++ [c₁.pointer + children.encode.length]).filter
        (c₁.pointer + children.encode.length < ·) = ends.filter (c₂.pointer < ·) := by
      rw [List.filter_append, List.filter_singleton, hpointer₂]
      simp
    have hdrop₂ : derBytes.drop c₂.pointer = ts.encode ++ rest := by
      rw [hpointer₂, ← List.drop_drop, hdrop₁, List.drop_left]
    rw [hclosed] at htracks₂
    obtain ⟨c', hreads, hpointer', htracks'⟩ := (ih (by omega) hts).siblings hdrop₂ htracks₂
      (fun e he => by have hle := hends e he; omega) (by omega)
    have hend : c₂.pointer + ts.encode.length =
        c.pointer + (length.length + (children.encode.length + ts.encode.length) + 1) := by omega
    rw [hend] at hpointer' htracks'
    rw [hpointer₂, hpointer] at hreads
    rw [List.length_append, List.length_singleton, hpointer] at hreads₂
    rw [h.depth_eq] at hone
    exact ⟨c', .cons hone (hreads₂.append hreads), hpointer', htracks'⟩

theorem reads_encode {ts : Forest} {pointer : ℕ} (hsize : ts.encode.length < 2 ^ 256)
    (hwf : ts.WellFormed) (hnesting : ts.nesting ≤ MAX_DEPTH)
    (hdrop : derBytes.drop pointer = ts.encode) :
    ∃ c', Reads derBytes (.start pointer) (preorder pointer 0 ts) c' ∧
      c'.pointer = pointer + ts.encode.length := by
  obtain ⟨c', hreads, hpointer, -⟩ := walks_of_wellFormed hsize hwf (.start pointer) [] []
    (by rw [List.append_nil]; exact hdrop) (tracks_start pointer) (List.forall_mem_nil _)
    (by rw [List.length_nil, Nat.zero_add]; exact hnesting)
  exact ⟨c', hreads, hpointer⟩

/-- A walk that gets through a forest finds it nested at most `MAX_DEPTH` deep. -/
def Bounds (derBytes : Bytes) (ts : Forest) : Prop :=
  ∀ (c c' : Cursor) (ends : List ℕ) (rest : Bytes) (us : List DecodedTlv),
    derBytes.drop c.pointer = ts.encode ++ rest → Tracks ends c →
    (∀ e ∈ ends, c.pointer + ts.encode.length ≤ e) → Reads derBytes c us c' →
    c.pointer + ts.encode.length ≤ c'.pointer → ends.length + ts.nesting ≤ MAX_DEPTH

theorem Bounds.siblings {ts : Forest} (h : Bounds derBytes ts) {c c' : Cursor} {ends : List ℕ}
    {rest : Bytes} {us : List DecodedTlv} (hends : ends.length ≤ MAX_DEPTH)
    (hdrop : derBytes.drop c.pointer = ts.encode ++ rest)
    (htracks : Tracks (ends.filter (c.pointer < ·)) c)
    (hlater : ∀ e ∈ ends, c.pointer + ts.encode.length ≤ e) (hreads : Reads derBytes c us c')
    (hend : c.pointer + ts.encode.length ≤ c'.pointer) :
    ends.length + ts.nesting ≤ MAX_DEPTH := by
  by_cases hts : ts = .nil
  · rw [hts]
    exact hends
  · have hpos := Forest.length_encode_pos hts
    have hopen : ∀ e ∈ ends, decide (c.pointer < e) = true := fun e he => by
      have hle := hlater e he
      exact decide_eq_true (by omega)
    rw [List.filter_eq_self.2 hopen] at htracks
    exact h c c' ends rest us hdrop htracks hlater hreads hend

theorem bounds_of_wellFormed {ts : Forest} (hsize : ts.encode.length < 2 ^ 256)
    (hwf : ts.WellFormed) : Bounds derBytes ts := by
  induction ts with
  | nil =>
    intro c c' ends rest us _ h _ _ _
    exact h.length_le
  | primitive tag length content ts ih =>
    obtain ⟨hallowed, htag, hlength, hts⟩ := hwf
    intro c c' ends rest us hdrop h hends hreads hend
    rw [Forest.encode, List.cons_append, List.append_assoc, List.append_assoc] at hdrop
    rw [Forest.encode, List.length_cons, List.length_append, List.length_append] at hends hsize hend
    obtain ⟨c₁, hone, hpointer, htracks⟩ := readsOne_element (by omega) hdrop hallowed hlength h
      (fun e he => by have hle := hends e he; omega) (fun hconstructed => by
        rw [htag] at hconstructed
        cases hconstructed)
    rw [next_primitive htag] at hpointer htracks
    rw [openInside_primitive htag, ← hpointer] at htracks
    have hdrop' : derBytes.drop c₁.pointer = ts.encode ++ rest := by
      rw [hpointer, ← List.drop_drop, drop_encoded hdrop, List.drop_left]
    obtain ⟨vs, -, hreads'⟩ := (Reads.cons hone (.nil c₁)).after hreads (by omega)
    exact (ih (by omega) hts).siblings h.length_le hdrop' htracks
      (fun e he => by have hle := hends e he; omega) hreads' (by omega)
  | constructed tag length children ts ihc ih =>
    obtain ⟨hallowed, htag, hlength, hchildren, hts⟩ := hwf
    intro c c' ends rest us hdrop h hends hreads hend
    rw [Forest.encode, List.cons_append, List.append_assoc, List.append_assoc] at hdrop
    rw [Forest.encode, List.length_cons, List.length_append, List.length_append] at hends hsize hend
    -- The element has been entered, so that there was room for its end.
    have hroom : ends.length < MAX_DEPTH := by
      cases hreads with
      | nil => omega
      | @cons _ _ _ t _ hone _ =>
        have hread := getNextTlv_element c.depth (by omega) hdrop hallowed hlength
        have ht : t = element c.pointer c.depth tag length children.encode :=
          congrArg Prod.fst (Except.ok.inj (hone.1.symm.trans hread))
        have hlt := hone.depth_le.2.1 (by rw [ht]; exact htag)
        rwa [h.depth_eq, h.length_eq] at hlt
    obtain ⟨c₁, hone, hpointer, htracks⟩ := readsOne_element (by omega) hdrop hallowed hlength h
      (fun e he => by have hle := hends e he; omega) (fun _ => hroom)
    rw [next_constructed htag] at hpointer htracks
    rw [openInside_constructed htag, ← hpointer] at htracks
    have hdrop₁ : derBytes.drop c₁.pointer = children.encode ++ (ts.encode ++ rest) := by
      rw [hpointer, drop_encoded hdrop]
    obtain ⟨vs, -, hreads₁⟩ := (Reads.cons hone (.nil c₁)).after hreads (by omega)
    have hinside : ∀ e ∈ ends ++ [c₁.pointer + children.encode.length],
        c₁.pointer + children.encode.length ≤ e := fun e he => by
      rcases List.mem_append.1 he with he | he
      · have hle := hends e he
        omega
      · rw [List.mem_singleton.1 he]
    have hnested := (ihc (by omega) hchildren).siblings
      (by rw [List.length_append, List.length_singleton]; exact hroom) hdrop₁ htracks hinside
      hreads₁ (by omega)
    obtain ⟨c₂, hreads₂, hpointer₂, htracks₂⟩ := (walks_of_wellFormed (by omega) hchildren).siblings
      hdrop₁ htracks hinside hnested
    rw [List.length_append, List.length_singleton] at hnested
    have hclosed : (ends ++ [c₁.pointer + children.encode.length]).filter
        (c₁.pointer + children.encode.length < ·) = ends.filter (c₂.pointer < ·) := by
      rw [List.filter_append, List.filter_singleton, hpointer₂]
      simp
    have hdrop₂ : derBytes.drop c₂.pointer = ts.encode ++ rest := by
      rw [hpointer₂, ← List.drop_drop, hdrop₁, List.drop_left]
    rw [hclosed] at htracks₂
    obtain ⟨ws, -, hreads'⟩ := hreads₂.after hreads₁ (by omega)
    have hsiblings := (ih (by omega) hts).siblings h.length_le hdrop₂ htracks₂
      (fun e he => by have hle := hends e he; omega) hreads' (by omega)
    rw [Forest.nesting]
    omega

end

/-! ### Well-formed input -/

/-- `walkDerTree` on a byte string that ends with the encoding of a forest. -/
theorem walkDerTree_of_encode {derBytes : Bytes} {ts : Forest} {pointer tlvLength : ℕ}
    (hsize : ts.encode.length < 2 ^ 256) (hts : ts ≠ .nil) (hwf : ts.WellFormed)
    (hnesting : ts.nesting ≤ MAX_DEPTH) (hdrop : derBytes.drop pointer = ts.encode)
    (hlength : ts.size ≤ tlvLength) :
    walkDerTree derBytes pointer tlvLength =
      .ok (preorder pointer 0 ts ++ List.replicate (tlvLength - ts.size) .zero) := by
  obtain ⟨c', hreads, hpointer⟩ := reads_encode hsize hwf hnesting hdrop
  have hpos := Forest.length_encode_pos hts
  have hend : c'.pointer = derBytes.length := by
    have hlen := congrArg List.length hdrop
    rw [List.length_drop] at hlen
    omega
  rw [walkDerTree_eq_ok]
  refine ⟨_, c', hreads, preorder_ne_nil hts, hend, ?_⟩
  rw [length_preorder]
  exact ⟨hlength, rfl⟩

/-- **DER walking is correct on well-formed input**: on the encoding of a forest with at least one
element, `walkDerTree` returns the elements in preorder, and `computeNumberOfTlvs` their number. -/
theorem walk_encode {ts : Forest} (hts : ts ≠ .nil) (hwf : ts.WellFormed)
    (hnesting : ts.nesting ≤ MAX_DEPTH) (hsize : ts.encode.length < 2 ^ 256) :
    walkDerTree ts.encode 0 ts.size = .ok (preorder 0 0 ts) ∧
      computeNumberOfTlvs ts.encode 0 = .ok ts.size := by
  constructor
  · rw [walkDerTree_of_encode hsize hts hwf hnesting List.drop_zero (le_refl _), Nat.sub_self,
      List.replicate_zero, List.append_nil]
  · obtain ⟨c', hreads, hpointer⟩ := reads_encode hsize hwf hnesting List.drop_zero
    rw [computeNumberOfTlvs_eq_ok]
    exact ⟨_, c', hreads, preorder_ne_nil hts, by rw [hpointer, Nat.zero_add],
      (length_preorder 0 0 ts).symm⟩

/-- What `walkDerTree` returns, if it accepts a byte string that ends with the encoding of a
forest. -/
theorem tlvs_of_walkDerTree {derBytes : Bytes} {ts : Forest} {pointer tlvLength : ℕ}
    {tlvs : List DecodedTlv} (hsize : ts.encode.length < 2 ^ 256) (hwf : ts.WellFormed)
    (hdrop : derBytes.drop pointer = ts.encode)
    (h : walkDerTree derBytes pointer tlvLength = .ok tlvs) :
    ts.nesting ≤ MAX_DEPTH ∧
      tlvs = preorder pointer 0 ts ++ List.replicate (tlvLength - ts.size) .zero := by
  obtain ⟨us, c', hreads, -, hend, -, rfl⟩ := walkDerTree_eq_ok.1 h
  have hle := hreads.length_le
  have hlen := congrArg List.length hdrop
  rw [List.length_drop] at hlen
  have hstart : (Cursor.start pointer).pointer = pointer := rfl
  have hnesting : ts.nesting ≤ MAX_DEPTH := by
    have hbound := bounds_of_wellFormed hsize hwf (.start pointer) c' [] [] us
      (by rw [List.append_nil]; exact hdrop) (tracks_start pointer) (List.forall_mem_nil _) hreads
      (by omega)
    rwa [List.length_nil, Nat.zero_add] at hbound
  obtain ⟨d, hforest, hpointer⟩ := reads_encode hsize hwf hnesting hdrop
  obtain ⟨rfl, -⟩ := hreads.unique hforest (by omega)
  rw [length_preorder]
  exact ⟨hnesting, rfl⟩

/-- A sequence of an integer, an empty sequence and a null, followed by a boolean. -/
def sampleForest : Forest :=
  .constructed 0x30 [0x07] (.primitive 0x02 [0x01] [0x05]
    (.constructed 0x30 [0x00] .nil (.primitive 0x05 [0x00] [] .nil)))
    (.primitive 0x01 [0x81, 0x01] [0xff] .nil)

theorem walk_encode_sample :
    walkDerTree sampleForest.encode 0 sampleForest.size = .ok (preorder 0 0 sampleForest) ∧
      computeNumberOfTlvs sampleForest.encode 0 = .ok sampleForest.size :=
  walk_encode (by decide) (by decide) (by decide) (by decide)

/-- The loop reads an element before it looks for the end: there is none in an empty string. -/
theorem empty_forest_rejected : ¬ ∀ ts : Forest, ts.WellFormed → ts.nesting ≤ MAX_DEPTH →
    ts.encode.length < 2 ^ 256 →
    walkDerTree ts.encode 0 ts.size = .ok (preorder 0 0 ts) ∧
      computeNumberOfTlvs ts.encode 0 = .ok ts.size := by
  intro h
  have hnil := (h .nil trivial (Nat.zero_le _) (by decide)).1
  have herror : walkDerTree [] 0 0 = .error .outOfBounds := rfl
  rw [Forest.encode_nil, Forest.size_nil, herror] at hnil
  cases hnil

end Der

end X509

end Nightfall
