import Nightfall.Merkle.Frontier
import Nightfall.Semantics.Stateful
import Nightfall.Trees.Indexed
import Nightfall.Trees.MutableRuns

/-!
# The append-only trees

An append-only tree stores its metadata and its frontier, one node for every level, as strings.  An
append goes up from every new sub-tree, with the frontier on the left and zeros on the right, and
replaces one entry of the frontier.

The root in the metadata is the zero it was created with, and the entry that the last sub-tree of a
full tree would replace does not exist.  `append_only_tree_iff` says which sequences of appends are
like appends to the naive tree all the same.
-/

namespace Nightfall

namespace Trees

namespace AppendOnly

open Merkle Stateful

/-! ### The collections -/

/-- The collections of an append-only tree. -/
structure Db where
  /-- The one document with the metadata. -/
  metadata : Option (TreeMetadata Fr254)
  /-- The one document with the frontier. -/
  frontier : Option (List String)
  deriving DecidableEq, Repr

/-- No collections. -/
def Db.empty : Db := ⟨none, none⟩

/-- An operation on the collections of an append-only tree. -/
abbrev AppendOnlyM := EStateM Failure Db

/-- `ok_or`. -/
def okOr {α : Type} (e : MerkleTreeError) : Option α → AppendOnlyM α
  | some a => pure a
  | none => throw (.err e)

/-- `new_append_only_tree`. -/
def newAppendOnlyTree (treeHeight subTreeHeight : ℕ) : AppendOnlyM Unit := do
  let db ← get
  match db.metadata with
  | some _ => throw (.err .databaseError)
  | none => set { db with metadata := some ⟨treeHeight, subTreeHeight, 0, 0⟩ }
  let db ← get
  match db.frontier with
  | some _ => throw (.err .databaseError)
  | none => set { db with frontier := some (List.replicate treeHeight (toStringRep 0)) }

/-! ### Indices -/

/-- On which side of a hash the node on the path is. -/
inductive Directions
  | hashWithThisNodeOnLeft
  | hashWithThisNodeOnRight
  deriving DecidableEq, Repr

/-- The direction for a bit of an index. -/
def bitDirection (index i : ℕ) : Directions :=
  if (index >>> i) &&& 1 = 0 then .hashWithThisNodeOnRight else .hashWithThisNodeOnLeft

/-- `index_to_directions`: the lowest bit first. -/
def indexToDirections (index height : ℕ) : List Directions :=
  (List.range height).map (bitDirection index)

/-- The loop of `get_frontier_index`, for at most as many rounds as the first argument says. -/
def frontierLoop (leafIndex : ℕ) : ℕ → ℕ → ℕ → ℕ → Option ℕ
  | 0, _, _, _ => none
  | rounds + 1, exp1, pow1, pow2 =>
    if (leafIndex + 1 - pow1) % pow2 = 0 then some exp1
    else frontierLoop leafIndex rounds (exp1 + 1) pow2 (pow2 <<< 1)

/-- `get_frontier_index`: the entry of the frontier that a leaf replaces. -/
def getFrontierIndex (leafIndex : ℕ) : ℕ :=
  if leafIndex % 2 = 1 then (frontierLoop leafIndex (leafIndex + 1) 1 2 (2 <<< 1)).getD 0 else 0

/-! ### Appending -/

section Append

variable (treeHash : Fr254 → Fr254 → Fr254)

/-- Hash a node with `left`, or with the empty sub-tree on its right. -/
def hashWith (left hash : Fr254) : Directions → Fr254
  | .hashWithThisNodeOnLeft => treeHash left hash
  | .hashWithThisNodeOnRight => treeHash hash 0

/-- The hashes on the path above a node, from `level` upwards. -/
def hashesAbove (frontier : List Fr254) : ℕ → List Directions → Fr254 → List Fr254
  | _, [], _ => []
  | level, direction :: directions, hash =>
    hashWith treeHash (frontier.getD level 0) hash direction ::
      hashesAbove frontier (level + 1) directions
        (hashWith treeHash (frontier.getD level 0) hash direction)

/-- What the rounds of `append_sub_trees` work on. -/
structure Appending where
  frontier : List Fr254
  subTreeCount : ℕ
  root : Fr254
  deriving DecidableEq, Repr

/-- One round of `append_sub_trees`. -/
def appendSubTree (metadata : TreeMetadata Fr254) (acc : Appending) (leafBatch : List Fr254) :
    Except Failure Appending :=
  let subTreeRoot := (makeCompleteTree treeHash metadata.subTreeHeight leafBatch).getD 0 0
  let path := subTreeRoot :: hashesAbove treeHash acc.frontier 0
    (indexToDirections acc.subTreeCount metadata.treeHeight) subTreeRoot
  let index := getFrontierIndex acc.subTreeCount
  if acc.frontier.length ≤ index then .error (.panic "index out of bounds")
  else .ok {
    frontier := acc.frontier.set index (path.getD index 0)
    subTreeCount := acc.subTreeCount + 1
    root := path.getLastD 0 }

/-- The end of `append_sub_trees`: only now the database is written. -/
def storeAppended (metadata : TreeMetadata Fr254) (updateTree : Bool) :
    Except Failure Appending → AppendOnlyM Fr254
  | .error e => throw e
  | .ok appended => do
    if updateTree then
      set {
        metadata := some { metadata with subTreeCount := appended.subTreeCount }
        frontier := some (appended.frontier.map toStringRep) : Db }
    pure appended.root

/-- `append_sub_trees`.  `fromStr` is the parser of field elements. -/
def appendSubTrees (fromStr : String → Option Fr254) (leaves : List Fr254) (updateTree : Bool) :
    AppendOnlyM Fr254 := do
  let db ← get
  let metadata ← okOr .treeNotFound db.metadata
  let stored ← okOr .itemNotFound db.frontier
  let frontier ← okOr .serializationError
    (stored.mapM fun s => if s.isEmpty then some 0 else fromStr s)
  let capacity := 2 ^ metadata.subTreeHeight
  if leaves.length % capacity ≠ 0 then throw (.err .incorrectBatchSize)
  else if leaves.isEmpty then pure metadata.root
  else if metadata.subTreeCount > 2 ^ metadata.treeHeight then throw (.err .treeIsFull)
  else if frontier.length ≠ metadata.treeHeight then throw (.err .serializationError)
  else
    storeAppended metadata updateTree ((chunks capacity leaves).foldlM
      (appendSubTree treeHash metadata) ⟨frontier, metadata.subTreeCount, 0⟩)

end Append

/-! ### The frontier index -/

/-- The loop ends with the number of trailing one bits. -/
theorem frontierLoop_spec {n : ℕ} (rounds : ℕ) {e : ℕ} (he : 2 ^ e ∣ n + 1)
    (hrounds : n + 1 < 2 ^ (e + rounds)) :
    ∃ i, frontierLoop n rounds e (2 ^ e) (2 ^ (e + 1)) = some i ∧ 2 ^ i ∣ n + 1 ∧
      ¬2 ^ (i + 1) ∣ n + 1 := by
  have hle := Nat.le_of_dvd (Nat.succ_pos n) he
  induction rounds generalizing e with
  | zero => exact absurd hle (by simpa using hrounds)
  | succ rounds ih =>
    have hcheck : (n + 1 - 2 ^ e) % 2 ^ (e + 1) = 0 ↔ ¬2 ^ (e + 1) ∣ n + 1 := by
      obtain ⟨q, hq⟩ := he
      have hpos := Nat.two_pow_pos e
      obtain ⟨k, rfl⟩ : ∃ k, q = k + 1 := ⟨q - 1, by
        have hq0 : q ≠ 0 := by
          rintro rfl
          rw [Nat.mul_zero] at hq
          omega
        omega⟩
      rw [hq, show 2 ^ e * (k + 1) - 2 ^ e = 2 ^ e * k by rw [Nat.mul_succ, Nat.add_sub_cancel],
        pow_succ, Nat.mul_mod_mul_left, Nat.mul_eq_zero, Nat.mul_dvd_mul_iff_left hpos]
      omega
    rw [frontierLoop]
    split_ifs with hzero
    · exact ⟨e, rfl, he, hcheck.1 hzero⟩
    · have he' : 2 ^ (e + 1) ∣ n + 1 := not_not.1 fun h => hzero (hcheck.2 h)
      have hshift : 2 ^ (e + 1) <<< 1 = 2 ^ (e + 1 + 1) := by
        rw [Nat.shiftLeft_eq, pow_one, ← pow_succ]
      rw [hshift]
      exact ih he' (by rwa [Nat.add_right_comm]) (Nat.le_of_dvd (Nat.succ_pos n) he')

/-- `get_frontier_index` counts the trailing one bits. -/
theorem getFrontierIndex_spec (n : ℕ) :
    2 ^ getFrontierIndex n ∣ n + 1 ∧ ¬2 ^ (getFrontierIndex n + 1) ∣ n + 1 := by
  unfold getFrontierIndex
  split_ifs with hodd
  · have hlt : n + 1 < 2 ^ (1 + (n + 1)) := by
      rw [Nat.add_comm 1, pow_succ]
      exact Nat.lt_two_pow_self.trans_le (Nat.le_mul_of_pos_right _ two_pos)
    obtain ⟨i, hi, hdvd⟩ := frontierLoop_spec (n + 1) (e := 1) (by omega) hlt
    have hstart : frontierLoop n (n + 1) 1 2 (2 <<< 1) = some i := hi
    rw [hstart]
    exact hdvd
  · rw [pow_zero, Nat.zero_add, pow_one]
    exact ⟨one_dvd _, by omega⟩

/-- The last sub-tree of a full tree is the first whose entry is not in the frontier. -/
theorem getFrontierIndex_lt_iff {n height : ℕ} (hn : n < 2 ^ height) :
    getFrontierIndex n < height ↔ n + 1 < 2 ^ height := by
  obtain ⟨hdvd, hndvd⟩ := getFrontierIndex_spec n
  have hle := Nat.le_of_dvd (Nat.succ_pos n) hdvd
  constructor
  · intro hlt
    refine lt_of_le_of_ne hn fun heq => hndvd ?_
    rw [heq]
    exact pow_dvd_pow 2 hlt
  · intro hlt
    exact (Nat.pow_lt_pow_iff_right one_lt_two).1 (hle.trans_lt hlt)

/-! ### Rounds -/

section Rounds

variable {treeHash : Fr254 → Fr254 → Fr254} {f : ℕ → Fr254} {height n : ℕ}

/-- The frontier over the first `n` sub-trees, the roots of which are `f`. -/
def frontierOver (treeHash : Fr254 → Fr254 → Fr254) (f : ℕ → Fr254) (height n : ℕ) : List Fr254 :=
  (List.range height).map (lastLeft treeHash 0 f n)

/-- The nodes above sub-tree `n`, the last one. -/
def nodeAbove (treeHash : Fr254 → Fr254 → Fr254) (f : ℕ → Fr254) (n l : ℕ) : Fr254 :=
  (layer treeHash)^[l] (firstLeaves 0 f (n + 1)) (n / 2 ^ l)

theorem getD_frontierOver {l : ℕ} (hl : l < height) :
    (frontierOver treeHash f height n).getD l 0 = lastLeft treeHash 0 f n l := by
  rw [frontierOver, List.getD_eq_getElem _ _ (by simpa using hl), List.getElem_map,
    List.getElem_range]

theorem bitDirection_eq (n l : ℕ) : bitDirection n l =
    if n / 2 ^ l % 2 = 1 then .hashWithThisNodeOnLeft else .hashWithThisNodeOnRight := by
  rw [bitDirection, Nat.and_one_is_mod, Nat.shiftRight_eq_div_pow]
  split_ifs with h h'
  · rw [h'] at h
    cases h
  · rfl
  · rfl
  · omega

/-- One step up from sub-tree `n`. -/
theorem hashWith_nodeAbove (hzero : treeHash 0 0 = 0) {l : ℕ} (hl : l < height) :
    hashWith treeHash ((frontierOver treeHash f height n).getD l 0) (nodeAbove treeHash f n l)
      (bitDirection n l) = nodeAbove treeHash f n (l + 1) := by
  have hstep := iterate_layer_path (h := treeHash) hzero f n l
  rw [getD_frontierOver hl, bitDirection_eq]
  simp only [nodeAbove] at hstep ⊢
  rw [hstep]
  split_ifs
  · rfl
  · rfl

/-- The path from sub-tree `n` upwards has the nodes of the tree over the first `n + 1`
sub-trees. -/
theorem hashesAbove_eq (hzero : treeHash 0 0 = 0) (k : ℕ) {l : ℕ} (hl : l + k ≤ height) :
    hashesAbove treeHash (frontierOver treeHash f height n) l
      ((List.range' l k).map (bitDirection n)) (nodeAbove treeHash f n l) =
        (List.range' (l + 1) k).map (nodeAbove treeHash f n) := by
  induction k generalizing l with
  | zero => rfl
  | succ k ih =>
    rw [List.range'_succ, List.range'_succ, List.map_cons, List.map_cons, hashesAbove,
      hashWith_nodeAbove hzero (by omega), ih (by omega)]

theorem path_eq (hzero : treeHash 0 0 = 0) :
    f n :: hashesAbove treeHash (frontierOver treeHash f height n) 0 (indexToDirections n height)
      (f n) = (List.range (height + 1)).map (nodeAbove treeHash f n) := by
  have hstart : nodeAbove treeHash f n 0 = f n := by
    rw [nodeAbove, pow_zero, Nat.div_one]
    exact if_pos (Nat.lt_succ_self n)
  have hpath := hashesAbove_eq (f := f) (n := n) hzero height (Nat.zero_add height).le
  rw [hstart, ← List.range_eq_range'] at hpath
  rw [indexToDirections, hpath, List.range_eq_range' (n := height + 1), List.range'_succ,
    List.map_cons, hstart]

theorem set_frontierOver :
    (frontierOver treeHash f height n).set (getFrontierIndex n)
      (nodeAbove treeHash f n (getFrontierIndex n)) = frontierOver treeHash f height (n + 1) := by
  obtain ⟨hdvd, hndvd⟩ := getFrontierIndex_spec n
  -- the new left sub-tree ends with sub-tree `n`
  have hnode : nodeAbove treeHash f n (getFrontierIndex n) =
      (layer treeHash)^[getFrontierIndex n] f (n / 2 ^ getFrontierIndex n) := by
    refine iterate_layer_firstLeaves ?_
    rw [← Nat.succ_div_of_dvd hdvd, Nat.div_mul_cancel hdvd]
  refine List.ext_getElem (by simp [frontierOver]) fun l hl hl' => ?_
  simp only [List.getElem_set, frontierOver, List.getElem_map, List.getElem_range]
  rw [lastLeft_succ hdvd hndvd, hnode]
  simp only [eq_comm]

/-- **One round.**  It succeeds unless the sub-tree is the last one. -/
theorem appendSubTree_eq (hzero : treeHash 0 0 = 0) {metadata : TreeMetadata Fr254}
    {leafBatch : List Fr254} {root : Fr254} (hn : n < 2 ^ metadata.treeHeight)
    (hbatch : (makeCompleteTree treeHash metadata.subTreeHeight leafBatch).getD 0 0 = f n) :
    appendSubTree treeHash metadata
        ⟨frontierOver treeHash f metadata.treeHeight n, n, root⟩ leafBatch =
      if n + 1 < 2 ^ metadata.treeHeight then
        .ok ⟨frontierOver treeHash f metadata.treeHeight (n + 1), n + 1,
          treeRoot treeHash metadata.treeHeight (firstLeaves 0 f (n + 1))⟩
      else .error (.panic "index out of bounds") := by
  have hlength : (frontierOver treeHash f metadata.treeHeight n).length = metadata.treeHeight := by
    simp [frontierOver]
  have hindex := getFrontierIndex_lt_iff hn
  rw [appendSubTree, hbatch, path_eq hzero, hlength]
  by_cases hlast : n + 1 < 2 ^ metadata.treeHeight
  · have hlt := hindex.2 hlast
    have hentry : ((List.range (metadata.treeHeight + 1)).map (nodeAbove treeHash f n)).getD
        (getFrontierIndex n) 0 = nodeAbove treeHash f n (getFrontierIndex n) := by
      rw [List.getD_eq_getElem _ _ (by simp; omega), List.getElem_map, List.getElem_range]
    have hroot : ((List.range (metadata.treeHeight + 1)).map (nodeAbove treeHash f n)).getLastD 0 =
        treeRoot treeHash metadata.treeHeight (firstLeaves 0 f (n + 1)) := by
      rw [List.range_succ, List.map_append, List.map_singleton, List.getLastD_concat, nodeAbove,
        Nat.div_eq_of_lt hn, iterate_layer_apply, Nat.mul_zero]
      simp only [Nat.zero_add]
    rw [if_pos hlast, if_neg (not_le.2 hlt), hentry, set_frontierOver, hroot]
  · rw [if_neg hlast, if_pos (not_lt.1 fun hlt => hlast (hindex.1 hlt))]

/-- **The rounds.**  They succeed unless they reach the last sub-tree. -/
theorem foldlM_appendSubTree (hzero : treeHash 0 0 = 0) {metadata : TreeMetadata Fr254}
    {cs : List (List Fr254)} {root : Fr254} (hn : n < 2 ^ metadata.treeHeight)
    (hcs : ∀ k (hk : k < cs.length),
      (makeCompleteTree treeHash metadata.subTreeHeight cs[k]).getD 0 0 = f (n + k)) :
    cs.foldlM (appendSubTree treeHash metadata)
        ⟨frontierOver treeHash f metadata.treeHeight n, n, root⟩ =
      if n + cs.length < 2 ^ metadata.treeHeight then
        .ok ⟨frontierOver treeHash f metadata.treeHeight (n + cs.length), n + cs.length,
          if cs = [] then root
          else treeRoot treeHash metadata.treeHeight (firstLeaves 0 f (n + cs.length))⟩
      else .error (.panic "index out of bounds") := by
  induction cs generalizing n root with
  | nil =>
    rw [List.foldlM_nil, List.length_nil, Nat.add_zero, if_pos hn, if_pos rfl]
    rfl
  | cons c cs ih =>
    have hc := hcs 0 (by simp)
    rw [List.getElem_cons_zero, Nat.add_zero] at hc
    have hlen : n + (c :: cs).length = n + 1 + cs.length := by
      rw [List.length_cons]
      omega
    rw [List.foldlM_cons, appendSubTree_eq hzero hn hc, hlen]
    by_cases hlast : n + 1 < 2 ^ metadata.treeHeight
    · have hrest := @ih (n + 1) (treeRoot treeHash metadata.treeHeight (firstLeaves 0 f (n + 1)))
        hlast fun k hk => by
          have hk' := hcs (k + 1) (by simpa using hk)
          rw [List.getElem_cons_succ] at hk'
          rw [hk', Nat.add_right_comm, Nat.add_assoc]
      rw [if_pos hlast]
      refine hrest.trans ?_
      by_cases hcs' : cs = []
      · subst hcs'
        simp
      · simp [hcs']
    · rw [if_neg hlast, if_neg (by omega)]
      rfl

end Rounds

/-! ### Trees over leaves -/

section Runs

variable {treeHash : Fr254 → Fr254 → Fr254} {fromStr : String → Option Fr254}
  {treeHeight subTreeHeight : ℕ} {committed : List Fr254} {db : Db}

/-- The roots of the sub-trees over the leaves, zero where there are no leaves. -/
def subTreeRoots (treeHash : Fr254 → Fr254 → Fr254) (subTreeHeight : ℕ) (leaves : List Fr254) :
    ℕ → Fr254 :=
  (layer treeHash)^[subTreeHeight] (leaves.getD · 0)

/-- The entry of the stored frontier for each level is the root of the last complete left sub-tree
of that level over the leaves, or zero if there is none. -/
def HasFrontier (treeHash : Fr254 → Fr254 → Fr254) (treeHeight subTreeHeight : ℕ)
    (leaves : List Fr254) (db : Db) : Prop :=
  db.frontier = some ((frontierOver treeHash (subTreeRoots treeHash subTreeHeight leaves) treeHeight
    (leaves.length / 2 ^ subTreeHeight)).map toStringRep)

/-- The database has the tree over the leaves, which has room for another sub-tree. -/
structure Holds (treeHash : Fr254 → Fr254 → Fr254) (treeHeight subTreeHeight : ℕ)
    (leaves : List Fr254) (db : Db) : Prop where
  /-- The root is never set. -/
  metadata : db.metadata =
    some ⟨treeHeight, subTreeHeight, leaves.length / 2 ^ subTreeHeight, 0⟩
  frontier : HasFrontier treeHash treeHeight subTreeHeight leaves db
  whole : leaves.length % 2 ^ subTreeHeight = 0
  room : leaves.length / 2 ^ subTreeHeight < 2 ^ treeHeight

/-- A call of `append_sub_trees`. -/
structure Call where
  leaves : List Fr254
  updateTree : Bool
  deriving DecidableEq, Repr

/-- The leaves that are committed after the call. -/
def Call.commit (call : Call) (committed : List Fr254) : List Fr254 :=
  if call.updateTree then committed ++ call.leaves else committed

/-- What a call does that behaves like the naive tree: it succeeds and returns the root over the
committed leaves and its own, the frontier is that of the committed leaves afterwards, and a dry run
changes nothing. -/
def Call.Meets (treeHash : Fr254 → Fr254 → Fr254) (fromStr : String → Option Fr254)
    (treeHeight subTreeHeight : ℕ) (committed : List Fr254) (db db' : Db) (call : Call) : Prop :=
  ∃ root, (appendSubTrees treeHash fromStr call.leaves call.updateTree).run db = .ok root db' ∧
    naiveRoot treeHash (treeHeight + subTreeHeight) (committed ++ call.leaves) = some root ∧
    HasFrontier treeHash treeHeight subTreeHeight (call.commit committed) db' ∧
    (call.updateTree = false → db' = db)

/-- All calls of a sequence behave like the naive tree. -/
def MeetAll (treeHash : Fr254 → Fr254 → Fr254) (fromStr : String → Option Fr254)
    (treeHeight subTreeHeight : ℕ) : List Fr254 → Db → List Call → Prop
  | _, _, [] => True
  | committed, db, call :: calls =>
    ∃ db', call.Meets treeHash fromStr treeHeight subTreeHeight committed db db' ∧
      MeetAll treeHash fromStr treeHeight subTreeHeight (call.commit committed) db' calls

/-- A call without leaves is made while the root over the committed leaves is zero, and any other
call leaves room for another sub-tree. -/
def Call.Safe (treeHash : Fr254 → Fr254 → Fr254) (treeHeight subTreeHeight : ℕ)
    (committed : List Fr254) (call : Call) : Prop :=
  if call.leaves = [] then naiveRoot treeHash (treeHeight + subTreeHeight) committed = some 0
  else (committed ++ call.leaves).length / 2 ^ subTreeHeight < 2 ^ treeHeight

/-- All calls of a sequence are safe when their turn comes. -/
def AllSafe (treeHash : Fr254 → Fr254 → Fr254) (treeHeight subTreeHeight : ℕ) :
    List Fr254 → List Call → Prop
  | _, [] => True
  | committed, call :: calls => call.Safe treeHash treeHeight subTreeHeight committed ∧
    AllSafe treeHash treeHeight subTreeHeight (call.commit committed) calls

/-! ### One call -/

theorem toStringRep_ne_empty (a : Fr254) : (toStringRep a).isEmpty = false := by
  rw [Bool.eq_false_iff, ne_eq, String.isEmpty_iff]
  unfold toStringRep display
  split_ifs with ha
  · decide
  · exact Nat.repr_ne_empty

theorem parse_frontier (hparse : ∀ a, fromStr (toStringRep a) = some a) (frontier : List Fr254) :
    ((frontier.map toStringRep).mapM fun s => if s.isEmpty then some 0 else fromStr s) =
      some frontier := by
  induction frontier with
  | nil => rfl
  | cons a frontier ih =>
    rw [List.map_cons, List.mapM_cons, ih]
    simp only [toStringRep_ne_empty, Bool.false_eq_true, if_false, hparse]
    rfl

theorem firstLeaves_subTreeRoots (hzero : treeHash 0 0 = 0) {leaves : List Fr254}
    (hlen : leaves.length % 2 ^ subTreeHeight = 0) :
    firstLeaves 0 (subTreeRoots treeHash subTreeHeight leaves)
      (leaves.length / 2 ^ subTreeHeight) = subTreeRoots treeHash subTreeHeight leaves := by
  funext i
  unfold firstLeaves
  split_ifs with hi
  · rfl
  · have hle : leaves.length ≤ i * 2 ^ subTreeHeight := by
      rw [← Nat.div_mul_cancel (Nat.dvd_of_mod_eq_zero hlen)]
      exact Nat.mul_le_mul_right _ (not_lt.1 hi)
    have hleaves : (layer treeHash)^[subTreeHeight] (leaves.getD · 0) i =
        (layer treeHash)^[subTreeHeight] (fun _ => 0) i := by
      refine iterate_layer_congr fun j hj => List.getD_eq_default _ _ ?_
      exact hle.trans ((Nat.le_div_iff_mul_le (Nat.two_pow_pos _)).1 hj.ge)
    rw [subTreeRoots, hleaves, iterate_layer_const hzero]

theorem subTreeRoots_append {l : List Fr254} (hcommitted : committed.length % 2 ^ subTreeHeight = 0)
    (hlen : l.length % 2 ^ subTreeHeight = 0) {k : ℕ}
    (hk : k < (chunks (2 ^ subTreeHeight) l).length) :
    (makeCompleteTree treeHash subTreeHeight (chunks (2 ^ subTreeHeight) l)[k]).getD 0 0 =
      subTreeRoots treeHash subTreeHeight (committed ++ l)
        (committed.length / 2 ^ subTreeHeight + k) := by
  obtain ⟨-, hsize, -⟩ := chunks_spec (Nat.two_pow_pos subTreeHeight) hlen
  have hle := (hsize _ (List.getElem_mem hk)).le
  rw [makeCompleteTree_getD hle, completeNode_zero, subTreeRoots, iterate_layer_apply]
  refine treeRoot_congr fun j hj => ?_
  have hstart : 2 ^ subTreeHeight * (committed.length / 2 ^ subTreeHeight + k) + j =
      committed.length + (2 ^ subTreeHeight * k + j) := by
    rw [Nat.mul_add, Nat.mul_div_cancel' (Nat.dvd_of_mod_eq_zero hcommitted), Nat.add_assoc]
  rw [getD_chunks hk hj, hstart, List.getD_append_right _ _ _ _ (Nat.le_add_right _ _),
    Nat.add_sub_cancel_left]

theorem subTreeRoots_append_left {l : List Fr254}
    (hcommitted : committed.length % 2 ^ subTreeHeight = 0) {i : ℕ}
    (hi : i < committed.length / 2 ^ subTreeHeight) :
    subTreeRoots treeHash subTreeHeight committed i =
      subTreeRoots treeHash subTreeHeight (committed ++ l) i := by
  refine iterate_layer_congr fun j hj => ?_
  have hlt : j < committed.length := by
    rw [← hj] at hi
    rw [← Nat.div_mul_cancel (Nat.dvd_of_mod_eq_zero hcommitted)]
    exact (Nat.div_lt_iff_lt_mul (Nat.two_pow_pos _)).1 hi
  exact (List.getD_append _ _ _ _ hlt).symm

/-- The root over the sub-trees is the root of the naive tree. -/
theorem naiveRoot_eq_some_iff {leaves : List Fr254} {root : Fr254} :
    naiveRoot treeHash (treeHeight + subTreeHeight) leaves = some root ↔
      leaves.length ≤ 2 ^ (treeHeight + subTreeHeight) ∧
        root = treeRoot treeHash treeHeight (subTreeRoots treeHash subTreeHeight leaves) := by
  rw [naiveRoot_eq_some, Nat.add_comm treeHeight, treeRoot_add]
  rfl

/-- The database after a call that committed. -/
def committedDb (treeHash : Fr254 → Fr254 → Fr254) (treeHeight subTreeHeight : ℕ)
    (leaves : List Fr254) : Db where
  metadata := some ⟨treeHeight, subTreeHeight, leaves.length / 2 ^ subTreeHeight, 0⟩
  frontier := some ((frontierOver treeHash (subTreeRoots treeHash subTreeHeight leaves) treeHeight
    (leaves.length / 2 ^ subTreeHeight)).map toStringRep)

/-- **One call with leaves.** -/
theorem run_appendSubTrees (hzero : treeHash 0 0 = 0)
    (hparse : ∀ a, fromStr (toStringRep a) = some a)
    (hdb : Holds treeHash treeHeight subTreeHeight committed db) {l : List Fr254} (hl : l ≠ [])
    (hlen : l.length % 2 ^ subTreeHeight = 0) (updateTree : Bool) :
    (appendSubTrees treeHash fromStr l updateTree).run db =
      if (committed ++ l).length / 2 ^ subTreeHeight < 2 ^ treeHeight then
        .ok (treeRoot treeHash treeHeight (subTreeRoots treeHash subTreeHeight (committed ++ l)))
          (if updateTree then committedDb treeHash treeHeight subTreeHeight (committed ++ l) else db)
      else .error (.panic "index out of bounds") db := by
  obtain ⟨hchunks, -, hflat⟩ := chunks_spec (Nat.two_pow_pos subTreeHeight) hlen
  have hnonempty : chunks (2 ^ subTreeHeight) l ≠ [] := by
    intro hnil
    rw [hnil, List.flatten_nil] at hflat
    exact hl hflat.symm
  have hcount : committed.length / 2 ^ subTreeHeight + (chunks (2 ^ subTreeHeight) l).length =
      (committed ++ l).length / 2 ^ subTreeHeight := by
    rw [hchunks, List.length_append, Nat.add_div_of_dvd_right (Nat.dvd_of_mod_eq_zero hdb.whole)]
  have hwhole : (committed ++ l).length % 2 ^ subTreeHeight = 0 := by
    rw [List.length_append, Nat.add_mod, hdb.whole, hlen, Nat.zero_add, Nat.zero_mod]
  -- the frontier over the sub-trees that are there, as one over all
  have hfrontier : frontierOver treeHash (subTreeRoots treeHash subTreeHeight committed) treeHeight
      (committed.length / 2 ^ subTreeHeight) = frontierOver treeHash
        (subTreeRoots treeHash subTreeHeight (committed ++ l)) treeHeight
        (committed.length / 2 ^ subTreeHeight) :=
    List.map_congr_left fun i _ =>
      lastLeft_congr fun j hj => subTreeRoots_append_left hdb.whole hj
  have hfold := @foldlM_appendSubTree treeHash (subTreeRoots treeHash subTreeHeight (committed ++ l))
    (committed.length / 2 ^ subTreeHeight) hzero
    ⟨treeHeight, subTreeHeight, committed.length / 2 ^ subTreeHeight, 0⟩
    (chunks (2 ^ subTreeHeight) l) 0 hdb.room
    fun k hk => subTreeRoots_append hdb.whole hlen hk
  rw [if_neg hnonempty, hcount, firstLeaves_subTreeRoots hzero hwhole] at hfold
  have hstored := hdb.frontier
  rw [HasFrontier, hfrontier] at hstored
  have hlength : (frontierOver treeHash (subTreeRoots treeHash subTreeHeight (committed ++ l))
      treeHeight (committed.length / 2 ^ subTreeHeight)).length = treeHeight := by
    simp [frontierOver]
  have hempty : l.isEmpty = false := by simpa using hl
  have hfull : ¬ committed.length / 2 ^ subTreeHeight > 2 ^ treeHeight := hdb.room.le.not_gt
  simp only [appendSubTrees, EStateM.run_bind, EStateM.run_get, hdb.metadata, hstored, okOr,
    parse_frontier hparse, EStateM.run_pure, hlen, ne_eq, not_true, if_false, hempty,
    Bool.false_eq_true, hfull, hlength, hfold]
  by_cases hroom : (committed ++ l).length / 2 ^ subTreeHeight < 2 ^ treeHeight
  · rw [if_pos hroom, if_pos hroom]
    cases updateTree
    · rfl
    · rfl
  · rw [if_neg hroom, if_neg hroom]
    rfl

/-- A call without leaves returns the root of the metadata, which is zero. -/
theorem run_appendSubTrees_nil (hparse : ∀ a, fromStr (toStringRep a) = some a)
    (hdb : Holds treeHash treeHeight subTreeHeight committed db) (updateTree : Bool) :
    (appendSubTrees treeHash fromStr [] updateTree).run db = .ok 0 db := by
  have hstored := hdb.frontier
  rw [HasFrontier] at hstored
  simp only [appendSubTrees, EStateM.run_bind, EStateM.run_get, hdb.metadata, hstored, okOr,
    parse_frontier hparse, EStateM.run_pure, List.length_nil, Nat.zero_mod, ne_eq, not_true, if_false,
    List.isEmpty_nil, if_true]

theorem holds_committedDb {leaves : List Fr254} (hwhole : leaves.length % 2 ^ subTreeHeight = 0)
    (hroom : leaves.length / 2 ^ subTreeHeight < 2 ^ treeHeight) :
    Holds treeHash treeHeight subTreeHeight leaves
      (committedDb treeHash treeHeight subTreeHeight leaves) :=
  ⟨rfl, rfl, hwhole, hroom⟩

theorem run_newAppendOnlyTree (treeHeight subTreeHeight : ℕ) :
    ∃ db, (newAppendOnlyTree treeHeight subTreeHeight).run .empty = .ok () db ∧
      Holds treeHash treeHeight subTreeHeight [] db := by
  refine ⟨_, rfl, ?_, ?_, ?_, ?_⟩
  · rw [List.length_nil, Nat.zero_div]
  · have hzero : frontierOver treeHash (subTreeRoots treeHash subTreeHeight []) treeHeight 0 =
        List.replicate treeHeight 0 := by
      rw [frontierOver, List.eq_replicate_iff]
      refine ⟨by simp, fun x hx => ?_⟩
      obtain ⟨l, -, rfl⟩ := List.mem_map.1 hx
      exact lastLeft_zero
    rw [HasFrontier, List.length_nil, Nat.zero_div, hzero, List.map_replicate]
  · rw [List.length_nil, Nat.zero_mod]
  · rw [List.length_nil, Nat.zero_div]
    exact Nat.two_pow_pos _

/-! ### Sequences of calls -/

/-- The database after a safe call. -/
def Call.dbAfter (treeHash : Fr254 → Fr254 → Fr254) (treeHeight subTreeHeight : ℕ)
    (committed : List Fr254) (db : Db) (call : Call) : Db :=
  if call.leaves = [] ∨ call.updateTree = false then db
  else committedDb treeHash treeHeight subTreeHeight (committed ++ call.leaves)

/-- A safe call leaves the tree over the leaves that are committed. -/
theorem holds_dbAfter (hdb : Holds treeHash treeHeight subTreeHeight committed db) {call : Call}
    (hcall : call.leaves.length % 2 ^ subTreeHeight = 0)
    (hsafe : call.Safe treeHash treeHeight subTreeHeight committed) :
    Holds treeHash treeHeight subTreeHeight (call.commit committed)
      (call.dbAfter treeHash treeHeight subTreeHeight committed db) := by
  by_cases hnil : call.leaves = []
  · have hcommit : call.commit committed = committed := by
      rw [Call.commit, hnil, List.append_nil, ite_self]
    rw [hcommit, Call.dbAfter, if_pos (.inl hnil)]
    exact hdb
  · by_cases hdry : call.updateTree = false
    · have hcommit : call.commit committed = committed := by
        rw [Call.commit, hdry, if_neg Bool.false_ne_true]
      rw [hcommit, Call.dbAfter, if_pos (.inr hdry)]
      exact hdb
    · have hcommit : call.commit committed = committed ++ call.leaves :=
        if_pos (Bool.eq_true_of_not_eq_false hdry)
      rw [Call.Safe, if_neg hnil] at hsafe
      rw [hcommit, Call.dbAfter, if_neg (not_or.2 ⟨hnil, hdry⟩)]
      refine holds_committedDb ?_ hsafe
      rw [List.length_append, Nat.add_mod, hdb.whole, hcall, Nat.zero_add, Nat.zero_mod]

/-- **One call** behaves like the naive tree exactly if it is safe. -/
theorem meets_iff (hzero : treeHash 0 0 = 0) (hparse : ∀ a, fromStr (toStringRep a) = some a)
    (hdb : Holds treeHash treeHeight subTreeHeight committed db) {call : Call}
    (hcall : call.leaves.length % 2 ^ subTreeHeight = 0) {db' : Db} :
    call.Meets treeHash fromStr treeHeight subTreeHeight committed db db' ↔
      call.Safe treeHash treeHeight subTreeHeight committed ∧
        db' = call.dbAfter treeHash treeHeight subTreeHeight committed db := by
  have hfrontier := fun hsafe => (holds_dbAfter hdb hcall hsafe).frontier
  by_cases hnil : call.leaves = []
  · have hafter : call.dbAfter treeHash treeHeight subTreeHeight committed db = db :=
      if_pos (.inl hnil)
    have hrun := run_appendSubTrees_nil hparse hdb call.updateTree
    rw [Call.Safe, if_pos hnil] at hfrontier ⊢
    rw [hafter] at hfrontier ⊢
    rw [Call.Meets, hnil, hrun, List.append_nil]
    constructor
    · rintro ⟨root, ⟨⟩, hroot, -⟩
      exact ⟨hroot, rfl⟩
    · rintro ⟨hroot, rfl⟩
      exact ⟨0, rfl, hroot, hfrontier hroot, fun _ => rfl⟩
  · have hrun := run_appendSubTrees hzero hparse hdb hnil hcall call.updateTree
    rw [Call.Safe, if_neg hnil] at hfrontier ⊢
    rw [Call.Meets, hrun]
    by_cases hroom : (committed ++ call.leaves).length / 2 ^ subTreeHeight < 2 ^ treeHeight
    · have hafter : (if call.updateTree then
          committedDb treeHash treeHeight subTreeHeight (committed ++ call.leaves) else db) =
            call.dbAfter treeHash treeHeight subTreeHeight committed db := by
        rw [Call.dbAfter]
        by_cases hdry : call.updateTree = false
        · rw [if_pos (c := _ ∨ _) (.inr hdry), if_neg (by rw [hdry]; exact Bool.false_ne_true)]
        · rw [if_neg (c := _ ∨ _) (not_or.2 ⟨hnil, hdry⟩),
            if_pos (Bool.eq_true_of_not_eq_false hdry)]
      rw [if_pos hroom, hafter]
      constructor
      · rintro ⟨root, ⟨⟩, -⟩
        exact ⟨hroom, rfl⟩
      · rintro ⟨-, rfl⟩
        refine ⟨_, rfl, naiveRoot_eq_some_iff.2 ⟨?_, rfl⟩, hfrontier hroom, fun hdry => ?_⟩
        · rw [Nat.div_lt_iff_lt_mul (Nat.two_pow_pos _), ← pow_add] at hroom
          exact hroom.le
        · rw [Call.dbAfter, if_pos (.inr hdry)]
    · rw [if_neg hroom]
      constructor
      · rintro ⟨root, ⟨⟩, -⟩
      · rintro ⟨hroom', -⟩
        exact absurd hroom' hroom

theorem meetAll_iff (hzero : treeHash 0 0 = 0) (hparse : ∀ a, fromStr (toStringRep a) = some a)
    {calls : List Call} (hcalls : ∀ call ∈ calls, call.leaves.length % 2 ^ subTreeHeight = 0)
    (hdb : Holds treeHash treeHeight subTreeHeight committed db) :
    MeetAll treeHash fromStr treeHeight subTreeHeight committed db calls ↔
      AllSafe treeHash treeHeight subTreeHeight committed calls := by
  induction calls generalizing committed db with
  | nil => exact Iff.rfl
  | cons call calls ih =>
    rw [List.forall_mem_cons] at hcalls
    rw [MeetAll, AllSafe]
    constructor
    · rintro ⟨db', hmeets, hrest⟩
      obtain ⟨hsafe, rfl⟩ := (meets_iff hzero hparse hdb hcalls.1).1 hmeets
      exact ⟨hsafe, (ih hcalls.2 (holds_dbAfter hdb hcalls.1 hsafe)).1 hrest⟩
    · rintro ⟨hsafe, hrest⟩
      exact ⟨_, (meets_iff hzero hparse hdb hcalls.1).2 ⟨hsafe, rfl⟩,
        (ih hcalls.2 (holds_dbAfter hdb hcalls.1 hsafe)).2 hrest⟩

/-- **The append-only tree is the naive tree for a sequence of calls if and only if they are all
safe**: those with leaves leave room for another sub-tree, and those without find a root that is
zero.  The numbers of the code are natural numbers for trees of height 63 at most. -/
theorem append_only_tree_iff (hzero : treeHash 0 0 = 0)
    (hparse : ∀ a, fromStr (toStringRep a) = some a) (treeHeight : ℕ) {subTreeHeight : ℕ}
    {calls : List Call} (hcalls : ∀ call ∈ calls, call.leaves.length % 2 ^ subTreeHeight = 0) :
    (∃ db, (newAppendOnlyTree treeHeight subTreeHeight).run .empty = .ok () db ∧
        MeetAll treeHash fromStr treeHeight subTreeHeight [] db calls) ↔
      AllSafe treeHash treeHeight subTreeHeight [] calls := by
  obtain ⟨db, hnew, hdb⟩ := @run_newAppendOnlyTree treeHash treeHeight subTreeHeight
  constructor
  · rintro ⟨db', hnew', hall⟩
    rw [hnew] at hnew'
    cases hnew'
    exact (meetAll_iff hzero hparse hcalls hdb).1 hall
  · intro hsafe
    exact ⟨db, hnew, (meetAll_iff hzero hparse hcalls hdb).2 hsafe⟩

end Runs

/-! ### Samples -/

/-- A parser of decimal numbers, which stands in for that of the field. -/
def sampleFromStr (s : String) : Option Fr254 :=
  if s.toList.all Char.isDigit then some (Nat.ofDigitChars 10 s.toList 0 : ℕ) else none

theorem sampleFromStr_toStringRep (a : Fr254) : sampleFromStr (toStringRep a) = some a := by
  have hrep : toStringRep a = a.val.repr := by
    unfold toStringRep display
    split_ifs with ha
    · rw [ha, ZMod.val_zero]
      rfl
    · rfl
  have hdigits : a.val.repr.toList.all Char.isDigit = true := by
    rw [Nat.toList_repr, List.all_eq_true]
    exact fun c hc => Nat.isDigit_of_mem_toDigits (by omega) (by omega) hc
  rw [hrep, sampleFromStr, if_pos hdigits, Nat.toList_repr,
    Nat.ofDigitChars_toDigits (by omega) (by omega), ZMod.natCast_zmod_val]

/-- A commit, a dry run and a commit of two sub-trees, of one leaf each. -/
def sampleCalls : List Call :=
  [⟨[(5 : ℕ)], true⟩, ⟨[(7 : ℕ)], false⟩, ⟨[(7 : ℕ), (9 : ℕ)], true⟩]

theorem append_only_tree_iff_sample :
    ∃ db, (newAppendOnlyTree 2 0).run .empty = .ok () db ∧
      MeetAll sampleHash sampleFromStr 2 0 [] db sampleCalls := by
  refine (append_only_tree_iff (by decide +kernel) sampleFromStr_toStringRep 2 (by decide)).2 ?_
  simp [sampleCalls, AllSafe, Call.Safe, Call.commit]

/-- Two commits that complete a tree. -/
def completingCalls : List Call := [⟨[(5 : ℕ)], true⟩, ⟨[(7 : ℕ)], true⟩]

/-- A commit and a call without leaves. -/
def emptyCalls : List Call := [⟨[(5 : ℕ)], true⟩, ⟨[], true⟩]

/-- The append that completes a tree panics, and a call without leaves returns zero. -/
theorem append_only_tree_differs :
    (∀ call ∈ completingCalls ++ emptyCalls, call.leaves.length % 2 ^ 0 = 0) ∧
      (completingCalls.foldl (fun committed call => call.commit committed) []).length ≤ 2 ^ 1 ∧
      (emptyCalls.foldl (fun committed call => call.commit committed) []).length ≤ 2 ^ 1 ∧
      ∃ db, (newAppendOnlyTree 1 0).run .empty = .ok () db ∧
        ¬MeetAll sampleHash sampleFromStr 1 0 [] db completingCalls ∧
        ¬MeetAll sampleHash sampleFromStr 1 0 [] db emptyCalls := by
  obtain ⟨db, hnew, hdb⟩ := @run_newAppendOnlyTree sampleHash 1 0
  have hzero : sampleHash 0 0 = 0 := by decide +kernel
  refine ⟨by decide, by decide, by decide, db, hnew, ?_, ?_⟩
  · rw [meetAll_iff hzero sampleFromStr_toStringRep (by decide) hdb]
    simp [completingCalls, AllSafe, Call.Safe, Call.commit]
  · rw [meetAll_iff hzero sampleFromStr_toStringRep (by decide) hdb]
    have hroot : naiveRoot sampleHash (1 + 0) [((5 : ℕ) : Fr254)] ≠ some 0 := by decide +kernel
    rintro ⟨-, hsafe, -⟩
    exact hroot hsafe

end AppendOnly

end Trees

end Nightfall
