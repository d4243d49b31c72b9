import Nightfall.Data.Chunks

/-!
# Codecs over lists of words

A codec writes values as lists of words, without separators and without lengths.  It reads back the
values of a kind if all of them are written with one length and what was written is read as the value
(`ListCodec.Reads`).  Such codecs are put together: pairs, and lists with a known number of entries.
-/

namespace Nightfall

/-- Values as lists of words, and lists of words as values. -/
structure ListCodec (F α : Type) where
  encode : α → List F
  decode : List F → Option α

namespace ListCodec

variable {F α β : Type} {c : ListCodec F α} {d : ListCodec F β} {P : α → Prop} {Q : β → Prop}
  {n m : ℕ}

/-- Every value that satisfies `P` is written as `n` words, and read back. -/
def Reads (c : ListCodec F α) (P : α → Prop) (n : ℕ) : Prop :=
  ∀ a, P a → (c.encode a).length = n ∧ c.decode (c.encode a) = some a

/-- One word. -/
def word : ListCodec F F := ⟨fun a => [a], List.head?⟩

theorem reads_word : (word : ListCodec F F).Reads (fun _ => True) 1 := fun _ _ => ⟨rfl, rfl⟩

/-- One value after the other; the first one has `n` words. -/
def pair (c : ListCodec F α) (n : ℕ) (d : ListCodec F β) : ListCodec F (α × β) where
  encode a := c.encode a.1 ++ d.encode a.2
  decode l := do
    let a ← c.decode (l.take n)
    let b ← d.decode (l.drop n)
    pure (a, b)

theorem Reads.pair (hc : c.Reads P n) (hd : d.Reads Q m) :
    (c.pair n d).Reads (fun a => P a.1 ∧ Q a.2) (n + m) := by
  intro a ha
  obtain ⟨hlength, hdecode⟩ := hc a.1 ha.1
  obtain ⟨hlength', hdecode'⟩ := hd a.2 ha.2
  constructor
  · rw [ListCodec.pair, List.length_append, hlength, hlength']
  · simp only [ListCodec.pair]
    rw [List.take_left' hlength, List.drop_left' hlength, hdecode, hdecode']
    rfl

/-- The values of `l`, each with `n` words. -/
def list (c : ListCodec F α) (n : ℕ) : ListCodec F (List α) where
  encode l := l.flatMap c.encode
  decode l := (chunks n l).mapM c.decode

/-- What was written one after the other is read one after the other. -/
theorem Reads.mapM_decode (hc : c.Reads P n) {l : List α} (hl : ∀ a ∈ l, P a) :
    (l.map c.encode).mapM c.decode = some l := by
  induction l with
  | nil => rfl
  | cons a l ih =>
    rw [List.forall_mem_cons] at hl
    rw [List.map_cons, List.mapM_cons, (hc a hl.1).2, ih hl.2]
    rfl

theorem Reads.list (hc : c.Reads P n) (hn : 0 < n) (k : ℕ) :
    (c.list n).Reads (fun l => l.length = k ∧ ∀ a ∈ l, P a) (k * n) := by
  rintro l ⟨rfl, hl⟩
  have hparts : ∀ part ∈ l.map c.encode, part.length = n := by
    intro part hpart
    obtain ⟨a, ha, rfl⟩ := List.mem_map.1 hpart
    exact (hc a (hl a ha)).1
  have hchunks := chunks_flatten_append hn hparts []
  rw [List.append_nil, chunks_nil hn, List.append_nil, ← List.flatMap_def] at hchunks
  constructor
  · simp only [ListCodec.list]
    rw [List.flatMap_def, List.length_flatten, List.map_congr_left hparts, List.map_const',
      List.sum_replicate_nat, List.length_map]
  · simp only [ListCodec.list]
    rw [hchunks]
    exact hc.mapM_decode hl

/-- Values that are written as other values. -/
def comap (c : ListCodec F β) (f : α → β) (g : β → Option α) : ListCodec F α where
  encode a := c.encode (f a)
  decode l := (c.decode l).bind g

theorem Reads.comap (hd : d.Reads Q n) {f : α → β} {g : β → Option α}
    (hf : ∀ a, P a → Q (f a) ∧ g (f a) = some a) : (d.comap f g).Reads P n := by
  intro a ha
  obtain ⟨hlength, hdecode⟩ := hd _ (hf a ha).1
  refine ⟨hlength, ?_⟩
  simp only [ListCodec.comap]
  rw [hdecode, Option.bind_some, (hf a ha).2]

end ListCodec

end Nightfall
