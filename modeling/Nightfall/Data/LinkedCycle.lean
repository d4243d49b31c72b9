import Mathlib.Data.List.Cycle
import Mathlib.Data.List.Iterate

/-!
# Doubly linked cycles

A doubly linked cycle is kept in two functions, `next` and `prev`, of the addresses of its nodes.
`Linked next prev C` says that they link the nodes of the cycle `C`; what they are elsewhere does
not matter.

* `Linked.insert`, `Linked.remove` : the four and the two writes that put a node behind another one
  and take a node out.
* `Linked.iterate_next` : following `next` visits every node once and comes back.
-/

namespace Nightfall

variable {α : Type*}

/-- `next` leads from one node to the other and `prev` leads back. -/
def Link (next prev : α → α) (a b : α) : Prop := next a = b ∧ prev b = a

/-- `next` and `prev` link the nodes of a cycle. -/
structure Linked (next prev : α → α) (C : Cycle α) : Prop where
  nodup : C.Nodup
  chain : C.Chain (Link next prev)

/-- A cycle read off from one of its nodes. -/
theorem Cycle.exists_eq_cons {C : Cycle α} {a : α} (h : a ∈ C) :
    ∃ l : List α, C = ((a :: l : List α) : Cycle α) := by
  induction C using Quotient.inductionOn' with
  | h l =>
    obtain ⟨l₁, l₂, rfl⟩ := List.append_of_mem (show a ∈ l from h)
    exact ⟨l₂ ++ l₁, Cycle.coe_eq_coe.2 List.isRotated_append⟩

namespace Linked

variable {next prev next' prev' : α → α}

theorem singleton {a : α} (hnext : next a = a) (hprev : prev a = a) :
    Linked next prev ([a] : List α) :=
  ⟨List.nodup_singleton a, (Cycle.chain_singleton ..).2 ⟨hnext, hprev⟩⟩

/-- Only the links of the nodes matter. -/
theorem congr {C : Cycle α} (h : Linked next prev C) (hnext : ∀ a ∈ C, next' a = next a)
    (hprev : ∀ a ∈ C, prev' a = prev a) : Linked next' prev' C := by
  refine ⟨h.nodup, ?_⟩
  induction C using Cycle.induction_on with
  | nil => trivial
  | cons a l _ =>
    refine List.IsChain.imp_of_mem_imp (fun x y hx hy hlink => ?_) h.chain
    have hmem : ∀ z ∈ a :: (l ++ [a]), z ∈ ((a :: l : List α) : Cycle α) := by
      intro z hz
      simp only [List.mem_cons, List.mem_append, List.not_mem_nil, or_false, Cycle.mem_coe_iff]
        at hz ⊢
      tauto
    exact ⟨(hnext x (hmem x hx)).trans hlink.1, (hprev y (hmem y hy)).trans hlink.2⟩

section Nodes

variable {a : α} {l : List α}

/-- The last node leads to the first one. -/
theorem link_getLast (h : Linked next prev ((a :: l : List α) : Cycle α)) {x : α}
    (hx : x ∈ (a :: l).getLast?) : Link next prev x a :=
  (List.isChain_append.1 h.chain).2.2 x hx a rfl

/-- The neighbours of a node are nodes that lead to it. -/
theorem neighbours (h : Linked next prev ((a :: l : List α) : Cycle α)) :
    (next a ∈ a :: l ∧ prev (next a) = a) ∧ (prev a ∈ a :: l ∧ next (prev a) = a) := by
  constructor
  · cases l with
    | nil =>
      have hlink := (Cycle.chain_singleton ..).1 h.chain
      rw [hlink.1]
      exact ⟨List.mem_singleton_self a, hlink.2⟩
    | cons b l =>
      have hlink := (List.isChain_cons_cons.1 h.chain).1
      rw [hlink.1]
      exact ⟨by simp, hlink.2⟩
  · have hlast := List.getLast?_eq_getLast_of_ne_nil (List.cons_ne_nil a l)
    have hlink := h.link_getLast hlast
    rw [hlink.2]
    exact ⟨List.getLast_mem _, hlink.1⟩

end Nodes

variable {C : Cycle α}

theorem next_mem (h : Linked next prev C) {a : α} (ha : a ∈ C) : next a ∈ C := by
  obtain ⟨l, rfl⟩ := Cycle.exists_eq_cons ha
  exact h.neighbours.1.1

theorem prev_mem (h : Linked next prev C) {a : α} (ha : a ∈ C) : prev a ∈ C := by
  obtain ⟨l, rfl⟩ := Cycle.exists_eq_cons ha
  exact h.neighbours.2.1

theorem prev_next (h : Linked next prev C) {a : α} (ha : a ∈ C) : prev (next a) = a := by
  obtain ⟨l, rfl⟩ := Cycle.exists_eq_cons ha
  exact h.neighbours.1.2

theorem next_prev (h : Linked next prev C) {a : α} (ha : a ∈ C) : next (prev a) = a := by
  obtain ⟨l, rfl⟩ := Cycle.exists_eq_cons ha
  exact h.neighbours.2.2

/-- Put the node `a` behind the node `c`: between the node before `c` and `c`. -/
theorem insert {a c : α} {l : List α} (h : Linked next prev ((c :: l : List α) : Cycle α))
    (ha : a ∉ c :: l) (hfrom : next' (prev c) = a) (hto : next' a = c) (hback : prev' a = prev c)
    (hc : prev' c = a) (hnext : ∀ x ∈ c :: l, x ≠ prev c → next' x = next x)
    (hprev : ∀ x ∈ c :: l, x ≠ c → prev' x = prev x) :
    Linked next' prev' ((c :: (l ++ [a]) : List α) : Cycle α) := by
  have hnodup : (c :: l).Nodup := h.nodup
  have hchain : (c :: l).IsChain (Link next' prev') := by
    have hpath : (c :: l).IsChain (Link next prev) := h.chain.left_of_append
    refine List.IsChain.imp_of_mem_tail_imp (fun x y hx hy hlink => ?_) hpath
    -- `y` is not the first node, so `x` is not the last one
    have hy' : y ≠ c := fun heq => (List.nodup_cons.1 hnodup).1 (heq ▸ hy)
    have hx' : x ≠ prev c := fun heq => hy' <| by
      rw [← hlink.1, heq, h.next_prev (List.mem_cons_self ..)]
    exact ⟨(hnext x hx hx').trans hlink.1, (hprev y (List.mem_cons_of_mem _ hy) hy').trans hlink.2⟩
  refine ⟨?_, ?_⟩
  · rw [Cycle.nodup_coe_iff, ← List.cons_append, List.nodup_append_comm]
    exact List.nodup_cons.2 ⟨ha, hnodup⟩
  · have hlist : c :: (l ++ [a] ++ [c]) = (c :: l) ++ [a, c] := by simp
    rw [Cycle.chain_coe_cons, hlist]
    refine hchain.append (List.isChain_pair.2 ⟨hto, hc⟩) fun x hx y hy => ?_
    cases hy
    rw [← (h.link_getLast hx).2]
    exact ⟨hfrom, hback⟩

/-- Take the node `a` out. -/
theorem remove {a : α} {l : List α} (h : Linked next prev ((a :: l : List α) : Cycle α))
    (hl : l ≠ []) (hfrom : next' (prev a) = next a) (hto : prev' (next a) = prev a)
    (hnext : ∀ x ∈ l, x ≠ prev a → next' x = next x)
    (hprev : ∀ x ∈ l, x ≠ next a → prev' x = prev x) : Linked next' prev' (l : Cycle α) := by
  obtain ⟨ha, hnodup⟩ := List.nodup_cons.1 (show (a :: l).Nodup from h.nodup)
  obtain ⟨b, m, rfl⟩ := List.exists_cons_of_ne_nil hl
  have hb : next a = b := (List.isChain_cons_cons.1 h.chain).1.1
  have hchain : (b :: m).IsChain (Link next' prev') := by
    have hpath : (b :: m).IsChain (Link next prev) :=
      (List.isChain_cons_cons.1 h.chain).2.left_of_append
    refine List.IsChain.imp_of_mem_imp (fun x y hx hy hlink => ?_) hpath
    -- `a` is not in the list, so neither are its links
    have hx' : x ≠ prev a := fun heq => ha <| by
      rwa [← h.next_prev (List.mem_cons_self ..), ← heq, hlink.1]
    have hy' : y ≠ next a := fun heq => ha <| by
      rwa [← h.prev_next (List.mem_cons_self ..), ← heq, hlink.2]
    exact ⟨(hnext x hx hx').trans hlink.1, (hprev y hy hy').trans hlink.2⟩
  refine ⟨hnodup, hchain.append (List.isChain_singleton b) fun x hx y hy => ?_⟩
  cases hy
  have hlast : x ∈ (a :: b :: m).getLast? := by rwa [List.getLast?_cons_cons]
  rw [← (h.link_getLast hlast).2, ← hb]
  exact ⟨hfrom, hto⟩

/-- Following `next` visits every node once and comes back. -/
theorem iterate_next {a : α} {l : List α} (h : Linked next prev ((a :: l : List α) : Cycle α)) :
    List.iterate next a (l.length + 1) = a :: l ∧ next^[l.length + 1] a = a := by
  have hvisit : ∀ (l : List α) (b c : α), (b :: (l ++ [c])).IsChain (Link next prev) →
      List.iterate next b (l.length + 1) = b :: l ∧ next^[l.length + 1] b = c := by
    intro l
    induction l with
    | nil =>
      intro b c hchain
      exact ⟨rfl, (List.isChain_pair.1 hchain).1⟩
    | cons d l ih =>
      intro b c hchain
      obtain ⟨hlink, hrest⟩ := List.isChain_cons_cons.1 hchain
      obtain ⟨hlist, hlast⟩ := ih d c hrest
      rw [List.length_cons, List.iterate, Function.iterate_succ_apply, hlink.1]
      exact ⟨congrArg _ hlist, hlast⟩
  exact hvisit l a a h.chain

end Linked

end Nightfall
