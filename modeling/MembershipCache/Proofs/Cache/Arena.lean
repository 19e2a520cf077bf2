import Mathlib.Data.Set.Function
import MembershipCache.Proofs.Cache.Reachable

/-! The arena of a cache, slot by slot. Every node has one slot for every symbol; what is stored in
a slot is a later node of the arena; and every node but the root is stored in one slot of one node.
So the slots form a tree, and its nodes are the words that lead to them. -/
namespace MembershipCache
universe u v

namespace Tree
open Relation
variable {σ : Type u} {P : Type v} [DecidableEq σ] [Hashable σ]

/-- What the arena stores: no slot, an empty one, or one with a child. -/
def slot? (t : Tree σ P) (parent index : Nat) : Option (Option NodeId) :=
  t.nodes[parent]?.bind (·.children[index]?)

def Stores (t : Tree σ P) (parent child : Nat) : Prop :=
  ∃ i c, t.slot? parent i = some (some c) ∧ c.position = child

theorem slot?_position {t : Tree σ P} {id c : NodeId} {i : Nat} :
    t.slot? id.position i = some (some c) ↔ t.child? id i = some c := by
  simp only [slot?, child?, node?, Option.bind_eq_some_iff, Node.child?, Option.join_eq_some_iff]

namespace WellFormed
variable {t : Tree σ P} (ht : t.WellFormed)
include ht

theorem child?_of_slot? {p i : Nat} {c : NodeId} (h : t.slot? p i = some (some c)) :
    ∃ id, id.position = p ∧ t.child? id i = some c := by
  obtain ⟨n, hn, _⟩ := Option.bind_eq_some_iff.1 h
  have hpos := ht.position_ofPosition (Array.getElem?_eq_some_iff.1 hn).1
  refine ⟨.ofPosition p, hpos, slot?_position.1 ?_⟩
  rw [hpos]
  exact h

theorem slot?_later {p i : Nat} {c : NodeId} (h : t.slot? p i = some (some c)) :
    p < c.position ∧ c.position < t.size := by
  obtain ⟨id, rfl, hc⟩ := ht.child?_of_slot? h
  exact ⟨ht.child_later hc, ht.child_exists hc⟩

theorem existsUnique_slot {n : Nat} (hpos : 0 < n) (hn : n < t.size) :
    ∃! s : Nat × Nat, t.slot? s.1 s.2 = some (some (.ofPosition n)) := by
  have hid := ht.position_ofPosition hn
  obtain ⟨parent, i, hi⟩ := ht.parent_exists (hid.symm ▸ hpos) (hid.symm ▸ hn)
  refine ⟨(parent.position, i), slot?_position.2 hi, ?_⟩
  intro e hs
  obtain ⟨p, j⟩ := e
  obtain ⟨parent', rfl, hj⟩ := ht.child?_of_slot? hs
  obtain ⟨rfl, rfl⟩ := ht.parent_unique hi hj
  rfl

theorem slot?_ne_root {p i : Nat} : t.slot? p i ≠ some (some .root) := by
  intro h
  exact absurd (ht.slot?_later h).1 (Nat.not_lt_zero p)

theorem lt_of_stores {p q : Nat} (h : t.Stores p q) : p < q := by
  obtain ⟨i, c, hc, rfl⟩ := h
  exact (ht.slot?_later hc).1

theorem acyclic {p : Nat} : ¬TransGen t.Stores p p := by
  have hlt : ∀ {q}, TransGen t.Stores p q → p < q := by
    intro q h
    induction h with
    | single h => exact ht.lt_of_stores h
    | tail _ h ih => exact Nat.lt_trans ih (ht.lt_of_stores h)
  intro h
  exact Nat.lt_irrefl p (hlt h)

theorem existsUnique_word {id : NodeId} (hid : id.position < t.size) :
    ∃! w, t.nodeOf? w = some id := by
  obtain ⟨w, hw⟩ := ht.exists_word hid
  exact ⟨w, hw, fun v hv => ht.nodeOf?_inj hv hw⟩

theorem bijOn_nodeOf? : Set.BijOn (fun w => (t.nodeOf? w).map NodeId.position)
    {w | (t.nodeOf? w).isSome} (some '' {n | n < t.size}) := by
  refine ⟨?_, ?_, ?_⟩
  · intro w hw
    obtain ⟨id, hid⟩ := Option.isSome_iff_exists.1 hw
    exact ⟨id.position, ht.nodeOf?_lt hid, by simp only [hid, Option.map_some]⟩
  · intro v hv w hw heq
    obtain ⟨id, hid⟩ := Option.isSome_iff_exists.1 hv
    obtain ⟨id', hid'⟩ := Option.isSome_iff_exists.1 hw
    simp only [hid, hid', Option.map_some, Option.some.injEq, NodeId.position_inj] at heq
    exact ht.nodeOf?_inj hid (heq ▸ hid')
  · rintro _ ⟨n, hn, rfl⟩
    have hpos := ht.position_ofPosition hn
    obtain ⟨w, hw⟩ := ht.exists_word (hpos.symm ▸ hn : (NodeId.ofPosition n).position < t.size)
    refine ⟨w, Option.isSome_of_eq_some hw, ?_⟩
    simp only [hw, Option.map_some, hpos]

end WellFormed

/-- The arena of every reachable tree: how wide its nodes are, what their slots store, and that the
words with a node and the places in the arena correspond. -/
theorem Reachable.arena_is_tree {P : Type} {t : Tree σ P} (ht : t.Reachable)
    (hroom : t.size ≤ UInt32.size) :
    t.width = t.alphabet.size ∧
    (∀ n ∈ t.nodes, n.children.size = t.width) ∧
    (∀ p i c, t.slot? p i = some (some c) → p < c.position ∧ c.position < t.size) ∧
    (∀ n, 0 < n → n < t.size → ∃! s : Nat × Nat, t.slot? s.1 s.2 = some (some (.ofPosition n))) ∧
    (∀ p i, t.slot? p i ≠ some (some .root)) ∧
    (∀ p, ¬TransGen t.Stores p p) ∧
    (∀ id : NodeId, id.position < t.size → ∃! w, t.nodeOf? w = some id) ∧
    Set.BijOn (fun w => (t.nodeOf? w).map NodeId.position) {w | (t.nodeOf? w).isSome}
      (some '' {n | n < t.size}) := by
  obtain ⟨ws, h⟩ := ht.exists_holds hroom
  have hwf := h.wellFormed
  refine ⟨h.flush.width_eq, h.flush.node_width, ?_, ?_, ?_, ?_, ?_, hwf.bijOn_nodeOf?⟩
  · intro p i c hc
    exact hwf.slot?_later hc
  · intro n hpos hn
    exact hwf.existsUnique_slot hpos hn
  · intro p i
    exact hwf.slot?_ne_root
  · intro p
    exact hwf.acyclic
  · intro id hid
    exact hwf.existsUnique_word hid

theorem arena_is_tree_over_growth :
    let t := ((Revisable.new (.ofList [1, 2]) {}).run [.insertAs [1, 2] true .oracle,
      .insertAs [7] true .user, .addSymbol 7, .insertAs [1, 7] false .user, .retire .root,
      .insertAs [1, 2] false .oracle]).tree
    t.Reachable ∧ t.size ≤ UInt32.size ∧ t.width = t.alphabet.size ∧
      (∀ n ∈ t.nodes, n.children.size = t.width) ∧
      Set.BijOn (fun w => (t.nodeOf? w).map NodeId.position) {w | (t.nodeOf? w).isSome}
        (some '' {n | n < t.size}) := by
  intro t
  have hreachable : t.Reachable := .revisable ..
  have hroom : t.size ≤ UInt32.size :=
    Nat.le_trans (Revisable.size_run_le (.ofList [1, 2]) {} _) (by decide)
  obtain ⟨hwidth, hnodes, _, _, _, _, _, hwords⟩ := hreachable.arena_is_tree hroom
  exact ⟨hreachable, hroom, hwidth, hnodes, hwords⟩

end Tree
end MembershipCache
