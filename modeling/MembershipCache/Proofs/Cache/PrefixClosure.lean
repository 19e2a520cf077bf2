import Mathlib.Data.Set.Card
import MembershipCache.Proofs.Cache.Outline
import MembershipCache.Proofs.Cache.Reachable

/-! The tree behind a cache is the prefix closure of its committed words: it has a node for the
empty word and for every beginning of a committed word, and for nothing else, so that its leaves are
committed. The nodes are numbered as their words were first used. -/
namespace MembershipCache
universe u v

namespace Tree
variable {σ : Type u} {P : Type v} [DecidableEq σ] [Hashable σ]

/-- The words that the committed ones make the tree have a node for. -/
def closure (t : Tree σ P) : Set (Word σ) := {w | w = [] ∨ ∃ u, w <+: u ∧ (t.lookup u).1 = true}

theorem isSome_nodeOf?_of_prefix {t : Tree σ P} {p w : Word σ} (hp : p <+: w)
    (hw : (t.nodeOf? w).isSome) : (t.nodeOf? p).isSome := by
  obtain ⟨v, rfl⟩ := hp
  obtain ⟨id, hid⟩ := Option.isSome_iff_exists.1 hw
  rw [nodeOf?, List.foldlM_append] at hid
  obtain ⟨c, hc, _⟩ := Option.bind_eq_some_iff.1 hid
  exact Option.isSome_of_eq_some hc

theorem isSome_nodeOf?_of_committed {t : Tree σ P} {w : Word σ} (hw : (t.committed? w).isSome) :
    (t.nodeOf? w).isSome := by
  obtain ⟨b, hb⟩ := Option.isSome_iff_exists.1 hw
  obtain ⟨id, hid, _⟩ := Option.bind_eq_some_iff.1 hb
  exact Option.isSome_of_eq_some hid

namespace Holds
variable {t : Tree σ P} {ws : List (Word σ)} (h : t.Holds ws)
include h

theorem isSome_nodeOf?_iff {w : Word σ} : (t.nodeOf? w).isSome ↔ w ∈ t.closure := by
  constructor
  · intro hw
    rcases Word.mem_firstUses.1 ((h.numbers.mem_iff h.wellFormed).2 hw) with rfl | ⟨u, hu, hwu⟩
    · exact Or.inl rfl
    · exact Or.inr ⟨u, hwu, h.committed u hu⟩
  · intro hw
    rcases hw with rfl | ⟨u, hwu, hu⟩
    · rfl
    · exact isSome_nodeOf?_of_prefix hwu (isSome_nodeOf?_of_committed hu)

theorem ncard_closure : t.closure.ncard = t.size := by
  have hwords : t.closure = ((Word.firstUses ws).toFinset : Set (Word σ)) := by
    ext w
    rw [← h.isSome_nodeOf?_iff, ← h.numbers.mem_iff h.wellFormed]
    simp
  have hnodup : (Word.firstUses ws).Nodup := by
    apply List.Nodup.of_map fun w => (t.nodeOf? w).map NodeId.position
    rw [h.numbers]
    exact List.nodup_range.map (Option.some_injective _)
  rw [hwords, Set.ncard_coe_finset, List.toFinset_card_of_nodup hnodup, h.numbers.length_eq]

theorem isKnown_of_leaf {id : NodeId} (hroot : id ≠ .root) (hid : id.position < t.size)
    (hleaf : ∀ i, t.child? id i = none) : (t.verdictAt id).isKnown := by
  obtain ⟨w, hw⟩ := h.wellFormed.exists_word hid
  rcases h.isSome_nodeOf?_iff.1 (Option.isSome_of_eq_some hw) with rfl | ⟨u, ⟨v, rfl⟩, hu⟩
  · exact absurd (Option.some.inj hw).symm hroot
  · cases v with
    | nil =>
      rw [List.append_nil, lookup, committed?, hw] at hu
      exact hu
    | cons s v =>
      -- a longer committed word would leave through a child
      have hnext : (t.nodeOf? (w ++ [s])).isSome :=
        isSome_nodeOf?_of_prefix ⟨v, by simp⟩ (isSome_nodeOf?_of_committed hu)
      obtain ⟨c, hc⟩ := Option.isSome_iff_exists.1 hnext
      rw [nodeOf?_concat, hw, Option.bind_some] at hc
      obtain ⟨i, _, hi⟩ := Option.bind_eq_some_iff.1 hc
      rw [hleaf] at hi
      cases hi

end Holds

/-- The nodes of a cache are the beginnings of its committed words, and they stand in the arena in
the order in which the inserts used them first. -/
theorem Built.nodes_are_prefixes {P : Type} {t : Tree σ P} {ws : List (Word σ)} (ht : t.Built ws)
    (hroom : t.size ≤ UInt32.size) :
    (∀ w, (t.nodeOf? w).isSome ↔ w = [] ∨ ∃ u, w <+: u ∧ (t.lookup u).1 = true) ∧
    {w | w = [] ∨ ∃ u, w <+: u ∧ (t.lookup u).1 = true}.ncard = t.size ∧
    (∀ id : NodeId, id ≠ .root → id.position < t.size → (∀ i, t.child? id i = none) →
      (t.verdictAt id).isKnown) ∧
    (Word.firstUses ws).map (fun w => (t.nodeOf? w).map NodeId.position) =
      (List.range t.size).map some := by
  have h := ht.holds hroom
  refine ⟨?_, h.ncard_closure, ?_, h.numbers⟩
  · intro w
    exact h.isSome_nodeOf?_iff
  · intro id hroot hid hleaf
    exact h.isKnown_of_leaf hroot hid hleaf

theorem nodes_are_prefixes_over_conflict :
    let c : WriteOnce Nat := .new (.ofList [1, 2]) {}
    let rs : List (WriteOnce.Request Nat) := [.insert [1, 2] true, .insert [1, 7] true,
      .addSymbol 7, .insert [1, 7] false, .insert [1, 2] false, .insert [2, 1, 7] true]
    let t := (c.run rs).tree
    t.Built (c.entered rs) ∧ t.size ≤ UInt32.size ∧
      c.entered rs = [[1, 2], [1, 7], [2, 1, 7]] ∧ t.size = 7 ∧
      t.nodeOf? [2, 1] = some (.ofPosition 5) ∧ t.lookup [1, 2] = (true, some true) ∧
      t.lookup [2, 1] = (false, none) ∧
      ((t.nodeOf? [2, 1]).isSome ↔
        [2, 1] = ([] : Word Nat) ∨ ∃ u, [2, 1] <+: u ∧ (t.lookup u).1 = true) ∧
      (Word.firstUses (c.entered rs)).map (fun w => (t.nodeOf? w).map NodeId.position) =
        (List.range t.size).map some := by
  intro c rs t
  have hbuilt : t.Built (c.entered rs) := .writeOnce (.ofList [1, 2]) {} rs
  have hroom : t.size ≤ UInt32.size :=
    Nat.le_trans (WriteOnce.size_run_le (.ofList [1, 2]) {} rs) (by decide)
  have hletters : (Alphabet.ofList [1, 2]).toList = [1, 2] :=
    Alphabet.toList_ofList_of_nodup (by decide)
  have h := WriteOnce.describes_run hletters {} rs hroom
  have hlookup := WriteOnce.lookup_run hletters {} rs hroom
  obtain ⟨hnodes, _, _, hnumbers⟩ := hbuilt.nodes_are_prefixes hroom
  exact ⟨hbuilt, hroom, h.words_eq.trans (by decide), h.size_eq.trans (by decide),
    (h.nodeOf?_eq [2, 1]).trans (by decide), hlookup [1, 2], hlookup [2, 1], hnodes [2, 1],
    hnumbers⟩

end Tree
end MembershipCache
