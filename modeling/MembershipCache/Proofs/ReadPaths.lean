import MembershipCache.Proofs.Cache.Arena
import MembershipCache.Proofs.Cache.Commutation

/-! The ways to read a tree: what its slots store, the child under a symbol, the labelled edges of a
node, and the steps of its two views. Edges get their symbols from the indices of the slots, and
steps get the indices from the symbols; the alphabet answers both ways alike and covers every slot,
so all of them show the same children, and the same nodes for words. -/
namespace MembershipCache
universe u v

namespace Tree
variable {σ : Type u} [DecidableEq σ] [Hashable σ]

section Edges
variable {P : Type v} {t : Tree σ P}

theorem WellFormed.slot?_iff_mem_outgoing (ht : t.WellFormed) {id c : NodeId} {i : Nat} :
    t.slot? id.position i = some (some c) ↔
      ∃ s, t.alphabet.index? s = some i ∧ (s, c) ∈ t.outgoing id := by
  rw [slot?_position]
  constructor
  · intro h
    obtain ⟨s, hs, hc⟩ := ht.exists_successor h
    exact ⟨s, Alphabet.index?_eq_some_iff.2 hs, mem_outgoing.2 hc⟩
  · rintro ⟨s, hs, hc⟩
    rw [mem_outgoing, successor?, hs] at hc
    exact hc

theorem outgoing_eq_nil_of_size_le {id : NodeId} (h : t.size ≤ id.position) :
    t.outgoing id = [] := by
  refine List.eq_nil_iff_forall_not_mem.2 ?_
  rintro ⟨s, c⟩ hmem
  exact absurd (lt_size_of_successor? (mem_outgoing.1 hmem)) (Nat.not_lt_of_le h)

theorem accepts_acceptor_iff {w : Word σ} :
    t.acceptor.accepts w = true ↔ t.lookup w = (true, some true) := by
  rw [accepts_acceptor, beq_iff_eq]

end Edges

/-- Edges, steps and slots show the same children, the edges along the alphabet. A word leads along
the edges to its node, and so it does in the views; what is accepted there is what is committed to
be accepted. -/
theorem Reachable.read_paths_agree {P : Type} {t : Tree σ P} (ht : t.Reachable)
    (hroom : t.size ≤ UInt32.size) :
    (∀ id s c, ((s, c) ∈ t.outgoing id ↔ t.successor? id s = some c) ∧
      ((s, c) ∈ t.outgoing id ↔ t.verdicts.step? id s = some c) ∧
      ((s, c) ∈ t.outgoing id ↔ t.acceptor.step? id s = some c)) ∧
    (∀ id i c, t.slot? id.position i = some (some c) ↔
      ∃ s, t.alphabet.index? s = some i ∧ (s, c) ∈ t.outgoing id) ∧
    (∀ id, (t.outgoing id).Pairwise fun e f => t.alphabet.Before e.1 f.1) ∧
    (∀ w id, t.nodeOf? w = some id ↔ t.Path .root w id) ∧
    (∀ w, t.verdicts.start?.bind (t.verdicts.run? · w) = t.nodeOf? w ∧
      t.acceptor.start?.bind (t.acceptor.run? · w) = t.nodeOf? w) ∧
    ∀ w, t.acceptor.accepts w = true ↔ t.lookup w = (true, some true) := by
  have hwf := ht.wellFormed hroom
  refine ⟨fun id s c => ⟨mem_outgoing, mem_outgoing, mem_outgoing⟩, ?_, t.pairwise_outgoing,
    fun w id => path_iff.symm, ?_, fun w => accepts_acceptor_iff⟩
  · intro id i c
    exact hwf.slot?_iff_mem_outgoing
  · intro w
    exact ⟨t.verdicts.run?_eq_foldlM .root w, t.acceptor.run?_eq_foldlM .root w⟩

theorem read_paths_agree_beyond_the_tree :
    let t := ((WriteOnce.new (.ofList [1, 2]) {}).putAll [([2], true), ([1, 1], false)]).tree
    t.Reachable ∧ t.size ≤ UInt32.size ∧
      (1, .ofPosition 2) ∈ t.outgoing .root ∧ (2, .ofPosition 1) ∈ t.outgoing .root ∧
      t.slot? 0 1 = some (some (.ofPosition 1)) ∧
      t.outgoing (.ofPosition 4) = [] ∧ (∀ s, t.acceptor.step? (.ofPosition 4) s = none) ∧
      t.acceptor.step? .root 7 = none ∧ (∀ c, (7, c) ∉ t.outgoing .root) ∧
      t.Path .root [1, 1] (.ofPosition 3) ∧
      t.acceptor.accepts [2] = true ∧ t.acceptor.accepts [1, 1] = false := by
  intro t
  let is : List (Word Nat × Bool) := [([2], true), ([1, 1], false)]
  have hfilled : t.Filled [1, 2] is := WriteOnce.filled_putAll {} (by decide) (by decide)
  obtain ⟨hreachable, hroom, h⟩ := hfilled
  obtain ⟨hedges, hslots, _, hpaths, _, haccepts⟩ := hreachable.read_paths_agree hroom
  have hchild : ∀ {s c}, t.nodeOf? [s] = some c → (s, c) ∈ t.outgoing .root := by
    intro s c h
    exact (hedges .root s c).1.2 ((t.nodeOf?_concat [] s).symm.trans h)
  have htwo : (2, .ofPosition 1) ∈ t.outgoing .root := hchild (h.nodeOf?_eq [2])
  have hbeyond : t.outgoing (.ofPosition 4) = [] :=
    outgoing_eq_nil_of_size_le (Nat.le_of_eq h.size_eq)
  have hunknown : t.acceptor.step? .root 7 = none := by
    have hnone : t.alphabet.index? 7 = none := by
      rw [Alphabet.index?_eq_none_iff, h.letters_eq]
      decide
    change (t.alphabet.index? 7).bind (t.child? .root) = none
    rw [hnone]
    rfl
  refine ⟨hreachable, hroom, hchild (h.nodeOf?_eq [1]), htwo,
    (hslots .root 1 _).2 ⟨2, h.index?_eq 2, htwo⟩, hbeyond, ?_, hunknown, ?_,
    (hpaths _ _).1 (h.nodeOf?_eq [1, 1]), ?_, ?_⟩
  · intro s
    refine Option.eq_none_iff_forall_not_mem.2 fun c hc => ?_
    have hmem := (hedges _ s c).2.2.2 hc
    rw [hbeyond] at hmem
    cases hmem
  · intro c hmem
    have hc := (hedges .root 7 c).2.2.1 hmem
    rw [hunknown] at hc
    cases hc
  · exact (haccepts [2]).2 (lookup_eq_iff.2 (h.entry_eq [2]))
  · refine Bool.eq_false_iff.2 fun haccepted => ?_
    have hcommitted := lookup_eq_iff.1 ((haccepts [1, 1]).1 haccepted)
    rw [h.entry_eq] at hcommitted
    exact absurd hcommitted (by decide)

end Tree
end MembershipCache
