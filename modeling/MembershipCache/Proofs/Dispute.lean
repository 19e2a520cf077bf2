import Mathlib.Data.Set.Finite.Lemmas
import MembershipCache.Proofs.Cache.PrefixClosure
import MembershipCache.Proofs.SeparatingWord

/-! What an acceptor disputes of a tree: the committed words that the search may answer and on which
the acceptor says the opposite. There are finitely many, the search answers one of them as long as
there is one, and it sees nothing else of the tree. -/
namespace MembershipCache
universe u v w

/-- A word that a search with these probes may answer, if only the tree has a node for it. -/
structure Comparable {σ : Type u} {Q : Type w} (target : Acceptor σ Q) (probes : Array σ)
    (skipUndefined : Bool) (w : Word σ) : Prop where
  probed : ∀ s ∈ w, s ∈ probes
  defined : (target.start?.bind (target.run? · w.dropLast)).isSome
  definedToEnd : skipUndefined = true → (target.start?.bind (target.run? · w)).isSome

theorem comparable_iff {σ : Type u} {Q : Type w} {target : Acceptor σ Q} {probes : Array σ}
    {skipUndefined : Bool} {w : Word σ} : Comparable target probes skipUndefined w ↔
      (∀ s ∈ w, s ∈ probes.toList) ∧ (target.start?.bind (target.run? · w.dropLast)).isSome ∧
        (skipUndefined = true → (target.start?.bind (target.run? · w)).isSome) := by
  simp only [Array.mem_toList_iff]
  exact ⟨fun h => ⟨h.probed, h.defined, h.definedToEnd⟩, fun ⟨hp, hd, he⟩ => ⟨hp, hd, he⟩⟩

instance {σ : Type u} [DecidableEq σ] {Q : Type w} (target : Acceptor σ Q) (probes : Array σ)
    (skipUndefined : Bool) (w : Word σ) : Decidable (Comparable target probes skipUndefined w) :=
  decidable_of_iff _ comparable_iff.symm

namespace Tree
variable {σ : Type u} {P : Type v} {Q : Type w} [DecidableEq σ] [Hashable σ]

def disputed (t : Tree σ P) (target : Acceptor σ Q) (probes : Array σ) (skipUndefined : Bool) :
    Set (Word σ) :=
  {w | Comparable target probes skipUndefined w ∧ t.lookup w = (true, some (!target.accepts w))}

section Tree
variable {t : Tree σ P} {target : Acceptor σ Q} {probes : Array σ} {skipUndefined : Bool}

theorem disputed_addSymbol (ht : t.WellFormed) (s : σ) :
    (t.addSymbol s).state.disputed target probes skipUndefined =
      t.disputed target probes skipUndefined := by
  simp only [disputed, lookup, ht.committed?_addSymbol]

theorem mem_disputed_iff {w : Word σ} : w ∈ t.disputed target probes skipUndefined ↔
    t.Eligible target probes skipUndefined w ∧ t.lookup w = (true, some (!target.accepts w)) := by
  constructor
  · intro h
    obtain ⟨hw, hlookup⟩ := h
    have hknown := Option.isSome_of_eq_some (lookup_eq_iff.1 hlookup)
    exact ⟨⟨hw.probed, isSome_nodeOf?_of_committed hknown, hw.defined, hw.definedToEnd⟩, hlookup⟩
  · intro h
    obtain ⟨hw, hlookup⟩ := h
    exact ⟨⟨hw.probed, hw.defined, hw.definedToEnd⟩, hlookup⟩

theorem contradicted_iff_disputed {p : List Nat} :
    t.Contradicted target probes skipUndefined p ↔
      ∃ w, Spells probes p w ∧ w ∈ t.disputed target probes skipUndefined := by
  simp only [Contradicted, mem_disputed_iff]

theorem Holds.finite_disputed {ws : List (Word σ)} (h : t.Holds ws) :
    (t.disputed target probes skipUndefined).Finite := by
  refine (List.finite_toSet (Word.firstUses ws)).subset ?_
  intro w hw
  exact (h.numbers.mem_iff h.wellFormed).2 (mem_disputed_iff.1 hw).1.present

section Start
variable {q : Q} (hq : target.start? = some q) (ht : t.WellFormed)
include hq ht

theorem mem_disputed_of_separatingWord? {w : Word σ}
    (h : t.separatingWord? target probes skipUndefined = some w) :
    w ∈ t.disputed target probes skipUndefined :=
  mem_disputed_iff.2 (eligible_of_separatingWord? hq ht h)

theorem separatingWord?_eq_none_iff_disputed :
    t.separatingWord? target probes skipUndefined = none ↔
      t.disputed target probes skipUndefined = ∅ := by
  rw [separatingWord?_eq_none_iff hq ht, Set.eq_empty_iff_forall_notMem]
  simp only [mem_disputed_iff, not_and, ne_eq]

end Start

end Tree

section Trees
variable {P₁ P₂ : Type v} {t₁ : Tree σ P₁} {t₂ : Tree σ P₂} {target : Acceptor σ Q}
  {probes : Array σ} {skipUndefined : Bool}

theorem disputed_subset_iff : t₁.disputed target probes skipUndefined ⊆
    t₂.disputed target probes skipUndefined ↔
      ∀ w, Comparable target probes skipUndefined w →
        t₁.committed? w = some (!target.accepts w) →
          t₂.committed? w = some (!target.accepts w) := by
  simp only [← lookup_eq_iff]
  constructor
  · intro h w hw hlookup
    exact (h ⟨hw, hlookup⟩).2
  · intro h w hw
    exact ⟨hw.1, h w hw.1 hw.2⟩

/-- The search sees no more of a tree than what is disputed. -/
theorem separatingWord?_congr_of_disputed (h₁ : t₁.WellFormed) (h₂ : t₂.WellFormed)
    (hdisputed : t₁.disputed target probes skipUndefined =
      t₂.disputed target probes skipUndefined) :
    t₁.separatingWord? target probes skipUndefined =
      t₂.separatingWord? target probes skipUndefined := by
  cases hstart : target.start? with
  | none => simp only [separatingWord?, separation?, hstart]
  | some q =>
    have hcontradicted : t₁.Contradicted target probes skipUndefined =
        t₂.Contradicted target probes skipUndefined := by
      funext p
      rw [eq_iff_iff, contradicted_iff_disputed, contradicted_iff_disputed, hdisputed]
    have hfirst := separatingWord?_first hstart h₁ probes skipUndefined
    rw [hcontradicted] at hfirst
    exact hfirst.unique (separatingWord?_first hstart h₂ probes skipUndefined)

theorem separatingWord?_eq_none_of_disputed_subset (h₁ : t₁.WellFormed) (h₂ : t₂.WellFormed)
    (hdisputed : t₂.disputed target probes skipUndefined ⊆
      t₁.disputed target probes skipUndefined)
    (hnone : t₁.separatingWord? target probes skipUndefined = none) :
    t₂.separatingWord? target probes skipUndefined = none := by
  cases hstart : target.start? with
  | none =>
    simp only [separatingWord?, separation?, hstart] at hnone ⊢
    exact hnone
  | some q =>
    rw [separatingWord?_eq_none_iff_disputed hstart h₁] at hnone
    rw [separatingWord?_eq_none_iff_disputed hstart h₂]
    exact Set.subset_eq_empty hdisputed hnone

/-- A word on which a tree comes round to the acceptor is disputed no more, and no other is touched.
-/
theorem disputed_eq_diff_of_settled {w : Word σ} (hcommitted : ∀ u, t₂.committed? u =
      if u = w then some (target.accepts w) else t₁.committed? u) :
    t₂.disputed target probes skipUndefined =
      t₁.disputed target probes skipUndefined \ {w} := by
  ext u
  simp only [disputed, Set.mem_sdiff, Set.mem_ofPred_eq, Set.mem_singleton_iff, lookup_eq_iff,
    hcommitted]
  by_cases hu : u = w
  · subst hu
    simp
  · simp [hu]

end Trees

end Tree
end MembershipCache
