import MembershipCache.Proofs.ProbeOrder

/-! Steps that an acceptor does not define. Read as rejections they bring into dispute what is
committed to be accepted at the end of such a step, and nothing else. So a search that skips them
misses nothing but these words, and nothing at all if every step is defined. -/
namespace MembershipCache
universe u v w

namespace TransitionSystem
variable {σ : Type u} {Q : Type v} {α : Type w} {m : TransitionSystem σ Q α}

def CompleteOver (m : TransitionSystem σ Q α) (probes : Array σ) : Prop :=
  ∀ w q, (∀ s ∈ w, s ∈ probes) → m.start?.bind (m.run? · w) = some q →
    ∀ s ∈ probes, (m.step? q s).isSome

theorem CompleteOver.isSome_run? {probes : Array σ} (h : m.CompleteOver probes) {q : Q}
    (hq : m.start? = some q) {w : Word σ} (hw : ∀ s ∈ w, s ∈ probes) :
    (m.start?.bind (m.run? · w)).isSome := by
  induction w using List.reverseRecOn with
  | nil =>
    rw [hq]
    rfl
  | append_singleton w s ih =>
    obtain ⟨hw, hs⟩ := List.forall_mem_append.1 hw
    obtain ⟨q', hq'⟩ := Option.isSome_iff_exists.1 (ih hw)
    have hstep := h w q' hw hq' s (hs s (List.mem_singleton_self s))
    rw [hq, Option.bind_some] at hq' ⊢
    rw [run?_concat, hq']
    exact hstep

end TransitionSystem

namespace Tree
variable {σ : Type u} {P : Type v} {Q : Type w} [DecidableEq σ] [Hashable σ]

/-- The word is committed to be accepted, and the acceptor defines all its steps but the last. -/
def ImplicitlyRejected (t : Tree σ P) (target : Acceptor σ Q) (w : Word σ) : Prop :=
  t.lookup w = (true, some true) ∧ ∃ v s q, w = v ++ [s] ∧
    target.start?.bind (target.run? · v) = some q ∧ target.step? q s = none

variable {t : Tree σ P} {target : Acceptor σ Q} {probes : Array σ}

theorem disputed_skipping_subset : t.disputed target probes true ⊆ t.disputed target probes false := by
  intro w hw
  exact ⟨⟨hw.1.probed, hw.1.defined, fun h => by cases h⟩, hw.2⟩

section Start
variable {q : Q} (hq : target.start? = some q)
include hq

theorem implicitlyRejected_of_skipped {w : Word σ} (hw : w ∈ t.disputed target probes false)
    (hskipped : w ∉ t.disputed target probes true) : t.ImplicitlyRejected target w := by
  have hundefined : target.start?.bind (target.run? · w) = none := by
    by_contra hdefined
    exact hskipped ⟨⟨hw.1.probed, hw.1.defined, fun _ => Option.isSome_iff_ne_none.2 hdefined⟩, hw.2⟩
  have hlookup := hw.2
  rw [accepts_eq_elim, hundefined] at hlookup
  refine ⟨hlookup, ?_⟩
  cases w using List.reverseRecOn with
  | nil =>
    rw [hq] at hundefined
    cases hundefined
  | append_singleton v s =>
    have hdefined := hw.1.defined
    rw [List.dropLast_concat] at hdefined
    obtain ⟨q', hq'⟩ := Option.isSome_iff_exists.1 hdefined
    refine ⟨v, s, q', rfl, hq', ?_⟩
    rw [hq, Option.bind_some] at hq' hundefined
    rwa [TransitionSystem.run?_concat, hq'] at hundefined

theorem disputed_skipping_eq (hcomplete : target.CompleteOver probes) :
    t.disputed target probes true = t.disputed target probes false := by
  refine disputed_skipping_subset.antisymm ?_
  intro w hw
  exact ⟨⟨hw.1.probed, hw.1.defined, fun _ => hcomplete.isSome_run? hq hw.1.probed⟩, hw.2⟩

variable (ht : t.WellFormed)
include ht

/-- A search that does not skip finds the same word, or an earlier one that is rejected for want of
its last step. -/
theorem exists_separatingWord?_of_skipping {w : Word σ}
    (hw : t.separatingWord? target probes true = some w) :
    ∃ v, t.separatingWord? target probes false = some v ∧
      (v = w ∨ ProbedBefore probes v w ∧ t.ImplicitlyRejected target v) := by
  obtain ⟨hdisputed, hleast⟩ := (separatingWord?_eq_some_iff hq ht).1 hw
  cases hfound : t.separatingWord? target probes false with
  | none =>
    rw [separatingWord?_eq_none_iff_disputed hq ht] at hfound
    have hmem := disputed_skipping_subset hdisputed
    rw [hfound] at hmem
    exact hmem.elim
  | some v =>
    refine ⟨v, rfl, ?_⟩
    obtain ⟨hv, hleast'⟩ := (separatingWord?_eq_some_iff hq ht).1 hfound
    have hwv := hleast' w (disputed_skipping_subset hdisputed)
    rcases eq_or_probedBefore hdisputed.1.probed hv.1.probed hwv with rfl | hearlier
    · exact Or.inl rfl
    · have hskipped : v ∉ t.disputed target probes true := fun h => hleast v h hearlier
      exact Or.inr ⟨hearlier, implicitlyRejected_of_skipped hq hv hskipped⟩

theorem separatingWord?_skipping_eq (hcomplete : target.CompleteOver probes) :
    t.separatingWord? target probes true = t.separatingWord? target probes false := by
  apply Option.ext
  intro w
  rw [separatingWord?_eq_some_iff hq ht, separatingWord?_eq_some_iff hq ht,
    disputed_skipping_eq hq hcomplete]

end Start

/-- Skipping undefined steps hides nothing but words rejected for want of their last step, and
nothing from an acceptor that defines every step. -/
theorem skipping_hides_implicit_rejections {P : Type} {t : Tree σ P} (ht : t.Reachable)
    (hroom : t.size ≤ UInt32.size) (target : Acceptor σ Q) (probes : Array σ) :
    (∀ w, t.separatingWord? target probes true = some w →
      ∃ v, t.separatingWord? target probes false = some v ∧
        (v = w ∨ ProbedBefore probes v w ∧ t.ImplicitlyRejected target v)) ∧
    (target.start?.isSome → target.CompleteOver probes →
      t.separatingWord? target probes true = t.separatingWord? target probes false) := by
  have hwf := ht.wellFormed hroom
  constructor
  · intro w hw
    cases hstart : target.start? with
    | none =>
      rw [separatingWord?_of_no_start hstart] at hw
      cases hw
    | some q => exact exists_separatingWord?_of_skipping hstart hwf hw
  · intro hstart hcomplete
    obtain ⟨q, hq⟩ := Option.isSome_iff_exists.1 hstart
    exact separatingWord?_skipping_eq hq hwf hcomplete

theorem skipping_hides_implicit_rejections_of_parity :
    let partially : Acceptor Nat Bool := ⟨some true, fun q s => if s = 1 then some !q else none, id⟩
    let fully : Acceptor Nat Bool := ⟨some true, fun q s => some (if s = 1 then !q else q), id⟩
    let is : List (Word Nat × Bool) := [([1], true), ([2], true)]
    let t := ((WriteOnce.new (.ofList [1, 2]) {}).putAll is).tree
    let probes := #[2, 1]
    t.Reachable ∧ t.size ≤ UInt32.size ∧ t.separatingWord? partially probes true = some [1] ∧
      t.separatingWord? partially probes false = some [2] ∧ ProbedBefore probes [2] [1] ∧
      t.ImplicitlyRejected partially [2] ∧ fully.start?.isSome ∧ fully.CompleteOver probes ∧
      t.separatingWord? fully probes true = t.separatingWord? fully probes false := by
  intro partially fully is t probes
  have hfilled : t.Filled [1, 2] is := WriteOnce.filled_putAll {} (by decide) (by decide)
  obtain ⟨hreachable, hroom, h⟩ := hfilled
  have hfound : ∀ {skipUndefined w}, _ →
      t.separatingWord? partially probes skipUndefined = some w :=
    (h.separatingWord?_eq_some_iff rfl).2
  have hskipping : t.separatingWord? partially probes true = some [1] := hfound (by decide)
  have hreading : t.separatingWord? partially probes false = some [2] := hfound (by decide)
  have hcomplete : fully.CompleteOver probes := fun _ _ _ _ _ _ => rfl
  obtain ⟨hearlier, _⟩ := skipping_hides_implicit_rejections hreachable hroom partially probes
  obtain ⟨_, hsame⟩ := skipping_hides_implicit_rejections hreachable hroom fully probes
  obtain ⟨v, hv, hrejected⟩ := hearlier [1] hskipping
  cases hreading.symm.trans hv
  obtain ⟨hbefore, himplicit⟩ := hrejected.resolve_left (by decide)
  exact ⟨hreachable, hroom, hskipping, hreading, hbefore, himplicit, rfl, hcomplete,
    hsame rfl hcomplete⟩

end Tree
end MembershipCache
