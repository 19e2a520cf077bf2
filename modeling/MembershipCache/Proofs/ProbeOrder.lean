import MembershipCache.Proofs.Cache.Commutation

/-! The order of the probes. Of all words in dispute the search answers the first, where words are
compared symbol by symbol by where their symbols stand first among the probes, a proper beginning
before what it begins. So the set in dispute and that order are all that an answer depends on. -/
namespace MembershipCache
universe u v w

section Probes
variable {σ : Type u} [DecidableEq σ] {probes : Array σ}

def firstPositions (probes : Array σ) (w : Word σ) : List Nat := w.map probes.toList.idxOf

/-- Symbol by symbol along the probes, a proper beginning first. -/
def ProbedBefore (probes : Array σ) (v w : Word σ) : Prop :=
  List.Lex (· < ·) (firstPositions probes v) (firstPositions probes w)

instance (probes : Array σ) (v w : Word σ) : Decidable (ProbedBefore probes v w) :=
  inferInstanceAs (Decidable (List.Lex (· < ·) _ _))

theorem spells_firstPositions {w : Word σ} (hw : ∀ s ∈ w, s ∈ probes) :
    Spells probes (firstPositions probes w) w := by
  rw [Spells, firstPositions, List.map_map]
  refine List.map_congr_left fun s hs => ?_
  rw [Function.comp_apply, ← Array.getElem?_toList]
  exact List.getElem?_idxOf (hw s hs).val

theorem idxOf_le_of_getElem? {s : σ} {i : Nat} (h : probes[i]? = some s) :
    probes.toList.idxOf s ≤ i := by
  rw [← Array.getElem?_toList] at h
  obtain ⟨hi, hs⟩ := List.getElem?_eq_some_iff.1 h
  by_contra hlt
  have hne := List.not_of_lt_findIdx (p := (· == s)) (Nat.lt_of_not_le hlt)
  simp [hs] at hne

theorem firstPositions_first {p : List Nat} {w : Word σ} (h : Spells probes p w) :
    p = firstPositions probes w ∨ List.Lex (· < ·) (firstPositions probes w) p := by
  induction w generalizing p with
  | nil =>
    cases p with
    | nil => exact Or.inl rfl
    | cons i p => exact absurd h spells_cons_nil
  | cons s w ih =>
    cases p with
    | nil => simp [Spells] at h
    | cons i p =>
      obtain ⟨hs, hp⟩ := spells_cons.1 h
      -- the first symbol decides, unless both stand at its first place
      rcases Nat.lt_or_eq_of_le (idxOf_le_of_getElem? hs) with hlt | rfl
      · exact Or.inr (.rel hlt)
      · rcases ih hp with rfl | hlex
        · exact Or.inl rfl
        · exact Or.inr (.cons hlex)

theorem eq_or_probedBefore {v w : Word σ} (hv : ∀ s ∈ v, s ∈ probes) (hw : ∀ s ∈ w, s ∈ probes)
    (h : ¬ProbedBefore probes v w) : v = w ∨ ProbedBefore probes w v := by
  by_cases hwv : ProbedBefore probes w v
  · exact Or.inr hwv
  · have hpositions : firstPositions probes v = firstPositions probes w :=
      Std.Trichotomous.trichotomous (r := List.Lex (· < ·)) _ _ h hwv
    rw [← (spells_firstPositions hv).word_eq, ← (spells_firstPositions hw).word_eq, hpositions]
    exact Or.inl rfl

theorem probedBefore_of_prefix {v w : Word σ} (h : v <+: w) (hne : v ≠ w) :
    ProbedBefore probes v w := by
  obtain ⟨u, rfl⟩ := h
  cases u with
  | nil => exact absurd (List.append_nil v).symm hne
  | cons s u =>
    have hnil : List.Lex (· < ·) [] (firstPositions probes (s :: u)) := .nil
    have hlonger := hnil.append_left _ (firstPositions probes v)
    rwa [List.append_nil, firstPositions, firstPositions, ← List.map_append] at hlonger

end Probes

namespace Tree
variable {σ : Type u} {P : Type v} {Q : Type w} [DecidableEq σ] [Hashable σ]
variable {t : Tree σ P} {target : Acceptor σ Q} {probes : Array σ} {skipUndefined : Bool}

theorem contradicted_firstPositions {w : Word σ}
    (hw : w ∈ t.disputed target probes skipUndefined) :
    t.Contradicted target probes skipUndefined (firstPositions probes w) :=
  contradicted_iff_disputed.2 ⟨w, spells_firstPositions hw.1.probed, hw⟩

section Start
variable {q : Q} (hq : target.start? = some q) (ht : t.WellFormed)
include hq ht

theorem not_probedBefore_of_separatingWord? {w : Word σ}
    (h : t.separatingWord? target probes skipUndefined = some w) :
    ∀ v ∈ t.disputed target probes skipUndefined, ¬ProbedBefore probes v w := by
  intro v hv hbefore
  have hfirst := separatingWord?_first hq ht probes skipUndefined
  rw [h] at hfirst
  obtain ⟨p, hp, _, hleast⟩ := hfirst
  -- the search came along the first positions of its answer, for no others are as early
  have hw := contradicted_firstPositions (mem_disputed_of_separatingWord? hq ht h)
  rcases firstPositions_first hp with rfl | hearlier
  · exact hleast _ hbefore (contradicted_firstPositions hv)
  · exact hleast _ hearlier hw

/-- The search answers the first word in dispute. -/
theorem separatingWord?_eq_some_iff {w : Word σ} :
    t.separatingWord? target probes skipUndefined = some w ↔
      w ∈ t.disputed target probes skipUndefined ∧
        ∀ v ∈ t.disputed target probes skipUndefined, ¬ProbedBefore probes v w := by
  constructor
  · intro h
    exact ⟨mem_disputed_of_separatingWord? hq ht h, not_probedBefore_of_separatingWord? hq ht h⟩
  · intro h
    obtain ⟨hw, hleast⟩ := h
    cases hfound : t.separatingWord? target probes skipUndefined with
    | none =>
      rw [separatingWord?_eq_none_iff_disputed hq ht] at hfound
      rw [hfound] at hw
      exact hw.elim
    | some v =>
      have hv := mem_disputed_of_separatingWord? hq ht hfound
      have hleast' := not_probedBefore_of_separatingWord? hq ht hfound
      rcases eq_or_probedBefore hv.1.probed hw.1.probed (hleast v hv) with rfl | hwv
      · rfl
      · exact absurd hwv (hleast' w hw)

end Start

end Tree

namespace Outline.Describes
variable {σ : Type u} {P : Type v} {Q : Type w} [DecidableEq σ] [Hashable σ] {o : Outline σ Bool}
  {t : Tree σ P} {ws : List (Word σ)} (h : o.Describes t ws t.committed?) {target : Acceptor σ Q}
  {probes : Array σ} {skipUndefined : Bool} {w : Word σ}
include h

theorem mem_disputed_iff : w ∈ t.disputed target probes skipUndefined ↔
    Comparable target probes skipUndefined w ∧ o.entries w = some (!target.accepts w) := by
  rw [← h.entry_eq, ← Tree.lookup_eq_iff]
  rfl

theorem separatingWord?_eq_some_iff {q : Q} (hq : target.start? = some q) :
    t.separatingWord? target probes skipUndefined = some w ↔
      (Comparable target probes skipUndefined w ∧ o.entries w = some (!target.accepts w)) ∧
        ∀ v ∈ o.words, Comparable target probes skipUndefined v →
          o.entries v = some (!target.accepts v) → ¬ProbedBefore probes v w := by
  simp only [Tree.separatingWord?_eq_some_iff hq h.holds.wellFormed, h.mem_disputed_iff]
  refine and_congr_right fun _ => ?_
  constructor
  · intro hleast v _ hcomparable hopposite
    exact hleast v ⟨hcomparable, hopposite⟩
  · intro hleast v hv
    exact hleast v (h.entered hv.2) hv.1 hv.2

end Outline.Describes

namespace Tree
variable {σ : Type u} {Q : Type w} [DecidableEq σ] [Hashable σ]

/-- Of all words in dispute the search answers the one that comes first along the probes. So nothing
that its answer begins with is in dispute. -/
theorem first_dispute_is_answered {P : Type} {t : Tree σ P} (ht : t.Reachable)
    (hroom : t.size ≤ UInt32.size) (target : Acceptor σ Q) (hstart : target.start?.isSome)
    (probes : Array σ) (skipUndefined : Bool) {w : Word σ}
    (hfound : t.separatingWord? target probes skipUndefined = some w) :
    (∀ v ∈ t.disputed target probes skipUndefined, v ≠ w →
      ProbedBefore probes w v ∧ ¬ProbedBefore probes v w) ∧
    ∀ v, v <+: w → v ≠ w → v ∉ t.disputed target probes skipUndefined := by
  obtain ⟨q, hq⟩ := Option.isSome_iff_exists.1 hstart
  obtain ⟨hw, hleast⟩ := (separatingWord?_eq_some_iff hq (ht.wellFormed hroom)).1 hfound
  constructor
  · intro v hv hne
    have hlater := (eq_or_probedBefore hv.1.probed hw.1.probed (hleast v hv)).resolve_left hne
    exact ⟨hlater, hleast v hv⟩
  · intro v hprefix hne hv
    have hearlier : ProbedBefore probes v w := probedBefore_of_prefix hprefix hne
    exact hleast v hv hearlier

theorem first_dispute_is_answered_before_shorter :
    let even : Acceptor Nat Bool := ⟨some true, fun q _ => some !q, id⟩
    let is : List (Word Nat × Bool) := [([1], true), ([2, 1, 1], true), ([2, 1], false)]
    let t := ((WriteOnce.new (.ofList [1, 2]) {}).putAll is).tree
    let probes := #[2, 1, 2]
    t.Reachable ∧ t.size ≤ UInt32.size ∧ even.start?.isSome ∧
      t.separatingWord? even probes false = some [2, 1] ∧ [1] ∈ t.disputed even probes false ∧
      ProbedBefore probes [2, 1] [1] ∧ [2] ∉ t.disputed even probes false := by
  intro even is t probes
  have hfilled : t.Filled [1, 2] is := WriteOnce.filled_putAll {} (by decide) (by decide)
  obtain ⟨hreachable, hroom, h⟩ := hfilled
  have hfound : t.separatingWord? even probes false = some [2, 1] :=
    (h.separatingWord?_eq_some_iff rfl).2 (by decide)
  have hshorter : [1] ∈ t.disputed even probes false :=
    h.mem_disputed_iff.2 (by decide)
  obtain ⟨horder, hprefixes⟩ :=
    first_dispute_is_answered hreachable hroom even rfl probes false hfound
  exact ⟨hreachable, hroom, rfl, hfound, hshorter, (horder [1] hshorter (by decide)).1,
    hprefixes [2] (by decide) (by decide)⟩

end Tree
end MembershipCache
