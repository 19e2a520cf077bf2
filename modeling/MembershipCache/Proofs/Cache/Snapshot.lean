import MembershipCache.Proofs.Observation

/-! A cache against a later version of itself. What was committed stays committed, so the search
goes by the verdicts alone: it separates the two exactly if a verdict was overturned in between,
which a write-once cache never does. -/
namespace MembershipCache
universe u v w x

namespace Tree
variable {σ : Type u} {P : Type v} [DecidableEq σ] [Hashable σ]

def Remembered (t t' : Tree σ P) : Prop := ∀ w, (t.committed? w).isSome → (t'.committed? w).isSome

def Kept (t t' : Tree σ P) : Prop := ∀ w b, t.committed? w = some b → t'.committed? w = some b

/-- The word has opposite verdicts in the two trees. -/
def Overturned (t t' : Tree σ P) (w : Word σ) : Prop :=
  ∃ b, t.lookup w = (true, some b) ∧ t'.lookup w = (true, some !b)

theorem Kept.remembered {t t' : Tree σ P} (h : t.Kept t') : t.Remembered t' := by
  intro w hw
  obtain ⟨b, hb⟩ := Option.isSome_iff_exists.1 hw
  exact Option.isSome_of_eq_some (h w b hb)

theorem Kept.not_overturned {t t' : Tree σ P} (h : t.Kept t') (w : Word σ) :
    ¬t.Overturned t' w := by
  intro hw
  obtain ⟨b, hb, hb'⟩ := hw
  rw [lookup_eq_iff] at hb hb'
  have hsame := (h w b hb).symm.trans hb'
  simp at hsame

theorem accepts_of_committed {t : Tree σ P} {w : Word σ} {b : Bool} (h : t.committed? w = some b) :
    t.acceptor.accepts w = b := by
  rw [accepts_acceptor, lookup, h]
  cases b <;> rfl

section Effects
variable [Inhabited P]

theorem Effect.remembered {t t' : Tree σ P} {w? : Option (Word σ)} (h : t.Effect w? t')
    (ht : t.WellFormed) (hroom : t'.size ≤ UInt32.size) : t.Remembered t' := by
  intro u hu
  cases h with
  | stay => exact hu
  | widen s =>
    rw [ht.committed?_addSymbol]
    exact hu
  | revisit _ => exact hu
  | @commit w d entered b p =>
    rw [size_write] at hroom
    have hd := ht.enter entered hroom
    rw [hd.wellFormed.committed?_write hd.reached, hd.committed?_eq]
    split
    · rfl
    · exact hu

theorem Acts.remembered_foldl {γ : Type w} {ρ : Type x} {step : γ → ρ → γ} {tree : γ → Tree σ P}
    {entered? : γ × ρ → Option (Word σ)} (h : Acts step tree entered?) {c : γ}
    (hc : ∃ ws, (tree c).Holds ws) (rs : List ρ)
    (hroom : (tree (rs.foldl step c)).size ≤ UInt32.size) :
    (tree c).Remembered (tree (rs.foldl step c)) := by
  refine h.extends_foldl (R := Remembered) (fun _ _ hw => hw) ?_ ?_ hc rs hroom
  · intro t u v htu huv w hw
    exact huv w (htu w hw)
  · intro t t' w? ws ht hroom he
    exact he.remembered ht.wellFormed hroom

end Effects

namespace Remembered
variable {t t' : Tree σ P} (h : t.Remembered t') (ht : t.WellFormed) {probes : Array σ}
  {skipUndefined : Bool}
include h

theorem eligible {w : Word σ} (hprobed : ∀ s ∈ w, s ∈ probes) (hw : (t.committed? w).isSome) :
    t.Eligible t'.acceptor probes skipUndefined w := by
  have hnode : (t'.nodeOf? w).isSome := isSome_nodeOf?_of_committed (h w hw)
  have hrun : ∀ u, t'.acceptor.start?.bind (t'.acceptor.run? · u) = t'.nodeOf? u :=
    fun u => t'.run?_acceptor .root u
  refine ⟨hprobed, isSome_nodeOf?_of_committed hw, ?_, fun _ => ?_⟩
  · rw [hrun]
    exact isSome_nodeOf?_of_prefix (List.dropLast_prefix w) hnode
  · rw [hrun]
    exact hnode

/-- On words with a verdict the acceptor view loses nothing. -/
theorem overturned_iff {w : Word σ} :
    t.Overturned t' w ↔ t.lookup w = (true, some (!t'.acceptor.accepts w)) := by
  constructor
  · intro hw
    obtain ⟨b, hb, hb'⟩ := hw
    rw [accepts_of_committed (lookup_eq_iff.1 hb'), Bool.not_not]
    exact hb
  · intro hw
    have hknown := Option.isSome_of_eq_some (lookup_eq_iff.1 hw)
    obtain ⟨b, hb⟩ := Option.isSome_iff_exists.1 (h w hknown)
    rw [accepts_of_committed hb] at hw
    refine ⟨!b, hw, ?_⟩
    rw [Bool.not_not]
    exact lookup_eq_iff.2 hb

include ht

theorem overturned_of_separatingWord? {w : Word σ}
    (hw : t.separatingWord? t'.acceptor probes skipUndefined = some w) :
    (∀ s ∈ w, s ∈ probes) ∧ t.Overturned t' w := by
  obtain ⟨heligible, hlookup⟩ := eligible_of_separatingWord? rfl ht hw
  exact ⟨heligible.probed, h.overturned_iff.2 hlookup⟩

theorem isSome_separatingWord?_iff :
    (t.separatingWord? t'.acceptor probes skipUndefined).isSome ↔
      ∃ w, (∀ s ∈ w, s ∈ probes) ∧ t.Overturned t' w := by
  constructor
  · intro hfound
    obtain ⟨w, hw⟩ := Option.isSome_iff_exists.1 hfound
    exact ⟨w, h.overturned_of_separatingWord? ht hw⟩
  · intro hw
    obtain ⟨w, hprobed, hw⟩ := hw
    have hlookup := h.overturned_iff.1 hw
    have hknown := Option.isSome_of_eq_some (lookup_eq_iff.1 hlookup)
    rw [Option.isSome_iff_ne_none, ne_eq, separatingWord?_eq_none_iff rfl ht]
    intro hnone
    exact hnone w (h.eligible hprobed hknown) hlookup

end Remembered

theorem Kept.separatingWord?_eq_none {t t' : Tree σ P} (h : t.Kept t') (ht : t.WellFormed)
    (probes : Array σ) (skipUndefined : Bool) :
    t.separatingWord? t'.acceptor probes skipUndefined = none := by
  rw [← Option.not_isSome_iff_eq_none, h.remembered.isSome_separatingWord?_iff ht]
  intro hw
  obtain ⟨w, _, hw⟩ := hw
  exact h.not_overturned w hw

end Tree

section Caches
variable {σ : Type u} [DecidableEq σ] [Hashable σ]

namespace WriteOnce

theorem kept_step {c : WriteOnce σ} (hc : c.tree.WellFormed) {r : Request σ}
    (hroom : (c.step r).tree.size ≤ UInt32.size) : c.tree.Kept (c.step r).tree := by
  intro w b hw
  cases r with
  | insert v x =>
    rw [step, (inserted hc hroom).committed?_eq, if_neg]
    · exact hw
    · intro hnew
      obtain ⟨rfl, _, hv⟩ := hnew
      rw [hw] at hv
      cases hv
  | addSymbol s => exact (hc.committed?_addSymbol s w).trans hw

theorem kept_run {c : WriteOnce σ} (hc : c.tree.WellFormed) (rs : List (Request σ))
    (hroom : (c.run rs).tree.size ≤ UInt32.size) : c.tree.Kept (c.run rs).tree := by
  refine foldl_extends step (fun c => c.tree.size) (fun c r => (size_step c r).1)
    (fun c => c.tree.WellFormed) (fun _ _ hc => wellFormed_step hc) (fun c d => c.tree.Kept d.tree)
    (fun _ _ _ hw => hw) ?_ (fun c r hc => kept_step hc) hc rs hroom
  intro c d e hcd hde w b hw
  exact hde w b (hcd w b hw)

end WriteOnce

/-- A cache is separated from what becomes of it by a word whose verdict was overturned, if the
probes spell one. A write-once cache is never separated from what becomes of it, and no cache from
itself. -/
theorem separatingWord?_later :
    (∀ (a : Alphabet σ) (settings : Settings) (rs later : List (WriteOnce.Request σ))
        (probes : Array σ) (skipUndefined : Bool),
      let c := (WriteOnce.new a settings).run rs
      let c' := c.run later
      c'.tree.size ≤ UInt32.size →
        c.tree.separatingWord? c'.tree.acceptor probes skipUndefined = none) ∧
    (∀ (a : Alphabet σ) (settings : Settings) (rs later : List (Revisable.Request σ))
        (probes : Array σ) (skipUndefined : Bool),
      let c := (Revisable.new a settings).run rs
      let c' := c.run later
      c'.tree.size ≤ UInt32.size →
        ((c.tree.separatingWord? c'.tree.acceptor probes skipUndefined).isSome ↔
          ∃ w, (∀ s ∈ w, s ∈ probes) ∧ c.tree.Overturned c'.tree w) ∧
        ∀ w, c.tree.separatingWord? c'.tree.acceptor probes skipUndefined = some w →
          (∀ s ∈ w, s ∈ probes) ∧ c.tree.Overturned c'.tree w) ∧
    (∀ {P : Type} (t : Tree σ P), t.Reachable → t.size ≤ UInt32.size →
      ∀ (probes : Array σ) (skipUndefined : Bool),
        t.separatingWord? t.acceptor probes skipUndefined = none) := by
  refine ⟨?_, ?_, ?_⟩
  · intro a settings rs later probes skipUndefined c c' hroom
    have hwf := WriteOnce.wellFormed_run a settings rs (Nat.le_trans (c.size_le_run later) hroom)
    exact (WriteOnce.kept_run hwf later hroom).separatingWord?_eq_none hwf probes skipUndefined
  · intro a settings rs later probes skipUndefined c c' hroom
    have hholds := Revisable.holds_run a settings rs (Nat.le_trans (c.size_le_run later) hroom)
    have hremembered : c.tree.Remembered c'.tree :=
      Revisable.acts.remembered_foldl ⟨_, hholds⟩ later hroom
    refine ⟨hremembered.isSome_separatingWord?_iff hholds.wellFormed, ?_⟩
    intro w hw
    exact hremembered.overturned_of_separatingWord? hholds.wellFormed hw
  · intro P t ht hroom probes skipUndefined
    have hkept : t.Kept t := fun _ _ hw => hw
    exact hkept.separatingWord?_eq_none (ht.wellFormed hroom) probes skipUndefined

theorem separatingWord?_later_of_overturned :
    let a : Alphabet Nat := .ofList [1]
    let c₁ := (WriteOnce.new a {}).run [.insert [1] true]
    let c₁' := c₁.run [.insert [1] false, .addSymbol 7, .insert [7] false]
    let c₂ := (Revisable.new a {}).run [.insertAs [1] true .oracle, .insertAs [1, 1] true .user]
    let c₂' := c₂.run [.insertAs [1] false .oracle, .insertAs [1, 1] false .oracle]
    c₁'.tree.size ≤ UInt32.size ∧ c₂'.tree.size ≤ UInt32.size ∧
      c₁.tree.separatingWord? c₁'.tree.acceptor #[7, 1] true = none ∧
      c₂.tree.separatingWord? c₂'.tree.acceptor #[1] true = some [1] ∧
      c₂'.tree.separatingWord? c₂'.tree.acceptor #[1] true = none := by
  intro a c₁ c₁' c₂ c₂'
  have hletters : a.toList = [1] := Alphabet.toList_ofList_of_nodup (by decide)
  have hrun₁ : c₁' = (WriteOnce.new a {}).run ([.insert [1] true] ++ _) :=
    (WriteOnce.run_append ..).symm
  have hrun₂ : c₂' = (Revisable.new a {}).run
      ([.insertAs [1] true .oracle, .insertAs [1, 1] true .user] ++ _) :=
    (Revisable.run_append ..).symm
  have hroom₁ : c₁'.tree.size ≤ UInt32.size := by
    rw [hrun₁]
    exact Nat.le_trans (WriteOnce.size_run_le a {} _) (by decide)
  have hroom₂ : c₂'.tree.size ≤ UInt32.size := by
    rw [hrun₂]
    exact Nat.le_trans (Revisable.size_run_le a {} _) (by decide)
  have hreachable : c₂'.tree.Reachable := by
    rw [hrun₂]
    exact .revisable ..
  have hbefore := Revisable.lookup_run hletters {} _ (Nat.le_trans (c₂.size_le_run _) hroom₂)
  have hafter : c₂'.tree.lookup [1] = (true, some false) ∧
      c₂'.tree.lookup [1, 1] = (true, some true) := by
    rw [hrun₂] at hroom₂ ⊢
    exact ⟨(Revisable.lookup_run hletters {} _ hroom₂ [1]).1,
      (Revisable.lookup_run hletters {} _ hroom₂ [1, 1]).1⟩
  obtain ⟨hwriteOnce, hrevisable, hself⟩ := @separatingWord?_later Nat _ _
  obtain ⟨hseparated, hoverturned⟩ := hrevisable a {}
    [.insertAs [1] true .oracle, .insertAs [1, 1] true .user] _ #[1] true hroom₂
  have hfound := hseparated.2 ⟨[1], by simp, true, (hbefore [1]).1, hafter.1⟩
  obtain ⟨w, hw⟩ := Option.isSome_iff_exists.1 hfound
  obtain ⟨_, b, hb, hb'⟩ := hoverturned w hw
  have hword : w = [1] := by
    by_contra hne
    by_cases hword1 : w = [1, 1]
    · subst hword1
      cases hb.symm.trans (hbefore [1, 1]).1
      cases hb'.symm.trans hafter.2
    · have hnone := (hbefore w).1
      simp [Revisable.outline, Outline.put, Outline.new, hne, hword1] at hnone
      cases hb.symm.trans hnone
  refine ⟨hroom₁, hroom₂, ?_, hw.trans (congrArg some hword), ?_⟩
  · exact hwriteOnce a {} [.insert [1] true] _ #[7, 1] true hroom₁
  · exact hself c₂'.tree hreachable hroom₂ #[1] true

end Caches
end MembershipCache
