import MembershipCache.Proofs.Cache.Arbitration
import MembershipCache.Proofs.Dispute

/-! Answers that are taken from an acceptor. Whatever words a cache is told them for, it has no new
verdict afterwards that the acceptor disputes: in a write-once cache the same words are in dispute
as before, in a revisable one none that was not. So the search has nothing new to find, however far
it may now go. -/
namespace MembershipCache
universe u v w

section Caches
variable {σ : Type u} {Q : Type w} [DecidableEq σ] [Hashable σ] {target : Acceptor σ Q}
  {probes : Array σ} {skipUndefined : Bool}

namespace WriteOnce

/-- Tells a cache nothing but what the acceptor says. -/
def Request.Confirms (target : Acceptor σ Q) : Request σ → Prop
  | .insert w b => b = target.accepts w
  | .addSymbol _ => True

instance (target : Acceptor σ Q) : DecidablePred (Request.Confirms target)
  | .insert w b => inferInstanceAs (Decidable (b = target.accepts w))
  | .addSymbol _ => inferInstanceAs (Decidable True)

theorem disputed_step {c : WriteOnce σ} (hc : c.tree.WellFormed) {r : Request σ}
    (hr : r.Confirms target) (hroom : (c.step r).tree.size ≤ UInt32.size) :
    (c.step r).tree.disputed target probes skipUndefined =
      c.tree.disputed target probes skipUndefined := by
  cases r with
  | addSymbol s => exact Tree.disputed_addSymbol hc s
  | insert v b =>
    cases hr
    have h : Inserted c v (target.accepts v) (c.insert v (target.accepts v)) := inserted hc hroom
    apply Set.Subset.antisymm
    · rw [Tree.disputed_subset_iff]
      intro w _ hw
      rw [step, h.committed?_eq] at hw
      split_ifs at hw with hnew
      · rw [hnew.1] at hw
        simp at hw
      · exact hw
    · rw [Tree.disputed_subset_iff]
      intro w _ hw
      rw [step, h.committed?_eq, if_neg]
      · exact hw
      · rintro ⟨rfl, _, hnone⟩
        rw [hw] at hnone
        cases hnone

theorem disputed_run {c : WriteOnce σ} (hc : c.tree.WellFormed) {rs : List (Request σ)}
    (hrs : ∀ r ∈ rs, r.Confirms target) (hroom : (c.run rs).tree.size ≤ UInt32.size) :
    (c.run rs).tree.disputed target probes skipUndefined =
      c.tree.disputed target probes skipUndefined := by
  refine foldl_extends_allowed step (fun c => c.tree.size) (fun c r => (size_step c r).1)
    (fun c => c.tree.WellFormed) (fun _ _ hc => wellFormed_step hc)
    (fun c c' => c'.tree.disputed target probes skipUndefined =
      c.tree.disputed target probes skipUndefined) (fun _ => rfl) ?_ (Request.Confirms target)
    (fun _ _ hc hr => disputed_step hc hr) hc rs hrs hroom
  intro c d e hcd hde
  exact hde.trans hcd

end WriteOnce

namespace Revisable

def Request.Confirms (target : Acceptor σ Q) : Request σ → Prop
  | .insertAs w b _ => b = target.accepts w
  | .addSymbol _ | .retire _ => True

instance (target : Acceptor σ Q) : DecidablePred (Request.Confirms target)
  | .insertAs w b _ => inferInstanceAs (Decidable (b = target.accepts w))
  | .addSymbol _ | .retire _ => inferInstanceAs (Decidable True)

/-- An assertion leaves the opposite verdict only where it stood before. -/
theorem eq_of_arbitrate {e : Option (Bool × Provenance)} {b : Bool} {o : Provenance}
    (h : (arbitrate e b o).map (·.1) = some (!b)) : e.map (·.1) = some (!b) := by
  cases e with
  | none =>
    rw [arbitrate] at h
    simp at h
  | some i =>
    obtain ⟨x, stored⟩ := i
    rw [arbitrate] at h
    split_ifs at h
    · exact h
    · simp at h
    · exact h

theorem disputed_step {c : Revisable σ} (hc : c.tree.WellFormed) {r : Request σ}
    (hr : r.Confirms target) (hroom : (c.step r).tree.size ≤ UInt32.size) :
    (c.step r).tree.disputed target probes skipUndefined ⊆
      c.tree.disputed target probes skipUndefined := by
  cases r with
  | addSymbol s => exact (Tree.disputed_addSymbol hc s).subset
  | retire id =>
    rw [step, tree_retire]
  | insertAs v b o =>
    cases hr
    cases hfind : v.find? (· ∉ c.tree.alphabet.toList) with
    | some s =>
      rw [step, insertAs_of_foreign hfind]
    | none =>
      have h : Inserted c v (target.accepts v) o (c.insertAs v (target.accepts v) o) :=
        inserted hc hroom hfind
      rw [Tree.disputed_subset_iff]
      intro w _ hw
      rw [step, Tree.committed?_eq_map_stored?, h.stored?_eq] at hw
      rw [Tree.committed?_eq_map_stored?]
      split_ifs at hw with hvw
      · subst hvw
        exact eq_of_arbitrate hw
      · exact hw

theorem disputed_run {c : Revisable σ} (hc : c.tree.WellFormed) {rs : List (Request σ)}
    (hrs : ∀ r ∈ rs, r.Confirms target) (hroom : (c.run rs).tree.size ≤ UInt32.size) :
    (c.run rs).tree.disputed target probes skipUndefined ⊆
      c.tree.disputed target probes skipUndefined := by
  refine foldl_extends_allowed step (fun c => c.tree.size) (fun c r => (size_step c r).1)
    (fun c => c.tree.WellFormed) (fun _ _ hc => wellFormed_step hc)
    (fun c c' => c'.tree.disputed target probes skipUndefined ⊆
      c.tree.disputed target probes skipUndefined) (fun _ => Set.Subset.rfl) ?_
    (Request.Confirms target) (fun _ _ hc hr => disputed_step hc hr) hc rs hrs hroom
  intro c d e hcd hde
  exact hde.trans hcd

end Revisable

/-- What is taken from the acceptor never separates a cache from it: for a write-once cache the
search answers what it did, and where it found nothing in a revisable cache it still does not. -/
theorem confirmations_separate_nothing (target : Acceptor σ Q) (probes : Array σ)
    (skipUndefined : Bool) :
    (∀ (a : Alphabet σ) (settings : Settings) (rs later : List (WriteOnce.Request σ)),
      let c := (WriteOnce.new a settings).run rs
      let c' := c.run later
      c'.tree.size ≤ UInt32.size → (∀ r ∈ later, r.Confirms target) →
        c'.tree.separatingWord? target probes skipUndefined =
          c.tree.separatingWord? target probes skipUndefined) ∧
    (∀ (a : Alphabet σ) (settings : Settings) (rs later : List (Revisable.Request σ)),
      let c := (Revisable.new a settings).run rs
      let c' := c.run later
      c'.tree.size ≤ UInt32.size → (∀ r ∈ later, r.Confirms target) →
        c.tree.separatingWord? target probes skipUndefined = none →
          c'.tree.separatingWord? target probes skipUndefined = none) := by
  constructor
  · intro a settings rs later c c' hroom hlater
    have hc := WriteOnce.wellFormed_run a settings rs (Nat.le_trans (c.size_le_run later) hroom)
    have hc' : c'.tree.WellFormed := WriteOnce.wellFormed_later hc later hroom
    exact Tree.separatingWord?_congr_of_disputed hc' hc (WriteOnce.disputed_run hc hlater hroom)
  · intro a settings rs later c c' hroom hlater hnone
    have hc := Revisable.wellFormed_run a settings rs (Nat.le_trans (c.size_le_run later) hroom)
    have hc' : c'.tree.WellFormed := Revisable.wellFormed_later hc later hroom
    exact Tree.separatingWord?_eq_none_of_disputed_subset hc hc'
      (Revisable.disputed_run hc hlater hroom) hnone

theorem confirmations_separate_nothing_of_parity :
    let even : Acceptor Nat Bool := ⟨some true, fun q s => if s = 1 then some !q else none, id⟩
    let probes := #[7, 1, 2]
    let c₁ : WriteOnce Nat := (WriteOnce.new (.ofList [1, 2]) {}).run [.insert [1] true]
    let later₁ : List (WriteOnce.Request Nat) :=
      [.insert [1] false, .insert [7] false, .addSymbol 7, .insert [1, 7, 1] false]
    let c₂ : Revisable Nat := (Revisable.new (.ofList [1, 2]) {}).run [.insertAs [] true .user]
    let later₂ : List (Revisable.Request Nat) := [.insertAs [1, 1] true .oracle,
      .insertAs [2, 1] false .user, .retire .root, .insertAs [7] false .oracle]
    (c₁.run later₁).tree.size ≤ UInt32.size ∧ (∀ r ∈ later₁, r.Confirms even) ∧
      (c₁.run later₁).tree.separatingWord? even probes false =
        c₁.tree.separatingWord? even probes false ∧
      (c₂.run later₂).tree.size ≤ UInt32.size ∧ (∀ r ∈ later₂, r.Confirms even) ∧
      c₂.tree.separatingWord? even probes false = none ∧
      (c₂.run later₂).tree.separatingWord? even probes false = none := by
  intro even probes c₁ later₁ c₂ later₂
  have hrun₁ : c₁.run later₁ = (WriteOnce.new (.ofList [1, 2]) {}).run ([.insert [1] true] ++ _) :=
    (WriteOnce.run_append ..).symm
  have hrun₂ : c₂.run later₂ =
      (Revisable.new (.ofList [1, 2]) {}).run ([.insertAs [] true .user] ++ _) :=
    (Revisable.run_append ..).symm
  have hroom₁ : (c₁.run later₁).tree.size ≤ UInt32.size := by
    rw [hrun₁]
    exact Nat.le_trans (WriteOnce.size_run_le (.ofList [1, 2]) {} _) (by decide)
  have hroom₂ : (c₂.run later₂).tree.size ≤ UInt32.size := by
    rw [hrun₂]
    exact Nat.le_trans (Revisable.size_run_le (.ofList [1, 2]) {} _) (by decide)
  have hconfirms₁ : ∀ r ∈ later₁, r.Confirms even := by decide
  have hconfirms₂ : ∀ r ∈ later₂, r.Confirms even := by decide
  have hnone : c₂.tree.separatingWord? even probes false = none := by
    have h := Revisable.describes_run (Alphabet.toList_ofList_of_nodup (by decide : [1, 2].Nodup))
      {} [.insertAs [] true .user] (Nat.le_trans (c₂.size_le_run later₂) hroom₂)
    have hdisputed : c₂.tree.disputed even probes false = ∅ := by
      rw [Set.eq_empty_iff_forall_notMem]
      intro w hw
      have hcommitted := Tree.lookup_eq_iff.1 hw.2
      rw [Tree.committed?_eq_map_stored?, h.entry_eq] at hcommitted
      cases w with
      | nil => cases hcommitted
      | cons s w => cases hcommitted
    exact (Tree.separatingWord?_eq_none_iff_disputed rfl h.holds.wellFormed).2 hdisputed
  obtain ⟨hwriteOnce, hrevisable⟩ := confirmations_separate_nothing even probes false
  have hsame := hwriteOnce (.ofList [1, 2]) {} [.insert [1] true] later₁ hroom₁ hconfirms₁
  have hstill := hrevisable (.ofList [1, 2]) {} [.insertAs [] true .user] later₂ hroom₂ hconfirms₂
    hnone
  exact ⟨hroom₁, hconfirms₁, hsame, hroom₂, hconfirms₂, hnone, hstill⟩

end Caches
end MembershipCache
