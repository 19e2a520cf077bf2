import MembershipCache.Proofs.Cache.Effect

/-! The trees that a run of either cache arrives at, and the words that the run put into them. -/
namespace MembershipCache
universe u

namespace Tree
variable {σ : Type u} [DecidableEq σ] [Hashable σ]

inductive Reachable : {P : Type} → Tree σ P → Prop
  | writeOnce (a : Alphabet σ) (settings : Settings) (rs : List (WriteOnce.Request σ)) :
    Reachable ((WriteOnce.new a settings).run rs).tree
  | revisable (a : Alphabet σ) (settings : Settings) (rs : List (Revisable.Request σ)) :
    Reachable ((Revisable.new a settings).run rs).tree

theorem Reachable.wellFormed {P : Type} {t : Tree σ P} (h : t.Reachable)
    (hroom : t.size ≤ UInt32.size) : t.WellFormed := by
  cases h with
  | writeOnce a settings rs => exact WriteOnce.wellFormed_run a settings rs hroom
  | revisable a settings rs => exact Revisable.wellFormed_run a settings rs hroom

/-- A tree that a run of either cache builds, with the words whose inserts were not refused. -/
inductive Built : {P : Type} → Tree σ P → List (Word σ) → Prop
  | writeOnce (a : Alphabet σ) (settings : Settings) (rs : List (WriteOnce.Request σ)) :
    Built ((WriteOnce.new a settings).run rs).tree ((WriteOnce.new a settings).entered rs)
  | revisable (a : Alphabet σ) (settings : Settings) (rs : List (Revisable.Request σ)) :
    Built ((Revisable.new a settings).run rs).tree ((Revisable.new a settings).entered rs)

theorem Reachable.exists_built {P : Type} {t : Tree σ P} (h : t.Reachable) : ∃ ws, t.Built ws := by
  cases h with
  | writeOnce a settings rs => exact ⟨_, .writeOnce a settings rs⟩
  | revisable a settings rs => exact ⟨_, .revisable a settings rs⟩

theorem Built.holds {P : Type} {t : Tree σ P} {ws : List (Word σ)} (h : t.Built ws)
    (hroom : t.size ≤ UInt32.size) : t.Holds ws := by
  cases h with
  | writeOnce a settings rs => exact WriteOnce.holds_run a settings rs hroom
  | revisable a settings rs => exact Revisable.holds_run a settings rs hroom

theorem Reachable.exists_holds {P : Type} {t : Tree σ P} (h : t.Reachable)
    (hroom : t.size ≤ UInt32.size) : ∃ ws, t.Holds ws := by
  obtain ⟨ws, hws⟩ := h.exists_built
  exact ⟨ws, hws.holds hroom⟩

end Tree
end MembershipCache
