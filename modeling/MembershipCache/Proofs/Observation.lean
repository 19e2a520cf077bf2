import MembershipCache.Proofs.Cache.Arbitration
import MembershipCache.Proofs.Dispute
import MembershipCache.Tree.View

/-! What can be seen of a tree. It has nodes for what its committed words begin with, its acceptor
runs along those nodes, and the search reports on committed words only; so caches with the same
answers to all lookups differ in nothing but how their nodes are numbered. -/
namespace MembershipCache
universe u v w

namespace Tree
variable {σ : Type u} [DecidableEq σ] [Hashable σ]

theorem run?_acceptor {P : Type v} (t : Tree σ P) (id : NodeId) (w : Word σ) :
    t.acceptor.run? id w = w.foldlM t.successor? id := t.acceptor.run?_eq_foldlM id w

theorem accepts_acceptor {P : Type v} (t : Tree σ P) (w : Word σ) :
    t.acceptor.accepts w = (t.lookup w == (true, some true)) := by
  have hrun : t.acceptor.start?.bind (t.acceptor.run? · w) = t.nodeOf? w := t.run?_acceptor .root w
  rw [Acceptor.accepts, hrun, lookup, committed?]
  cases t.nodeOf? w with
  | none => rfl
  | some id =>
    change (t.verdictAt id).toBool = _
    rw [Option.bind_some]
    cases t.verdictAt id <;> rfl

section Alike
variable {P₁ P₂ : Type v} {t₁ : Tree σ P₁} {t₂ : Tree σ P₂} {ws₁ ws₂ : List (Word σ)}
  (h₁ : t₁.Holds ws₁) (h₂ : t₂.Holds ws₂) (hlookup : ∀ w, t₁.lookup w = t₂.lookup w)
include hlookup

theorem closure_congr : t₁.closure = t₂.closure := by
  simp only [closure, hlookup]

theorem accepts_acceptor_congr (w : Word σ) : t₁.acceptor.accepts w = t₂.acceptor.accepts w := by
  rw [accepts_acceptor, accepts_acceptor, hlookup]

include h₁ h₂

theorem isSome_nodeOf?_congr (w : Word σ) : (t₁.nodeOf? w).isSome = (t₂.nodeOf? w).isSome := by
  rw [Bool.eq_iff_iff, h₁.isSome_nodeOf?_iff, h₂.isSome_nodeOf?_iff, closure_congr hlookup]

theorem size_congr : t₁.size = t₂.size := by
  rw [← h₁.ncard_closure, ← h₂.ncard_closure, closure_congr hlookup]

theorem separatingWord?_congr {Q : Type w} (target : Acceptor σ Q) (probes : Array σ)
    (skipUndefined : Bool) : t₁.separatingWord? target probes skipUndefined =
      t₂.separatingWord? target probes skipUndefined := by
  refine separatingWord?_congr_of_disputed h₁.wellFormed h₂.wellFormed ?_
  simp only [disputed, hlookup]

end Alike

/-- Two caches with the same answers to all lookups have nodes for the same words, accept the same
words, and are separated from any acceptor by the same word. -/
theorem Reachable.lookup_determines {P₁ P₂ : Type} {t₁ : Tree σ P₁} {t₂ : Tree σ P₂}
    (h₁ : t₁.Reachable) (h₂ : t₂.Reachable) (hroom₁ : t₁.size ≤ UInt32.size)
    (hroom₂ : t₂.size ≤ UInt32.size) (hlookup : ∀ w, t₁.lookup w = t₂.lookup w) :
    (∀ w, (t₁.nodeOf? w).isSome = (t₂.nodeOf? w).isSome) ∧
    t₁.size = t₂.size ∧
    (∀ w, t₁.acceptor.accepts w = t₂.acceptor.accepts w) ∧
    ∀ {Q : Type w} (target : Acceptor σ Q) (probes : Array σ) (skipUndefined : Bool),
      t₁.separatingWord? target probes skipUndefined =
        t₂.separatingWord? target probes skipUndefined := by
  obtain ⟨ws₁, hholds₁⟩ := h₁.exists_holds hroom₁
  obtain ⟨ws₂, hholds₂⟩ := h₂.exists_holds hroom₂
  refine ⟨isSome_nodeOf?_congr hholds₁ hholds₂ hlookup, size_congr hholds₁ hholds₂ hlookup,
    accepts_acceptor_congr hlookup, ?_⟩
  intro Q target probes skipUndefined
  exact separatingWord?_congr hholds₁ hholds₂ hlookup target probes skipUndefined

theorem lookup_determines_across_histories :
    let c₁ : WriteOnce Nat := .new (.ofList [1]) {}
    let rs₁ : List (WriteOnce.Request Nat) := [.insert [1] true]
    let c₂ : Revisable Nat := .new (.ofList [2, 1]) {}
    let rs₂ : List (Revisable.Request Nat) :=
      [.insertAs [1] false .oracle, .insertAs [1] true .user]
    let t₁ := (c₁.run rs₁).tree
    let t₂ := (c₂.run rs₂).tree
    let even : Acceptor Nat Bool := ⟨some true, fun q _ => some !q, id⟩
    t₁.size ≤ UInt32.size ∧ t₂.size ≤ UInt32.size ∧ (∀ w, t₁.lookup w = t₂.lookup w) ∧
      t₁.size = t₂.size ∧ t₁.separatingWord? even #[2, 1] false =
        t₂.separatingWord? even #[2, 1] false := by
  intro c₁ rs₁ c₂ rs₂ t₁ t₂ even
  have hroom₁ : t₁.size ≤ UInt32.size :=
    Nat.le_trans (WriteOnce.size_run_le (.ofList [1]) {} rs₁) (by decide)
  have hroom₂ : t₂.size ≤ UInt32.size :=
    Nat.le_trans (Revisable.size_run_le (.ofList [2, 1]) {} rs₂) (by decide)
  have hletters₁ : (Alphabet.ofList [1]).toList = [1] :=
    Alphabet.toList_ofList_of_nodup (by decide)
  have hletters₂ : (Alphabet.ofList [2, 1]).toList = [2, 1] :=
    Alphabet.toList_ofList_of_nodup (by decide)
  have hlookup : ∀ w, t₁.lookup w = t₂.lookup w := by
    intro w
    refine (WriteOnce.lookup_run hletters₁ {} rs₁ hroom₁ w).trans
      (Eq.trans ?_ (Revisable.lookup_run hletters₂ {} rs₂ hroom₂ w).1.symm)
    by_cases hw : w = [1]
    · subst hw
      rfl
    · simp [rs₁, rs₂, WriteOnce.outline, WriteOnce.insertAnswer, Revisable.outline, Outline.new,
        Outline.put, hw, Except.isOk, Except.toBool]
  have hreachable₁ : t₁.Reachable := .writeOnce (.ofList [1]) {} rs₁
  have hreachable₂ : t₂.Reachable := .revisable (.ofList [2, 1]) {} rs₂
  obtain ⟨_, hsize, _, hsearch⟩ :=
    hreachable₁.lookup_determines hreachable₂ hroom₁ hroom₂ hlookup
  exact ⟨hroom₁, hroom₂, hlookup, hsize, hsearch even #[2, 1] false⟩

end Tree
end MembershipCache
