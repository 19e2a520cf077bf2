import MembershipCache.Cache.Revisable
import MembershipCache.Proofs.Run
import MembershipCache.Proofs.Tree.Growth

/-! Runs of a revisable cache, and what one insert does: it answers from the entry of its own word
alone, revises no other, and refreshes the node of its word. -/
namespace MembershipCache
universe u

namespace Revisable

/-- What is stored for a word after an assertion about it. -/
def arbitrate : Option (Bool × Provenance) → Bool → Provenance → Option (Bool × Provenance)
  | none, b, o => some (b, o)
  | some (x, stored), b, o =>
    if b = x then some (x, stored)
    else if o = .user ∨ stored = .oracle then some (b, o)
    else some (x, stored)

def overrules : Option (Bool × Provenance) → Bool → Provenance → Bool
  | none, _, _ => false
  | some (x, stored), b, o => decide (b ≠ x ∧ (o = .user ∨ stored = .oracle))

theorem arbitrate_equal (b : Bool) (stored o : Provenance) :
    arbitrate (some (b, stored)) b o = some (b, stored) := if_pos rfl

theorem arbitrate_replaced (b : Bool) {stored o : Provenance} (h : o = .user ∨ stored = .oracle) :
    arbitrate (some (!b, stored)) b o = some (b, o) := by
  rw [arbitrate, if_neg (by simp), if_pos h]

theorem arbitrate_kept (b : Bool) {stored o : Provenance} (h : ¬(o = .user ∨ stored = .oracle)) :
    arbitrate (some (!b, stored)) b o = some (!b, stored) := by
  rw [arbitrate, if_neg (by simp), if_neg h]

theorem isSome_arbitrate (e : Option (Bool × Provenance)) (b : Bool) (o : Provenance) :
    (arbitrate e b o).isSome := by
  cases e with
  | none => rfl
  | some i =>
    rw [arbitrate]
    split_ifs <;> rfl

variable {σ : Type u} [DecidableEq σ] [Hashable σ]

inductive Request (σ : Type u) where
  | insertAs (w : Word σ) (accepted : Bool) (origin : Provenance)
  | addSymbol (s : σ)
  | retire (id : NodeId)
  deriving DecidableEq

def Request.length : Request σ → Nat
  | .insertAs w _ _ => w.length
  | .addSymbol _ | .retire _ => 0

def step (c : Revisable σ) : Request σ → Revisable σ
  | .insertAs w accepted origin => (c.insertAs w accepted origin).state
  | .addSymbol s => (c.addSymbol s).state
  | .retire id => (c.retire id).1

def run (c : Revisable σ) (rs : List (Request σ)) : Revisable σ := rs.foldl step c

theorem run_append (c : Revisable σ) (rs later : List (Request σ)) :
    c.run (rs ++ later) = (c.run rs).run later := List.foldl_append

theorem run_concat (c : Revisable σ) (rs : List (Request σ)) (r : Request σ) :
    c.run (rs ++ [r]) = (c.run rs).step r := by
  simp [run]

@[simp] theorem tree_retire (c : Revisable σ) (id : NodeId) : (c.retire id).1.tree = c.tree := by
  rw [retire]
  split <;> rfl

theorem size_insertAs {c : Revisable σ} {w : Word σ} {b : Bool} {o : Provenance}
    {d : Descent σ Provenance} (h : c.tree.enter w = .ok d) :
    (c.insertAs w b o).state.tree.size = d.tree.size := by
  rw [insertAs, h]
  simp only
  split
  · exact Tree.size_modify ..
  · split
    · rfl
    · split
      · exact Tree.size_modify ..
      · rfl

theorem insertAs_of_error {c : Revisable σ} {w : Word σ} {s : σ} (h : c.tree.enter w = .error s)
    (b : Bool) (o : Provenance) : c.insertAs w b o = ⟨.error (.unknownSymbol s), c, []⟩ := by
  rw [insertAs, h]

theorem size_le_insertAs (c : Revisable σ) (w : Word σ) (b : Bool) (o : Provenance) :
    c.tree.size ≤ (c.insertAs w b o).state.tree.size ∧
      (c.insertAs w b o).state.tree.size ≤ c.tree.size + w.length := by
  cases h : c.tree.enter w with
  | error s =>
    rw [insertAs_of_error h]
    exact ⟨Nat.le_refl _, Nat.le_add_right ..⟩
  | ok d =>
    rw [size_insertAs h]
    exact ⟨Tree.size_le_enter h, Tree.size_enter_le h⟩

theorem size_step (c : Revisable σ) (r : Request σ) :
    c.tree.size ≤ (c.step r).tree.size ∧ (c.step r).tree.size ≤ c.tree.size + r.length := by
  cases r with
  | insertAs w b o => exact c.size_le_insertAs w b o
  | addSymbol s =>
    have h := c.tree.size_addSymbol s
    exact ⟨Nat.le_of_eq h.symm, Nat.le_of_eq h⟩
  | retire id =>
    rw [step, tree_retire]
    exact ⟨Nat.le_refl _, Nat.le_refl _⟩

theorem size_le_run (c : Revisable σ) (rs : List (Request σ)) :
    c.tree.size ≤ (c.run rs).tree.size :=
  le_foldl step (fun c => c.tree.size) (fun c r => (size_step c r).1) c rs

theorem size_run_le (a : Alphabet σ) (settings : Settings) (rs : List (Request σ)) :
    ((new a settings).run rs).tree.size ≤ 1 + Tree.totalBound Request.length rs := by
  rw [← Tree.size_new (P := Provenance) a settings]
  exact foldl_le_add_totalBound step (fun c => c.tree.size) (fun c r => (size_step c r).2) _ rs

/-- The four ways of an insert whose word is over the alphabet. -/
theorem insertAs_of_ok {c : Revisable σ} {w : Word σ} {b : Bool} {o : Provenance}
    {d : Descent σ Provenance} (h : c.tree.enter w = .ok d) (hd : Tree.Entered c.tree w d) :
    (c.tree.stored? w = none ∧ c.insertAs w b o =
      ⟨.ok false, ⟨d.tree.write d.node (.ofBool b) o, c.recency.touch d.node w⟩, d.events⟩) ∨
    (∃ stored, c.tree.stored? w = some (b, stored) ∧ c.insertAs w b o =
      ⟨.ok false, ⟨d.tree, c.recency.touch d.node w⟩, d.events⟩) ∨
    (∃ stored, c.tree.stored? w = some (!b, stored) ∧ (o = .user ∨ stored = .oracle) ∧
      c.insertAs w b o =
        ⟨.ok true, ⟨d.tree.write d.node (.ofBool b) o, c.recency.touch d.node w⟩,
          d.events ++ [.overwrote w.length (.ofBool (!b)) (.ofBool b) stored o]⟩) ∨
    (∃ stored, c.tree.stored? w = some (!b, stored) ∧ ¬(o = .user ∨ stored = .oracle) ∧
      c.insertAs w b o =
        ⟨.ok false, ⟨d.tree, c.recency.touch d.node w⟩,
          d.events ++ [.kept w.length (.ofBool (!b)) o]⟩) := by
  rw [← hd.stored?_node, insertAs, h]
  have hgives : (d.tree.tagAt d.node).givesWayTo o = true ↔
      o = .user ∨ d.tree.tagAt d.node = .oracle := by
    simp [Provenance.givesWayTo]
  cases hv : d.tree.verdictAt d.node with
  | unknown =>
    simp only [hv]
    exact Or.inl ⟨rfl, rfl⟩
  | accept =>
    cases b with
    | true => simp [hv, Verdict.committed?, Verdict.ofBool]
    | false =>
      by_cases hg : o = .user ∨ d.tree.tagAt d.node = .oracle
      · simp [hv, Verdict.committed?, Verdict.ofBool, hgives.2 hg, hg, Tree.write]
      · simpa [hv, Verdict.committed?, Verdict.ofBool, mt hgives.1 hg] using not_or.1 hg
  | reject =>
    cases b with
    | false => simp [hv, Verdict.committed?, Verdict.ofBool]
    | true =>
      by_cases hg : o = .user ∨ d.tree.tagAt d.node = .oracle
      · simp [hv, Verdict.committed?, Verdict.ofBool, hgives.2 hg, hg, Tree.write]
      · simpa [hv, Verdict.committed?, Verdict.ofBool, mt hgives.1 hg] using not_or.1 hg

structure Inserted (c : Revisable σ) (w : Word σ) (b : Bool) (o : Provenance)
    (r : Reply (Revisable σ) (Except (Refusal σ) Bool)) : Prop where
  wellFormed : r.state.tree.WellFormed
  alphabet_eq : r.state.tree.alphabet = c.tree.alphabet
  nodeOf?_kept : ∀ {u : Word σ} {id : NodeId}, c.tree.nodeOf? u = some id →
    r.state.tree.nodeOf? u = some id
  answer_eq : r.answer = .ok (overrules (c.tree.stored? w) b o)
  stored?_eq : ∀ u, r.state.tree.stored? u =
    if u = w then arbitrate (c.tree.stored? w) b o else c.tree.stored? u
  refreshed : ∃ id, r.state.tree.nodeOf? w = some id ∧ r.state.recency = c.recency.touch id w

section Outcome
variable {c : Revisable σ} {w : Word σ} {d : Descent σ Provenance} (hd : Tree.Entered c.tree w d)
  {b : Bool} {o : Provenance} {answer : Bool} (events : List Event)
  (hanswer : overrules (c.tree.stored? w) b o = answer)
include hd hanswer

theorem inserted_of_written (hstored : arbitrate (c.tree.stored? w) b o = some (b, o)) :
    Inserted c w b o ⟨.ok answer,
      ⟨d.tree.write d.node (.ofBool b) o, c.recency.touch d.node w⟩, events⟩ := by
  refine ⟨hd.wellFormed.write .., hd.extension.alphabet_eq, ?_, by rw [hanswer], ?_, d.node, ?_, rfl⟩
  · intro u id hu
    rw [Tree.nodeOf?_write]
    exact hd.extension.nodeOf?_kept hu
  · intro u
    rw [hd.wellFormed.stored?_write hd.reached, hd.stored?_eq, hstored]
  · rw [Tree.nodeOf?_write]
    exact hd.reached

theorem inserted_of_left (hstored : arbitrate (c.tree.stored? w) b o = c.tree.stored? w) :
    Inserted c w b o ⟨.ok answer, ⟨d.tree, c.recency.touch d.node w⟩, events⟩ := by
  refine ⟨hd.wellFormed, hd.extension.alphabet_eq, hd.extension.nodeOf?_kept, by rw [hanswer], ?_,
    d.node, hd.reached, rfl⟩
  intro u
  rw [hd.stored?_eq, hstored]
  split
  · next hu => rw [hu]
  · rfl

end Outcome

theorem inserted {c : Revisable σ} (hc : c.tree.WellFormed) {w : Word σ} {b : Bool}
    {o : Provenance} (hroom : (c.insertAs w b o).state.tree.size ≤ UInt32.size)
    (hover : w.find? (· ∉ c.tree.alphabet.toList) = none) :
    Inserted c w b o (c.insertAs w b o) := by
  cases h : c.tree.enter w with
  | error s =>
    rw [Tree.enter_eq_error_iff, hover] at h
    cases h
  | ok d =>
    rw [size_insertAs h] at hroom
    have hd : Tree.Entered c.tree w d := hc.enter h hroom
    rcases insertAs_of_ok (b := b) (o := o) h hd with
      ⟨hw, heq⟩ | ⟨stored, hw, heq⟩ | ⟨stored, hw, hg, heq⟩ | ⟨stored, hw, hg, heq⟩
    · rw [heq]
      apply inserted_of_written hd
      · rw [hw]
        rfl
      · rw [hw]
        rfl
    · rw [heq]
      apply inserted_of_left hd
      · rw [hw]
        simp [overrules]
      · rw [hw, arbitrate_equal]
    · rw [heq]
      apply inserted_of_written hd
      · rw [hw]
        simp [overrules, hg]
      · rw [hw, arbitrate_replaced b hg]
    · rw [heq]
      apply inserted_of_left hd
      · rw [hw]
        simp [overrules, hg]
      · rw [hw, arbitrate_kept b hg]

theorem insertAs_of_foreign {c : Revisable σ} {w : Word σ} {s : σ}
    (hs : w.find? (· ∉ c.tree.alphabet.toList) = some s) (b : Bool) (o : Provenance) :
    c.insertAs w b o = ⟨.error (.unknownSymbol s), c, []⟩ :=
  insertAs_of_error (Tree.enter_eq_error_iff.2 hs) b o

theorem originOf?_eq_map_stored? (c : Revisable σ) (w : Word σ) :
    c.originOf? w = (c.tree.stored? w).map (·.2) := by
  rw [originOf?, Tree.stored?]
  cases c.tree.nodeOf? w with
  | none => rfl
  | some id =>
    simp only [bind, Option.bind_some, Tree.verdictAt, Tree.tagAt]
    cases c.tree.node? id with
    | none => rfl
    | some n => cases hv : n.verdict <;> simp [hv, Verdict.isKnown, Verdict.committed?]

theorem stored?_new (a : Alphabet σ) (settings : Settings) (w : Word σ) :
    (new a settings).tree.stored? w = none := by
  have h := Tree.committed?_new (P := Provenance) a settings w
  rw [Tree.committed?_eq_map_stored?, Option.map_eq_none_iff] at h
  exact h

theorem wellFormed_step {c : Revisable σ} (hc : c.tree.WellFormed) {r : Request σ}
    (hroom : (c.step r).tree.size ≤ UInt32.size) : (c.step r).tree.WellFormed := by
  cases r with
  | insertAs w b o =>
    cases hfind : w.find? (· ∉ c.tree.alphabet.toList) with
    | some s =>
      rw [step, insertAs_of_foreign hfind]
      exact hc
    | none => exact (inserted hc hroom hfind).wellFormed
  | addSymbol s => exact hc.addSymbol s
  | retire id =>
    rw [step, tree_retire]
    exact hc

theorem wellFormed_later {c : Revisable σ} (hc : c.tree.WellFormed) (later : List (Request σ))
    (hroom : (c.run later).tree.size ≤ UInt32.size) : (c.run later).tree.WellFormed :=
  foldl_invariant step (fun c => c.tree.size) (fun c r => (size_step c r).1)
    (fun c => c.tree.WellFormed) (fun _ _ hc => wellFormed_step hc) hc later hroom

theorem wellFormed_run (a : Alphabet σ) (settings : Settings) (rs : List (Request σ))
    (hroom : ((new a settings).run rs).tree.size ≤ UInt32.size) :
    ((new a settings).run rs).tree.WellFormed :=
  wellFormed_later (Tree.wellFormed_new a settings) rs hroom

theorem wellFormed_before {a : Alphabet σ} {settings : Settings}
    {rs before after : List (Request σ)} {r : Request σ} (h : rs = before ++ r :: after)
    (hroom : ((new a settings).run rs).tree.size ≤ UInt32.size) :
    ((new a settings).run before).tree.WellFormed ∧
      (((new a settings).run before).step r).tree.size ≤ UInt32.size :=
  foldl_invariant_before step (fun c => c.tree.size) (fun c r => (size_step c r).1)
    (fun c => c.tree.WellFormed) (fun _ _ hc => wellFormed_step hc) (Tree.wellFormed_new a settings)
    h hroom

end Revisable
end MembershipCache
