import MembershipCache.Cache.WriteOnce
import MembershipCache.Proofs.Run
import MembershipCache.Proofs.Tree.Growth

/-! Runs of a write-once cache, and what one insert does: it answers from the entry of its own word
alone, and commits that entry if there is none. -/
namespace MembershipCache
universe u

namespace WriteOnce
variable {σ : Type u} [DecidableEq σ] [Hashable σ]

inductive Request (σ : Type u) where
  | insert (w : Word σ) (accepted : Bool)
  | addSymbol (s : σ)
  deriving DecidableEq

def step (c : WriteOnce σ) : Request σ → WriteOnce σ
  | .insert w accepted => (c.insert w accepted).state
  | .addSymbol s => (c.addSymbol s).state

def run (c : WriteOnce σ) (rs : List (Request σ)) : WriteOnce σ := rs.foldl step c

theorem run_append (c : WriteOnce σ) (rs later : List (Request σ)) :
    c.run (rs ++ later) = (c.run rs).run later := List.foldl_append

theorem run_concat (c : WriteOnce σ) (rs : List (Request σ)) (r : Request σ) :
    c.run (rs ++ [r]) = (c.run rs).step r := by
  simp [run]

theorem size_insert {c : WriteOnce σ} {w : Word σ} {b : Bool} {d : Descent σ Unit}
    (h : c.tree.enter w = .ok d) : (c.insert w b).state.tree.size = d.tree.size := by
  rw [insert, h]
  simp only
  split
  · exact Tree.size_modify ..
  · split <;> rfl

theorem insert_of_error {c : WriteOnce σ} {w : Word σ} {s : σ} (h : c.tree.enter w = .error s)
    (b : Bool) : c.insert w b = ⟨.error (.unknownSymbol s), c, []⟩ := by
  rw [insert, h]

theorem size_le_insert (c : WriteOnce σ) (w : Word σ) (b : Bool) :
    c.tree.size ≤ (c.insert w b).state.tree.size ∧
      (c.insert w b).state.tree.size ≤ c.tree.size + w.length := by
  cases h : c.tree.enter w with
  | error s =>
    rw [insert_of_error h]
    exact ⟨Nat.le_refl _, Nat.le_add_right ..⟩
  | ok d =>
    rw [size_insert h]
    exact ⟨Tree.size_le_enter h, Tree.size_enter_le h⟩

def Request.length : Request σ → Nat
  | .insert w _ => w.length
  | .addSymbol _ => 0

theorem size_step (c : WriteOnce σ) (r : Request σ) :
    c.tree.size ≤ (c.step r).tree.size ∧ (c.step r).tree.size ≤ c.tree.size + r.length := by
  cases r with
  | insert w b => exact c.size_le_insert w b
  | addSymbol s =>
    have h := c.tree.size_addSymbol s
    exact ⟨Nat.le_of_eq h.symm, Nat.le_of_eq h⟩

theorem size_le_run (c : WriteOnce σ) (rs : List (Request σ)) :
    c.tree.size ≤ (c.run rs).tree.size :=
  le_foldl step (fun c => c.tree.size) (fun c r => (size_step c r).1) c rs

theorem size_run_le (a : Alphabet σ) (settings : Settings) (rs : List (Request σ)) :
    ((new a settings).run rs).tree.size ≤ 1 + Tree.totalBound Request.length rs := by
  rw [← Tree.size_new (P := Unit) a settings]
  exact foldl_le_add_totalBound step (fun c => c.tree.size) (fun c r => (size_step c r).2) _ rs

/-- What an insert answers, given the first symbol outside the alphabet and what is committed. -/
def insertAnswer (w : Word σ) (b : Bool) : Option σ → Option Bool → Except (Refusal σ) Unit
  | some s, _ => .error (.unknownSymbol s)
  | none, none => .ok ()
  | none, some x => if x = b then .ok () else .error (.conflict w (.ofBool x) (.ofBool b))

omit [DecidableEq σ] [Hashable σ] in
theorem isOk_insertAnswer {w : Word σ} {b : Bool} {foreign? : Option σ} {x? : Option Bool} :
    (insertAnswer w b foreign? x?).isOk ↔ foreign? = none ∧ (x? = none ∨ x? = some b) := by
  cases foreign? with
  | some s => simp [insertAnswer, Except.isOk, Except.toBool]
  | none => cases x? with
    | none => simp [insertAnswer, Except.isOk, Except.toBool]
    | some x => cases x <;> cases b <;> simp [insertAnswer, Except.isOk, Except.toBool]

structure Inserted (c : WriteOnce σ) (w : Word σ) (b : Bool)
    (r : Reply (WriteOnce σ) (Except (Refusal σ) Unit)) : Prop where
  wellFormed : r.state.tree.WellFormed
  alphabet_eq : r.state.tree.alphabet = c.tree.alphabet
  answer_eq : r.answer =
    insertAnswer w b (w.find? (· ∉ c.tree.alphabet.toList)) (c.tree.committed? w)
  committed?_eq : ∀ u, r.state.tree.committed? u =
    if u = w ∧ w.find? (· ∉ c.tree.alphabet.toList) = none ∧ c.tree.committed? w = none then some b
    else c.tree.committed? u

theorem inserted_of_error {c : WriteOnce σ} (hc : c.tree.WellFormed) {w : Word σ} {b : Bool} {s : σ}
    (h : c.tree.enter w = .error s) : Inserted c w b (c.insert w b) := by
  have hfind := Tree.enter_eq_error_iff.1 h
  rw [insert_of_error h]
  refine ⟨hc, rfl, ?_, ?_⟩
  · rw [hfind]
    rfl
  · intro u
    rw [hfind]
    simp

/-- The three ways of an insert whose word is over the alphabet. -/
theorem insert_of_ok {c : WriteOnce σ} {w : Word σ} {b : Bool} {d : Descent σ Unit}
    (h : c.tree.enter w = .ok d) (hd : Tree.Entered c.tree w d) :
    (c.tree.committed? w = none ∧
      c.insert w b = ⟨.ok (), ⟨d.tree.write d.node (.ofBool b) ()⟩, d.events⟩) ∨
    (c.tree.committed? w = some b ∧ c.insert w b = ⟨.ok (), ⟨d.tree⟩, d.events⟩) ∨
    (c.tree.committed? w = some (!b) ∧
      c.insert w b = ⟨.error (.conflict w (.ofBool (!b)) (.ofBool b)), ⟨d.tree⟩,
        d.events ++ [.rejected w.length (.ofBool (!b)) (.ofBool b)]⟩) := by
  rw [← hd.committed?_node, insert, h]
  cases hv : d.tree.verdictAt d.node with
  | unknown =>
    simp only [hv]
    exact Or.inl ⟨rfl, rfl⟩
  | accept => cases b <;> simp [hv, Verdict.committed?, Verdict.ofBool]
  | reject => cases b <;> simp [hv, Verdict.committed?, Verdict.ofBool]

theorem inserted {c : WriteOnce σ} (hc : c.tree.WellFormed) {w : Word σ} {b : Bool}
    (hroom : (c.insert w b).state.tree.size ≤ UInt32.size) : Inserted c w b (c.insert w b) := by
  cases h : c.tree.enter w with
  | error s => exact inserted_of_error hc h
  | ok d =>
    have hfind : w.find? (· ∉ c.tree.alphabet.toList) = none := Tree.find?_eq_none_of_enter h
    rw [size_insert h] at hroom
    have hd : Tree.Entered c.tree w d := hc.enter h hroom
    have hkept : ∀ u, d.tree.committed? u = c.tree.committed? u := hd.committed?_eq
    rcases insert_of_ok (b := b) h hd with ⟨hw, heq⟩ | ⟨hw, heq⟩ | ⟨hw, heq⟩
    · rw [heq]
      refine ⟨hd.wellFormed.write .., hd.extension.alphabet_eq, ?_, ?_⟩
      · rw [hfind, hw]
        rfl
      · intro u
        rw [hd.wellFormed.committed?_write hd.reached, hkept]
        simp only [hfind, hw, and_true]
    · rw [heq]
      refine ⟨hd.wellFormed, hd.extension.alphabet_eq, ?_, ?_⟩
      · rw [hfind, hw]
        simp [insertAnswer]
      · intro u
        rw [hkept]
        simp [hw]
    · rw [heq]
      refine ⟨hd.wellFormed, hd.extension.alphabet_eq, ?_, ?_⟩
      · rw [hfind, hw]
        simp [insertAnswer]
      · intro u
        rw [hkept]
        simp [hw]

theorem wellFormed_step {c : WriteOnce σ} (hc : c.tree.WellFormed) {r : Request σ}
    (hroom : (c.step r).tree.size ≤ UInt32.size) : (c.step r).tree.WellFormed := by
  cases r with
  | insert w b => exact (inserted hc hroom).wellFormed
  | addSymbol s => exact hc.addSymbol s

theorem wellFormed_later {c : WriteOnce σ} (hc : c.tree.WellFormed) (later : List (Request σ))
    (hroom : (c.run later).tree.size ≤ UInt32.size) : (c.run later).tree.WellFormed :=
  foldl_invariant step (fun c => c.tree.size) (fun c r => (size_step c r).1)
    (fun c => c.tree.WellFormed) (fun _ _ hc => wellFormed_step hc) hc later hroom

theorem wellFormed_run (a : Alphabet σ) (settings : Settings) (rs : List (Request σ))
    (hroom : ((new a settings).run rs).tree.size ≤ UInt32.size) :
    ((new a settings).run rs).tree.WellFormed :=
  wellFormed_later (Tree.wellFormed_new a settings) rs hroom

theorem wellFormed_before {a : Alphabet σ} {settings : Settings}
    {rs before after : List (Request σ)} {r : Request σ} (h : rs = before ++ r :: after)
    (hroom : ((new a settings).run rs).tree.size ≤ UInt32.size) :
    ((new a settings).run before).tree.WellFormed ∧
      (((new a settings).run before).step r).tree.size ≤ UInt32.size :=
  foldl_invariant_before step (fun c => c.tree.size) (fun c r => (size_step c r).1)
    (fun c => c.tree.WellFormed) (fun _ _ hc => wellFormed_step hc) (Tree.wellFormed_new a settings)
    h hroom

end WriteOnce
end MembershipCache
