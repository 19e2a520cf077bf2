import MembershipCache.Proofs.Cache.Arbitration

/-! What a user asserts. The oracle never revises it, and what has become a user's stays a user's.
But an assertion counts as the user's only if something is stored by it: where the oracle has said
the same before, the entry remains the oracle's, and the oracle may take it back. -/
namespace MembershipCache
universe u

namespace Revisable

theorem arbitrate_user (e : Option (Bool × Provenance)) (b : Bool) :
    arbitrate e b .user = if e = some (b, .oracle) then some (b, .oracle) else some (b, .user) := by
  cases e with
  | none => rfl
  | some i =>
    obtain ⟨x, stored⟩ := i
    cases x <;> cases b <;> cases stored <;> rfl

theorem arbitrate_oracle_of_user (x b : Bool) :
    arbitrate (some (x, .user)) b .oracle = some (x, .user) := by
  cases x <;> cases b <;> rfl

theorem arbitrate_oracle_of_oracle (x b : Bool) :
    arbitrate (some (x, .oracle)) b .oracle = some (b, .oracle) := by
  cases x <;> cases b <;> rfl

theorem exists_arbitrate_of_user (x b : Bool) (o : Provenance) :
    ∃ y, arbitrate (some (x, .user)) b o = some (y, .user) := by
  cases o with
  | user => exact ⟨b, (arbitrate_user _ b).trans (if_neg (by simp))⟩
  | oracle => exact ⟨x, arbitrate_oracle_of_user x b⟩

section Machine
variable {l : List (Bool × Provenance)}

theorem exists_foldl_of_user (x : Bool) :
    ∃ y, l.foldl (fun stored i => arbitrate stored i.1 i.2) (some (x, .user)) =
      some (y, .user) := by
  induction l generalizing x with
  | nil => exact ⟨x, rfl⟩
  | cons i l ih =>
    obtain ⟨y, hy⟩ := exists_arbitrate_of_user x i.1 i.2
    rw [List.foldl_cons, hy]
    exact ih y

variable (horacle : ∀ i ∈ l, i.2 = .oracle)
include horacle

theorem foldl_oracle_of_user (x : Bool) :
    l.foldl (fun stored i => arbitrate stored i.1 i.2) (some (x, .user)) = some (x, .user) := by
  induction l with
  | nil => rfl
  | cons i l ih =>
    obtain ⟨hi, hl⟩ := List.forall_mem_cons.1 horacle
    rw [List.foldl_cons, hi, arbitrate_oracle_of_user]
    exact ih hl

theorem foldl_oracle_of_oracle (x : Bool) :
    l.foldl (fun stored i => arbitrate stored i.1 i.2) (some (x, .oracle)) =
      some ((l.getLast?.map (·.1)).getD x, .oracle) := by
  induction l generalizing x with
  | nil => rfl
  | cons i l ih =>
    obtain ⟨hi, hl⟩ := List.forall_mem_cons.1 horacle
    rw [List.foldl_cons, hi, arbitrate_oracle_of_oracle, ih hl, List.getLast?_cons]
    cases l.getLast? <;> rfl

end Machine

variable {σ : Type u} [DecidableEq σ] [Hashable σ]

theorem asserted_by_oracle {c : Revisable σ} {rs : List (Request σ)} {w : Word σ}
    (h : ∀ x, .insertAs w x .user ∉ rs) : ∀ i ∈ c.asserted rs w, i.2 = .oracle := by
  intro i hi
  obtain ⟨⟨d, r⟩, hmet, hlogged⟩ := List.mem_filterMap.1 hi
  obtain ⟨before, after, rfl, _⟩ := exists_of_mem_encounters hmet
  cases r with
  | addSymbol s => cases hlogged
  | retire id => cases hlogged
  | insertAs v b o =>
    rw [assertion?] at hlogged
    split at hlogged
    · next hv =>
      cases hlogged
      cases o with
      | oracle => rfl
      | user =>
        rw [hv.1] at h
        exact absurd (List.mem_append_right _ List.mem_cons_self) (h b)
    · cases hlogged

theorem stored?_eq_some_iff {c : Revisable σ} {w : Word σ} {b : Bool} {o : Provenance} :
    c.tree.stored? w = some (b, o) ↔
      c.tree.lookup w = (true, some b) ∧ c.originOf? w = some o := by
  rw [Tree.lookup, Tree.committed?_eq_map_stored?, originOf?_eq_map_stored?]
  cases c.tree.stored? w <;> simp [Prod.ext_iff]

theorem run_insertFromUser (c : Revisable σ) (rs later : List (Request σ)) (w : Word σ) (b : Bool) :
    ((c.run rs).insertFromUser w b).state.run later =
      c.run (rs ++ .insertAs w b .user :: later) :=
  (run_append c rs (.insertAs w b .user :: later)).symm

/-- An assertion of a user stands until a user asserts anew, unless the oracle has said the same
before: then the word goes on to follow the oracle. -/
theorem user_assertion_stands (a : Alphabet σ) (settings : Settings)
    (rs later : List (Request σ)) (w : Word σ) (b : Bool) :
    let c := (new a settings).run rs
    let asserted := c.insertFromUser w b
    let c' := asserted.state.run later
    c'.tree.size ≤ UInt32.size → (∀ s ∈ w, s ∈ c.tree.alphabet.toList) →
    (∀ x, .insertAs w x .user ∉ later) →
      (∃ replaced, asserted.answer = .ok replaced) ∧
      (¬(c.tree.lookup w = (true, some b) ∧ c.originOf? w = some .oracle) →
        c'.tree.lookup w = (true, some b) ∧ c'.originOf? w = some .user) ∧
      (c.tree.lookup w = (true, some b) ∧ c.originOf? w = some .oracle →
        c'.tree.lookup w =
          (true, some (((asserted.state.asserted later w).getLast?.map (·.1)).getD b)) ∧
        c'.originOf? w = some .oracle) := by
  intro c asserted c' hroom hover huser
  have hrun : c' = (new a settings).run (rs ++ .insertAs w b .user :: later) :=
    run_insertFromUser (new a settings) rs later w b
  obtain ⟨hc, hafter⟩ := wellFormed_before rfl (hrun ▸ hroom)
  have hfind : w.find? (· ∉ c.tree.alphabet.toList) = none := by
    rw [List.find?_eq_none]
    intro s hs
    simpa using hover s hs
  have h : Inserted c w b .user asserted := inserted hc hafter hfind
  have horacle : ∀ i ∈ asserted.state.asserted later w, i.2 = .oracle := asserted_by_oracle huser
  have hstored := stored?_later h.wellFormed later hroom w
  rw [h.stored?_eq, if_pos rfl, arbitrate_user] at hstored
  refine ⟨⟨_, h.answer_eq⟩, ?_, ?_⟩
  · intro hother
    rw [if_neg (mt stored?_eq_some_iff.1 hother), foldl_oracle_of_user horacle] at hstored
    exact stored?_eq_some_iff.1 hstored
  · intro hsame
    rw [if_pos (stored?_eq_some_iff.2 hsame), foldl_oracle_of_oracle horacle] at hstored
    exact stored?_eq_some_iff.1 hstored

theorem user_assertion_stands_over_retirement :
    let early : List (Request Nat) := [.insertAs [1] false .oracle]
    let c : Revisable Nat := (new (.ofList [1]) {}).run early
    let asserted := c.insertFromUser [1] true
    let later : List (Request Nat) := [.insertAs [1] false .oracle, .addSymbol 7, .retire .root,
      .insertAs [1, 7] false .user, .insertAs [1] false .oracle]
    let c' := asserted.state.run later
    c'.tree.size ≤ UInt32.size ∧ (∀ s ∈ [1], s ∈ c.tree.alphabet.toList) ∧
      (∀ x, .insertAs [1] x .user ∉ later) ∧
      ¬(c.tree.lookup [1] = (true, some true) ∧ c.originOf? [1] = some .oracle) ∧
      c'.tree.lookup [1] = (true, some true) ∧ c'.originOf? [1] = some .user := by
  intro early c asserted later c'
  have hletters : (Alphabet.ofList [1]).toList = [1] := Alphabet.toList_ofList_of_nodup (by decide)
  have hrun : c' = (new (.ofList [1]) {}).run (early ++ .insertAs [1] true .user :: later) :=
    run_insertFromUser (new (.ofList [1]) {}) early later [1] true
  have hroom : c'.tree.size ≤ UInt32.size :=
    hrun ▸ Nat.le_trans (size_run_le (.ofList [1]) {} _) (by decide)
  have hearly : c.tree.size ≤ UInt32.size :=
    Nat.le_trans (size_run_le (.ofList [1]) {} early) (by decide)
  have h := describes_run hletters {} early hearly
  have hover : ∀ s ∈ [1], s ∈ c.tree.alphabet.toList := by
    rw [h.letters_eq]
    decide
  have huser : ∀ x, .insertAs [1] x .user ∉ later := by simp [later]
  have hbefore : c.tree.lookup [1] = (true, some false) :=
    (lookup_run hletters {} early hearly [1]).1
  have hother : ¬(c.tree.lookup [1] = (true, some true) ∧ c.originOf? [1] = some .oracle) := by
    simp [hbefore]
  obtain ⟨_, hstands, _⟩ :=
    user_assertion_stands (.ofList [1]) {} early later [1] true hroom hover huser
  exact ⟨hroom, hover, huser, hother, hstands hother⟩

/-- A user confirms what the oracle has said, and the oracle takes it back all the same. -/
theorem confirmed_verdict_taken_back :
    let early : List (Request Nat) := [.insertAs [1] true .oracle]
    let c : Revisable Nat := (new (.ofList [1]) {}).run early
    let asserted := c.insertFromUser [1] true
    let later : List (Request Nat) := [.insertAs [1] false .oracle]
    let c' := asserted.state.run later
    c'.tree.size ≤ UInt32.size ∧ (∀ s ∈ [1], s ∈ c.tree.alphabet.toList) ∧
      (∀ x, .insertAs [1] x .user ∉ later) ∧ asserted.answer = .ok false ∧
      asserted.state.tree.lookup [1] = (true, some true) ∧
      c'.tree.lookup [1] = (true, some false) := by
  intro early c asserted later c'
  have hletters : (Alphabet.ofList [1]).toList = [1] := Alphabet.toList_ofList_of_nodup (by decide)
  have hroom : ∀ rs : List (Request Nat), 1 + Tree.totalBound Request.length rs ≤ UInt32.size →
      ((new (.ofList [1]) {}).run rs).tree.size ≤ UInt32.size :=
    fun rs => Nat.le_trans (size_run_le (.ofList [1]) {} rs)
  have hearly := hroom early (by decide)
  have hmiddle := hroom (early ++ [.insertAs [1] true .user]) (by decide)
  have hend := hroom (early ++ .insertAs [1] true .user :: later) (by decide)
  have h := describes_run hletters {} early hearly
  have hfind : [1].find? (· ∉ c.tree.alphabet.toList) = none := by
    rw [h.letters_eq]
    decide
  have hanswer := (inserted h.holds.wellFormed hmiddle hfind).answer_eq
  rw [h.entry_eq] at hanswer
  refine ⟨hend, ?_, by simp [later], hanswer, (lookup_run hletters {} _ hmiddle [1]).1,
    (lookup_run hletters {} _ hend [1]).1⟩
  rw [h.letters_eq]
  decide

end Revisable
end MembershipCache
