import MembershipCache.Proofs.Cache.Outline

/-! A revisable cache keeps one small machine per word, which arbitrates between the assertions about
that word. What is looked up is where the machine stands after the inserts of the word that were not
refused; inserts of other words, new symbols and retirements never move it. -/
namespace MembershipCache
universe u

namespace Revisable
variable {σ : Type u} [DecidableEq σ] [Hashable σ]

def assertion? (w : Word σ) : Revisable σ × Request σ → Option (Bool × Provenance)
  | (c, .insertAs v b o) => if v = w ∧ (c.insertAs v b o).answer.isOk then some (b, o) else none
  | (_, .addSymbol _) | (_, .retire _) => none

def asserted (c : Revisable σ) (rs : List (Request σ)) (w : Word σ) : List (Bool × Provenance) :=
  (encounters step c rs).filterMap (assertion? w)

/-- Where the machine of a word stands after a run. -/
def arbitrated (c : Revisable σ) (rs : List (Request σ)) (w : Word σ) : Option (Bool × Provenance) :=
  (c.asserted rs w).foldl (fun stored i => arbitrate stored i.1 i.2) none

/-- One step moves the machine of a word by the assertions about that word only. -/
theorem stored?_step {c : Revisable σ} (hc : c.tree.WellFormed) {r : Request σ}
    (hroom : (c.step r).tree.size ≤ UInt32.size) (w : Word σ) :
    (c.step r).tree.stored? w =
      (assertion? w (c, r)).toList.foldl (fun stored i => arbitrate stored i.1 i.2)
        (c.tree.stored? w) := by
  cases r with
  | addSymbol s => exact hc.stored?_addSymbol s w
  | retire id =>
    rw [step, tree_retire]
    rfl
  | insertAs v b o =>
    cases hfind : v.find? (· ∉ c.tree.alphabet.toList) with
    | some s =>
      rw [step, assertion?, insertAs_of_foreign hfind]
      simp [Except.isOk, Except.toBool]
    | none =>
      have h := inserted hc hroom hfind
      rw [step, h.stored?_eq, assertion?, h.answer_eq]
      by_cases hv : v = w
      · subst hv
        simp [Except.isOk, Except.toBool]
      · simp [hv, Ne.symm hv]

theorem stored?_later {c : Revisable σ} (hc : c.tree.WellFormed) (later : List (Request σ))
    (hroom : (c.run later).tree.size ≤ UInt32.size) (w : Word σ) :
    (c.run later).tree.stored? w =
      (c.asserted later w).foldl (fun stored i => arbitrate stored i.1 i.2) (c.tree.stored? w) := by
  refine (foldl_logged_invariant step (fun c => c.tree.size) (fun c r => (size_step c r).1)
    (assertion? w) (fun d l => d.tree.WellFormed ∧ d.tree.stored? w =
      l.foldl (fun stored i => arbitrate stored i.1 i.2) (c.tree.stored? w)) ?_ ⟨hc, rfl⟩ later
    hroom).2
  intro d r l hd hroom
  refine ⟨wellFormed_step hd.1 hroom, ?_⟩
  rw [stored?_step hd.1 hroom, hd.2, List.foldl_append]

theorem stored?_run (a : Alphabet σ) (settings : Settings) (rs : List (Request σ))
    (hroom : ((new a settings).run rs).tree.size ≤ UInt32.size) (w : Word σ) :
    ((new a settings).run rs).tree.stored? w = (new a settings).arbitrated rs w := by
  rw [stored?_later (Tree.wellFormed_new a settings) rs hroom, stored?_new]
  rfl

/-- A run and the machines of its words: what is looked up and by whom it was asserted, what every
insert answers, and what leaves a word alone. -/
theorem run_arbitrates (a : Alphabet σ) (settings : Settings) (rs : List (Request σ))
    (hroom : ((new a settings).run rs).tree.size ≤ UInt32.size) :
    (∀ w, ((new a settings).run rs).tree.lookup w =
        (((new a settings).arbitrated rs w).isSome, ((new a settings).arbitrated rs w).map (·.1)) ∧
      ((new a settings).run rs).originOf? w = ((new a settings).arbitrated rs w).map (·.2)) ∧
    (∀ before w b o after, rs = before ++ .insertAs w b o :: after →
      let c := (new a settings).run before
      (c.insertAs w b o).answer =
        match w.find? (· ∉ c.tree.alphabet.toList) with
        | some s => .error (.unknownSymbol s)
        | none => .ok (overrules ((new a settings).arbitrated before w) b o)) ∧
    (∀ before r after w, rs = before ++ r :: after → (∀ b o, r ≠ .insertAs w b o) →
      let c := (new a settings).run before
      (c.step r).tree.lookup w = c.tree.lookup w ∧ (c.step r).originOf? w = c.originOf? w) := by
  refine ⟨?_, ?_, ?_⟩
  · intro w
    rw [Tree.lookup, Tree.committed?_eq_map_stored?, originOf?_eq_map_stored?,
      stored?_run a settings rs hroom]
    simp
  · intro before w b o after hrs c
    obtain ⟨hwf, hafter⟩ := wellFormed_before hrs hroom
    cases hfind : w.find? (· ∉ c.tree.alphabet.toList) with
    | some s => rw [insertAs_of_foreign hfind]
    | none =>
      have hsize := Nat.le_trans (size_step _ _).1 hafter
      rw [(inserted hwf hafter hfind).answer_eq, stored?_run a settings before hsize]
  · intro before r after w hrs hother c
    obtain ⟨hwf, hafter⟩ := wellFormed_before hrs hroom
    have hsame : (c.step r).tree.stored? w = c.tree.stored? w := by
      rw [stored?_step hwf hafter]
      cases r with
      | addSymbol s => rfl
      | retire id => rfl
      | insertAs v b o =>
        have hv : v ≠ w := fun h => hother b o (by rw [h])
        rw [assertion?, if_neg fun h => hv h.1]
        rfl
    rw [Tree.lookup, Tree.lookup, Tree.committed?_eq_map_stored?, Tree.committed?_eq_map_stored?,
      originOf?_eq_map_stored?, originOf?_eq_map_stored?, hsame]
    exact ⟨rfl, rfl⟩

theorem run_arbitrates_over_ranks :
    let c : Revisable Nat := new (.ofList [1]) {}
    let rs : List (Request Nat) := [.insertAs [1] true .oracle, .insertAs [1, 7] true .user,
      .insertAs [1] false .user, .retire .root, .addSymbol 7, .insertAs [1, 7] true .oracle,
      .insertAs [1] true .oracle]
    (c.run rs).tree.size ≤ UInt32.size ∧
      c.arbitrated rs [1] = some (false, .user) ∧ c.arbitrated rs [1, 7] = some (true, .oracle) ∧
      (c.run rs).tree.lookup [1] = (true, some false) ∧
      (c.run rs).originOf? [1, 7] = some .oracle ∧
      ((c.run (rs.take 3)).step (.retire .root)).originOf? [1] =
        (c.run (rs.take 3)).originOf? [1] := by
  intro c rs
  have hroom : (c.run rs).tree.size ≤ UInt32.size :=
    Nat.le_trans (size_run_le (.ofList [1]) {} rs) (by decide)
  have hletters : (Alphabet.ofList [1]).toList = [1] := Alphabet.toList_ofList_of_nodup (by decide)
  have harbitrated : ∀ w, c.arbitrated rs w = (rs.foldl outline (.new [1])).entries w := by
    intro w
    rw [← (describes_run hletters {} rs hroom).entry_eq]
    exact (stored?_run (.ofList [1]) {} rs hroom w).symm
  obtain ⟨hstored, _, hothers⟩ := run_arbitrates (.ofList [1]) {} rs hroom
  have hretire := hothers (rs.take 3) (.retire .root) (rs.drop 4) [1] rfl (by simp)
  refine ⟨hroom, harbitrated [1], harbitrated [1, 7], ?_, ?_, hretire.2⟩
  · rw [(hstored [1]).1, harbitrated]
    decide
  · rw [(hstored [1, 7]).2, harbitrated]
    decide

end Revisable
end MembershipCache
