import MembershipCache.Proofs.Cache.Snapshot
import MembershipCache.Proofs.Cache.UserAssertion

/-! What a cache retains. Whatever is asked of it later, nodes keep their words, edges and symbols
stay where they are, rows only get wider, and no verdict is forgotten. How far a verdict may still
change is where the two caches differ. -/
namespace MembershipCache
universe u v w x

namespace Tree
variable {σ : Type u} {P : Type v} [DecidableEq σ] [Hashable σ]

/-- A later tree that has lost nothing. -/
structure Grown (t t' : Tree σ P) : Prop where
  nodeOf?_kept : ∀ {w : Word σ} {id : NodeId}, t.nodeOf? w = some id → t'.nodeOf? w = some id
  child_kept : ∀ {id c : NodeId} {i : Nat}, t.child? id i = some c → t'.child? id i = some c
  index_kept : ∀ {s : σ} {i : Nat}, t.alphabet.index? s = some i → t'.alphabet.index? s = some i
  size_le : t.size ≤ t'.size
  alphabet_size_le : t.alphabet.size ≤ t'.alphabet.size
  width_le : ∀ {id : NodeId} {n : Node P}, t.node? id = some n →
    ∃ n', t'.node? id = some n' ∧ n.width ≤ n'.width
  definitive_kept : ∀ {w : Word σ}, (t.lookup w).1 = true → (t'.lookup w).1 = true

namespace Grown

theorem refl (t : Tree σ P) : Grown t t :=
  ⟨id, id, id, Nat.le_refl _, Nat.le_refl _, fun hn => ⟨_, hn, Nat.le_refl _⟩, id⟩

theorem trans {t t' t'' : Tree σ P} (h : Grown t t') (k : Grown t' t'') : Grown t t'' := by
  refine ⟨fun hw => k.nodeOf?_kept (h.nodeOf?_kept hw), fun hc => k.child_kept (h.child_kept hc),
    fun hs => k.index_kept (h.index_kept hs), Nat.le_trans h.size_le k.size_le,
    Nat.le_trans h.alphabet_size_le k.alphabet_size_le, ?_,
    fun hw => k.definitive_kept (h.definitive_kept hw)⟩
  intro id n hn
  obtain ⟨n', hn', hle⟩ := h.width_le hn
  obtain ⟨n'', hn'', hle'⟩ := k.width_le hn'
  exact ⟨n'', hn'', Nat.le_trans hle hle'⟩

end Grown

theorem Flush.width_node {t : Tree σ P} (h : t.Flush) {id : NodeId} {n : Node P}
    (hn : t.node? id = some n) : n.width = t.alphabet.size := by
  rw [h.node_width n (Array.mem_of_getElem? hn), h.width_eq]

section Effects
variable [Inhabited P] {t t' : Tree σ P} {w? : Option (Word σ)}

theorem Effect.size_le (h : t.Effect w? t') : t.size ≤ t'.size := by
  cases h with
  | stay => exact Nat.le_refl _
  | widen s => rw [size_addSymbol]
  | revisit _ => exact Nat.le_refl _
  | commit entered b p =>
    rw [size_write]
    exact size_le_enter entered

theorem Effect.child_kept (h : t.Effect w? t') (ht : t.WellFormed) (hroom : t'.size ≤ UInt32.size)
    {id c : NodeId} {i : Nat} (hc : t.child? id i = some c) : t'.child? id i = some c := by
  cases h with
  | stay => exact hc
  | widen s =>
    rw [child?_addSymbol]
    exact hc
  | revisit _ => exact hc
  | commit entered b p =>
    rw [size_write] at hroom
    rw [child?_write]
    exact (ht.enter entered hroom).extension.child_kept hc

theorem Effect.successor_kept (h : t.Effect w? t') (ht : t.WellFormed)
    (hroom : t'.size ≤ UInt32.size) {id c : NodeId} {s : σ} (hc : t.successor? id s = some c) :
    t'.successor? id s = some c := by
  obtain ⟨i, hs, hi⟩ := Option.bind_eq_some_iff.1 hc
  rw [successor?, Alphabet.index?_of_prefix h.prefix_alphabet hs]
  exact h.child_kept ht hroom hi

theorem Effect.grown {ws : List (Word σ)} (h : t.Effect w? t') (ht : t.Holds ws)
    (hroom : t'.size ≤ UInt32.size) : Grown t t' := by
  have ht' := ht.effect h hroom
  have halphabet := h.prefix_alphabet
  refine ⟨nodeOf?_mono (h.successor_kept ht.wellFormed hroom), h.child_kept ht.wellFormed hroom,
    Alphabet.index?_of_prefix halphabet, h.size_le, Alphabet.size_le_of_prefix halphabet, ?_,
    fun hw => h.remembered ht.wellFormed hroom _ hw⟩
  intro id n hn
  have hid := node?_isSome_iff.1 (Option.isSome_of_eq_some hn)
  have hid' := Nat.lt_of_lt_of_le hid h.size_le
  obtain ⟨n', hn'⟩ := Option.isSome_iff_exists.1 (node?_isSome_iff.2 hid')
  refine ⟨n', hn', ?_⟩
  rw [ht.flush.width_node hn, ht'.flush.width_node hn']
  exact Alphabet.size_le_of_prefix halphabet

theorem Acts.grown_foldl {γ : Type w} {ρ : Type x} {step : γ → ρ → γ} {tree : γ → Tree σ P}
    {entered? : γ × ρ → Option (Word σ)} (h : Acts step tree entered?) {c : γ}
    (hc : ∃ ws, (tree c).Holds ws) (rs : List ρ)
    (hroom : (tree (rs.foldl step c)).size ≤ UInt32.size) :
    Grown (tree c) (tree (rs.foldl step c)) :=
  h.extends_foldl Grown.refl Grown.trans (fun ht hroom he => he.grown ht hroom) hc rs hroom

end Effects

end Tree

section Caches
variable {σ : Type u} [DecidableEq σ] [Hashable σ]

theorem Revisable.user_verdict_run {c : Revisable σ} (hc : c.tree.WellFormed)
    (later : List (Request σ)) (hroom : (c.run later).tree.size ≤ UInt32.size) {w : Word σ}
    (hw : c.originOf? w = some .user) :
    (c.run later).originOf? w = some .user ∧
      ((∀ x, .insertAs w x .user ∉ later) → (c.run later).tree.stored? w = c.tree.stored? w) := by
  rw [originOf?_eq_map_stored?, Option.map_eq_some_iff] at hw
  obtain ⟨⟨b, o⟩, hstored, rfl⟩ := hw
  have hlater := stored?_later hc later hroom w
  rw [hstored] at hlater ⊢
  constructor
  · obtain ⟨y, hy⟩ := exists_foldl_of_user (l := c.asserted later w) b
    rw [originOf?_eq_map_stored?, hlater, hy]
    rfl
  · intro huser
    rw [hlater, foldl_oracle_of_user (asserted_by_oracle huser)]

/-- Between any two states of a run the tree only grows. A write-once cache also keeps every
verdict; a revisable one leaves to the user what is the user's, and revises it for a user only. -/
theorem knowledge_only_grows :
    (∀ (a : Alphabet σ) (settings : Settings) (rs later : List (WriteOnce.Request σ)),
      let c := (WriteOnce.new a settings).run rs
      let c' := c.run later
      c'.tree.size ≤ UInt32.size →
        c.tree.Grown c'.tree ∧
        ∀ w b, c.tree.lookup w = (true, some b) → c'.tree.lookup w = (true, some b)) ∧
    (∀ (a : Alphabet σ) (settings : Settings) (rs later : List (Revisable.Request σ)),
      let c := (Revisable.new a settings).run rs
      let c' := c.run later
      c'.tree.size ≤ UInt32.size →
        c.tree.Grown c'.tree ∧
        ∀ w, c.originOf? w = some .user →
          c'.originOf? w = some .user ∧
          ((∀ x, .insertAs w x .user ∉ later) → c'.tree.lookup w = c.tree.lookup w)) := by
  constructor
  · intro a settings rs later c c' hroom
    have hholds := WriteOnce.holds_run a settings rs (Nat.le_trans (c.size_le_run later) hroom)
    refine ⟨WriteOnce.acts.grown_foldl ⟨_, hholds⟩ later hroom, ?_⟩
    intro w b hw
    rw [Tree.lookup_eq_iff] at hw ⊢
    exact WriteOnce.kept_run hholds.wellFormed later hroom w b hw
  · intro a settings rs later c c' hroom
    have hholds := Revisable.holds_run a settings rs (Nat.le_trans (c.size_le_run later) hroom)
    refine ⟨Revisable.acts.grown_foldl ⟨_, hholds⟩ later hroom, ?_⟩
    intro w hw
    obtain ⟨horigin, hsame⟩ := Revisable.user_verdict_run hholds.wellFormed later hroom hw
    refine ⟨horigin, fun huser => ?_⟩
    rw [Tree.lookup, Tree.lookup, Tree.committed?_eq_map_stored?, Tree.committed?_eq_map_stored?,
      hsame huser]

theorem knowledge_only_grows_over_contradictions :
    let a : Alphabet Nat := .ofList [1]
    let c₁ := (WriteOnce.new a {}).run [.insert [1] true]
    let c₁' := c₁.run [.insert [1] false, .addSymbol 7, .insert [1, 7] false]
    let c₂ := (Revisable.new a {}).run [.insertAs [1] true .user]
    let later : List (Revisable.Request Nat) := [.insertAs [1] false .oracle, .addSymbol 7,
      .retire .root, .insertAs [1, 7] false .user]
    let c₂' := c₂.run later
    c₁'.tree.size ≤ UInt32.size ∧ c₂'.tree.size ≤ UInt32.size ∧
      c₁.tree.Grown c₁'.tree ∧ c₂.tree.Grown c₂'.tree ∧
      c₁'.tree.lookup [1] = (true, some true) ∧
      c₂.originOf? [1] = some .user ∧ (∀ x, .insertAs [1] x .user ∉ later) ∧
      c₂'.originOf? [1] = some .user ∧ c₂'.tree.lookup [1] = (true, some true) := by
  intro a c₁ c₁' c₂ later c₂'
  have hletters : a.toList = [1] := Alphabet.toList_ofList_of_nodup (by decide)
  have hrun₁ : c₁' = (WriteOnce.new a {}).run ([.insert [1] true] ++ _) :=
    (WriteOnce.run_append ..).symm
  have hrun₂ : c₂' = (Revisable.new a {}).run ([.insertAs [1] true .user] ++ later) :=
    (Revisable.run_append ..).symm
  have hroom₁ : c₁'.tree.size ≤ UInt32.size := by
    rw [hrun₁]
    exact Nat.le_trans (WriteOnce.size_run_le a {} _) (by decide)
  have hroom₂ : c₂'.tree.size ≤ UInt32.size := by
    rw [hrun₂]
    exact Nat.le_trans (Revisable.size_run_le a {} _) (by decide)
  have hbefore₁ : c₁.tree.lookup [1] = (true, some true) :=
    WriteOnce.lookup_run hletters {} _ (Nat.le_trans (c₁.size_le_run _) hroom₁) [1]
  have hbefore₂ : c₂.tree.lookup [1] = (true, some true) ∧ c₂.originOf? [1] = some .user :=
    Revisable.lookup_run hletters {} _ (Nat.le_trans (c₂.size_le_run later) hroom₂) [1]
  obtain ⟨hwriteOnce, hrevisable⟩ := @knowledge_only_grows Nat _ _
  obtain ⟨hgrown₁, hkept⟩ := hwriteOnce a {} [.insert [1] true] _ hroom₁
  obtain ⟨hgrown₂, huser⟩ := hrevisable a {} [.insertAs [1] true .user] later hroom₂
  have horacle : ∀ x, .insertAs [1] x .user ∉ later := by simp [later]
  obtain ⟨horigin, hsame⟩ := huser [1] hbefore₂.2
  exact ⟨hroom₁, hroom₂, hgrown₁, hgrown₂, hkept [1] true hbefore₁, hbefore₂.2, horacle, horigin,
    (hsame horacle).trans hbefore₂.1⟩

end Caches
end MembershipCache
