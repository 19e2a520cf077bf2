import MembershipCache.Proofs.Cache.RevisableRun
import MembershipCache.Proofs.Cache.WriteOnceRun
import MembershipCache.Proofs.Tree.FirstUse
import MembershipCache.Proofs.Tree.Stretch

/-! What requests do to the tree behind a cache. Whichever cache it is, a request leaves the tree
alone, widens it, comes back to a word that has a verdict, or enters a word and commits one. So what
these four keep holds of every tree that a run builds. -/
namespace MembershipCache
universe u v w x

namespace Tree
variable {σ : Type u} {P : Type v} [DecidableEq σ] [Hashable σ]

theorem exists_path {t : Tree σ P} {w : Word σ} {start id : NodeId}
    (h : w.foldlM t.successor? start = some id) :
    ∃ path, t.alphabet.indices w = .ok path ∧ t.follow? start path = some id := by
  induction w generalizing start with
  | nil => exact ⟨[], rfl, h⟩
  | cons s w ih =>
    rw [List.foldlM_cons] at h
    obtain ⟨c, hc, hw⟩ := Option.bind_eq_some_iff.1 h
    obtain ⟨i, hs, hi⟩ := Option.bind_eq_some_iff.1 hc
    obtain ⟨path, hpath, hfollow⟩ := ih hw
    refine ⟨i :: path, by simp [Alphabet.indices, hs, hpath, Except.map], ?_⟩
    rw [follow?_cons, hi]
    exact hfollow

section Downwards
variable [Inhabited P]

theorem descend_of_follow? {t : Tree σ P} {start id : NodeId} {path : List Nat}
    (h : t.follow? start path = some id) : t.descend start path = ⟨t, id, []⟩ := by
  induction path generalizing start with
  | nil =>
    cases h
    rfl
  | cons i path ih =>
    rw [follow?_cons] at h
    obtain ⟨c, hc, hpath⟩ := Option.bind_eq_some_iff.1 h
    simp only [descend, hc]
    exact ih hpath

theorem enter_of_nodeOf? {t : Tree σ P} {w : Word σ} {id : NodeId} (h : t.nodeOf? w = some id) :
    t.enter w = .ok ⟨t, id, []⟩ := by
  obtain ⟨path, hpath, hfollow⟩ := exists_path h
  rw [enter, hpath, Except.map, descend_of_follow? hfollow]

theorem tree_enter_of_committed {t : Tree σ P} {w : Word σ} {d : Descent σ P}
    (hw : (t.committed? w).isSome) (hd : t.enter w = .ok d) : d.tree = t := by
  obtain ⟨b, hb⟩ := Option.isSome_iff_exists.1 hw
  obtain ⟨id, hid, _⟩ := Option.bind_eq_some_iff.1 hb
  rw [enter_of_nodeOf? hid] at hd
  cases hd
  rfl

/-- What a request may do to a tree, with the word that it put there. -/
inductive Effect (t : Tree σ P) : Option (Word σ) → Tree σ P → Prop
  | stay : Effect t none t
  | widen (s : σ) : Effect t none (t.addSymbol s).state
  | revisit {w : Word σ} (known : (t.committed? w).isSome) : Effect t (some w) t
  | commit {w : Word σ} {d : Descent σ P} (entered : t.enter w = .ok d) (b : Bool) (p : P) :
      Effect t (some w) (d.tree.write d.node (.ofBool b) p)

theorem Effect.prefix_alphabet {t t' : Tree σ P} {w? : Option (Word σ)} (h : t.Effect w? t') :
    t.alphabet.toList <+: t'.alphabet.toList := by
  cases h with
  | stay => exact List.prefix_refl _
  | widen s =>
    rw [alphabet_addSymbol]
    exact t.alphabet.prefix_add s
  | revisit _ => exact List.prefix_refl _
  | @commit w d entered b p =>
    have hsame : (d.tree.write d.node (.ofBool b) p).alphabet = t.alphabet := alphabet_enter entered
    exact hsame ▸ List.prefix_refl _

end Downwards

/-- A tree into which these words were put, in this order. -/
structure Holds (t : Tree σ P) (ws : List (Word σ)) : Prop where
  wellFormed : t.WellFormed
  flush : t.Flush
  numbers : t.Numbers (Word.firstUses ws)
  committed : ∀ w ∈ ws, (t.committed? w).isSome

namespace Holds
variable {t t' : Tree σ P} {ws : List (Word σ)} (h : t.Holds ws)
include h

theorem widen (s : σ) : (t.addSymbol s).state.Holds ws := by
  refine ⟨h.wellFormed.addSymbol s, h.flush.addSymbol h.wellFormed s, ?_, ?_⟩
  · exact h.numbers.congr (size_addSymbol t s) (h.wellFormed.nodeOf?_addSymbol s)
  · intro w hw
    rw [h.wellFormed.committed?_addSymbol]
    exact h.committed w hw

variable [Inhabited P]

omit h in
theorem new (a : Alphabet σ) (settings : Settings) : (new a settings : Tree σ P).Holds [] :=
  ⟨wellFormed_new a settings, flush_new a settings, numbers_new a settings,
    fun _ hw => absurd hw List.not_mem_nil⟩

theorem enter {w : Word σ} {d : Descent σ P} (hd : t.enter w = .ok d)
    (hroom : d.tree.size ≤ UInt32.size) : d.tree.Numbers (Word.firstUses (ws ++ [w])) := by
  rw [Word.firstUses_concat]
  exact h.numbers.enter h.wellFormed hd hroom

theorem revisit {w : Word σ} (hw : (t.committed? w).isSome) : t.Holds (ws ++ [w]) := by
  refine ⟨h.wellFormed, h.flush, ?_, ?_⟩
  · obtain ⟨b, hb⟩ := Option.isSome_iff_exists.1 hw
    obtain ⟨id, hid, _⟩ := Option.bind_eq_some_iff.1 hb
    exact h.enter (enter_of_nodeOf? hid) h.wellFormed.size_le
  · intro u hu
    rcases List.mem_append.1 hu with hu | hu
    · exact h.committed u hu
    · rw [List.mem_singleton.1 hu]
      exact hw

theorem commit {w : Word σ} {d : Descent σ P} (hd : t.enter w = .ok d)
    (hroom : d.tree.size ≤ UInt32.size) (b : Bool) (p : P) :
    (d.tree.write d.node (.ofBool b) p).Holds (ws ++ [w]) := by
  have hentered := h.wellFormed.enter hd hroom
  have hwf := hentered.wellFormed
  refine ⟨hwf.write .., (h.flush.enter hd).write .., ?_, ?_⟩
  · exact (h.enter hd hroom).congr (size_write ..) (nodeOf?_write _ _ _ _)
  · intro u hu
    rw [hwf.committed?_write hentered.reached, hentered.committed?_eq]
    split
    · rfl
    · next hne =>
      rcases List.mem_append.1 hu with hu | hu
      · exact h.committed u hu
      · exact absurd (List.mem_singleton.1 hu) hne

theorem effect {w? : Option (Word σ)} (he : t.Effect w? t') (hroom : t'.size ≤ UInt32.size) :
    t'.Holds (ws ++ w?.toList) := by
  cases he with
  | stay => simpa using h
  | widen s => simpa using h.widen s
  | revisit known => exact h.revisit known
  | commit entered b p =>
    rw [size_write] at hroom
    exact h.commit entered hroom b p

end Holds

section Acts
variable {γ : Type w} {ρ : Type x} [Inhabited P]

/-- Steps of anything that keeps a tree, if all they do to it is such an effect, with the word that
each puts there. -/
structure Acts (step : γ → ρ → γ) (tree : γ → Tree σ P) (entered? : γ × ρ → Option (Word σ)) :
    Prop where
  grows : ∀ c r, (tree c).size ≤ (tree (step c r)).size
  effect : ∀ {c r}, (tree c).WellFormed → (tree (step c r)).size ≤ UInt32.size →
    (tree c).Effect (entered? (c, r)) (tree (step c r))

namespace Acts
variable {step : γ → ρ → γ} {tree : γ → Tree σ P} {entered? : γ × ρ → Option (Word σ)}
  (h : Acts step tree entered?) {c : γ}
include h

theorem holds_step {ws : List (Word σ)} (hc : (tree c).Holds ws) {r : ρ}
    (hroom : (tree (step c r)).size ≤ UInt32.size) :
    (tree (step c r)).Holds (ws ++ (entered? (c, r)).toList) :=
  hc.effect (h.effect hc.wellFormed hroom) hroom

theorem holds_foldl (hc : (tree c).Holds []) (rs : List ρ)
    (hroom : (tree (rs.foldl step c)).size ≤ UInt32.size) :
    (tree (rs.foldl step c)).Holds ((encounters step c rs).filterMap entered?) :=
  foldl_logged_invariant step (fun c => (tree c).size) h.grows entered?
    (fun c ws => (tree c).Holds ws) (fun _ _ _ hc hroom => h.holds_step hc hroom) hc rs hroom

theorem extends_foldl {R : Tree σ P → Tree σ P → Prop} (hrefl : ∀ t, R t t)
    (htrans : ∀ {t u v}, R t u → R u v → R t v)
    (extends_effect : ∀ {t t' w? ws}, t.Holds ws → t'.size ≤ UInt32.size → t.Effect w? t' → R t t')
    (hc : ∃ ws, (tree c).Holds ws) (rs : List ρ)
    (hroom : (tree (rs.foldl step c)).size ≤ UInt32.size) :
    R (tree c) (tree (rs.foldl step c)) := by
  refine foldl_extends step (fun c => (tree c).size) h.grows (fun c => ∃ ws, (tree c).Holds ws) ?_
    (fun c d => R (tree c) (tree d)) (fun _ => hrefl _) htrans ?_ hc rs hroom
  · intro c r hc hroom
    obtain ⟨ws, hc⟩ := hc
    exact ⟨_, h.holds_step hc hroom⟩
  · intro c r hc hroom
    obtain ⟨ws, hc⟩ := hc
    exact extends_effect hc hroom (h.effect hc.wellFormed hroom)

theorem prefix_foldl (hc : ∃ ws, (tree c).Holds ws) (rs : List ρ)
    (hroom : (tree (rs.foldl step c)).size ≤ UInt32.size) :
    (tree c).alphabet.toList <+: (tree (rs.foldl step c)).alphabet.toList :=
  h.extends_foldl (R := fun t t' => t.alphabet.toList <+: t'.alphabet.toList)
    (fun _ => List.prefix_refl _) List.IsPrefix.trans (fun _ _ he => he.prefix_alphabet) hc rs hroom

theorem encountered (hc : (tree c).Holds []) {rs : List ρ}
    (hroom : (tree (rs.foldl step c)).size ≤ UInt32.size) {d : γ} {r : ρ}
    (hd : (d, r) ∈ encounters step c rs) :
    (∃ ws, (tree d).Holds ws) ∧
      (tree d).alphabet.toList <+: (tree (step d r)).alphabet.toList ∧
      (tree (step d r)).alphabet.toList <+: (tree (rs.foldl step c)).alphabet.toList := by
  obtain ⟨before, after, rfl, rfl⟩ := exists_of_mem_encounters hd
  rw [List.foldl_append, List.foldl_cons] at hroom ⊢
  have hafter := Nat.le_trans (le_foldl step (fun c => (tree c).size) h.grows _ after) hroom
  have hbefore := Nat.le_trans (h.grows _ r) hafter
  have hmet := h.holds_foldl hc before hbefore
  exact ⟨⟨_, hmet⟩, (h.effect hmet.wellFormed hafter).prefix_alphabet,
    h.prefix_foldl ⟨_, h.holds_step hmet hafter⟩ after hroom⟩

end Acts

end Acts

end Tree

section Caches
variable {σ : Type u} [DecidableEq σ] [Hashable σ]

namespace WriteOnce

def entered? : WriteOnce σ × Request σ → Option (Word σ)
  | (c, .insert w b) => if (c.insert w b).answer.isOk then some w else none
  | (_, .addSymbol _) => none

def entered (c : WriteOnce σ) (rs : List (Request σ)) : List (Word σ) :=
  (encounters step c rs).filterMap entered?

/-- An insert that ends in a conflict has created nothing: a word with a verdict has its node. -/
theorem effect_insert {c : WriteOnce σ} (hc : c.tree.WellFormed) {w : Word σ} {b : Bool}
    (hroom : (c.insert w b).state.tree.size ≤ UInt32.size) :
    c.tree.Effect (entered? (c, .insert w b)) (c.insert w b).state.tree := by
  cases h : c.tree.enter w with
  | error s =>
    rw [entered?, insert_of_error h]
    exact .stay
  | ok d =>
    rw [size_insert h] at hroom
    rcases insert_of_ok (b := b) h (hc.enter h hroom) with ⟨_, heq⟩ | ⟨hw, heq⟩ | ⟨hw, heq⟩
    · rw [entered?, heq]
      exact .commit h b ()
    · have hknown : (c.tree.committed? w).isSome := Option.isSome_of_eq_some hw
      rw [entered?, heq, Tree.tree_enter_of_committed hknown h]
      exact .revisit hknown
    · have hknown : (c.tree.committed? w).isSome := Option.isSome_of_eq_some hw
      rw [entered?, heq, Tree.tree_enter_of_committed hknown h]
      exact .stay

theorem effect_step {c : WriteOnce σ} (hc : c.tree.WellFormed) {r : Request σ}
    (hroom : (c.step r).tree.size ≤ UInt32.size) :
    c.tree.Effect (entered? (c, r)) (c.step r).tree := by
  cases r with
  | insert w b => exact effect_insert hc hroom
  | addSymbol s => exact .widen s

theorem acts : Tree.Acts step tree (entered? : WriteOnce σ × Request σ → Option (Word σ)) :=
  ⟨fun c r => (size_step c r).1, fun hc hroom => effect_step hc hroom⟩

theorem holds_run (a : Alphabet σ) (settings : Settings) (rs : List (Request σ))
    (hroom : ((new a settings).run rs).tree.size ≤ UInt32.size) :
    ((new a settings).run rs).tree.Holds ((new a settings).entered rs) :=
  acts.holds_foldl (Tree.Holds.new a settings) rs hroom

end WriteOnce

namespace Revisable

def entered? : Revisable σ × Request σ → Option (Word σ)
  | (c, .insertAs w b o) => if (c.insertAs w b o).answer.isOk then some w else none
  | (_, .addSymbol _) | (_, .retire _) => none

def entered (c : Revisable σ) (rs : List (Request σ)) : List (Word σ) :=
  (encounters step c rs).filterMap entered?

theorem effect_insertAs {c : Revisable σ} (hc : c.tree.WellFormed) {w : Word σ} {b : Bool}
    {o : Provenance} (hroom : (c.insertAs w b o).state.tree.size ≤ UInt32.size) :
    c.tree.Effect (entered? (c, .insertAs w b o)) (c.insertAs w b o).state.tree := by
  cases h : c.tree.enter w with
  | error s =>
    rw [entered?, insertAs_of_error h]
    exact .stay
  | ok d =>
    rw [size_insertAs h] at hroom
    have hknown : ∀ {x : Bool × Provenance}, c.tree.stored? w = some x →
        (c.tree.committed? w).isSome := by
      intro x hx
      rw [Tree.committed?_eq_map_stored?, hx]
      rfl
    rcases insertAs_of_ok (b := b) (o := o) h (hc.enter h hroom) with
      ⟨_, heq⟩ | ⟨_, hw, heq⟩ | ⟨_, _, _, heq⟩ | ⟨_, hw, _, heq⟩
    · rw [entered?, heq]
      exact .commit h b o
    · rw [entered?, heq, Tree.tree_enter_of_committed (hknown hw) h]
      exact .revisit (hknown hw)
    · rw [entered?, heq]
      exact .commit h b o
    · rw [entered?, heq, Tree.tree_enter_of_committed (hknown hw) h]
      exact .revisit (hknown hw)

theorem effect_step {c : Revisable σ} (hc : c.tree.WellFormed) {r : Request σ}
    (hroom : (c.step r).tree.size ≤ UInt32.size) :
    c.tree.Effect (entered? (c, r)) (c.step r).tree := by
  cases r with
  | insertAs w b o => exact effect_insertAs hc hroom
  | addSymbol s => exact .widen s
  | retire id =>
    rw [step, tree_retire]
    exact .stay

theorem acts : Tree.Acts step tree (entered? : Revisable σ × Request σ → Option (Word σ)) :=
  ⟨fun c r => (size_step c r).1, fun hc hroom => effect_step hc hroom⟩

theorem holds_run (a : Alphabet σ) (settings : Settings) (rs : List (Request σ))
    (hroom : ((new a settings).run rs).tree.size ≤ UInt32.size) :
    ((new a settings).run rs).tree.Holds ((new a settings).entered rs) :=
  acts.holds_foldl (Tree.Holds.new a settings) rs hroom

end Revisable

end Caches
end MembershipCache
