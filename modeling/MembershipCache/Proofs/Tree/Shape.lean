import Mathlib.Data.List.Induction
import MembershipCache.Proofs.Alphabet
import MembershipCache.Tree.Basic

/-! The shape of a tree. A child lies behind its parent, hangs in one slot of one node only, and
that slot belongs to a symbol. So every node is reached along exactly one word, and words tell nodes
apart. -/
namespace MembershipCache
universe u v

namespace Tree
variable {σ : Type u} {P : Type v} [DecidableEq σ] [Hashable σ]

structure WellFormed (t : Tree σ P) : Prop where
  size_pos : 0 < t.size
  size_le : t.size ≤ UInt32.size
  child_later : ∀ {id c : NodeId} {i : Nat}, t.child? id i = some c → id.position < c.position
  child_exists : ∀ {id c : NodeId} {i : Nat}, t.child? id i = some c → c.position < t.size
  child_indexed : ∀ {id c : NodeId} {i : Nat}, t.child? id i = some c → i < t.alphabet.size
  parent_unique : ∀ {id id' c : NodeId} {i i' : Nat}, t.child? id i = some c →
    t.child? id' i' = some c → id = id' ∧ i = i'
  parent_exists : ∀ {c : NodeId}, 0 < c.position → c.position < t.size →
    ∃ id i, t.child? id i = some c

def follow? (t : Tree σ P) (start : NodeId) (path : List Nat) : Option NodeId :=
  path.foldlM t.child? start

theorem follow?_cons (t : Tree σ P) (start : NodeId) (i : Nat) (path : List Nat) :
    t.follow? start (i :: path) = (t.child? start i).bind (t.follow? · path) := rfl

theorem nodeOf?_eq_follow? {t : Tree σ P} {w : Word σ} {path : List Nat}
    (h : t.alphabet.indices w = .ok path) : t.nodeOf? w = t.follow? .root path := by
  suffices ∀ id, w.foldlM t.successor? id = t.follow? id path from this .root
  induction w generalizing path with
  | nil =>
    intro id
    cases h
    rfl
  | cons s w ih =>
    intro id
    obtain ⟨i, rest, hi, hw, rfl⟩ := Alphabet.indices_cons_ok h
    simp only [List.foldlM_cons, follow?_cons, successor?, hi, Option.bind_some]
    cases t.child? id i with
    | none => rfl
    | some c => exact ih hw c

theorem node?_eq_none_iff {t : Tree σ P} {id : NodeId} :
    t.node? id = none ↔ t.size ≤ id.position := by
  simp [node?, size]

theorem node?_isSome_iff {t : Tree σ P} {id : NodeId} :
    (t.node? id).isSome ↔ id.position < t.size := by
  simp [node?, size]

theorem nodeOf?_congr {t t' : Tree σ P} (h : t'.successor? = t.successor?) (w : Word σ) :
    t'.nodeOf? w = t.nodeOf? w := by
  rw [nodeOf?, nodeOf?, h]

theorem nodeOf?_mono {t t' : Tree σ P}
    (h : ∀ {id c : NodeId} {s : σ}, t.successor? id s = some c → t'.successor? id s = some c)
    {w : Word σ} {id : NodeId} (hw : t.nodeOf? w = some id) : t'.nodeOf? w = some id := by
  induction w using List.reverseRecOn generalizing id with
  | nil => exact hw
  | append_singleton w s ih =>
    rw [nodeOf?_concat] at hw ⊢
    obtain ⟨p, hp, hps⟩ := Option.bind_eq_some_iff.1 hw
    rw [ih hp]
    exact h hps

theorem committed?_congr {t t' : Tree σ P} {w : Word σ} (hw : t'.nodeOf? w = t.nodeOf? w)
    (hv : t'.verdictAt = t.verdictAt) : t'.committed? w = t.committed? w := by
  rw [committed?, committed?, hw, hv]

/-- What is looked up is read off the nodes and the order of the symbols. -/
theorem lookup_congr {t t' : Tree σ P} (hletters : t'.alphabet.toList = t.alphabet.toList)
    (hnodes : t'.nodes = t.nodes) (w : Word σ) : t'.lookup w = t.lookup w := by
  have hnode : t'.node? = t.node? := by
    funext id
    rw [node?, node?, hnodes]
  have hchild : t'.child? = t.child? := by
    funext id i
    rw [child?, child?, hnode]
  have hsuccessor : t'.successor? = t.successor? := by
    funext id s
    rw [successor?, successor?, Alphabet.index?_eq_idxOf?, Alphabet.index?_eq_idxOf?, hletters, hchild]
  have hverdict : t'.verdictAt = t.verdictAt := by
    funext id
    rw [verdictAt, verdictAt, hnode]
  rw [lookup, lookup, committed?_congr (nodeOf?_congr hsuccessor w) hverdict]

namespace WellFormed
variable {t : Tree σ P} (ht : t.WellFormed)
include ht

/-- The shape depends on the slots only, so long as the alphabet keeps covering them. -/
theorem congr {t' : Tree σ P} (hs : t'.size = t.size) (hc : t'.child? = t.child?)
    (ha : t.alphabet.size ≤ t'.alphabet.size) : t'.WellFormed := by
  refine ⟨?_, ?_, ?_, ?_, ?_, ?_, ?_⟩
  · rw [hs]; exact ht.size_pos
  · rw [hs]; exact ht.size_le
  · rw [hc]; exact ht.child_later
  · rw [hs, hc]; exact ht.child_exists
  · rw [hc]; exact fun h => Nat.lt_of_lt_of_le (ht.child_indexed h) ha
  · rw [hc]; exact ht.parent_unique
  · rw [hs, hc]; exact ht.parent_exists

theorem position_ofPosition {p : Nat} (hp : p < t.size) : (NodeId.ofPosition p).position = p := by
  rw [NodeId.position_ofPosition, Nat.mod_eq_of_lt (Nat.lt_of_lt_of_le hp ht.size_le)]

theorem root_lt : NodeId.root.position < t.size := ht.size_pos

theorem successor_later {id c : NodeId} {s : σ} (h : t.successor? id s = some c) :
    id.position < c.position := by
  obtain ⟨i, _, hi⟩ := Option.bind_eq_some_iff.1 h
  exact ht.child_later hi

theorem successor_exists {id c : NodeId} {s : σ} (h : t.successor? id s = some c) :
    c.position < t.size := by
  obtain ⟨i, _, hi⟩ := Option.bind_eq_some_iff.1 h
  exact ht.child_exists hi

theorem successor_unique {id id' c : NodeId} {s s' : σ} (h : t.successor? id s = some c)
    (h' : t.successor? id' s' = some c) : id = id' ∧ s = s' := by
  obtain ⟨i, hs, hi⟩ := Option.bind_eq_some_iff.1 h
  obtain ⟨i', hs', hi'⟩ := Option.bind_eq_some_iff.1 h'
  obtain ⟨rfl, rfl⟩ := ht.parent_unique hi hi'
  rw [Alphabet.index?_eq_some_iff] at hs hs'
  exact ⟨rfl, Option.some.inj (hs.symm.trans hs')⟩

theorem exists_successor {id c : NodeId} {i : Nat} (h : t.child? id i = some c) :
    ∃ s, t.alphabet.symbol? i = some s ∧ t.successor? id s = some c := by
  have hs := Array.getElem?_eq_getElem (ht.child_indexed h)
  refine ⟨_, hs, ?_⟩
  rw [successor?, Alphabet.index?_eq_some_iff.2 hs]
  exact h

theorem nodeOf?_lt {w : Word σ} {id : NodeId} (h : t.nodeOf? w = some id) :
    id.position < t.size := by
  induction w using List.reverseRecOn with
  | nil =>
    cases h
    exact ht.root_lt
  | append_singleton w s _ =>
    rw [nodeOf?_concat] at h
    obtain ⟨p, _, hp⟩ := Option.bind_eq_some_iff.1 h
    exact ht.successor_exists hp

theorem nodeOf?_concat_ne_root {w : Word σ} {s : σ} : t.nodeOf? (w ++ [s]) ≠ some .root := by
  intro h
  rw [nodeOf?_concat] at h
  obtain ⟨p, _, hp⟩ := Option.bind_eq_some_iff.1 h
  exact absurd (ht.successor_later hp) (by simp)

theorem nodeOf?_inj {v w : Word σ} {id : NodeId} (hv : t.nodeOf? v = some id)
    (hw : t.nodeOf? w = some id) : v = w := by
  induction v using List.reverseRecOn generalizing w id with
  | nil =>
    cases w using List.reverseRecOn with
    | nil => rfl
    | append_singleton w s =>
      cases hv
      exact absurd hw ht.nodeOf?_concat_ne_root
  | append_singleton v s ih =>
    cases w using List.reverseRecOn with
    | nil =>
      cases hw
      exact absurd hv ht.nodeOf?_concat_ne_root
    | append_singleton w r =>
      rw [nodeOf?_concat] at hv hw
      obtain ⟨p, hp, hps⟩ := Option.bind_eq_some_iff.1 hv
      obtain ⟨q, hq, hqr⟩ := Option.bind_eq_some_iff.1 hw
      obtain ⟨rfl, rfl⟩ := ht.successor_unique hps hqr
      rw [ih hp hq]

/-- Every node is reached. The way up to the root ends because parents come first. -/
theorem exists_word {id : NodeId} (h : id.position < t.size) : ∃ w, t.nodeOf? w = some id := by
  induction hn : id.position using Nat.strongRecOn generalizing id with
  | ind n ih =>
    by_cases hroot : id.position = 0
    · refine ⟨[], ?_⟩
      rw [← NodeId.position_root, NodeId.position_inj] at hroot
      rw [hroot]
      rfl
    · -- every other node hangs in a slot of an earlier one, which has a word already
      obtain ⟨p, i, hi⟩ := ht.parent_exists (Nat.pos_of_ne_zero hroot) h
      have hp := ht.child_later hi
      obtain ⟨w, hw⟩ := ih p.position (by omega) (by omega) rfl
      obtain ⟨s, _, hs⟩ := ht.exists_successor hi
      refine ⟨w ++ [s], ?_⟩
      rw [nodeOf?_concat, hw]
      exact hs

end WellFormed

section New
variable [Inhabited P]

theorem node?_new (a : Alphabet σ) (settings : Settings) (id : NodeId) :
    (new a settings : Tree σ P).node? id = if id = .root then some (.blank a.size) else none := by
  have hroot : id = .root ↔ id.position = 0 := by
    rw [← NodeId.position_root, NodeId.position_inj]
  simp only [node?, new, hroot]
  cases id.position <;> simp

@[simp] theorem size_new (a : Alphabet σ) (settings : Settings) :
    (new a settings : Tree σ P).size = 1 := by
  simp [size, new]

theorem child?_new (a : Alphabet σ) (settings : Settings) (id : NodeId) (i : Nat) :
    (new a settings : Tree σ P).child? id i = none := by
  rw [child?, node?_new]
  split <;> simp

theorem verdictAt_new (a : Alphabet σ) (settings : Settings) (id : NodeId) :
    (new a settings : Tree σ P).verdictAt id = .unknown := by
  rw [verdictAt, node?_new]
  by_cases h : id = .root
  · simp [h, Node.blank]
  · simp [h]

theorem wellFormed_new (a : Alphabet σ) (settings : Settings) :
    (new a settings : Tree σ P).WellFormed := by
  refine ⟨by simp, ?_, ?_, ?_, ?_, ?_, ?_⟩
  · simp [UInt32.size]
  · intro id c i h
    simp [child?_new] at h
  · intro id c i h
    simp [child?_new] at h
  · intro id c i h
    simp [child?_new] at h
  · intro id id' c i i' h
    simp [child?_new] at h
  · intro c hpos hlt
    simp at hlt
    omega

theorem committed?_new (a : Alphabet σ) (settings : Settings) (w : Word σ) :
    (new a settings : Tree σ P).committed? w = none := by
  rw [committed?]
  cases (new a settings : Tree σ P).nodeOf? w with
  | none => rfl
  | some id => simp [verdictAt_new, Verdict.committed?]

end New

end Tree
end MembershipCache
