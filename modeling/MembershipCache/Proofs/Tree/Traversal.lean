import Mathlib.Logic.Relation
import MembershipCache.Proofs.Tree.Shape
import MembershipCache.Tree.View

/-! The breadth-first traversal lists what is reached along edges, and nothing else. Below the node
of a word stand the nodes of its extensions. -/
namespace MembershipCache
universe u v

namespace Tree
open Relation
variable {σ : Type u} {P : Type v} [DecidableEq σ] [Hashable σ]

def Edge (t : Tree σ P) (id child : NodeId) : Prop := ∃ s, t.successor? id s = some child

theorem mem_outgoing {t : Tree σ P} {id child : NodeId} {s : σ} :
    (s, child) ∈ t.outgoing id ↔ t.successor? id s = some child := by
  rw [outgoing, successor?]
  cases hn : t.node? id with
  | none =>
    cases t.alphabet.index? s <;> simp [child?, hn]
  | some n =>
    simp only [List.mem_filterMap, Prod.exists, Option.map_eq_some_iff, Prod.mk.injEq,
      Node.mem_edges, Option.bind_eq_some_iff, child?, hn, Option.bind_some]
    constructor
    · intro h
      obtain ⟨i, c, hc, r, hr, rfl, rfl⟩ := h
      exact ⟨i, Alphabet.index?_eq_some_iff.2 hr, hc⟩
    · intro h
      obtain ⟨i, hi, hc⟩ := h
      exact ⟨i, child, hc, s, Alphabet.index?_eq_some_iff.1 hi, rfl, rfl⟩

theorem mem_children {t : Tree σ P} {id child : NodeId} :
    child ∈ (t.outgoing id).map (·.2) ↔ t.Edge id child := by
  simp only [List.mem_map, Prod.exists, mem_outgoing, exists_eq_right, Edge]

/-- A way along edges that are labelled with the symbols of a word. -/
inductive Path (t : Tree σ P) : NodeId → Word σ → NodeId → Prop
  | nil (id : NodeId) : Path t id [] id
  | cons {id child last : NodeId} {s : σ} {w : Word σ} (edge : (s, child) ∈ t.outgoing id)
      (rest : Path t child w last) : Path t id (s :: w) last

theorem path_iff {t : Tree σ P} {id last : NodeId} {w : Word σ} :
    t.Path id w last ↔ w.foldlM t.successor? id = some last := by
  constructor
  · intro h
    induction h with
    | nil id => rfl
    | cons edge _ ih =>
      rw [List.foldlM_cons, mem_outgoing.1 edge]
      exact ih
  · intro h
    induction w generalizing id with
    | nil =>
      cases h
      exact .nil _
    | cons s w ih =>
      rw [List.foldlM_cons] at h
      obtain ⟨child, hchild, hrest⟩ := Option.bind_eq_some_iff.1 h
      exact .cons (mem_outgoing.2 hchild) (ih hrest)

theorem path_concat_iff {t : Tree σ P} {id last : NodeId} {w : Word σ} {s : σ} :
    t.Path id (w ++ [s]) last ↔ ∃ p, t.Path id w p ∧ t.successor? p s = some last := by
  simp only [path_iff, List.foldlM_append, List.foldlM_cons, List.foldlM_nil, bind_pure]
  exact Option.bind_eq_some_iff

theorem mem_enlist {seen : Std.HashSet NodeId} {ids : List NodeId} {id : NodeId} :
    id ∈ (enlist seen ids).1 ↔ id ∈ ids ∧ id ∉ seen := by
  induction ids generalizing seen with
  | nil => simp [enlist]
  | cons c ids ih =>
    rw [enlist]
    split
    · next hc =>
      rw [ih]
      grind
    · next hc =>
      simp only [List.mem_cons, ih]
      grind

theorem mem_marks_enlist {seen : Std.HashSet NodeId} {ids : List NodeId} {id : NodeId} :
    id ∈ (enlist seen ids).2 ↔ id ∈ seen ∨ id ∈ ids := by
  induction ids generalizing seen with
  | nil => simp [enlist]
  | cons c ids ih =>
    rw [enlist]
    split
    · next hc =>
      rw [ih]
      grind
    · next hc =>
      simp only [ih]
      grind

theorem mem_visit_of_mem_queue (t : Tree σ P) (seen : Std.HashSet NodeId) {queue : List NodeId}
    {id : NodeId} (h : id ∈ queue) : id ∈ t.visit seen queue := by
  fun_induction visit t seen queue with
  | case1 => exact h
  | case2 seen first queue enlisted ih =>
    rcases List.mem_cons.1 h with rfl | h
    · exact List.mem_cons_self
    · exact List.mem_cons_of_mem _ (ih (List.mem_append_left _ h))

theorem reached_of_mem_visit {t : Tree σ P} {seen : Std.HashSet NodeId} {queue : List NodeId}
    {id : NodeId} (h : id ∈ t.visit seen queue) :
    ∃ start ∈ queue, ReflTransGen t.Edge start id := by
  fun_induction visit t seen queue with
  | case1 => simp at h
  | case2 seen first queue enlisted ih =>
    rcases List.mem_cons.1 h with rfl | h
    · exact ⟨id, List.mem_cons_self, .refl⟩
    · obtain ⟨start, hstart, hreach⟩ := ih h
      rcases List.mem_append.1 hstart with hq | hfresh
      · exact ⟨start, List.mem_cons_of_mem _ hq, hreach⟩
      · have hedge := mem_children.1 (mem_enlist.1 hfresh).1
        exact ⟨first, List.mem_cons_self, .head hedge hreach⟩

/-- Every marked node is done or queued, and what a done node has an edge to is marked. This
outlasts each turn, and at the end no edge leaves the nodes that are done. -/
theorem visit_closed (t : Tree σ P) (seen : Std.HashSet NodeId) (queue : List NodeId) :
    ∀ {done : NodeId → Prop}, (∀ id ∈ seen, done id ∨ id ∈ queue) →
      (∀ id, done id → ∀ c, t.Edge id c → c ∈ seen) →
      ∀ {id c : NodeId}, done id ∨ id ∈ t.visit seen queue → t.Edge id c →
        done c ∨ c ∈ t.visit seen queue := by
  fun_induction visit t seen queue with
  | case1 seen =>
    intro done hseen hdone id c hid hc
    rcases hid with hid | hid
    · exact hseen c (hdone id hid c hc)
    · simp at hid
  | case2 seen first queue enlisted =>
    rename_i ih
    intro done hseen hdone id c hid hc
    have hseen' : ∀ x ∈ enlisted.2, (done x ∨ x = first) ∨ x ∈ queue ++ enlisted.1 := by
      intro x hx
      by_cases hold : x ∈ seen
      · rcases hseen x hold with hx | hx
        · exact Or.inl (Or.inl hx)
        · rcases List.mem_cons.1 hx with hx | hx
          · exact Or.inl (Or.inr hx)
          · exact Or.inr (List.mem_append_left _ hx)
      · have hx := (mem_marks_enlist.1 hx).resolve_left hold
        exact Or.inr (List.mem_append_right _ (mem_enlist.2 ⟨hx, hold⟩))
    have hdone' : ∀ x, (done x ∨ x = first) → ∀ y, t.Edge x y → y ∈ enlisted.2 := by
      intro x hx y hy
      apply mem_marks_enlist.2
      rcases hx with hx | rfl
      · exact Or.inl (hdone x hx y hy)
      · exact Or.inr (mem_children.2 hy)
    rw [List.mem_cons, ← or_assoc] at hid ⊢
    exact ih hseen' hdone' hid hc

theorem mem_breadthFirst {t : Tree σ P} {starts : List NodeId} {id : NodeId} :
    id ∈ t.breadthFirst starts ↔ ∃ start ∈ starts, ReflTransGen t.Edge start id := by
  have hstarts : ∀ x, x ∈ (enlist ∅ starts).1 ↔ x ∈ starts := fun x => by simp [mem_enlist]
  rw [breadthFirst]
  constructor
  · intro h
    obtain ⟨start, hstart, hreach⟩ := reached_of_mem_visit h
    exact ⟨start, (hstarts start).1 hstart, hreach⟩
  · intro h
    obtain ⟨start, hstart, hreach⟩ := h
    induction hreach with
    | refl => exact mem_visit_of_mem_queue t _ ((hstarts start).2 hstart)
    | tail _ hedge ih =>
      have hmarks : ∀ x ∈ (enlist ∅ starts).2, False ∨ x ∈ (enlist ∅ starts).1 := by
        intro x hx
        simpa [mem_marks_enlist, mem_enlist] using hx
      have hclosed := t.visit_closed _ _ hmarks (fun _ h => h.elim) (Or.inr ih) hedge
      exact hclosed.resolve_left not_false

theorem WellFormed.reached_iff {t : Tree σ P} (ht : t.WellFormed) {u w : Word σ} {id c : NodeId}
    (hu : t.nodeOf? u = some id) (hw : t.nodeOf? w = some c) :
    ReflTransGen t.Edge id c ↔ u <+: w := by
  constructor
  · intro h
    induction h generalizing w with
    | refl =>
      have huw : u = w := ht.nodeOf?_inj hu hw
      exact huw ▸ List.prefix_refl u
    | @tail b c hpath hedge ih =>
      obtain ⟨s, hs⟩ := hedge
      have hb : b.position < t.size := lt_size_of_successor? hs
      obtain ⟨v, hv⟩ := ht.exists_word hb
      have hvs : t.nodeOf? (v ++ [s]) = some c := by
        rw [nodeOf?_concat, hv]
        exact hs
      rw [ht.nodeOf?_inj hw hvs]
      exact (ih hv).trans (List.prefix_append v [s])
  · intro h
    obtain ⟨v, rfl⟩ := h
    induction v using List.reverseRecOn generalizing c with
    | nil =>
      rw [List.append_nil, hu] at hw
      cases hw
      exact .refl
    | append_singleton v s ih =>
      rw [← List.append_assoc, nodeOf?_concat] at hw
      obtain ⟨b, hb, hs⟩ := Option.bind_eq_some_iff.1 hw
      exact .tail (ih hb) ⟨s, hs⟩

def passes (t : Tree σ P) (id : NodeId) (w : Word σ) : Bool :=
  w.prefixes.any fun u => t.nodeOf? u = some id

theorem passes_iff {t : Tree σ P} {id : NodeId} {w : Word σ} :
    t.passes id w = true ↔ ∃ u, u <+: w ∧ t.nodeOf? u = some id := by
  simp [passes, Word.mem_prefixes]

namespace WellFormed
variable {t : Tree σ P} (ht : t.WellFormed)
include ht

theorem passes_nodeOf? {u : Word σ} {id : NodeId} (hu : t.nodeOf? u = some id) (w : Word σ) :
    t.passes id w = true ↔ u <+: w := by
  rw [passes_iff]
  constructor
  · intro h
    obtain ⟨v, hv, hid⟩ := h
    rwa [ht.nodeOf?_inj hu hid]
  · intro h
    exact ⟨u, h, hu⟩

theorem mem_breadthFirst_iff_passes {id c : NodeId} {w : Word σ} (hid : id.position < t.size)
    (hw : t.nodeOf? w = some c) : c ∈ t.breadthFirst [id] ↔ t.passes id w = true := by
  obtain ⟨u, hu⟩ := ht.exists_word hid
  rw [ht.passes_nodeOf? hu, ← ht.reached_iff hu hw, mem_breadthFirst]
  simp

theorem passes_of_absent {id : NodeId} (hid : t.node? id = none) (w : Word σ) :
    t.passes id w = false := by
  rw [Bool.eq_false_iff, ne_eq, passes_iff]
  intro h
  obtain ⟨u, _, hu⟩ := h
  rw [node?_eq_none_iff] at hid
  exact Nat.not_lt.2 hid (ht.nodeOf?_lt hu)

end WellFormed

end Tree
end MembershipCache
