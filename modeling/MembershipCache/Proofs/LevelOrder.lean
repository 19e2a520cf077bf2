import Mathlib.Order.Lattice.Nat
import MembershipCache.Proofs.Cache.Commutation

/-! The traversal from any starts. Nodes enter the queue once, behind all that are as near to a
start, so they leave it level by level: first the starts as they were given, then what lies one edge
further on, and so forth. From the root alone that is the order of the words. -/
namespace MembershipCache
universe u v

/-- A traversal under way: the nodes that wait, and the nodes marked so far. -/
structure Walk where
  queue : List NodeId
  seen : Std.HashSet NodeId

def Walk.start (starts : List NodeId) : Walk :=
  let (queue, seen) := Tree.enlist ∅ starts
  ⟨queue, seen⟩

namespace Tree
open Relation
variable {σ : Type u} {P : Type v} [DecidableEq σ] [Hashable σ]

def next? (t : Tree σ P) (w : Walk) : Option (NodeId × Walk) :=
  match w.queue with
  | [] => none
  | id :: queue =>
    let (fresh, seen) := enlist w.seen ((t.outgoing id).map (·.2))
    some (id, ⟨queue ++ fresh, seen⟩)

/-- A traversal that yields these nodes one after the other, and then ends. -/
inductive Yields (t : Tree σ P) : Walk → List NodeId → Prop
  | ended {w : Walk} (h : t.next? w = none) : Yields t w []
  | yielded {w rest : Walk} {id : NodeId} {ids : List NodeId} (h : t.next? w = some (id, rest))
      (hrest : Yields t rest ids) : Yields t w (id :: ids)

theorem yields_visit (t : Tree σ P) (seen : Std.HashSet NodeId) (queue : List NodeId) :
    t.Yields ⟨queue, seen⟩ (t.visit seen queue) := by
  fun_induction visit t seen queue with
  | case1 seen => exact .ended rfl
  | case2 seen id queue enlisted ih => exact .yielded rfl ih

section Marks

theorem nodup_enlist (seen : Std.HashSet NodeId) (ids : List NodeId) :
    (enlist seen ids).1.Nodup := by
  induction ids generalizing seen with
  | nil => exact List.nodup_nil
  | cons id ids ih =>
    rw [enlist]
    split
    · exact ih seen
    · refine List.nodup_cons.2 ⟨?_, ih (seen.insert id)⟩
      intro h
      exact (mem_enlist.1 h).2 Std.HashSet.mem_insert_self

theorem enlist_eq_eraseDups (seen : Std.HashSet NodeId) (ids : List NodeId) :
    (enlist seen ids).1 = (ids.filter (!seen.contains ·)).eraseDups := by
  induction ids generalizing seen with
  | nil => rfl
  | cons id ids ih =>
    rw [enlist]
    split
    · next h => rw [List.filter_cons_of_neg (by simp [h]), ih]
    · next h =>
      rw [List.filter_cons_of_pos (by simp [h]), List.eraseDups_cons, List.filter_filter]
      simp only [ih, Std.HashSet.contains_insert, Bool.not_or, List.cons.injEq, true_and]
      refine congrArg List.eraseDups (List.filter_congr fun x _ => ?_)
      rw [BEq.comm]

variable (t : Tree σ P) {seen : Std.HashSet NodeId} {queue : List NodeId}

theorem queue_prefix_visit (seen : Std.HashSet NodeId) (queue : List NodeId) :
    queue <+: t.visit seen queue := by
  fun_induction visit t seen queue with
  | case1 seen => exact List.prefix_refl _
  | case2 seen first queue enlisted ih =>
    exact (List.prefix_cons_inj first).2 ((List.prefix_append queue _).trans ih)

theorem unmarked_of_mem_visit {id : NodeId} (h : id ∈ t.visit seen queue) :
    id ∈ queue ∨ id ∉ seen := by
  fun_induction visit t seen queue with
  | case1 seen => exact Or.inl h
  | case2 seen first queue enlisted ih =>
    rcases List.mem_cons.1 h with rfl | h
    · exact Or.inl List.mem_cons_self
    · rcases ih h with hqueued | hunmarked
      · rcases List.mem_append.1 hqueued with hold | hfresh
        · exact Or.inl (List.mem_cons_of_mem _ hold)
        · exact Or.inr (mem_enlist.1 hfresh).2
      · exact Or.inr fun hseen => hunmarked (mem_marks_enlist.2 (Or.inl hseen))

theorem nodup_visit (hqueue : queue.Nodup) (hseen : ∀ id ∈ queue, id ∈ seen) :
    (t.visit seen queue).Nodup := by
  fun_induction visit t seen queue with
  | case1 seen => exact hqueue
  | case2 seen first queue enlisted ih =>
    obtain ⟨hfirst, hqueue⟩ := List.nodup_cons.1 hqueue
    obtain ⟨hmarked, hseen⟩ := List.forall_mem_cons.1 hseen
    have hfresh : ∀ id ∈ enlisted.1, id ∉ seen := fun id hid => (mem_enlist.1 hid).2
    have hmarks : ∀ id, id ∈ seen → id ∈ enlisted.2 := fun id hid => mem_marks_enlist.2 (Or.inl hid)
    refine List.nodup_cons.2 ⟨?_, ih ?_ ?_⟩
    · -- a node is marked before it is listed, and no marked node joins the queue again
      intro hlater
      rcases t.unmarked_of_mem_visit hlater with hqueued | hunmarked
      · rcases List.mem_append.1 hqueued with hold | hnew
        · exact hfirst hold
        · exact hfresh first hnew hmarked
      · exact hunmarked (hmarks first hmarked)
    · exact hqueue.append (nodup_enlist _ _) fun id hold hnew => hfresh id hnew (hseen id hold)
    · intro id hid
      rcases List.mem_append.1 hid with hold | hnew
      · exact hmarks id (hseen id hold)
      · exact mem_marks_enlist.2 (Or.inr (mem_enlist.1 hnew).1)

theorem nodup_breadthFirst (starts : List NodeId) : (t.breadthFirst starts).Nodup :=
  t.nodup_visit (nodup_enlist _ _) fun _ hid => mem_marks_enlist.2 (Or.inr (mem_enlist.1 hid).1)

theorem starts_prefix_breadthFirst (starts : List NodeId) :
    starts.eraseDups <+: t.breadthFirst starts := by
  have hall : (enlist ∅ starts).1 = starts.eraseDups := by
    rw [enlist_eq_eraseDups, List.filter_eq_self.2 fun _ _ => by simp]
  rw [← hall]
  exact t.queue_prefix_visit _ _

end Marks

section Distance
variable {t : Tree σ P} {starts : List NodeId}

def distances (t : Tree σ P) (starts : List NodeId) (id : NodeId) : Set Nat :=
  {n | ∃ start ∈ starts, ∃ w : Word σ, w.length = n ∧ t.Path start w id}

/-- How far a node is from the nearest start that it is reached from. -/
noncomputable def distance (t : Tree σ P) (starts : List NodeId) (id : NodeId) : Nat :=
  sInf (t.distances starts id)

theorem zero_mem_distances {id : NodeId} (h : id ∈ starts) : 0 ∈ t.distances starts id :=
  ⟨id, h, [], rfl, .nil id⟩

theorem Path.reached {id last : NodeId} {w : Word σ} (h : t.Path id w last) :
    ReflTransGen t.Edge id last := by
  induction h with
  | nil id => exact .refl
  | cons edge _ ih => exact .head ⟨_, mem_outgoing.1 edge⟩ ih

theorem distances_nonempty_of_edge {p c : NodeId} (hp : (t.distances starts p).Nonempty)
    (hedge : t.Edge p c) : (t.distances starts c).Nonempty := by
  obtain ⟨n, start, hstart, w, rfl, hw⟩ := hp
  obtain ⟨s, hs⟩ := hedge
  exact ⟨_, start, hstart, w ++ [s], rfl, path_concat_iff.2 ⟨p, hw, hs⟩⟩

theorem distances_nonempty_iff {id : NodeId} :
    (t.distances starts id).Nonempty ↔ id ∈ t.breadthFirst starts := by
  rw [mem_breadthFirst]
  constructor
  · rintro ⟨_, start, hstart, w, _, hw⟩
    exact ⟨start, hstart, hw.reached⟩
  · rintro ⟨start, hstart, hreach⟩
    induction hreach with
    | refl => exact ⟨0, zero_mem_distances hstart⟩
    | tail _ hedge ih => exact distances_nonempty_of_edge ih hedge

theorem distance_start {id : NodeId} (h : id ∈ starts) : t.distance starts id = 0 :=
  Nat.le_zero.1 (Nat.sInf_le (zero_mem_distances h))

section Child
variable (ht : t.WellFormed) {p c : NodeId} (hedge : t.Edge p c) (hc : c ∉ starts)
include ht hedge hc

theorem WellFormed.mem_distances_child {n : Nat} :
    n ∈ t.distances starts c ↔ ∃ m ∈ t.distances starts p, n = m + 1 := by
  obtain ⟨r, hr⟩ := hedge
  constructor
  · rintro ⟨start, hstart, w, rfl, hw⟩
    cases w using List.reverseRecOn with
    | nil =>
      cases hw
      exact absurd hstart hc
    | append_singleton w s =>
      obtain ⟨q, hq, hs⟩ := path_concat_iff.1 hw
      obtain ⟨rfl, rfl⟩ := ht.successor_unique hs hr
      exact ⟨w.length, ⟨start, hstart, w, rfl, hq⟩, List.length_append⟩
  · rintro ⟨_, ⟨start, hstart, w, rfl, hw⟩, rfl⟩
    exact ⟨start, hstart, w ++ [r], List.length_append, path_concat_iff.2 ⟨p, hw, hr⟩⟩

theorem WellFormed.distance_child (hp : (t.distances starts p).Nonempty) :
    t.distance starts c = t.distance starts p + 1 := by
  have hmem : ∀ n, n ∈ t.distances starts c ↔ ∃ m ∈ t.distances starts p, n = m + 1 :=
    fun _ => ht.mem_distances_child hedge hc
  have hpath := (hmem _).2 ⟨_, Nat.sInf_mem hp, rfl⟩
  obtain ⟨m, hm, heq⟩ := (hmem _).1 (Nat.sInf_mem ⟨_, hpath⟩)
  refine Nat.le_antisymm (Nat.sInf_le hpath) ?_
  rw [distance, distance, heq]
  exact Nat.succ_le_succ (Nat.sInf_le hm)

end Child

/-- A queue in level order, and no more than one level from end to end. -/
structure Levelled (t : Tree σ P) (starts : List NodeId) (seen : Std.HashSet NodeId)
    (queue : List NodeId) : Prop where
  marked : ∀ id ∈ starts, id ∈ seen
  reached : ∀ id ∈ queue, (t.distances starts id).Nonempty
  ordered : queue.Pairwise fun x y => t.distance starts x ≤ t.distance starts y
  span : ∀ x ∈ queue, ∀ y ∈ queue, t.distance starts y ≤ t.distance starts x + 1

theorem levelled_start (t : Tree σ P) (starts : List NodeId) :
    t.Levelled starts (enlist ∅ starts).2 (enlist ∅ starts).1 := by
  have hstart : ∀ x ∈ (enlist ∅ starts).1, x ∈ starts := fun x hx => (mem_enlist.1 hx).1
  refine ⟨fun _ hid => mem_marks_enlist.2 (Or.inr hid), ?_, ?_, ?_⟩
  · intro x hx
    exact ⟨0, zero_mem_distances (hstart x hx)⟩
  · refine List.pairwise_of_forall_mem_list fun x hx y hy => ?_
    rw [distance_start (hstart x hx)]
    exact Nat.zero_le _
  · intro x _ y hy
    rw [distance_start (hstart y hy)]
    exact Nat.zero_le _

namespace Levelled
variable {seen : Std.HashSet NodeId} {queue : List NodeId} {first : NodeId} (ht : t.WellFormed)

include ht in
theorem distance_fresh (h : t.Levelled starts seen (first :: queue)) {c : NodeId}
    (hc : c ∈ (enlist seen ((t.outgoing first).map (·.2))).1) :
    t.distance starts c = t.distance starts first + 1 := by
  obtain ⟨hchild, hunmarked⟩ := mem_enlist.1 hc
  exact ht.distance_child (mem_children.1 hchild) (fun hstart => hunmarked (h.marked c hstart))
    (h.reached first List.mem_cons_self)

include ht in
theorem turn (h : t.Levelled starts seen (first :: queue)) :
    let enlisted := enlist seen ((t.outgoing first).map (·.2))
    t.Levelled starts enlisted.2 (queue ++ enlisted.1) := by
  intro enlisted
  have hfresh : ∀ c ∈ enlisted.1, t.distance starts c = t.distance starts first + 1 :=
    fun c hc => h.distance_fresh ht hc
  have hold : ∀ x ∈ queue, x ∈ first :: queue := fun x hx => List.mem_cons_of_mem _ hx
  obtain ⟨hfirst, hordered⟩ := List.pairwise_cons.1 h.ordered
  refine ⟨fun id hid => mem_marks_enlist.2 (Or.inl (h.marked id hid)), ?_, ?_, ?_⟩
  · intro x hx
    rcases List.mem_append.1 hx with hx | hx
    · exact h.reached x (hold x hx)
    · have hedge := mem_children.1 (mem_enlist.1 hx).1
      exact distances_nonempty_of_edge (h.reached first List.mem_cons_self) hedge
  · refine List.pairwise_append.2 ⟨hordered, ?_, ?_⟩
    · refine List.pairwise_of_forall_mem_list fun x hx y hy => ?_
      rw [hfresh x hx, hfresh y hy]
    · intro x hx y hy
      rw [hfresh y hy]
      exact h.span first List.mem_cons_self x (hold x hx)
  · intro x hx y hy
    rcases List.mem_append.1 hx with hx | hx
    · rcases List.mem_append.1 hy with hy | hy
      · exact h.span x (hold x hx) y (hold y hy)
      · rw [hfresh y hy]
        exact Nat.succ_le_succ (hfirst x hx)
    · have hy' : t.distance starts y ≤ t.distance starts first + 1 := by
        rcases List.mem_append.1 hy with hy | hy
        · exact h.span first List.mem_cons_self y (hold y hy)
        · exact Nat.le_of_eq (hfresh y hy)
      rw [hfresh x hx]
      exact Nat.le_succ_of_le hy'

include ht in
/-- Nothing that is yielded later is nearer than what waits. -/
theorem le_distance_of_mem_visit (h : t.Levelled starts seen queue) {bound : Nat}
    (hbound : ∀ x ∈ queue, bound ≤ t.distance starts x) {id : NodeId}
    (hid : id ∈ t.visit seen queue) : bound ≤ t.distance starts id := by
  fun_induction visit t seen queue with
  | case1 seen => cases hid
  | case2 seen first queue enlisted ih =>
    obtain ⟨hfirst, hqueue⟩ := List.forall_mem_cons.1 hbound
    rcases List.mem_cons.1 hid with rfl | hid
    · exact hfirst
    · refine ih (h.turn ht) ?_ hid
      intro x hx
      rcases List.mem_append.1 hx with hx | hx
      · exact hqueue x hx
      · rw [h.distance_fresh ht hx]
        exact Nat.le_succ_of_le hfirst

include ht in
theorem pairwise_visit (h : t.Levelled starts seen queue) :
    (t.visit seen queue).Pairwise fun x y => t.distance starts x ≤ t.distance starts y := by
  fun_induction visit t seen queue with
  | case1 seen => exact .nil
  | case2 seen first queue enlisted ih =>
    have hturn := h.turn ht
    refine List.pairwise_cons.2 ⟨?_, ih hturn⟩
    intro y hy
    refine hturn.le_distance_of_mem_visit ht ?_ hy
    intro x hx
    rcases List.mem_append.1 hx with hx | hx
    · exact (List.pairwise_cons.1 h.ordered).1 x hx
    · rw [h.distance_fresh ht hx]
      exact Nat.le_succ _

end Levelled

theorem WellFormed.mem_breadthFirst_iff (ht : t.WellFormed) {id : NodeId} :
    id ∈ t.breadthFirst starts ↔ id ∈ starts ∨
      ∃ start ∈ starts, ∃ u v, t.nodeOf? u = some start ∧ t.nodeOf? (u ++ v) = some id := by
  rw [mem_breadthFirst]
  constructor
  · rintro ⟨start, hstart, hreach⟩
    rcases hreach.cases_head with rfl | ⟨c, ⟨s, hs⟩, hrest⟩
    · exact Or.inl hstart
    · obtain ⟨u, hu⟩ := ht.exists_word (lt_size_of_successor? hs)
      have hid : id.position < t.size := by
        rcases hrest.cases_tail with rfl | ⟨p, _, r, hr⟩
        · exact ht.successor_exists hs
        · exact ht.successor_exists hr
      obtain ⟨w, hw⟩ := ht.exists_word hid
      obtain ⟨v, rfl⟩ := (ht.reached_iff hu hw).1 hreach
      exact Or.inr ⟨start, hstart, u, v, hu, hw⟩
  · rintro (hstart | ⟨start, hstart, u, v, hu, hv⟩)
    · exact ⟨id, hstart, .refl⟩
    · exact ⟨start, hstart, (ht.reached_iff hu hv).2 (List.prefix_append u v)⟩

end Distance

/-- The traversal from any starts ends. It yields the starts, in the order given, then the nodes of
all continuations of their words, each once, and none before a nearer one. -/
theorem Reachable.breadthFirst_by_levels {P : Type} {t : Tree σ P} (ht : t.Reachable)
    (hroom : t.size ≤ UInt32.size) (starts : List NodeId) :
    t.Yields (.start starts) (t.breadthFirst starts) ∧
    (t.breadthFirst starts).Nodup ∧
    (∀ id, id ∈ t.breadthFirst starts ↔ id ∈ starts ∨
      ∃ start ∈ starts, ∃ u v, t.nodeOf? u = some start ∧ t.nodeOf? (u ++ v) = some id) ∧
    starts.eraseDups <+: t.breadthFirst starts ∧
    (∀ id ∈ t.breadthFirst starts, t.distance starts id ∈ t.distances starts id) ∧
    (t.breadthFirst starts).Pairwise fun x y => t.distance starts x ≤ t.distance starts y := by
  have hwf := ht.wellFormed hroom
  refine ⟨t.yields_visit _ _, t.nodup_breadthFirst starts, fun id => hwf.mem_breadthFirst_iff,
    t.starts_prefix_breadthFirst starts, ?_, (t.levelled_start starts).pairwise_visit hwf⟩
  intro id hid
  exact Nat.sInf_mem (distances_nonempty_iff.2 hid)

theorem breadthFirst_by_levels_of_nested_starts :
    let t := ((WriteOnce.new (.ofList [1, 2]) {}).putAll
      [([2], true), ([1, 2], true), ([1], false)]).tree
    let starts : List NodeId := [.ofPosition 3, .ofPosition 9, .root, .ofPosition 3]
    t.Reachable ∧ t.size ≤ UInt32.size ∧ t.Yields (.start starts) (t.breadthFirst starts) ∧
      (t.breadthFirst starts).Nodup ∧
      [.ofPosition 3, .ofPosition 9, .root] <+: t.breadthFirst starts ∧
      (∀ id, id ∈ t.breadthFirst starts ↔ id = .ofPosition 9 ∨ id.position < 4) ∧
      (t.breadthFirst starts).Pairwise fun x y => t.distance starts x ≤ t.distance starts y := by
  intro t starts
  let is : List (Word Nat × Bool) := [([2], true), ([1, 2], true), ([1], false)]
  have hfilled : t.Filled [1, 2] is := WriteOnce.filled_putAll {} (by decide) (by decide)
  obtain ⟨hreachable, hroom, h⟩ := hfilled
  have hsize : t.size = 4 := h.size_eq
  have hwf := h.holds.wellFormed
  obtain ⟨hyields, hnodup, hmem, hstarts, _, hlevels⟩ :=
    hreachable.breadthFirst_by_levels hroom starts
  have hdistinct : starts.eraseDups = [.ofPosition 3, .ofPosition 9, .root] := by decide
  refine ⟨hreachable, hroom, hyields, hnodup, hdistinct ▸ hstarts, ?_, hlevels⟩
  intro id
  rw [hmem, ← hsize]
  constructor
  · rintro (hstart | ⟨_, _, u, v, _, hv⟩)
    · have hnamed : ∀ x ∈ starts, x = .ofPosition 9 ∨ x.position < 4 := by decide
      exact hsize ▸ hnamed id hstart
    · exact Or.inr (hwf.nodeOf?_lt hv)
  · rintro (rfl | hid)
    · exact Or.inl (by decide)
    · obtain ⟨w, hw⟩ := hwf.exists_word hid
      exact Or.inr ⟨.root, by decide, [], w, rfl, hw⟩

theorem WellFormed.perm_states {t : Tree σ P} (ht : t.WellFormed) :
    (t.states.map NodeId.position).Perm (List.range t.size) := by
  have hnodup : (t.states.map NodeId.position).Nodup :=
    (t.nodup_breadthFirst [.root]).map fun _ _ => NodeId.position_inj.1
  rw [List.perm_ext_iff_of_nodup hnodup List.nodup_range]
  intro n
  rw [List.mem_map, List.mem_range]
  constructor
  · rintro ⟨id, hid, rfl⟩
    obtain ⟨w, hw⟩ := ht.mem_states_iff.1 hid
    exact ht.nodeOf?_lt hw
  · intro hn
    have hpos := ht.position_ofPosition hn
    refine ⟨.ofPosition n, ht.mem_states_iff.2 (ht.exists_word ?_), hpos⟩
    rwa [hpos]

/-- The traversal from the root lists all nodes, each once, shorter words first and words of one
length along the alphabet. Nothing but the alphabet and the words that have nodes decides where a
word comes. -/
theorem Reachable.states_in_order_of_words {P : Type} {t : Tree σ P} (ht : t.Reachable)
    (hroom : t.size ≤ UInt32.size) :
    (t.states.map NodeId.position).Perm (List.range t.size) ∧
    (t.states.Pairwise fun x y => ∃ v w p q, t.nodeOf? v = some x ∧ t.nodeOf? w = some y ∧
      t.alphabet.indices v = .ok p ∧ t.alphabet.indices w = .ok q ∧ List.Shortlex (· < ·) p q) ∧
    ∀ ws, t.Visits ws ↔ ws.Pairwise t.alphabet.WordBefore ∧ ∀ w, w ∈ ws ↔ (t.nodeOf? w).isSome := by
  have hwf := ht.wellFormed hroom
  refine ⟨hwf.perm_states, t.pairwise_states.imp ?_, fun ws => hwf.visits_iff⟩
  rintro x y ⟨v, w, hv, hw, hbefore⟩
  obtain ⟨p, hp, _⟩ := exists_path hv
  obtain ⟨q, hq, _⟩ := exists_path hw
  exact ⟨v, w, p, q, hv, hw, hp, hq, hbefore.shortlex_indices hp hq⟩

theorem states_in_order_of_words_entered_otherwise :
    let t := ((WriteOnce.new (.ofList [1, 2]) {}).putAll
      [([2], true), ([1, 2], true), ([1], false)]).tree
    t.Reachable ∧ t.size ≤ UInt32.size ∧
      (t.states.map NodeId.position).Perm (List.range t.size) ∧
      t.states = [.root, .ofPosition 2, .ofPosition 1, .ofPosition 3] := by
  intro t
  let is : List (Word Nat × Bool) := [([2], true), ([1, 2], true), ([1], false)]
  have hfilled : t.Filled [1, 2] is := WriteOnce.filled_putAll {} (by decide) (by decide)
  obtain ⟨hreachable, hroom, h⟩ := hfilled
  have hone : t.alphabet.Before 1 2 :=
    ⟨0, 1, h.index?_eq 1, h.index?_eq 2, Nat.one_pos⟩
  obtain ⟨hall, _, horder⟩ := hreachable.states_in_order_of_words hroom
  have hvisits : t.Visits [[], [1], [2], [1, 2]] := by
    refine (horder _).2 ⟨?_, ?_⟩
    · have hshorter : ∀ {v w : Word Nat}, v.length < w.length → t.alphabet.WordBefore v w :=
        Alphabet.WordBefore.of_length_lt
      have hsiblings : t.alphabet.WordBefore [1] [2] := hone.wordBefore []
      simp [hshorter, hsiblings]
    · intro w
      rw [← h.holds.numbers.mem_iff h.holds.wellFormed, h.words_eq]
      have hperm : List.Perm [[], [1], [2], [1, 2]] (Word.firstUses [[2], [1, 2], [1]]) := by decide
      exact hperm.mem_iff
  have hnodes : [[], [1], [2], [1, 2]].map t.nodeOf? =
      [.root, .ofPosition 2, .ofPosition 1, .ofPosition 3].map some := by
    simp only [List.map_cons, List.map_nil, h.nodeOf?_eq]
    rfl
  refine ⟨hreachable, hroom, hall, ?_⟩
  exact List.map_injective_iff.2 (Option.some_injective _) (hvisits.symm.trans hnodes)

end Tree
end MembershipCache
