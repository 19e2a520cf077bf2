import Mathlib.Data.List.Nodup
import Mathlib.Data.List.Shortlex
import Mathlib.Data.Set.List
import MembershipCache.Proofs.Node
import MembershipCache.Proofs.Tree.Traversal

/-! The order of the traversal from the root. Nodes come in the order of their words, shorter ones
first and symbol by symbol along the alphabet, so the traversal shows which words have nodes and
nothing of when they got them. -/
namespace MembershipCache
universe u v

namespace Alphabet
variable {σ : Type u} [DecidableEq σ] [Hashable σ]

def Before (a : Alphabet σ) (r s : σ) : Prop :=
  ∃ i j, a.index? r = some i ∧ a.index? s = some j ∧ i < j

instance (a : Alphabet σ) : Std.Asymm a.Before where
  asymm r s h h' := by
    obtain ⟨i, j, hi, hj, hlt⟩ := h
    obtain ⟨j', i', hj', hi', hlt'⟩ := h'
    rw [hi] at hi'
    rw [hj] at hj'
    cases hi'
    cases hj'
    omega

/-- Shorter words first, and words of one length symbol by symbol along the alphabet. -/
def WordBefore (a : Alphabet σ) : Word σ → Word σ → Prop := List.Shortlex a.Before

instance (a : Alphabet σ) : Std.Asymm a.WordBefore :=
  inferInstanceAs (Std.Asymm (List.Shortlex a.Before))

theorem WordBefore.of_length_lt {a : Alphabet σ} {v w : Word σ} (h : v.length < w.length) :
    a.WordBefore v w := List.Shortlex.of_length_lt h

theorem WordBefore.concat_right {a : Alphabet σ} {v w : Word σ} (h : a.WordBefore v w) (s : σ) :
    a.WordBefore v (w ++ [s]) := List.Shortlex.append_right [s] h

theorem Before.wordBefore {a : Alphabet σ} {r s : σ} (h : a.Before r s) (w : Word σ) :
    a.WordBefore (w ++ [r]) (w ++ [s]) :=
  List.Shortlex.append_left ((List.shortlex_singleton_iff r s).2 h) w

omit [DecidableEq σ] [Hashable σ] in
theorem lex_concat {r : σ → σ → Prop} {v w : Word σ} (h : List.Lex r v w)
    (hlength : v.length = w.length) (x y : σ) : List.Lex r (v ++ [x]) (w ++ [y]) := by
  induction h with
  | nil => cases hlength
  | cons _ ih => exact .cons (ih (Nat.succ.inj hlength))
  | rel h => exact .rel h

theorem WordBefore.concat {a : Alphabet σ} {v w : Word σ} (h : a.WordBefore v w) (x y : σ) :
    a.WordBefore (v ++ [x]) (w ++ [y]) := by
  rcases List.shortlex_def.1 h with hlt | ⟨heq, hlex⟩
  · exact .of_length_lt (by simpa using hlt)
  · exact List.Shortlex.of_lex (by simpa using heq) (lex_concat hlex heq x y)

theorem WordBefore.shortlex_indices {a : Alphabet σ} {v w : Word σ} {p q : List Nat}
    (h : a.WordBefore v w) (hv : a.indices v = .ok p) (hw : a.indices w = .ok q) :
    List.Shortlex (· < ·) p q := by
  rcases List.shortlex_def.1 h with hlt | ⟨heq, hlex⟩
  · exact .of_length_lt (by rwa [length_indices hv, length_indices hw])
  · refine .of_lex (by rw [length_indices hv, length_indices hw, heq]) ?_
    clear h heq
    induction hlex generalizing p q with
    | nil =>
      obtain ⟨i, rest, _, _, rfl⟩ := indices_cons_ok hw
      cases hv
      exact .nil
    | cons _ ih =>
      obtain ⟨i, p, hi, hp, rfl⟩ := indices_cons_ok hv
      obtain ⟨j, q, hj, hq, rfl⟩ := indices_cons_ok hw
      cases hi.symm.trans hj
      exact .cons (ih hp hq)
    | rel hbefore =>
      obtain ⟨i, p, hi, _, rfl⟩ := indices_cons_ok hv
      obtain ⟨j, q, hj, _, rfl⟩ := indices_cons_ok hw
      obtain ⟨i', j', hi', hj', hlt⟩ := hbefore
      cases hi.symm.trans hi'
      cases hj.symm.trans hj'
      exact .rel hlt

end Alphabet

namespace Tree
open Relation
variable {σ : Type u} {P : Type v} [DecidableEq σ] [Hashable σ]

theorem pairwise_outgoing (t : Tree σ P) (id : NodeId) :
    (t.outgoing id).Pairwise fun e f => t.alphabet.Before e.1 f.1 := by
  rw [outgoing]
  split
  · next n _ =>
    refine n.pairwise_edges.filterMap _ ?_
    intro e f hlt e' he f' hf
    obtain ⟨r, hr, rfl⟩ := Option.map_eq_some_iff.1 he
    obtain ⟨s, hs, rfl⟩ := Option.map_eq_some_iff.1 hf
    exact ⟨e.1, f.1, Alphabet.index?_eq_some_iff.2 hr, Alphabet.index?_eq_some_iff.2 hs, hlt⟩
  · exact .nil

def Precedes (t : Tree σ P) (id id' : NodeId) : Prop :=
  ∃ v w, t.nodeOf? v = some id ∧ t.nodeOf? w = some id' ∧ t.alphabet.WordBefore v w

theorem nodeOf?_concat_of_edge {t : Tree σ P} {w : Word σ} {id child : NodeId} {s : σ}
    (hw : t.nodeOf? w = some id) (hs : t.successor? id s = some child) :
    t.nodeOf? (w ++ [s]) = some child := by
  rw [nodeOf?_concat, hw]
  exact hs

theorem precedes_child {t : Tree σ P} {w : Word σ} {id child : NodeId} (hw : t.nodeOf? w = some id)
    (hedge : t.Edge id child) : t.Precedes id child := by
  obtain ⟨s, hs⟩ := hedge
  exact ⟨w, w ++ [s], hw, nodeOf?_concat_of_edge hw hs, .of_length_lt (by simp)⟩

theorem pairwise_children {t : Tree σ P} {w : Word σ} {id : NodeId} (hw : t.nodeOf? w = some id) :
    ((t.outgoing id).map (·.2)).Pairwise t.Precedes := by
  rw [List.pairwise_map]
  refine (t.pairwise_outgoing id).imp_of_mem ?_
  intro e f he hf hbefore
  exact ⟨w ++ [e.1], w ++ [f.1], nodeOf?_concat_of_edge hw (mem_outgoing.1 he),
    nodeOf?_concat_of_edge hw (mem_outgoing.1 hf), hbefore.wordBefore w⟩

namespace Precedes
variable {t : Tree σ P} {x y c d : NodeId}

theorem edge_right (h : t.Precedes x y) (hd : t.Edge y d) : t.Precedes x d := by
  obtain ⟨v, w, hv, hw, hbefore⟩ := h
  obtain ⟨s, hs⟩ := hd
  exact ⟨v, w ++ [s], hv, nodeOf?_concat_of_edge hw hs, hbefore.concat_right s⟩

theorem edges (h : t.Precedes x y) (hc : t.Edge x c) (hd : t.Edge y d) : t.Precedes c d := by
  obtain ⟨v, w, hv, hw, hbefore⟩ := h
  obtain ⟨r, hr⟩ := hc
  obtain ⟨s, hs⟩ := hd
  exact ⟨v ++ [r], w ++ [s], nodeOf?_concat_of_edge hv hr, nodeOf?_concat_of_edge hw hs,
    hbefore.concat r s⟩

theorem reached (h : t.Precedes x y) (hd : ReflTransGen t.Edge y d) : t.Precedes x d := by
  induction hd with
  | refl => exact h
  | tail _ hedge ih => exact ih.edge_right hedge

end Precedes

theorem precedes_nephew {t : Tree σ P} {w : Word σ} {id c d e : NodeId} (hw : t.nodeOf? w = some id)
    (hc : t.Edge id c) (hd : t.Edge id d) (he : t.Edge d e) : t.Precedes c e := by
  obtain ⟨r, hr⟩ := hc
  obtain ⟨s, hs⟩ := hd
  obtain ⟨q, hq⟩ := he
  refine ⟨w ++ [r], w ++ [s] ++ [q], nodeOf?_concat_of_edge hw hr,
    nodeOf?_concat_of_edge (nodeOf?_concat_of_edge hw hs) hq, .of_length_lt ?_⟩
  simp

/-- A queue in order, all of it before what its nodes will put behind it. -/
structure InOrder (t : Tree σ P) (queue : List NodeId) : Prop where
  named : ∀ x ∈ queue, ∃ w, t.nodeOf? w = some x
  pairwise : queue.Pairwise t.Precedes
  before_children : ∀ x ∈ queue, ∀ y ∈ queue, ∀ c, t.Edge y c → t.Precedes x c

theorem enlist_sublist (seen : Std.HashSet NodeId) (ids : List NodeId) :
    (enlist seen ids).1.Sublist ids := by
  induction ids generalizing seen with
  | nil => exact .slnil
  | cons id ids ih =>
    rw [enlist]
    split
    · exact (ih seen).cons id
    · exact (ih (seen.insert id)).cons_cons id

theorem InOrder.turn {t : Tree σ P} {first : NodeId} {queue fresh : List NodeId}
    (h : t.InOrder (first :: queue)) (hfresh : fresh.Sublist ((t.outgoing first).map (·.2))) :
    t.InOrder (queue ++ fresh) := by
  obtain ⟨w, hw⟩ := h.named first List.mem_cons_self
  obtain ⟨hfirst, hqueue⟩ := List.pairwise_cons.1 h.pairwise
  have hedge : ∀ c ∈ fresh, t.Edge first c := fun c hc => mem_children.1 (hfresh.subset hc)
  have hold : ∀ x ∈ queue, x ∈ first :: queue := fun x hx => List.mem_cons_of_mem _ hx
  have hbehind : ∀ x ∈ queue, ∀ c ∈ fresh, t.Precedes x c := fun x hx c hc =>
    h.before_children x (hold x hx) first List.mem_cons_self c (hedge c hc)
  refine ⟨?_, ?_, ?_⟩
  · intro x hx
    rcases List.mem_append.1 hx with hx | hx
    · exact h.named x (hold x hx)
    · obtain ⟨s, hs⟩ := hedge x hx
      exact ⟨w ++ [s], nodeOf?_concat_of_edge hw hs⟩
  · exact List.pairwise_append.2 ⟨hqueue, (pairwise_children hw).sublist hfresh, hbehind⟩
  · intro x hx y hy c hc
    rcases List.mem_append.1 hx with hx | hx
    · rcases List.mem_append.1 hy with hy | hy
      · exact h.before_children x (hold x hx) y (hold y hy) c hc
      · exact (hbehind x hx y hy).edge_right hc
    · rcases List.mem_append.1 hy with hy | hy
      · exact (hfirst y hy).edges (hedge x hx) hc
      -- a child of the first node has a shorter word than the children of its siblings
      · exact precedes_nephew hw (hedge x hx) (hedge y hy) hc

theorem pairwise_visit {t : Tree σ P} (seen : Std.HashSet NodeId) {queue : List NodeId}
    (h : t.InOrder queue) : (t.visit seen queue).Pairwise t.Precedes := by
  fun_induction visit t seen queue with
  | case1 => exact .nil
  | case2 seen first queue enlisted ih =>
    have hturn := h.turn (enlist_sublist seen ((t.outgoing first).map (·.2)))
    refine List.pairwise_cons.2 ⟨?_, ih hturn⟩
    -- whatever is listed later lies below a node that is queued now
    intro x hx
    obtain ⟨start, hstart, hreach⟩ := reached_of_mem_visit hx
    refine Precedes.reached ?_ hreach
    rcases List.mem_append.1 hstart with hstart | hstart
    · exact (List.pairwise_cons.1 h.pairwise).1 start hstart
    · obtain ⟨w, hw⟩ := h.named first List.mem_cons_self
      exact precedes_child hw (mem_children.1 (mem_enlist.1 hstart).1)

theorem pairwise_states (t : Tree σ P) : t.states.Pairwise t.Precedes := by
  have henlist : (enlist ∅ [NodeId.root]).1 = [.root] := by simp [enlist]
  rw [states, breadthFirst, henlist]
  apply pairwise_visit
  have hroot : t.nodeOf? [] = some .root := rfl
  refine ⟨?_, List.pairwise_singleton .., ?_⟩
  · intro x hx
    rw [List.mem_singleton.1 hx]
    exact ⟨[], hroot⟩
  · intro x hx y hy c hc
    rw [List.mem_singleton.1 hx]
    rw [List.mem_singleton.1 hy] at hc
    exact precedes_child hroot hc

def Visits (t : Tree σ P) (ws : List (Word σ)) : Prop := ws.map t.nodeOf? = t.states.map some

theorem Visits.present {t : Tree σ P} {ws : List (Word σ)} (h : t.Visits ws) {w : Word σ}
    (hw : w ∈ ws) : (t.nodeOf? w).isSome := by
  have hmem : t.nodeOf? w ∈ t.states.map some := h ▸ List.mem_map_of_mem hw
  obtain ⟨id, _, hid⟩ := List.mem_map.1 hmem
  exact Option.isSome_of_eq_some hid.symm

namespace WellFormed
variable {t : Tree σ P} (ht : t.WellFormed)
include ht

theorem mem_states_iff {id : NodeId} : id ∈ t.states ↔ ∃ w, t.nodeOf? w = some id := by
  have hroot : t.nodeOf? [] = some .root := rfl
  rw [states, mem_breadthFirst]
  constructor
  · intro h
    obtain ⟨start, hstart, hreach⟩ := h
    rw [List.mem_singleton.1 hstart] at hreach
    induction hreach with
    | refl => exact ⟨[], hroot⟩
    | tail _ hedge ih =>
      obtain ⟨w, hw⟩ := ih
      obtain ⟨s, hs⟩ := hedge
      exact ⟨w ++ [s], nodeOf?_concat_of_edge hw hs⟩
  · intro h
    obtain ⟨w, hw⟩ := h
    exact ⟨.root, List.mem_singleton_self _, (ht.reached_iff hroot hw).2 w.nil_prefix⟩

theorem exists_visits : ∃ ws, t.Visits ws := by
  have hwords : t.states.map some ∈ Set.range (List.map t.nodeOf?) := by
    rw [Set.range_list_map]
    exact List.forall_mem_map.2 fun id hid => ht.mem_states_iff.1 hid
  exact hwords

theorem sorted_of_visits {ws : List (Word σ)} (h : t.Visits ws) :
    ws.Pairwise t.alphabet.WordBefore := by
  have hstates : (t.states.map some).Pairwise fun x y =>
      ∃ v w, t.nodeOf? v = x ∧ t.nodeOf? w = y ∧ t.alphabet.WordBefore v w :=
    List.pairwise_map.2 t.pairwise_states
  rw [← h, List.pairwise_map] at hstates
  refine hstates.imp_of_mem ?_
  intro v w hv hw hbefore
  obtain ⟨x, hx⟩ := Option.isSome_iff_exists.1 (h.present hv)
  obtain ⟨y, hy⟩ := Option.isSome_iff_exists.1 (h.present hw)
  obtain ⟨v', w', hv', hw', hlt⟩ := hbefore
  rw [ht.nodeOf?_inj hx (hv'.trans hx), ht.nodeOf?_inj hy (hw'.trans hy)]
  exact hlt

theorem mem_of_visits {ws : List (Word σ)} (h : t.Visits ws) (w : Word σ) :
    w ∈ ws ↔ (t.nodeOf? w).isSome := by
  constructor
  · exact h.present
  · intro hw
    obtain ⟨id, hid⟩ := Option.isSome_iff_exists.1 hw
    have hmem : some id ∈ ws.map t.nodeOf? := by
      rw [h]
      exact List.mem_map_of_mem (ht.mem_states_iff.2 ⟨w, hid⟩)
    obtain ⟨v, hv, hvid⟩ := List.mem_map.1 hmem
    rwa [ht.nodeOf?_inj hid hvid]

/-- The traversal lists the words that have a node, in their order, and that says which list it
is. -/
theorem visits_iff {ws : List (Word σ)} : t.Visits ws ↔
    ws.Pairwise t.alphabet.WordBefore ∧ ∀ w, w ∈ ws ↔ (t.nodeOf? w).isSome := by
  constructor
  · intro h
    exact ⟨ht.sorted_of_visits h, ht.mem_of_visits h⟩
  · intro h
    obtain ⟨hsorted, hmem⟩ := h
    obtain ⟨us, hus⟩ := ht.exists_visits
    have husorted := ht.sorted_of_visits hus
    have hperm : us.Perm ws := by
      rw [List.perm_ext_iff_of_nodup husorted.nodup hsorted.nodup]
      intro w
      rw [ht.mem_of_visits hus, hmem]
    have heq : us = ws := hperm.eq_of_pairwise
      (fun v w _ _ hvw hwv => absurd hwv (Std.Asymm.asymm _ _ hvw)) husorted hsorted
    exact heq ▸ hus

end WellFormed

end Tree
end MembershipCache
