import Std.Data.HashSet
import MembershipCache.Tree.Basic
import MembershipCache.TransitionSystem

/-! Trees as they are read. A tree is a transition system over its nodes, with the verdicts as
labels, and an acceptor, in which a word that is not known to be accepted is rejected.

Its nodes can be traversed breadth first from any of them. A node is marked when it enters the queue
and listed when it leaves, so each is listed once. The traversal ends because every node in the
queue that is not a start was a child not marked before, and the tree has finitely many. -/
namespace MembershipCache
universe u v

namespace Tree
variable {σ : Type u} {P : Type v} [DecidableEq σ] [Hashable σ]

def verdicts (t : Tree σ P) : TransitionSystem σ NodeId Verdict :=
  ⟨some .root, t.successor?, t.verdictAt⟩

def acceptor (t : Tree σ P) : Acceptor σ NodeId :=
  ⟨some .root, t.successor?, fun id => (t.verdictAt id).toBool⟩

def outgoing (t : Tree σ P) (id : NodeId) : List (σ × NodeId) :=
  match t.node? id with
  | some n => n.edges.filterMap fun (i, child) => (t.alphabet.symbol? i).map (·, child)
  | none => []

def enlist (seen : Std.HashSet NodeId) : List NodeId → List NodeId × Std.HashSet NodeId
  | [] => ([], seen)
  | id :: ids =>
    if seen.contains id then enlist seen ids
    else
      let (fresh, seen) := enlist (seen.insert id) ids
      (id :: fresh, seen)

def allChildren (t : Tree σ P) : List NodeId :=
  t.nodes.toList.flatMap fun n => n.edges.map (·.2)

def unseen (t : Tree σ P) (seen : Std.HashSet NodeId) : Nat :=
  t.allChildren.countP fun id => !seen.contains id

theorem mem_allChildren_of_mem_outgoing {t : Tree σ P} {id : NodeId} {e : σ × NodeId}
    (h : e ∈ t.outgoing id) : e.2 ∈ t.allChildren := by
  unfold outgoing at h
  split at h
  · next n hn =>
    obtain ⟨⟨i, child⟩, hmem, he⟩ := List.mem_filterMap.1 h
    obtain ⟨s, _, rfl⟩ := Option.map_eq_some_iff.1 he
    have hn : n ∈ t.nodes.toList := by
      simpa using Array.mem_of_getElem? hn
    exact List.mem_flatMap.2 ⟨n, hn, List.mem_map.2 ⟨_, hmem, rfl⟩⟩
  · simp at h

theorem countP_insert_lt {ids : List NodeId} {seen : Std.HashSet NodeId} {id : NodeId}
    (hid : id ∈ ids) (h : seen.contains id = false) :
    ids.countP (fun c => !(seen.insert id).contains c) + 1 ≤
      ids.countP fun c => !seen.contains c := by
  induction ids with
  | nil => simp at hid
  | cons c ids ih =>
    have mono : ids.countP (fun c => !(seen.insert id).contains c) ≤
        ids.countP fun c => !seen.contains c :=
      List.countP_mono_left fun c _ => by simp
    by_cases hc : c = id
    · subst hc
      simp [h] at mono ⊢
      omega
    · have hid : id ∈ ids := by simpa [Ne.symm hc] using hid
      have := ih hid
      simp only [List.countP_cons, Std.HashSet.contains_insert] at this ⊢
      simp [Ne.symm hc] at this ⊢
      omega

theorem unseen_enlist_le (t : Tree σ P) {ids : List NodeId} (seen : Std.HashSet NodeId)
    (h : ∀ id ∈ ids, id ∈ t.allChildren) :
    t.unseen (enlist seen ids).2 + (enlist seen ids).1.length ≤ t.unseen seen := by
  induction ids generalizing seen with
  | nil => simp [enlist]
  | cons id ids ih =>
    have hids : ∀ c ∈ ids, c ∈ t.allChildren := fun c hc => h c (by simp [hc])
    unfold enlist
    split
    · exact ih seen hids
    · next hnew =>
      have := ih (seen.insert id) hids
      have := countP_insert_lt (h id (by simp)) (Bool.eq_false_iff.2 hnew)
      simp only [unseen, List.length_cons] at *
      omega

/-- Lists the queue and, behind it, all that is reached from it and not marked. -/
def visit (t : Tree σ P) (seen : Std.HashSet NodeId) : List NodeId → List NodeId
  | [] => []
  | id :: queue =>
    let enlisted := enlist seen ((t.outgoing id).map (·.2))
    id :: t.visit enlisted.2 (queue ++ enlisted.1)
termination_by queue => t.unseen seen + queue.length
decreasing_by
  have hmem : ∀ c ∈ (t.outgoing id).map (·.2), c ∈ t.allChildren := fun c hc => by
    obtain ⟨e, he, rfl⟩ := List.mem_map.1 hc
    exact mem_allChildren_of_mem_outgoing he
  have h := t.unseen_enlist_le seen hmem
  simp only [List.length_append, List.length_cons]
  omega

/-- All nodes reached from the starts, the starts included, breadth first. A start that does not
exist is listed, and leads nowhere. -/
def breadthFirst (t : Tree σ P) (starts : List NodeId) : List NodeId :=
  let enlisted := enlist ∅ starts
  t.visit enlisted.2 enlisted.1

def states (t : Tree σ P) : List NodeId := t.breadthFirst [.root]

end Tree
end MembershipCache
