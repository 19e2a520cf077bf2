import MembershipCache.Node

/-! Rows of children. A node is told by how wide its row is, by the children read from it, and by
its verdict and tag. Widening lets every read alone, and wide rows absorb it. -/
namespace MembershipCache
universe u

namespace Node
variable {P : Type u}

theorem getElem?_children {n : Node P} {i : Nat} (h : i < n.width) :
    n.children[i]? = some (n.child? i) := by
  have hi : n.children[i]? = some n.children[i] := Array.getElem?_eq_getElem h
  rw [child?, hi]
  rfl

theorem ext_child? {n m : Node P} (hwidth : n.width = m.width)
    (hchild : ∀ i, n.child? i = m.child? i) (hverdict : n.verdict = m.verdict)
    (htag : n.tag = m.tag) : n = m := by
  have hrow : n.children = m.children := by
    apply Array.ext_getElem?
    intro i
    by_cases hi : i < n.width
    · rw [getElem?_children hi, getElem?_children (hwidth ▸ hi), hchild]
    · have hn : n.children[i]? = none := Array.getElem?_eq_none (Nat.le_of_not_lt hi)
      rw [hwidth] at hi
      have hm : m.children[i]? = none := Array.getElem?_eq_none (Nat.le_of_not_lt hi)
      rw [hn, hm]
  cases n
  cases m
  simp_all

@[simp] theorem width_blank [Inhabited P] (width : Nat) : (blank width : Node P).width = width := by
  simp [Node.width, blank]

@[simp] theorem width_setChild (n : Node P) (i size : Nat) (child : NodeId) :
    (n.setChild i size child).width = max n.width (max size (i + 1)) := by
  rw [← n.width_widen (max size (i + 1))]
  simp [setChild, width]

theorem widen_eq_self {n : Node P} {size : Nat} (h : size ≤ n.width) : n.widen size = n := by
  apply ext_child?
  · rw [width_widen, Nat.max_eq_left h]
  · intro i
    rw [child?_widen]
  · rfl
  · rfl

theorem widen_succ {n : Node P} {size : Nat} (h : n.width = size) :
    n.widen (size + 1) = { n with children := n.children.push none } := by
  have hone : size + 1 - n.children.size = 1 := by
    rw [← h, width]
    omega
  simp only [widen, hone, Array.replicate_succ, Array.replicate_zero, Array.append_push,
    Array.append_empty]

theorem widen_widen (n : Node P) {size larger : Nat} (h : size ≤ larger) :
    (n.widen size).widen larger = n.widen larger := by
  apply ext_child?
  · simp only [width_widen]
    omega
  · intro i
    simp only [child?_widen]
  · rfl
  · rfl

theorem widen_blank [Inhabited P] {width size : Nat} (h : width ≤ size) :
    (blank width : Node P).widen size = blank size := by
  apply ext_child?
  · rw [width_widen, width_blank, width_blank, Nat.max_eq_right h]
  · intro i
    rw [child?_widen, child?_blank, child?_blank]
  · rfl
  · rfl

theorem widen_setChild (n : Node P) (i : Nat) {size larger : Nat} (h : size ≤ larger)
    (child : NodeId) :
    (n.setChild i size child).widen larger = (n.widen larger).setChild i larger child := by
  apply ext_child?
  · simp only [width_widen, width_setChild]
    omega
  · intro j
    simp only [child?_widen, child?_setChild]
  · rfl
  · rfl

@[simp] theorem edges_widen (n : Node P) (size : Nat) : (n.widen size).edges = n.edges := by
  simp only [edges, widen, Array.toList_append, Array.toList_replicate, List.zipIdx_append,
    List.filterMap_append]
  -- the slots behind the old ones are empty
  rw [List.append_right_eq_self, List.filterMap_eq_nil_iff]
  intro e hslot
  obtain ⟨child?, i⟩ := e
  have hnone : child? = none := List.eq_of_mem_replicate (List.fst_mem_of_mem_zipIdx hslot)
  rw [hnone]
  rfl

theorem pairwise_edges (n : Node P) : n.edges.Pairwise fun e f => e.1 < f.1 := by
  have hindices : n.children.toList.zipIdx.Pairwise fun x y => x.2 < y.2 := by
    rw [← List.pairwise_map, List.zipIdx_map_snd]
    exact List.pairwise_lt_range'
  refine hindices.filterMap _ ?_
  intro x y hlt e he f hf
  obtain ⟨_, _, rfl⟩ := Option.map_eq_some_iff.1 he
  obtain ⟨_, _, rfl⟩ := Option.map_eq_some_iff.1 hf
  exact hlt

end Node
end MembershipCache
