import MembershipCache.NodeId
import MembershipCache.Verdict

/-! Tree nodes: one optional child per symbol index, the verdict on the word that ends here, and a
tag of any type. The row of children only grows, and reading past its end finds no child. -/
namespace MembershipCache
universe u

structure Node (P : Type u) where
  children : Array (Option NodeId)
  verdict : Verdict
  tag : P

namespace Node
variable {P : Type u}

def blank [Inhabited P] (width : Nat) : Node P := ⟨.replicate width none, .unknown, default⟩

def width (n : Node P) : Nat := n.children.size

def child? (n : Node P) (i : Nat) : Option NodeId := n.children[i]?.join

def widen (n : Node P) (size : Nat) : Node P :=
  { n with children := n.children ++ .replicate (size - n.children.size) none }

/-- Hangs a child at index `i`, after making room for `size` children and for index `i`. -/
def setChild (n : Node P) (i size : Nat) (child : NodeId) : Node P :=
  let n := n.widen (max size (i + 1))
  { n with children := n.children.setIfInBounds i (some child) }

def edges (n : Node P) : List (Nat × NodeId) :=
  n.children.toList.zipIdx.filterMap fun (child?, i) => child?.map (i, ·)

def setVerdict (n : Node P) (v : Verdict) : Node P := { n with verdict := v }

def setTag (n : Node P) (tag : P) : Node P := { n with tag }

@[simp] theorem width_widen (n : Node P) (size : Nat) :
    (n.widen size).width = max n.width size := by
  simp [width, widen]; omega

@[simp] theorem child?_blank [Inhabited P] (width i : Nat) :
    (blank width : Node P).child? i = none := by
  simp only [child?, blank, Array.getElem?_replicate]
  split <;> rfl

@[simp] theorem child?_widen (n : Node P) (size i : Nat) :
    (n.widen size).child? i = n.child? i := by
  simp only [child?, widen, Array.getElem?_append, Array.getElem?_replicate]
  grind

theorem child?_setChild (n : Node P) (i size j : Nat) (child : NodeId) :
    (n.setChild i size child).child? j = if j = i then some child else n.child? j := by
  have room : i < (n.widen (max size (i + 1))).children.size := by
    have := n.width_widen (max size (i + 1))
    simp only [width] at this
    omega
  rw [← n.child?_widen (max size (i + 1)) j]
  simp only [child?, setChild, Array.getElem?_setIfInBounds]
  grind

theorem mem_edges {n : Node P} {i : Nat} {child : NodeId} :
    (i, child) ∈ n.edges ↔ n.child? i = some child := by
  simp only [edges, List.mem_filterMap, List.mem_zipIdx_iff_getElem?, child?, Prod.exists,
    Array.getElem?_toList]
  constructor
  · rintro ⟨c?, j, hc, h⟩
    obtain ⟨c, rfl, hc'⟩ := Option.map_eq_some_iff.1 h
    obtain ⟨rfl, rfl⟩ := Prod.mk.inj hc'
    rw [hc]; rfl
  · intro h
    exact ⟨some child, i, Option.join_eq_some_iff.1 h, rfl⟩

end Node
end MembershipCache
