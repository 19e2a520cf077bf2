import MembershipCache.Proofs.Tree.Stretch

/-! Trees with other labels. What grows a tree, widens it or walks along it reads no verdict and no
tag, so these may be replaced before or after, as long as a blank node stays blank. -/
namespace MembershipCache
universe u v w

section Nodes
variable {P : Type v} {P' : Type w} (f : Verdict → Verdict) (g : P → P')

def Node.relabel (n : Node P) : Node P' := ⟨n.children, f n.verdict, g n.tag⟩

theorem Node.relabel_blank [Inhabited P] [Inhabited P'] (hf : f .unknown = .unknown)
    (hg : g default = default) (width : Nat) :
    (blank width : Node P).relabel f g = blank width := by
  simp only [relabel, blank, hf, hg]

theorem Node.relabel_setChild (n : Node P) (i size : Nat) (child : NodeId) :
    (n.setChild i size child).relabel f g = (n.relabel f g).setChild i size child := rfl

theorem Node.relabel_widen (n : Node P) (size : Nat) :
    (n.widen size).relabel f g = (n.relabel f g).widen size := rfl

end Nodes

namespace Tree
variable {σ : Type u} {P : Type v} {P' : Type w} [DecidableEq σ] [Hashable σ]
  (f : Verdict → Verdict) (g : P → P') (t : Tree σ P)

/-- The tree with all verdicts and tags replaced. -/
def relabel : Tree σ P' := ⟨t.nodes.map (·.relabel f g), t.alphabet, t.width⟩

@[simp] theorem size_relabel : (t.relabel f g).size = t.size := by
  simp [size, relabel]

theorem node?_relabel (id : NodeId) :
    (t.relabel f g).node? id = (t.node? id).map (·.relabel f g) := by
  simp [node?, relabel]

@[simp] theorem child?_relabel : (t.relabel f g).child? = t.child? := by
  funext id i
  rw [child?, node?_relabel, child?]
  cases t.node? id <;> rfl

theorem nodeOf?_relabel (w : Word σ) : (t.relabel f g).nodeOf? w = t.nodeOf? w := by
  have hsuccessor : (t.relabel f g).successor? = t.successor? := by
    funext id s
    rw [successor?, child?_relabel, successor?]
    rfl
  rw [nodeOf?, hsuccessor, nodeOf?]

theorem map_children_relabel :
    (t.relabel f g).nodes.map (·.children) = t.nodes.map (·.children) := by
  rw [relabel, Array.map_map]
  rfl

theorem modify_relabel {h : Node P → Node P} (h' : Node P' → Node P')
    (hh : ∀ n, (h n).relabel f g = h' (n.relabel f g)) (id : NodeId) :
    (t.relabel f g).modify id h' = (t.modify id h).relabel f g := by
  simp only [modify, relabel, mk.injEq, and_true]
  exact (map_modify h' hh t.nodes id.position).symm

section Labels
variable {f g}

theorem verdictAt_relabel (hf : f .unknown = .unknown) (id : NodeId) :
    (t.relabel f g).verdictAt id = f (t.verdictAt id) := by
  rw [verdictAt, node?_relabel, verdictAt]
  cases t.node? id with
  | none => exact hf.symm
  | some n => rfl

theorem tagAt_relabel [Inhabited P] [Inhabited P'] (hg : g default = default) (id : NodeId) :
    (t.relabel f g).tagAt id = g (t.tagAt id) := by
  rw [tagAt, node?_relabel, tagAt]
  cases t.node? id with
  | none => exact hg.symm
  | some n => rfl

section Downwards
variable [Inhabited P] [Inhabited P'] (hf : f .unknown = .unknown) (hg : g default = default)
include hf hg

theorem new_relabel (a : Alphabet σ) (settings settings' : Settings) :
    (new a settings : Tree σ P).relabel f g = new a settings' := by
  simp [new, relabel, Node.relabel_blank f g hf hg]

theorem grow_relabel (parent : NodeId) (i : Nat) :
    (t.relabel f g).grow parent i = (t.grow parent i).relabel f g := by
  have hid : (t.relabel f g).nextId = t.nextId := by rw [nextId, size_relabel, nextId]
  rw [grow, grow, hid]
  simp only [relabel, mk.injEq, and_true]
  rw [map_modify (·.setChild i t.width t.nextId) fun n => n.relabel_setChild f g i t.width t.nextId,
    Array.map_push, Node.relabel_blank f g hf hg]

theorem descend_relabel (start : NodeId) (path : List Nat) :
    (t.relabel f g).descend start path =
      let d := t.descend start path
      ⟨d.tree.relabel f g, d.node, d.events⟩ := by
  induction path generalizing t start with
  | nil => rfl
  | cons i path ih =>
    have hid : (t.relabel f g).nextId = t.nextId := by rw [nextId, size_relabel, nextId]
    simp only [descend, child?_relabel]
    cases t.child? start i with
    | some c => exact ih t c
    | none => simp only [hid, t.grow_relabel hf hg, ih (t.grow start i)]

theorem enter_relabel (w : Word σ) : (t.relabel f g).enter w =
    (t.enter w).map fun d => ⟨d.tree.relabel f g, d.node, d.events⟩ := by
  have hindices : (t.relabel f g).alphabet.indices w = t.alphabet.indices w := rfl
  rw [enter, hindices, enter]
  cases t.alphabet.indices w with
  | error s => rfl
  | ok path => exact congrArg _ (t.descend_relabel hf hg .root path)

end Downwards

end Labels

section Sideways
variable (nodes : Array (Node P)) (before after : Nat)

omit t in
theorem laterChildren_relabel (id : NodeId) :
    laterChildren (nodes.map (·.relabel f g)) before id = laterChildren nodes before id := by
  simp only [laterChildren, Array.getElem?_map]
  cases nodes[id.position]? <;> rfl

omit t in
theorem widenFrom_relabel (visited : Nat) (pending : List NodeId) :
    widenFrom before after (nodes.map (·.relabel f g)) visited pending =
      ((widenFrom before after nodes visited pending).1.map (·.relabel f g),
        (widenFrom before after nodes visited pending).2) := by
  fun_induction widenFrom before after nodes visited pending with
  | case1 nodes visited => rw [widenFrom]
  | case2 nodes visited id pending children ih =>
    have hwidened : (nodes.map (·.relabel f g)).modify id.position (·.widen after) =
        (nodes.modify id.position (·.widen after)).map (·.relabel f g) := by
      rw [map_modify (·.widen after) fun n => n.relabel_widen f g after]
    rw [widenFrom, laterChildren_relabel, hwidened]
    exact ih

theorem addSymbol_relabel (s : σ) :
    (t.relabel f g).addSymbol s = (t.addSymbol s).within (·.relabel f g) := by
  rw [addSymbol, addSymbol]
  simp only [relabel, widenFrom_relabel]
  split <;> rfl

end Sideways

end Tree
end MembershipCache
