import MembershipCache.Reply
import MembershipCache.Tree.Basic

/-! How a tree grows: downwards, when a word is entered whose path leaves it, and sideways, when a
symbol joins the alphabet and every node needs a slot for it. -/
namespace MembershipCache
universe u v

/-- A path down a tree that may have grown on the way: the tree now, the node reached, and a report
for every node created. -/
structure Descent (σ : Type u) (P : Type v) [DecidableEq σ] [Hashable σ] where
  tree : Tree σ P
  node : NodeId
  events : List Event

namespace Tree
variable {σ : Type u} {P : Type v} [DecidableEq σ] [Hashable σ]

section Downwards
variable [Inhabited P]

def nextId (t : Tree σ P) : NodeId := .ofPosition t.size

def grow (t : Tree σ P) (parent : NodeId) (i : Nat) : Tree σ P :=
  let child := t.nextId
  { t with nodes := (t.nodes.push (.blank t.width)).modify parent.position
            (·.setChild i t.width child) }

def descend (t : Tree σ P) (start : NodeId) : List Nat → Descent σ P
  | [] => ⟨t, start, []⟩
  | i :: path =>
    match t.child? start i with
    | some child => t.descend child path
    | none =>
      let rest := (t.grow start i).descend t.nextId path
      { rest with events := .created start t.nextId i :: rest.events }

theorem descend_append (t : Tree σ P) (start : NodeId) (p q : List Nat) :
    t.descend start (p ++ q) =
      let upper := t.descend start p
      let lower := upper.tree.descend upper.node q
      ⟨lower.tree, lower.node, upper.events ++ lower.events⟩ := by
  induction p generalizing t start with
  | nil => rfl
  | cons i p ih =>
    cases h : t.child? start i with
    | some child => simp only [List.cons_append, descend, h, ih]
    | none => simp only [List.cons_append, descend, h, ih]

/-- Follows a word from the root, growing what is missing. A word with a symbol outside the alphabet
is not followed at all: the answer is its first such symbol. -/
def enter (t : Tree σ P) (w : Word σ) : Except σ (Descent σ P) :=
  (t.alphabet.indices w).map (t.descend .root)

end Downwards

section Sideways

/-- Children in the first `width` slots of a node, as far as they are later nodes, so that a walk
along them ends. In a tree of at most 2^32 nodes all of them are and none is left out:
`exists_visits_of_sweep` turns without this condition and visits the same nodes. In a larger one
names start over and a child may be an earlier node: there the plain loop, which has no such
condition, goes back to it and need not end. -/
def laterChildren (nodes : Array (Node P)) (width : Nat) (id : NodeId) : List NodeId :=
  match nodes[id.position]? with
  | some n => (List.range width).filterMap fun i => (n.child? i).filter (id.position < ·.position)
  | none => []

def visitBound (fan size : Nat) (id : NodeId) : Nat := levelBound fan (size - id.position)

theorem totalBound_visitBound_le (fan : Nat) {size position : Nat} {ids : List NodeId}
    (h : ∀ id ∈ ids, position < id.position) (hp : position < size) :
    totalBound (visitBound fan size) ids ≤ ids.length * levelBound fan (size - position - 1) := by
  induction ids with
  | nil => simp [totalBound]
  | cons id ids ih =>
    have hid : visitBound fan size id ≤ levelBound fan (size - position - 1) :=
      levelBound_mono fan (by have := h id (by simp); omega)
    have := ih fun c hc => h c (by simp [hc])
    simp only [totalBound, List.length_cons, Nat.add_mul, Nat.one_mul]
    omega

theorem length_laterChildren_le (nodes : Array (Node P)) (width : Nat) (id : NodeId) :
    (laterChildren nodes width id).length ≤ width := by
  unfold laterChildren
  split
  · exact Nat.le_trans (List.length_filterMap_le _ _) (by simp)
  · simp

theorem position_lt_of_mem_laterChildren {nodes : Array (Node P)} {width : Nat} {id c : NodeId}
    (h : c ∈ laterChildren nodes width id) : id.position < c.position := by
  unfold laterChildren at h
  split at h
  · obtain ⟨_, _, hc⟩ := List.mem_filterMap.1 h
    simpa using (Option.filter_eq_some_iff.1 hc).2
  · simp at h

theorem totalBound_laterChildren_lt (nodes : Array (Node P)) (width : Nat) (id : NodeId) :
    totalBound (visitBound width nodes.size) (laterChildren nodes width id) <
      visitBound width nodes.size id := by
  by_cases hid : id.position < nodes.size
  · have hlater : ∀ c ∈ laterChildren nodes width id, id.position < c.position :=
      fun c hc => position_lt_of_mem_laterChildren hc
    have hsum := totalBound_visitBound_le width hlater hid
    have hpos := levelBound_pos width (nodes.size - id.position - 1)
    have hmul := Nat.mul_le_mul_right (levelBound width (nodes.size - id.position - 1))
      (length_laterChildren_le nodes width id)
    have hlevel : visitBound width nodes.size id =
        levelBound width (nodes.size - id.position - 1) * (width + 1) := by
      have : nodes.size - id.position = nodes.size - id.position - 1 + 1 := by omega
      rw [visitBound, this]; rfl
    rw [hlevel, Nat.mul_add, Nat.mul_comm _ width]
    omega
  · have hnone : nodes[id.position]? = none := Array.getElem?_eq_none (by omega)
    simp only [laterChildren, hnone, totalBound]
    exact levelBound_pos _ _

/-- Widens the pending nodes and everything below them, and counts the nodes visited. Children hang
in the first `before` slots only. -/
def widenFrom (before after : Nat) (nodes : Array (Node P)) (visited : Nat) :
    List NodeId → Array (Node P) × Nat
  | [] => (nodes, visited)
  | id :: pending =>
    let children := laterChildren nodes before id
    widenFrom before after (nodes.modify id.position (·.widen after)) (visited + 1)
      (children ++ pending)
termination_by pending => totalBound (visitBound before nodes.size) pending
decreasing_by
  have := totalBound_laterChildren_lt nodes before id
  simp only [Array.size_modify, totalBound_append, totalBound]
  omega

def addSymbol (t : Tree σ P) (s : σ) : Reply (Tree σ P) Bool :=
  let alphabet := (t.alphabet.add s).1
  if t.width < alphabet.size then
    let (nodes, visited) := widenFrom t.width alphabet.size t.nodes 0 [.root]
    ⟨true, ⟨nodes, alphabet, alphabet.size⟩, [.widened t.width alphabet.size visited]⟩
  else ⟨false, { t with alphabet }, []⟩

end Sideways

end Tree
end MembershipCache
