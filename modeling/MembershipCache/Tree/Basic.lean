import MembershipCache.Alphabet
import MembershipCache.Node

/-! The tree behind a cache. Its nodes lie in one array in creation order, the root first; each is
reached along exactly one word, has one slot per symbol of the alphabet, and is never removed. -/
namespace MembershipCache
universe u v w

structure Settings where
  /-- How many nodes to reserve room for. The room still grows on demand. -/
  nodeCapacity : UInt64 := 64
  deriving DecidableEq, Repr

instance : Inhabited Settings := ⟨{}⟩

def Settings.description (s : Settings) : String :=
  "TreeConfig \x7b node_capacity: " ++ toString s.nodeCapacity.toNat ++ " \x7d"

structure Tree (σ : Type u) (P : Type v) [DecidableEq σ] [Hashable σ] where
  nodes : Array (Node P)
  alphabet : Alphabet σ
  width : Nat

namespace Tree
variable {σ : Type u} {P : Type v} [DecidableEq σ] [Hashable σ]

def new [Inhabited P] (alphabet : Alphabet σ) (settings : Settings) : Tree σ P where
  nodes := (Array.emptyWithCapacity (max settings.nodeCapacity.toNat 1)).push (.blank alphabet.size)
  alphabet
  width := alphabet.size

def size (t : Tree σ P) : Nat := t.nodes.size

def node? (t : Tree σ P) (id : NodeId) : Option (Node P) := t.nodes[id.position]?

/-- What is known at a node. Nothing is known at a node that does not exist. -/
def verdictAt (t : Tree σ P) (id : NodeId) : Verdict :=
  match t.node? id with
  | some n => n.verdict
  | none => .unknown

def tagAt [Inhabited P] (t : Tree σ P) (id : NodeId) : P :=
  match t.node? id with
  | some n => n.tag
  | none => default

def child? (t : Tree σ P) (id : NodeId) (i : Nat) : Option NodeId := (t.node? id).bind (·.child? i)

def successor? (t : Tree σ P) (id : NodeId) (s : σ) : Option NodeId :=
  (t.alphabet.index? s).bind (t.child? id)

def nodeOf? (t : Tree σ P) (w : Word σ) : Option NodeId := w.foldlM t.successor? .root

def committed? (t : Tree σ P) (w : Word σ) : Option Bool :=
  (t.nodeOf? w).bind fun id => (t.verdictAt id).committed?

def lookup (t : Tree σ P) (w : Word σ) : Bool × Option Bool :=
  let found := t.committed? w
  (found.isSome, found)

/-- Exceeds the number of nodes so many levels below one if none has more than `fan` children. -/
def levelBound (fan : Nat) : Nat → Nat
  | 0 => 1
  | levels + 1 => levelBound fan levels * (fan + 1)

theorem levelBound_pos (fan levels : Nat) : 0 < levelBound fan levels := by
  induction levels with
  | zero => exact Nat.one_pos
  | succ levels ih => exact Nat.mul_pos ih (Nat.succ_pos fan)

theorem levelBound_mono (fan : Nat) {low high : Nat} (h : low ≤ high) :
    levelBound fan low ≤ levelBound fan high := by
  induction h with
  | refl => exact Nat.le_refl _
  | step _ ih => exact Nat.le_trans ih (Nat.le_mul_of_pos_right _ (Nat.succ_pos fan))

def totalBound {α : Type w} (bound : α → Nat) : List α → Nat
  | [] => 0
  | a :: as => bound a + totalBound bound as

theorem totalBound_append {α : Type w} (bound : α → Nat) (as bs : List α) :
    totalBound bound (as ++ bs) = totalBound bound as + totalBound bound bs := by
  induction as with
  | nil => simp [totalBound]
  | cons a as ih => simp only [List.cons_append, totalBound, ih]; omega

def modify (t : Tree σ P) (id : NodeId) (f : Node P → Node P) : Tree σ P :=
  { t with nodes := t.nodes.modify id.position f }

@[simp] theorem size_modify (t : Tree σ P) (id : NodeId) (f : Node P → Node P) :
    (t.modify id f).size = t.size := Array.size_modify

theorem node?_modify (t : Tree σ P) (id : NodeId) (f : Node P → Node P) (j : NodeId) :
    (t.modify id f).node? j = if j = id then (t.node? j).map f else t.node? j := by
  simp only [node?, modify, Array.getElem?_modify, NodeId.position_inj, eq_comm]

theorem lt_size_of_child? {t : Tree σ P} {id child : NodeId} {i : Nat}
    (h : t.child? id i = some child) : id.position < t.size := by
  obtain ⟨n, hn, _⟩ := Option.bind_eq_some_iff.1 h
  exact (Array.getElem?_eq_some_iff.1 hn).1

theorem lt_size_of_successor? {t : Tree σ P} {id child : NodeId} {s : σ}
    (h : t.successor? id s = some child) : id.position < t.size := by
  obtain ⟨i, _, hi⟩ := Option.bind_eq_some_iff.1 h
  exact lt_size_of_child? hi

theorem nodeOf?_concat (t : Tree σ P) (w : Word σ) (s : σ) :
    t.nodeOf? (w ++ [s]) = (t.nodeOf? w).bind (t.successor? · s) := by
  simp [nodeOf?]

end Tree
end MembershipCache
