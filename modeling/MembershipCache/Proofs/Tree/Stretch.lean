import Mathlib.Data.List.Basic
import MembershipCache.Proofs.Tree.Growth
import MembershipCache.Proofs.Tree.Traversal

/-! Trees over longer alphabets. Stretching a tree gives every node a slot for every symbol of a
longer alphabet and touches nothing else, so what grows a tree, writes to it or walks along it may
come before or after. A new symbol is such a stretch: the walk that widens the nodes comes to all of
them. -/
namespace MembershipCache
universe u v w

namespace Tree
open Relation
variable {σ : Type u} {P : Type v} [DecidableEq σ] [Hashable σ]

/-- The tree with a slot for every symbol of an alphabet. -/
def stretch (t : Tree σ P) (a : Alphabet σ) : Tree σ P :=
  ⟨t.nodes.map (·.widen a.size), a, a.size⟩

/-- Every node has one slot for every symbol, and no more. -/
structure Flush (t : Tree σ P) : Prop where
  width_eq : t.width = t.alphabet.size
  node_width : ∀ n ∈ t.nodes, n.width = t.width

section Widening
variable {nodes : Array (Node P)} {before after : Nat}

theorem mem_laterChildren {id c : NodeId} : c ∈ laterChildren nodes before id ↔
    ∃ i < before, (nodes[id.position]?.bind (·.child? i)) = some c ∧ id.position < c.position := by
  rw [laterChildren]
  cases nodes[id.position]? with
  | none => simp
  | some n => simp [Option.filter_eq_some_iff]

theorem laterChildren_modify_widen (p after : Nat) (id : NodeId) :
    laterChildren (nodes.modify p (·.widen after)) before id = laterChildren nodes before id := by
  simp only [laterChildren, Array.getElem?_modify]
  by_cases hp : p = id.position
  · cases nodes[id.position]? <;> simp [hp]
  · rw [if_neg hp]

theorem getElem?_widenFrom_of_reached (visited : Nat) {pending : List NodeId} {j : NodeId}
    (h : ∃ id ∈ pending, ReflTransGen (fun p c => c ∈ laterChildren nodes before p) id j) :
    (widenFrom before after nodes visited pending).1[j.position]? =
      nodes[j.position]?.map (·.widen after) := by
  fun_induction widenFrom before after nodes visited pending with
  | case1 nodes visited => simp at h
  | case2 nodes visited first pending children ih =>
    obtain ⟨id, hid, hj⟩ := h
    have htwice : ((nodes.modify first.position (·.widen after))[j.position]?).map (·.widen after) =
        nodes[j.position]?.map (·.widen after) := by
      rw [Array.getElem?_modify]
      split
      · rw [Option.map_map]
        congr 1
        exact funext fun n => n.widen_widen (Nat.le_refl after)
      · rfl
    simp only [laterChildren_modify_widen, htwice] at ih
    rcases List.mem_cons.1 hid with rfl | hid
    · rcases hj.cases_head with rfl | ⟨c, hc, hj⟩
      · have hfirst : (nodes.modify id.position (·.widen after))[id.position]? =
            nodes[id.position]?.map (·.widen after) := by
          rw [Array.getElem?_modify, if_pos rfl]
        rcases getElem?_widenFrom before after (nodes.modify id.position (·.widen after))
          (visited + 1) (children ++ pending) id.position with h | h
        · rw [h, hfirst]
        · rw [h, htwice]
      · exact ih ⟨c, List.mem_append_left _ hc, hj⟩
    · exact ih ⟨id, List.mem_append_right _ hid, hj⟩

end Widening

theorem forall_mem_modify {α : Type v} {p : α → Prop} {a : Array α} {f : α → α} {i : Nat}
    (h : ∀ x ∈ a, p x) (hf : ∀ x, p x → p (f x)) : ∀ x ∈ a.modify i f, p x := by
  intro x hx
  obtain ⟨j, hj⟩ := Array.getElem?_of_mem hx
  rw [Array.getElem?_modify] at hj
  split at hj
  · obtain ⟨y, hy, rfl⟩ := Option.map_eq_some_iff.1 hj
    exact hf y (h y (Array.mem_of_getElem? hy))
  · exact h x (Array.mem_of_getElem? hj)

theorem map_modify {α : Type v} {β : Type w} {f : α → α} {g : α → β} (f' : β → β)
    (h : ∀ n, g (f n) = f' (g n)) (a : Array α) (i : Nat) :
    (a.modify i f).map g = (a.map g).modify i f' := by
  apply Array.ext_getElem?
  intro j
  simp only [Array.getElem?_map, Array.getElem?_modify]
  split
  · cases a[j]? <;> simp [h]
  · rfl

section Stretch
variable (t : Tree σ P) {a b : Alphabet σ}

@[simp] theorem size_stretch : (t.stretch a).size = t.size := by
  simp [size, stretch]

theorem node?_stretch (id : NodeId) :
    (t.stretch a).node? id = (t.node? id).map (·.widen a.size) := by
  simp [node?, stretch]

@[simp] theorem child?_stretch : (t.stretch a).child? = t.child? := by
  funext id i
  rw [child?, node?_stretch, child?]
  cases t.node? id <;> simp

@[simp] theorem verdictAt_stretch : (t.stretch a).verdictAt = t.verdictAt := by
  funext id
  rw [verdictAt, node?_stretch, verdictAt]
  cases t.node? id <;> rfl

@[simp] theorem tagAt_stretch [Inhabited P] : (t.stretch a).tagAt = t.tagAt := by
  funext id
  rw [tagAt, node?_stretch, tagAt]
  cases t.node? id <;> rfl

theorem stretch_stretch (h : a.size ≤ b.size) : (t.stretch a).stretch b = t.stretch b := by
  simp only [stretch, Array.map_map, mk.injEq, and_true]
  congr 1
  exact funext fun n => n.widen_widen h

theorem modify_stretch {f : Node P → Node P} (hf : ∀ n, (f n).widen a.size = f (n.widen a.size))
    (id : NodeId) : (t.stretch a).modify id f = (t.modify id f).stretch a := by
  simp only [modify, stretch, mk.injEq, and_true]
  exact (map_modify f hf t.nodes id.position).symm

theorem new_stretch [Inhabited P] (settings settings' : Settings) (h : a.size ≤ b.size) :
    (new a settings : Tree σ P).stretch b = new b settings' := by
  simp [new, stretch, Node.widen_blank h]

section Downwards
variable [Inhabited P]

theorem grow_stretch (h : t.width ≤ a.size) (parent : NodeId) (i : Nat) :
    (t.stretch a).grow parent i = (t.grow parent i).stretch a := by
  have hid : (t.stretch a).nextId = t.nextId := by rw [nextId, size_stretch, nextId]
  rw [grow, grow, hid]
  simp only [stretch, mk.injEq, and_true]
  rw [map_modify (·.setChild i a.size t.nextId) fun n => n.widen_setChild i h t.nextId,
    Array.map_push, Node.widen_blank h]

theorem descend_stretch (h : t.width ≤ a.size) (start : NodeId) (path : List Nat) :
    (t.stretch a).descend start path =
      let d := t.descend start path
      ⟨d.tree.stretch a, d.node, d.events⟩ := by
  induction path generalizing t start with
  | nil => rfl
  | cons i path ih =>
    have hid : (t.stretch a).nextId = t.nextId := by rw [nextId, size_stretch, nextId]
    simp only [descend, child?_stretch]
    cases t.child? start i with
    | some c => exact ih t h c
    | none => simp only [hid, t.grow_stretch h, ih (t.grow start i) h]

theorem enter_stretch (h : t.width ≤ a.size) (ha : t.alphabet.toList <+: a.toList) {w : Word σ}
    {d : Descent σ P} (hd : t.enter w = .ok d) :
    (t.stretch a).enter w = .ok ⟨d.tree.stretch a, d.node, d.events⟩ := by
  obtain ⟨path, hw, rfl⟩ := descend_of_enter hd
  have hindices : (t.stretch a).alphabet.indices w = .ok path := Alphabet.indices_of_prefix ha hw
  rw [enter, hindices, Except.map, t.descend_stretch h]

end Downwards

section Traversal
variable {t}

theorem WellFormed.outgoing_stretch (ht : t.WellFormed) (ha : t.alphabet.toList <+: a.toList) :
    (t.stretch a).outgoing = t.outgoing := by
  funext id
  rw [outgoing, node?_stretch, outgoing]
  cases hn : t.node? id with
  | none => rfl
  | some n =>
    simp only [Option.map_some, Node.edges_widen]
    apply List.filterMap_congr
    intro e he
    obtain ⟨i, c⟩ := e
    have hc : t.child? id i = some c := by
      rw [child?, hn]
      exact Node.mem_edges.1 he
    have hi := Alphabet.symbol?_of_prefix ha (ht.child_indexed hc)
    simp only [stretch, hi]

theorem visit_congr {t' : Tree σ P} (h : t'.outgoing = t.outgoing) (seen : Std.HashSet NodeId)
    (queue : List NodeId) : t'.visit seen queue = t.visit seen queue := by
  fun_induction t.visit seen queue with
  | case1 seen => rw [visit]
  | case2 seen id queue enlisted ih =>
    rw [visit, h]
    simp only [List.cons.injEq, true_and]
    exact ih

theorem WellFormed.breadthFirst_stretch (ht : t.WellFormed) (ha : t.alphabet.toList <+: a.toList)
    (starts : List NodeId) : (t.stretch a).breadthFirst starts = t.breadthFirst starts := by
  simp only [breadthFirst, visit_congr (ht.outgoing_stretch ha)]

end Traversal

end Stretch

section Below
variable {t : Tree σ P} (ht : t.WellFormed) (hwidth : t.width = t.alphabet.size)
include ht hwidth

theorem WellFormed.below_root {j : NodeId} (hj : j.position < t.size) :
    ReflTransGen (fun p c => c ∈ laterChildren t.nodes t.width p) .root j := by
  have hedge : ∀ p c, t.Edge p c → c ∈ laterChildren t.nodes t.width p := by
    intro p c ⟨s, hs⟩
    obtain ⟨i, _, hi⟩ := Option.bind_eq_some_iff.1 hs
    exact mem_laterChildren.2 ⟨i, hwidth ▸ ht.child_indexed hi, hi, ht.child_later hi⟩
  obtain ⟨w, hw⟩ := ht.exists_word hj
  exact ReflTransGen.mono hedge _ _ ((ht.reached_iff rfl hw).2 List.nil_prefix)

theorem WellFormed.nodes_widenFrom (after : Nat) :
    (widenFrom t.width after t.nodes 0 [.root]).1 = t.nodes.map (·.widen after) := by
  apply Array.ext_getElem?
  intro p
  rw [Array.getElem?_map]
  by_cases hp : p < t.size
  · have hpos := ht.position_ofPosition hp
    have hj : (NodeId.ofPosition p).position < t.size := by rwa [hpos]
    rw [← hpos]
    exact getElem?_widenFrom_of_reached 0
      ⟨.root, List.mem_singleton_self _, ht.below_root hwidth hj⟩
  · have hold : t.nodes[p]? = none := Array.getElem?_eq_none (Nat.le_of_not_lt hp)
    have hnew : (widenFrom t.width after t.nodes 0 [.root]).1[p]? = none := by
      apply Array.getElem?_eq_none
      rw [size_widenFrom]
      exact Nat.le_of_not_lt hp
    rw [hold, hnew]
    rfl

end Below

theorem flush_new [Inhabited P] (a : Alphabet σ) (settings : Settings) :
    (new a settings : Tree σ P).Flush := by
  refine ⟨rfl, ?_⟩
  intro n hn
  have hblank : n = .blank a.size := by simpa [new] using hn
  rw [hblank, Node.width_blank]
  rfl

namespace Flush
variable {t : Tree σ P} (h : t.Flush)
include h

theorem map_widen {size : Nat} (hsize : size ≤ t.width) : t.nodes.map (·.widen size) = t.nodes := by
  have hself : ∀ n ∈ t.nodes, n.widen size = id n := fun n hn =>
    Node.widen_eq_self (by rw [h.node_width n hn]; exact hsize)
  rw [Array.map_congr_left hself, Array.map_id]

theorem stretch {a : Alphabet σ} (ha : t.width ≤ a.size) : (t.stretch a).Flush := by
  refine ⟨rfl, ?_⟩
  intro n hn
  obtain ⟨m, hm, rfl⟩ := Array.mem_map.1 hn
  rw [Node.width_widen, h.node_width m hm]
  exact Nat.max_eq_right ha

theorem addSymbol_eq_stretch (ht : t.WellFormed) (s : σ) :
    (t.addSymbol s).state = t.stretch (t.alphabet.add s).1 := by
  rw [addSymbol]
  split
  · rw [Tree.stretch, ← ht.nodes_widenFrom h.width_eq]
  · next hfull =>
    have hle := t.alphabet.size_le_add s
    have hsize : (t.alphabet.add s).1.size = t.width := by
      rw [h.width_eq] at hfull ⊢
      omega
    rw [Tree.stretch, hsize, h.map_widen (Nat.le_refl _)]

theorem addSymbol (ht : t.WellFormed) (s : σ) : (t.addSymbol s).state.Flush := by
  rw [h.addSymbol_eq_stretch ht]
  exact h.stretch (h.width_eq ▸ t.alphabet.size_le_add s)

theorem modify {f : Node P → Node P} (hf : ∀ n, (f n).width = n.width) (id : NodeId) :
    (t.modify id f).Flush := by
  refine ⟨h.width_eq, ?_⟩
  exact forall_mem_modify h.node_width fun n hn => (hf n).trans hn

theorem write (id : NodeId) (v : Verdict) (p : P) : (t.write id v p).Flush := by
  refine h.modify ?_ id
  intro n
  rfl

section Downwards
variable [Inhabited P]

theorem grow {i : Nat} (hi : i < t.width) (parent : NodeId) : (t.grow parent i).Flush := by
  refine ⟨h.width_eq, ?_⟩
  have hpushed : ∀ n ∈ t.nodes.push (.blank t.width), n.width = t.width := by
    intro n hn
    rcases Array.mem_push.1 hn with hn | rfl
    · exact h.node_width n hn
    · exact Node.width_blank _
  change ∀ n ∈ (t.nodes.push (.blank t.width)).modify parent.position
    (·.setChild i t.width t.nextId), n.width = t.width
  refine forall_mem_modify hpushed fun n hn => ?_
  rw [Node.width_setChild, hn]
  exact Nat.max_eq_left (Nat.max_le.2 ⟨Nat.le_refl _, hi⟩)

theorem descend {path : List Nat} (hpath : ∀ i ∈ path, i < t.width) (start : NodeId) :
    (t.descend start path).tree.Flush := by
  induction path generalizing t start with
  | nil => exact h
  | cons i path ih =>
    have hrest : ∀ j ∈ path, j < t.width := fun j hj => hpath j (List.mem_cons_of_mem _ hj)
    cases hc : t.child? start i with
    | some c =>
      simp only [Tree.descend, hc]
      exact ih h hrest c
    | none =>
      simp only [Tree.descend, hc]
      exact ih (h.grow (hpath i List.mem_cons_self) start) hrest t.nextId

theorem enter {w : Word σ} {d : Descent σ P} (hd : t.enter w = .ok d) : d.tree.Flush := by
  obtain ⟨path, hw, rfl⟩ := descend_of_enter hd
  exact h.descend (h.width_eq ▸ Alphabet.lt_size_of_indices hw) .root

end Downwards

end Flush

end Tree
end MembershipCache
