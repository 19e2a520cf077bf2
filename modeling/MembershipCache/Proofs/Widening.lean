import Mathlib.Data.List.Nodup
import MembershipCache.Proofs.Cache.Commutation

/-! The walk that widens the nodes for a new symbol. The nodes still to come stand below the pending
ones, and none of them below two, so the walk comes to every node once and ends. All it leaves
behind is one empty slot at every node: no word is led elsewhere and no search notices. -/
namespace MembershipCache
universe u v w

/-- A walk that widens nodes: the nodes as they are now, those that wait on the stack, and those
visited so far in the order of the visits. -/
structure Sweep (P : Type v) where
  nodes : Array (Node P)
  pending : List NodeId
  visits : List NodeId

namespace Sweep
variable {P : Type v}

def childrenIn (nodes : Array (Node P)) (width : Nat) (id : NodeId) : List NodeId :=
  (List.range width).filterMap fun i => nodes[id.position]?.bind (·.child? i)

/-- One visit: the node on top of the stack is widened, and its children are put there one after the
other, wherever they lead. -/
def turn (before after : Nat) (w : Sweep P) : Sweep P :=
  match w.pending with
  | [] => w
  | id :: pending =>
    let nodes := w.nodes.modify id.position (·.widen after)
    ⟨nodes, (childrenIn nodes before id).reverse ++ pending, w.visits ++ [id]⟩

end Sweep

namespace Tree
open Relation
variable {σ : Type u} {P : Type v} [DecidableEq σ] [Hashable σ]

/-- A walk that has visited some nodes and left others pending: it has met none twice, no pending
node stands below another, nor a visited one below a pending one, and every node has been visited or
stands below a pending one. -/
structure Partway (t : Tree σ P) (visits pending : List NodeId) : Prop where
  nodup : (visits ++ pending).Nodup
  present : ∀ id ∈ visits ++ pending, id.position < t.size
  apart : ∀ x ∈ pending, ∀ y ∈ visits ++ pending, ReflTransGen t.Edge x y → x = y
  complete : ∀ j : NodeId, j.position < t.size →
    j ∈ visits ∨ ∃ x ∈ pending, ReflTransGen t.Edge x j

namespace WellFormed
variable {t : Tree σ P} (ht : t.WellFormed)
include ht

theorem edge_later {x y : NodeId} (h : t.Edge x y) : x.position < y.position := by
  obtain ⟨s, hs⟩ := h
  exact ht.successor_later hs

theorem le_of_reached {x y : NodeId} (h : ReflTransGen t.Edge x y) : x.position ≤ y.position := by
  induction h with
  | refl => exact Nat.le_refl _
  | tail _ hedge ih => exact Nat.le_trans ih (Nat.le_of_lt (ht.edge_later hedge))

theorem reached_parent {x p c : NodeId} (hedge : t.Edge p c) (h : ReflTransGen t.Edge x c) :
    x = c ∨ ReflTransGen t.Edge x p := by
  rcases h.cases_tail with heq | ⟨q, hq, hlast⟩
  · exact Or.inl heq.symm
  · obtain ⟨s, hs⟩ := hedge
    obtain ⟨r, hr⟩ := hlast
    rw [(ht.successor_unique hs hr).1]
    exact Or.inr hq

theorem partway_start : t.Partway [] [.root] := by
  refine ⟨List.nodup_singleton _, ?_, ?_, ?_⟩
  · intro id hid
    rw [List.mem_singleton.1 hid]
    exact ht.root_lt
  · intro x hx y hy _
    rw [List.mem_singleton.1 hx, List.mem_singleton.1 hy]
  · intro j hj
    obtain ⟨w, hw⟩ := ht.exists_word hj
    exact Or.inr ⟨.root, List.mem_singleton_self _, (ht.reached_iff rfl hw).2 w.nil_prefix⟩

end WellFormed

namespace Partway
variable {t : Tree σ P} {visits pending : List NodeId}

theorem visit (ht : t.WellFormed) {id : NodeId} {fresh : List NodeId}
    (h : t.Partway visits (id :: pending)) (hnodup : fresh.Nodup)
    (hfresh : ∀ c, c ∈ fresh ↔ t.Edge id c) :
    t.Partway (visits ++ [id]) (fresh ++ pending) := by
  have hedge : ∀ c ∈ fresh, t.Edge id c := fun c hc => (hfresh c).1 hc
  have hlater : ∀ c ∈ fresh, ∀ y, ReflTransGen t.Edge c y → y ≠ id := by
    intro c hc y hy heq
    have hlt := ht.edge_later (hedge c hc)
    have hle := ht.le_of_reached hy
    rw [heq] at hle
    omega
  have hid : id ∈ visits ++ id :: pending := by simp
  have hnew : ∀ c ∈ fresh, c ∉ visits ++ id :: pending := by
    intro c hc hold
    have heq := h.apart id List.mem_cons_self c hold (.single (hedge c hc))
    exact hlater c hc c .refl heq.symm
  have hmem : ∀ y, y ∈ (visits ++ [id]) ++ (fresh ++ pending) ↔
      y ∈ visits ++ id :: pending ∨ y ∈ fresh := by
    intro y
    simp only [List.mem_append, List.mem_cons, List.not_mem_nil, or_false]
    tauto
  refine ⟨?_, ?_, ?_, ?_⟩
  · have hperm : ((visits ++ [id]) ++ (fresh ++ pending)).Perm
        ((visits ++ id :: pending) ++ fresh) := by
      rw [List.append_cons visits id pending, List.append_assoc _ pending fresh]
      exact List.perm_append_comm.append_left _
    rw [hperm.nodup_iff]
    exact h.nodup.append hnodup fun c hold hc => hnew c hc hold
  · intro y hy
    rcases (hmem y).1 hy with hy | hy
    · exact h.present y hy
    · obtain ⟨s, hs⟩ := hedge y hy
      exact ht.successor_exists hs
  · -- the only way into a child leads through the node visited, which was apart from all others
    intro x hx y hy hreach
    rcases List.mem_append.1 hx with hx | hx
    · rcases (hmem y).1 hy with hy | hy
      · have heq := h.apart id List.mem_cons_self y hy (.head (hedge x hx) hreach)
        exact absurd heq.symm (hlater x hx y hreach)
      · rcases ht.reached_parent (hedge y hy) hreach with heq | hup
        · exact heq
        · exact absurd rfl (hlater x hx id hup)
    · have hpending := List.mem_cons_of_mem id hx
      rcases (hmem y).1 hy with hy | hy
      · exact h.apart x hpending y hy hreach
      · rcases ht.reached_parent (hedge y hy) hreach with heq | hup
        · exact heq
        · have heq := h.apart x hpending id hid hup
          have hcons := (List.nodup_append.1 h.nodup).2.1
          exact absurd (heq ▸ hx) (List.nodup_cons.1 hcons).1
  · intro j hj
    rcases h.complete j hj with hvisited | ⟨x, hx, hreach⟩
    · exact Or.inl (List.mem_append_left _ hvisited)
    · rcases List.mem_cons.1 hx with rfl | hx
      · rcases hreach.cases_head with rfl | ⟨c, hc, hrest⟩
        · exact Or.inl (List.mem_append_right _ (List.mem_singleton_self _))
        · exact Or.inr ⟨c, List.mem_append_left _ ((hfresh c).2 hc), hrest⟩
      · exact Or.inr ⟨x, List.mem_append_right _ hx, hreach⟩

theorem length_le (h : t.Partway visits pending) : visits.length + pending.length ≤ t.size := by
  have hpositions : ((visits ++ pending).map NodeId.position).Nodup :=
    h.nodup.map fun _ _ => NodeId.position_inj.1
  have hsubset : (visits ++ pending).map NodeId.position ⊆ List.range t.size := by
    intro p hp
    obtain ⟨id, hid, rfl⟩ := List.mem_map.1 hp
    exact List.mem_range.2 (h.present id hid)
  have hle := (hpositions.subperm hsubset).length_le
  rwa [List.length_map, List.length_append, List.length_range] at hle

theorem mem_visits_iff (h : t.Partway visits []) (id : NodeId) :
    id ∈ visits ↔ id.position < t.size := by
  constructor
  · intro hid
    exact h.present id (List.mem_append_left _ hid)
  · intro hid
    rcases h.complete id hid with hvisited | ⟨x, hx, _⟩
    · exact hvisited
    · cases hx

theorem length_eq (ht : t.WellFormed) (h : t.Partway visits []) : visits.length = t.size := by
  refine Nat.le_antisymm h.length_le ?_
  have hsubset : List.range t.size ⊆ visits.map NodeId.position := by
    intro p hp
    have hpos := ht.position_ofPosition (List.mem_range.1 hp)
    refine List.mem_map.2 ⟨.ofPosition p, ?_, hpos⟩
    rw [h.mem_visits_iff, hpos]
    exact List.mem_range.1 hp
  have hle := (List.nodup_range.subperm hsubset).length_le
  rwa [List.length_map, List.length_range] at hle

end Partway

/-- The sweep as far as it has come through a tree: what it has visited is widened, and nothing
else. -/
structure Sweeps (t : Tree σ P) (after : Nat) (w : Sweep P) : Prop where
  partway : t.Partway w.visits w.pending
  getElem?_eq : ∀ p : Nat, w.nodes[p]? = t.nodes[p]?.map fun n =>
    if p ∈ w.visits.map NodeId.position then n.widen after else n

namespace Sweeps
variable {t : Tree σ P} {after : Nat} {w : Sweep P}

theorem child?_eq (h : t.Sweeps after w) (id : NodeId) (i : Nat) :
    (w.nodes[id.position]?.bind (·.child? i)) = t.child? id i := by
  rw [h.getElem?_eq, child?, node?]
  cases t.nodes[id.position]? with
  | none => rfl
  | some n =>
    simp only [Option.map_some, Option.bind_some]
    split
    · exact n.child?_widen after i
    · rfl

theorem childrenIn_eq (h : t.Sweeps after w) (width : Nat) (id : NodeId) :
    Sweep.childrenIn w.nodes width id = (List.range width).filterMap (t.child? id) := by
  simp only [Sweep.childrenIn, h.child?_eq]

theorem visit (ht : t.WellFormed) {nodes : Array (Node P)} {visits pending fresh : List NodeId}
    {id : NodeId} (h : t.Sweeps after ⟨nodes, id :: pending, visits⟩) (hnodup : fresh.Nodup)
    (hfresh : ∀ c, c ∈ fresh ↔ t.Edge id c) :
    t.Sweeps after
      ⟨nodes.modify id.position (·.widen after), fresh ++ pending, visits ++ [id]⟩ := by
  refine ⟨h.partway.visit ht hnodup hfresh, ?_⟩
  intro p
  have hold := h.getElem?_eq p
  simp only [Array.getElem?_modify, hold, List.map_append, List.map_singleton, List.mem_append,
    List.mem_singleton]
  cases t.nodes[p]? with
  | none => simp
  | some n =>
    by_cases hp : id.position = p
    · subst hp
      simp only [Option.map_some, if_true, or_true, Option.some.injEq]
      split
      · exact n.widen_widen (Nat.le_refl after)
      · rfl
    · simp [hp, Ne.symm hp]

end Sweeps

def childrenOf (t : Tree σ P) (id : NodeId) : List NodeId :=
  (List.range t.width).filterMap (t.child? id)

theorem laterChildren_eq_filter (nodes : Array (Node P)) (width : Nat) (id : NodeId) :
    laterChildren nodes width id =
      (Sweep.childrenIn nodes width id).filter (id.position < ·.position) := by
  rw [laterChildren, Sweep.childrenIn]
  cases nodes[id.position]? with
  | none => simp
  | some n => simp only [Option.bind_some, List.filter_filterMap]

section Sweep
variable {t : Tree σ P} (ht : t.WellFormed) (hwidth : t.width = t.alphabet.size) {after : Nat}
include ht

theorem WellFormed.nodup_childrenOf (id : NodeId) : (t.childrenOf id).Nodup :=
  List.nodup_range.filterMap fun _ _ _ hi hj => (ht.parent_unique hi hj).2

include hwidth

theorem WellFormed.mem_childrenOf {id c : NodeId} : c ∈ t.childrenOf id ↔ t.Edge id c := by
  simp only [childrenOf, List.mem_filterMap, List.mem_range, Edge]
  constructor
  · intro h
    obtain ⟨i, _, hi⟩ := h
    obtain ⟨s, _, hs⟩ := ht.exists_successor hi
    exact ⟨s, hs⟩
  · intro h
    obtain ⟨s, hs⟩ := h
    obtain ⟨i, _, hi⟩ := Option.bind_eq_some_iff.1 hs
    exact ⟨i, hwidth ▸ ht.child_indexed hi, hi⟩

theorem Sweeps.turn {w : Sweep P} (h : t.Sweeps after w) :
    t.Sweeps after (w.turn t.width after) := by
  obtain ⟨nodes, pending, visits⟩ := w
  cases pending with
  | nil => exact h
  | cons id pending =>
    have hfresh : ∀ c, c ∈ (t.childrenOf id).reverse ↔ t.Edge id c := fun c => by
      rw [List.mem_reverse, ht.mem_childrenOf hwidth]
    have hvisit := h.visit ht (List.nodup_reverse.2 (ht.nodup_childrenOf id)) hfresh
    have hread := hvisit.childrenIn_eq t.width id
    simp only at hread
    simp only [Sweep.turn, hread]
    exact hvisit

theorem sweeps_turns (after n : Nat) (hn : n ≤ t.size) :
    let w := (Sweep.turn t.width after)^[n] ⟨t.nodes, [.root], []⟩
    t.Sweeps after w ∧ w.visits.length = n := by
  induction n with
  | zero =>
    refine ⟨⟨ht.partway_start, ?_⟩, rfl⟩
    intro p
    simp
  | succ n ih =>
    obtain ⟨hsweeps, hlength⟩ := ih (Nat.le_of_succ_le hn)
    simp only [Function.iterate_succ_apply']
    refine ⟨hsweeps.turn ht hwidth, ?_⟩
    generalize (Sweep.turn t.width after)^[n] ⟨t.nodes, [.root], []⟩ = w at hsweeps hlength
    obtain ⟨nodes, pending, visits⟩ := w
    cases pending with
    | nil =>
      have hall := hsweeps.partway.length_eq ht
      simp only at hall hlength
      omega
    | cons id pending => simp only [Sweep.turn, List.length_append, List.length_singleton, hlength]

theorem exists_visits_of_sweep (after : Nat) :
    ∃ visits : List NodeId, visits.Nodup ∧ (∀ id, id ∈ visits ↔ id.position < t.size) ∧
      (Sweep.turn t.width after)^[t.size] ⟨t.nodes, [.root], []⟩ =
        ⟨t.nodes.map (·.widen after), [], visits⟩ := by
  obtain ⟨hsweeps, hlength⟩ := sweeps_turns ht hwidth after t.size (Nat.le_refl _)
  generalize (Sweep.turn t.width after)^[t.size] ⟨t.nodes, [.root], []⟩ = w at hsweeps hlength
  obtain ⟨nodes, pending, visits⟩ := w
  have hle := hsweeps.partway.length_le
  simp only at hle hlength
  have hnone : pending = [] := List.eq_nil_of_length_eq_zero (by omega)
  subst hnone
  have hmem := hsweeps.partway.mem_visits_iff
  refine ⟨visits, by simpa using hsweeps.partway.nodup, hmem, ?_⟩
  have hnodes : nodes = t.nodes.map (·.widen after) := by
    apply Array.ext_getElem?
    intro p
    rw [hsweeps.getElem?_eq, Array.getElem?_map]
    cases hp : t.nodes[p]? with
    | none => rfl
    | some n =>
      have hlt : p < t.size := (Array.getElem?_eq_some_iff.1 hp).1
      have hpos := ht.position_ofPosition hlt
      have hvisited : p ∈ visits.map NodeId.position :=
        List.mem_map.2 ⟨.ofPosition p, (hmem _).2 (hpos.symm ▸ hlt), hpos⟩
      simp only [Option.map_some, if_pos hvisited]
  rw [hnodes]

theorem Sweeps.visited_widenFrom {nodes : Array (Node P)} {pending visits : List NodeId}
    (h : t.Sweeps after ⟨nodes, pending, visits⟩) :
    (widenFrom t.width after nodes visits.length pending).2 = t.size := by
  generalize hvisited : visits.length = visited
  generalize hbefore : t.width = before
  fun_induction widenFrom before after nodes visited pending generalizing visits with
  | case1 nodes visited => exact hvisited.symm.trans (h.partway.length_eq ht)
  | case2 nodes visited id pending children =>
    rename_i ih
    subst hbefore
    have hin : Sweep.childrenIn nodes t.width id = t.childrenOf id := h.childrenIn_eq t.width id
    have hchildren : children = t.childrenOf id := by
      refine (laterChildren_eq_filter nodes t.width id).trans ?_
      rw [hin, List.filter_eq_self]
      intro c hc
      exact decide_eq_true (ht.edge_later ((ht.mem_childrenOf hwidth).1 hc))
    have hvisit := h.visit ht (ht.nodup_childrenOf id) fun c => ht.mem_childrenOf hwidth
    refine ih (hchildren ▸ hvisit) ?_
    rw [List.length_append, hvisited, List.length_singleton]

end Sweep

section Growth
variable {t : Tree σ P} (hflush : t.Flush) {s : σ}
include hflush

theorem Flush.addSymbol_of_mem (hs : s ∈ t.alphabet.toList) :
    t.addSymbol s = ⟨false, t, []⟩ := by
  obtain ⟨i, hi⟩ := Option.ne_none_iff_exists'.1 fun h => Alphabet.index?_eq_none_iff.1 h hs
  rw [Tree.addSymbol, Alphabet.add_of_index? hi, if_neg]
  rw [hflush.width_eq]
  exact Nat.lt_irrefl _

theorem Flush.addSymbol_of_notMem (ht : t.WellFormed) (hs : s ∉ t.alphabet.toList) :
    t.addSymbol s = ⟨true, t.stretch (t.alphabet.add s).1,
      [.widened t.width (t.alphabet.add s).1.size t.size]⟩ := by
  have hgrows : t.width < (t.alphabet.add s).1.size := by
    rw [hflush.width_eq, Alphabet.size_add_of_notMem hs]
    exact Nat.lt_succ_self _
  have hcount : (widenFrom t.width (t.alphabet.add s).1.size t.nodes 0 [.root]).2 = t.size :=
    (sweeps_turns ht hflush.width_eq _ 0 (Nat.zero_le _)).1.visited_widenFrom ht hflush.width_eq
  have hwiden : widenFrom t.width (t.alphabet.add s).1.size t.nodes 0 [.root] =
      (t.nodes.map (·.widen (t.alphabet.add s).1.size), t.size) :=
    Prod.ext (ht.nodes_widenFrom hflush.width_eq _) hcount
  rw [Tree.addSymbol, if_pos hgrows, hwiden]
  rfl

end Growth

/-- A present symbol changes nothing. A new one gets the next index, and the walk comes to every
node once and gives it one empty slot. Words, searches and ages stay as they were. -/
theorem Reachable.new_symbol_only_widens {P : Type} {t : Tree σ P} (ht : t.Reachable)
    (hroom : t.size ≤ UInt32.size) (s : σ) :
    (s ∈ t.alphabet.toList → t.addSymbol s = ⟨false, t, []⟩) ∧
    (let t' := (t.addSymbol s).state
    (s ∉ t.alphabet.toList →
      (t.addSymbol s).answer = true ∧
      (t.addSymbol s).events = [.widened t.alphabet.size (t.alphabet.size + 1) t.size] ∧
      t'.alphabet.toList = t.alphabet.toList ++ [s] ∧
      t'.alphabet.index? s = some t.alphabet.size ∧
      t'.width = t.alphabet.size + 1 ∧
      (∃ visits : List NodeId, visits.Nodup ∧ (∀ id, id ∈ visits ↔ id.position < t.size) ∧
        (Sweep.turn t.width t'.width)^[t.size] ⟨t.nodes, [.root], []⟩ = ⟨t'.nodes, [], visits⟩) ∧
      t'.nodes = t.nodes.map (fun n => { n with children := n.children.push none }) ∧
      ∀ n ∈ t'.nodes, n.children.size = t.alphabet.size + 1) ∧
    (∀ w, t'.nodeOf? w = t.nodeOf? w ∧ t'.lookup w = t.lookup w) ∧
    (∀ {Q : Type w} (target : Acceptor σ Q) (probes : Array σ) (skipUndefined : Bool),
      t'.separatingWord? target probes skipUndefined =
        t.separatingWord? target probes skipUndefined)) ∧
    ∀ c : Revisable σ, (c.addSymbol s).state = { c with tree := (c.tree.addSymbol s).state } ∧
      (c.addSymbol s).state.ages = c.ages := by
  obtain ⟨ws, h⟩ := ht.exists_holds hroom
  have hwf := h.wellFormed
  have hwidth := h.flush.width_eq
  refine ⟨h.flush.addSymbol_of_mem, ⟨?_, ?_, ?_⟩, fun c => ⟨rfl, rfl⟩⟩
  · intro hs
    have hsize := Alphabet.size_add_of_notMem hs
    have hsweep := exists_visits_of_sweep hwf hwidth (t.alphabet.size + 1)
    have hnodes : t.nodes.map (·.widen (t.alphabet.size + 1)) =
        t.nodes.map fun n => { n with children := n.children.push none } :=
      Array.map_congr_left fun n hn => Node.widen_succ ((h.flush.node_width n hn).trans hwidth)
    have hwidths := (h.widen s).flush.node_width
    rw [h.flush.addSymbol_of_notMem hwf hs] at hwidths ⊢
    simp only [stretch, hsize, hwidth] at hwidths hsweep ⊢
    exact ⟨trivial, trivial, Alphabet.toList_add_of_notMem hs, Alphabet.index?_add_of_notMem hs,
      trivial, hsweep, hnodes, hwidths⟩
  · intro w
    exact ⟨hwf.nodeOf?_addSymbol s w, by rw [lookup, lookup, hwf.committed?_addSymbol]⟩
  · intro Q target probes skipUndefined
    exact separatingWord?_congr_of_disputed (hwf.addSymbol s) hwf (disputed_addSymbol hwf s)

theorem new_symbol_only_widens_four_nodes :
    let t := ((WriteOnce.new (.ofList [1, 2]) {}).putAll [([1, 2], true), ([2], false)]).tree
    let t' := (t.addSymbol 7).state
    let even : Acceptor Nat Bool := ⟨some true, fun q _ => some !q, id⟩
    t.Reachable ∧ t.size ≤ UInt32.size ∧ 1 ∈ t.alphabet.toList ∧ 7 ∉ t.alphabet.toList ∧
      t.addSymbol 1 = ⟨false, t, []⟩ ∧ (t.addSymbol 7).answer = true ∧
      (t.addSymbol 7).events = [.widened 2 3 4] ∧ t'.alphabet.index? 7 = some 2 ∧
      (∃ visits : List NodeId, visits.Nodup ∧ (∀ id, id ∈ visits ↔ id.position < 4) ∧
        (Sweep.turn t.width t'.width)^[4] ⟨t.nodes, [.root], []⟩ = ⟨t'.nodes, [], visits⟩) ∧
      t'.nodes = t.nodes.map (fun n => { n with children := n.children.push none }) ∧
      t'.lookup [1, 2] = (true, some true) ∧ t'.lookup [1] = (false, none) ∧
      t'.separatingWord? even #[7, 2, 1] false = t.separatingWord? even #[7, 2, 1] false := by
  intro t t' even
  let is : List (Word Nat × Bool) := [([1, 2], true), ([2], false)]
  have hfilled : t.Filled [1, 2] is := WriteOnce.filled_putAll {} (by decide) (by decide)
  obtain ⟨hreachable, hroom, h⟩ := hfilled
  have htwo : t.alphabet.size = 2 := by rw [Alphabet.size_eq_length, h.letters_eq]; rfl
  have hpresent : 1 ∈ t.alphabet.toList := by rw [h.letters_eq]; decide
  have hnew : 7 ∉ t.alphabet.toList := by rw [h.letters_eq]; decide
  have hcommitted : t.committed? [1, 2] = some true := h.entry_eq [1, 2]
  have hnone : t.committed? [1] = none := h.entry_eq [1]
  obtain ⟨hagain, _⟩ := Reachable.new_symbol_only_widens.{0, 0} hreachable hroom 1
  obtain ⟨_, ⟨hgrowth, hwords, hsearch⟩, _⟩ := hreachable.new_symbol_only_widens hroom 7
  obtain ⟨hanswer, hevents, _, hindex, _, hsweep, hnodes, _⟩ := hgrowth hnew
  rw [show t.size = 4 from h.size_eq] at hsweep hevents
  rw [htwo] at hevents hindex
  refine ⟨hreachable, hroom, hpresent, hnew, hagain hpresent, hanswer, hevents, hindex, hsweep,
    hnodes, ?_, ?_, hsearch even #[7, 2, 1] false⟩
  · rw [(hwords [1, 2]).2, lookup, hcommitted]
    rfl
  · rw [(hwords [1]).2, lookup, hnone]
    rfl

end Tree
end MembershipCache
