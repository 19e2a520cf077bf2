import MembershipCache.Proofs.Automaton.Table
import MembershipCache.Proofs.Exploration
import MembershipCache.Proofs.Widening

/-! Accesses by index, checked. The functions here do what trees, searches and tables do, with one
difference: where an array is read or written at an index and the index is out of range, there is no
result. In every state that a run arrives at there is one, and it is the same. -/
namespace MembershipCache
universe u v w

section Overwrite
variable {α : Type u} {xs : Array α} {i : Nat}

/-- The array with its entry at an index replaced by what `f` makes of it. An index out of range
gives no array, whatever `f` does. -/
def overwrite? (xs : Array α) (i : Nat) (f : α → Option α) : Option (Array α) :=
  (xs[i]?.bind f).map (xs.setIfInBounds i)

theorem overwrite?_of_size_le (hi : xs.size ≤ i) (f : α → Option α) : overwrite? xs i f = none := by
  simp [overwrite?, hi]

theorem overwrite?_of_lt (hi : i < xs.size) (y : α) :
    overwrite? xs i (fun _ => some y) = some (xs.setIfInBounds i y) := by
  simp [overwrite?, hi]

theorem overwrite?_eq_modify (hi : i < xs.size) {f : α → Option α} {g : α → α}
    (hf : ∀ x, f x = some (g x)) : overwrite? xs i f = some (xs.modify i g) := by
  rw [overwrite?, Array.getElem?_eq_getElem hi, Option.bind_some, hf, Option.map_some]
  refine congrArg some (Array.ext_getElem? fun j => ?_)
  rw [Array.getElem?_setIfInBounds, Array.getElem?_modify]
  split
  · next h =>
    subst h
    simp [hi]
  · rfl

end Overwrite

namespace Node
variable {P : Type u}

def setChild? (n : Node P) (i size : Nat) (child : NodeId) : Option (Node P) :=
  let n := n.widen (max size (i + 1))
  (overwrite? n.children i fun _ => some (some child)).map ({ n with children := · })

theorem setChild?_eq (n : Node P) (i size : Nat) (child : NodeId) :
    n.setChild? i size child = some (n.setChild i size child) := by
  have hroom : i < (n.widen (max size (i + 1))).width := by
    rw [width_widen]
    omega
  rw [setChild?, overwrite?_of_lt hroom]
  rfl

end Node

namespace Tree
variable {σ : Type u} {P : Type v} [DecidableEq σ] [Hashable σ]

section Downwards

def modify? (t : Tree σ P) (id : NodeId) (f : Node P → Option (Node P)) : Option (Tree σ P) :=
  (overwrite? t.nodes id.position f).map ({ t with nodes := · })

theorem modify?_eq {t : Tree σ P} {id : NodeId} (hid : id.position < t.size)
    {f : Node P → Option (Node P)} {g : Node P → Node P} (hf : ∀ n, f n = some (g n)) :
    t.modify? id f = some (t.modify id g) := by
  rw [modify?, overwrite?_eq_modify hid hf]
  rfl

def Closed (t : Tree σ P) : Prop :=
  ∀ (id c : NodeId) (i : Nat), t.child? id i = some c → c.position < t.size

theorem WellFormed.closed {t : Tree σ P} (ht : t.WellFormed) : t.Closed :=
  fun _ _ _ => ht.child_exists

variable [Inhabited P]

def grow? (t : Tree σ P) (parent : NodeId) (i : Nat) : Option (Tree σ P) :=
  { t with nodes := t.nodes.push (.blank t.width) }.modify? parent
    (·.setChild? i t.width t.nextId)

def descend? (t : Tree σ P) (start : NodeId) : List Nat → Option (Descent σ P)
  | [] => some ⟨t, start, []⟩
  | i :: path =>
    (t.node? start).bind fun n =>
      match n.child? i with
      | some child => t.descend? child path
      | none =>
        (t.grow? start i).bind fun grown =>
          (grown.descend? t.nextId path).map fun rest =>
            { rest with events := .created start t.nextId i :: rest.events }

def enter? (t : Tree σ P) (w : Word σ) : Option (Except σ (Descent σ P)) :=
  match t.alphabet.indices w with
  | .error s => some (.error s)
  | .ok path => (t.descend? .root path).map .ok

variable {t : Tree σ P} {parent : NodeId}

theorem grow?_eq (hp : parent.position < t.size) (i : Nat) :
    t.grow? parent i = some (t.grow parent i) := by
  have hpushed : parent.position < (t.nodes.push (.blank t.width)).size := by
    rw [Array.size_push]
    exact Nat.lt_succ_of_lt hp
  exact modify?_eq hpushed fun n => n.setChild?_eq i t.width t.nextId

theorem Closed.grow (ht : t.Closed) (hp : parent.position < t.size) (i : Nat) :
    (t.grow parent i).Closed := by
  intro id c j hc
  rw [child?_grow hp] at hc
  split at hc
  · cases hc
    exact position_nextId_lt t parent i
  · rw [size_grow]
    exact Nat.lt_succ_of_lt (ht id c j hc)

/-- A walk never leaves the arena: neither where it follows a slot nor where it grows a node. -/
theorem Closed.descend?_eq (ht : t.Closed) {start : NodeId} (hstart : start.position < t.size)
    (path : List Nat) :
    t.descend? start path = some (t.descend start path) ∧
      (t.descend start path).node.position < (t.descend start path).tree.size := by
  induction path generalizing t start with
  | nil => exact ⟨rfl, hstart⟩
  | cons i path ih =>
    obtain ⟨n, hn⟩ := Option.isSome_iff_exists.1 (node?_isSome_iff.2 hstart)
    have hread : t.child? start i = n.child? i := by rw [child?, hn, Option.bind_some]
    rw [descend?, hn, Option.bind_some, ← hread]
    cases hc : t.child? start i with
    | some c =>
      simp only [descend, hc]
      exact ih ht (ht start c i hc)
    | none =>
      obtain ⟨hrest, hnode⟩ := ih (ht.grow hstart i) (position_nextId_lt t start i)
      simp only [descend, hc, grow?_eq hstart, Option.bind_some, hrest, Option.map_some]
      exact ⟨trivial, hnode⟩

theorem WellFormed.enter?_eq (ht : t.WellFormed) (w : Word σ) : t.enter? w = some (t.enter w) := by
  rw [enter?, Tree.enter]
  cases t.alphabet.indices w with
  | error s => rfl
  | ok path =>
    simp only [(ht.closed.descend?_eq ht.root_lt path).1, Option.map_some, Except.map]

theorem WellFormed.position_enter_lt (ht : t.WellFormed) {w : Word σ} {d : Descent σ P}
    (hd : t.enter w = .ok d) : d.node.position < d.tree.size := by
  obtain ⟨path, _, rfl⟩ := descend_of_enter hd
  exact (ht.closed.descend?_eq ht.root_lt path).2

end Downwards

end Tree

namespace Sweep
variable {P : Type v}

def turn? (before after : Nat) (w : Sweep P) : Option (Sweep P) :=
  match w.pending with
  | [] => some w
  | id :: pending =>
    (overwrite? w.nodes id.position fun n => some (n.widen after)).map fun nodes =>
      ⟨nodes, (childrenIn nodes before id).reverse ++ pending, w.visits ++ [id]⟩

theorem turn?_eq {w : Sweep P} (hw : ∀ id ∈ w.pending, id.position < w.nodes.size)
    (before after : Nat) : w.turn? before after = some (w.turn before after) := by
  obtain ⟨nodes, pending, visits⟩ := w
  cases pending with
  | nil => rfl
  | cons id pending =>
    have hid : id.position < nodes.size := hw id List.mem_cons_self
    simp only [turn?, turn, overwrite?_eq_modify hid fun _ => rfl, Option.map_some]

end Sweep

section Answers
variable {σ : Type u} {probes : Array σ} {p : List Nat} {w : Word σ}

def Separation.word? (probes : Array σ) : Separation → Option (Word σ)
  | withoutStart | atRoot => some []
  | along positions _ _ => positions.mapM (probes[·]?)

theorem Spells.mapM_eq (h : Spells probes p w) : p.mapM (probes[·]?) = some w := by
  induction p generalizing w with
  | nil =>
    rw [spells_nil.1 h]
    rfl
  | cons i p ih =>
    cases w with
    | nil => exact absurd h spells_cons_nil
    | cons s w =>
      obtain ⟨hi, hp⟩ := spells_cons.1 h
      rw [List.mapM_cons, hi, ih hp]
      rfl

end Answers

namespace Tree
open Separation
variable {σ : Type u} {P : Type v} {Q : Type w} [DecidableEq σ] [Hashable σ] {t : Tree σ P}

section Sideways
variable {after : Nat} {w : Sweep P}

theorem Sweeps.position_lt (h : t.Sweeps after w) {id : NodeId} (hid : id ∈ w.pending) :
    id.position < w.nodes.size := by
  have hold := h.partway.present id (List.mem_append_right _ hid)
  by_contra hout
  have hread := h.getElem?_eq id.position
  rw [Array.getElem?_eq_none (Nat.le_of_not_lt hout), Array.getElem?_eq_getElem hold] at hread
  cases hread

theorem turns?_eq (ht : t.WellFormed) (hwidth : t.width = t.alphabet.size) (after n : Nat)
    (hn : n ≤ t.size) :
    (Option.bind · (Sweep.turn? t.width after))^[n] (some ⟨t.nodes, [.root], []⟩) =
      some ((Sweep.turn t.width after)^[n] ⟨t.nodes, [.root], []⟩) := by
  induction n with
  | zero => rfl
  | succ n ih =>
    have hle := Nat.le_of_succ_le hn
    have hsweeps := (sweeps_turns ht hwidth after n hle).1
    rw [Function.iterate_succ_apply', Function.iterate_succ_apply', ih hle, Option.bind_some,
      Sweep.turn?_eq fun _ => hsweeps.position_lt]

end Sideways

section Search
variable {target : Acceptor σ Q} {probes : Array σ} {skipUndefined : Bool}

/-- Every position of an answer came from a frame of the stack, and so from a probe that was
tried. -/
theorem exists_spells_of_separation? (ht : t.WellFormed) {p : List Nat} {explored : Nat}
    {undefined : Bool} (h : t.separation? target probes skipUndefined =
      some (.along p explored undefined)) : ∃ w, Spells probes p w := by
  cases hq : target.start? with
  | none =>
    rw [separation?, hq] at h
    cases skipUndefined <;> cases h
  | some q =>
    obtain ⟨n, hn⟩ := exists_turns_separation hq ht probes skipUndefined
    have hcounted := counted_turns t target probes skipUndefined q n
    rw [hn, h] at hcounted
    exact hcounted.1

theorem WellFormed.word?_eq (ht : t.WellFormed) {answer : Separation}
    (h : t.separation? target probes skipUndefined = some answer) :
    answer.word? probes = some (answer.word probes) := by
  cases answer with
  | withoutStart => rfl
  | atRoot => rfl
  | along p explored undefined =>
    obtain ⟨w, hw⟩ := exists_spells_of_separation? ht h
    rw [word?, word, hw.mapM_eq, hw.word_eq]

end Search

end Tree

namespace TableAutomaton
variable {σ : Type u} [DecidableEq σ] [Hashable σ]

def setCell? (row : Array (Option Nat)) (i target : Nat) : Option (Array (Option Nat)) :=
  overwrite? (row ++ .replicate (i + 1 - row.size) none) i fun _ => some (some target)

def addTransition? (m : TableAutomaton σ) (source : Nat) (s : σ) (target : Nat) :
    Option (TableAutomaton σ × Bool) :=
  if source < m.size && target < m.size then
    let (alphabet, i) := m.alphabet.add s
    (overwrite? m.rows source (setCell? · i target)).map fun rows =>
      ({ m with alphabet, rows }, true)
  else some (m, false)

theorem setCell?_eq (row : Array (Option Nat)) (i target : Nat) :
    setCell? row i target = some (setEntry row i target) := by
  refine overwrite?_of_lt ?_ (some target)
  rw [Array.size_append, Array.size_replicate]
  omega

theorem WellFormed.addTransition?_eq {m : TableAutomaton σ} (h : m.WellFormed) (source : Nat)
    (s : σ) (target : Nat) :
    m.addTransition? source s target = some (m.addTransition source s target) := by
  by_cases hexist : source < m.size ∧ target < m.size
  · have hrow : source < m.rows.size := h.rows_size ▸ hexist.1
    rw [addTransition_of_exist hexist.1 hexist.2, addTransition?, if_pos (by simpa using hexist)]
    simp only [overwrite?_eq_modify hrow fun row => setCell?_eq row _ target, Option.map_some]
  · rw [addTransition_of_missing hexist, addTransition?, if_neg (by simpa using hexist)]

end TableAutomaton

namespace Tree
variable {σ : Type u} [DecidableEq σ] [Hashable σ]

/-- Words, symbols, probes, acceptors and states may be any: nothing is read or written out of
range, be it on the way down a word, at the node it leads to, in the sweep for a new symbol, among
the probes of an answer or in the row of a transition. -/
theorem Reachable.every_index_in_range {P : Type} [Inhabited P] {t : Tree σ P} (ht : t.Reachable)
    (hroom : t.size ≤ UInt32.size) :
    (∀ w, t.enter? w = some (t.enter w) ∧
      ∀ d, t.enter w = .ok d → ∀ f : Node P → Node P,
        d.tree.modify? d.node (fun n => some (f n)) = some (d.tree.modify d.node f)) ∧
    (∀ s, s ∉ t.alphabet.toList →
      let t' := (t.addSymbol s).state
      ∃ visits : List NodeId,
        (Option.bind · (Sweep.turn? t.width t'.width))^[t.size] (some ⟨t.nodes, [.root], []⟩) =
          some ⟨t'.nodes, [], visits⟩) ∧
    (∀ {Q : Type w} (target : Acceptor σ Q) (probes : Array σ) (skipUndefined : Bool)
      (answer : Separation), t.separation? target probes skipUndefined = some answer →
        answer.word? probes = some (answer.word probes)) ∧
    ∀ (a : Alphabet σ) (rs : List (TableAutomaton.Request σ)) (source : Nat) (s : σ) (target : Nat),
      let m := (TableAutomaton.ofAlphabet a).run rs
      m.addTransition? source s target = some (m.addTransition source s target) := by
  obtain ⟨ws, hholds⟩ := ht.exists_holds hroom
  have hwf := hholds.wellFormed
  refine ⟨fun w => ⟨hwf.enter?_eq w, ?_⟩, ?_, ?_, ?_⟩
  · intro d hd f
    exact modify?_eq (hwf.position_enter_lt hd) fun _ => rfl
  · intro s hs t'
    have hstretch : t' = t.stretch (t.alphabet.add s).1 :=
      congrArg Reply.state (hholds.flush.addSymbol_of_notMem hwf hs)
    obtain ⟨visits, _, _, hsweep⟩ := exists_visits_of_sweep hwf hholds.flush.width_eq t'.width
    refine ⟨visits, ?_⟩
    rw [turns?_eq hwf hholds.flush.width_eq t'.width t.size (Nat.le_refl _), hsweep, hstretch]
    rfl
  · intro Q target probes skipUndefined answer hanswer
    exact hwf.word?_eq hanswer
  · intro a rs source s target m
    exact (TableAutomaton.wellFormed_ofAlphabet a |>.run rs).addTransition?_eq source s target

theorem every_index_in_range_four_nodes :
    let t := ((WriteOnce.new (.ofList [1, 2]) {}).putAll [([1, 2], false), ([2], false)]).tree
    let t' := (t.addSymbol 7).state
    let even : Acceptor Nat Bool := ⟨some true, fun q _ => some !q, id⟩
    let m := (TableAutomaton.ofAlphabet (.ofList [1])).run [.addState true, .addTransition 0 1 0]
    t.Reachable ∧ t.size ≤ UInt32.size ∧
      (∃ d, t.enter? [2, 1] = some (.ok d) ∧
        d.tree.modify? d.node (fun n => some (n.setVerdict .accept)) =
          some (d.tree.modify d.node (·.setVerdict .accept))) ∧
      7 ∉ t.alphabet.toList ∧
      (∃ visits : List NodeId,
        (Option.bind · (Sweep.turn? t.width t'.width))^[4] (some ⟨t.nodes, [.root], []⟩) =
          some ⟨t'.nodes, [], visits⟩) ∧
      (∃ answer, t.separation? even #[7, 2, 1] false = some answer ∧
        answer.word? #[7, 2, 1] = some [1, 2]) ∧
      m.addTransition? 0 5 0 = some (m.addTransition 0 5 0) := by
  intro t t' even m
  let is : List (Word Nat × Bool) := [([1, 2], false), ([2], false)]
  have hfilled : t.Filled [1, 2] is := WriteOnce.filled_putAll {} (by decide) (by decide)
  obtain ⟨hreachable, hroom, h⟩ := hfilled
  have hnew : 7 ∉ t.alphabet.toList := by rw [h.letters_eq]; decide
  have hfound : t.separatingWord? even #[7, 2, 1] false = some [1, 2] :=
    (h.separatingWord?_eq_some_iff rfl).2 (by decide)
  obtain ⟨answer, hanswer, hword⟩ := Option.map_eq_some_iff.1 hfound
  obtain ⟨d, hd⟩ : ∃ d, t.enter [2, 1] = .ok d :=
    exists_enter (by rw [h.letters_eq]; decide)
  obtain ⟨henter, hsweep, hsearch, htable⟩ :=
    Reachable.every_index_in_range.{0, 0} hreachable hroom
  obtain ⟨hwalk, hnode⟩ := henter [2, 1]
  have hturns := hsweep 7 hnew
  rw [show t.size = 4 from h.size_eq] at hturns
  refine ⟨hreachable, hroom, ⟨d, ?_, hnode d hd _⟩, hnew, hturns,
    ⟨answer, hanswer, ?_⟩, htable (.ofList [1]) _ 0 5 0⟩
  · rw [hwalk, hd]
  · rw [hsearch even #[7, 2, 1] false answer hanswer, hword]

end Tree
end MembershipCache
