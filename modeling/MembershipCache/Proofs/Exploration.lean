import MembershipCache.Proofs.ProbeOrder

/-! The search turn by turn. A turn moves the stack on as it stands and knows nothing of why that
should end; it does, since every edge leads to a later node. At every turn the count of frames is
the number of positions, before the next ones to try, along which the tree has its edges and the
acceptor its steps. -/
namespace MembershipCache
universe u v w

theorem lex_concat_iff {p r : List Nat} {n : Nat} : List.Lex (· < ·) r (p ++ [n]) ↔
    List.Lex (· < ·) r p ∨ r = p ∨ ∃ i p', i < n ∧ r = p ++ i :: p' := by
  induction p generalizing r with
  | nil =>
    cases r with
    | nil => simp
    | cons i r => simp [List.cons_lex_cons_iff]
  | cons j p ih =>
    cases r with
    | nil => simp
    | cons i r =>
      rw [List.cons_append, List.cons_lex_cons_iff, List.cons_lex_cons_iff, ih]
      simp only [List.cons_append, List.cons.injEq]
      constructor
      · rintro (hlt | ⟨rfl, hlex | rfl | ⟨k, p', hk, rfl⟩⟩)
        · exact Or.inl (Or.inl hlt)
        · exact Or.inl (Or.inr ⟨rfl, hlex⟩)
        · exact Or.inr (Or.inl ⟨rfl, rfl⟩)
        · exact Or.inr (Or.inr ⟨k, p', hk, rfl, rfl⟩)
      · rintro ((hlt | ⟨rfl, hlex⟩) | ⟨rfl, rfl⟩ | ⟨k, p', hk, rfl, rfl⟩)
        · exact Or.inl hlt
        · exact Or.inr ⟨rfl, Or.inl hlex⟩
        · exact Or.inr ⟨rfl, Or.inr (Or.inl rfl)⟩
        · exact Or.inr ⟨rfl, Or.inr (Or.inr ⟨k, p', hk, rfl⟩)⟩

theorem Spells.positions_eq {σ : Type u} {probes : Array σ} {p p' : List Nat} {w : Word σ}
    (h : Spells probes p w) (h' : Spells probes p' w) (hnodup : probes.toList.Nodup) : p = p' := by
  induction p generalizing p' w with
  | nil =>
    rw [spells_nil.1 h] at h'
    cases p' with
    | nil => rfl
    | cons j p' => exact absurd h' spells_cons_nil
  | cons i p ih =>
    cases w with
    | nil => exact absurd h spells_cons_nil
    | cons s w =>
      cases p' with
      | nil => cases spells_nil.1 h'
      | cons j p' =>
        obtain ⟨hi, hp⟩ := spells_cons.1 h
        obtain ⟨hj, hp'⟩ := spells_cons.1 h'
        have hij : probes.toList[i]? = probes.toList[j]? := by
          rw [Array.getElem?_toList, Array.getElem?_toList, hi, hj]
        rw [(List.getElem?_inj (Array.getElem?_eq_some_iff.1 hi).1 hnodup).1 hij, ih hp hp']

namespace Tree
open Separation
variable {σ : Type u} {P : Type v} {Q : Type w} [DecidableEq σ] [Hashable σ]

/-- A search under way, with the count of frames opened so far, or ended. -/
inductive Progress (Q : Type w) where
  | searching (explored : Nat) (stack : List (Frame Q))
  | answered (answer : Option Separation)

variable (t : Tree σ P) (target : Acceptor σ Q) (probes : Array σ) (skipUndefined : Bool)

/-- One turn of a search. It follows whatever edge there is. -/
def turn : Progress Q → Progress Q
  | .answered answer => .answered answer
  | .searching _ [] => .answered none
  | .searching explored (frame :: below) =>
    match probes[frame.next]? with
    | none => .searching explored below
    | some s =>
      let stack := { frame with next := frame.next + 1 } :: below
      match t.successor? frame.node s with
      | none => .searching explored stack
      | some child =>
        match target.step? frame.state s with
        | none =>
          if !skipUndefined && (t.verdictAt child).conflicts false then
            .answered (some (.along (path stack frame.next) explored true))
          else .searching explored stack
        | some state =>
          if (t.verdictAt child).conflicts (target.label state) then
            .answered (some (.along (path stack frame.next) explored false))
          else .searching (explored + 1) (⟨state, child, some frame.next, 0⟩ :: stack)

def outset (q : Q) : Progress Q :=
  if (t.verdictAt .root).conflicts (target.label q) then .answered (some .atRoot)
  else .searching 1 [⟨q, .root, none, 0⟩]

theorem exists_turns_searchFrom {t : Tree σ P} (ht : t.WellFormed) (explored : Nat)
    (stack : List (Frame Q)) :
    ∃ n, (t.turn target probes skipUndefined)^[n] (.searching explored stack) =
      .answered (t.searchFrom target probes skipUndefined explored stack) := by
  fun_induction t.searchFrom target probes skipUndefined explored stack with
  | case1 explored => exact ⟨1, rfl⟩
  | case2 explored f below hs ih =>
    obtain ⟨n, hn⟩ := ih
    refine ⟨n + 1, ?_⟩
    rw [Function.iterate_succ_apply, turn, hs]
    exact hn
  | case3 explored f below s hs stack hc ih =>
    obtain ⟨n, hn⟩ := ih
    refine ⟨n + 1, ?_⟩
    simp only [Function.iterate_succ_apply, turn, hs, hc]
    exact hn
  | case4 explored f below s hs stack child hc hstep hclash =>
    refine ⟨1, ?_⟩
    simp only [Function.iterate_one, turn, hs, hc, hstep, hclash, if_true]
    rfl
  | case5 explored f below s hs stack child hc hstep hclash ih =>
    obtain ⟨n, hn⟩ := ih
    refine ⟨n + 1, ?_⟩
    simp only [Function.iterate_succ_apply, turn, hs, hc, hstep, if_neg hclash]
    exact hn
  | case6 explored f below s hs stack child hc state hstep hclash =>
    refine ⟨1, ?_⟩
    simp only [Function.iterate_one, turn, hs, hc, hstep, hclash, if_true]
    rfl
  | case7 explored f below s hs stack child hc state hstep hclash hlater ih =>
    obtain ⟨n, hn⟩ := ih
    refine ⟨n + 1, ?_⟩
    simp only [Function.iterate_succ_apply, turn, hs, hc, hstep, if_neg hclash]
    exact hn
  | case8 explored f below s hs stack child hc state hstep hclash hlater ih =>
    -- a turn follows every edge, and in a tree they all lead to later nodes
    exact absurd (ht.successor_later hc) hlater

def onward? (a : NodeId × Q) (i : Nat) : Option (NodeId × Q) :=
  (t.turn? target probes a.1 a.2 i).bind fun (c, q?) => q?.map (c, ·)

def arrive? (a : NodeId × Q) (p : List Nat) : Option (NodeId × Q) :=
  p.foldlM (t.onward? target probes) a

/-- The positions in lexicographic order before some others, of those that lead somewhere. -/
def Visited (a : NodeId × Q) (p : List Nat) : Set (List Nat) :=
  {r | List.Lex (· < ·) r p ∧ (t.arrive? target probes a r).isSome}

/-- Every frame stands where the probe led on that the frame below has tried last; the outermost one
stands at the root. -/
inductive Stands (q : Q) : List (Frame Q) → Prop
  | root (next : Nat) : Stands q [⟨q, .root, none, next⟩]
  | opened {f : Frame Q} {below : List (Frame Q)} {i : Nat} {c : NodeId} {q' : Q} (next : Nat)
      (hf : Stands q (f :: below)) (hi : f.next = i + 1)
      (hc : t.onward? target probes (f.node, f.state) i = some (c, q')) :
      Stands q (⟨q', c, some i, next⟩ :: f :: below)

/-- The frames opened so far are as many as the positions visited. -/
def Counted (q : Q) : Progress Q → Prop
  | .searching _ [] => True
  | .searching explored (f :: below) => t.Stands target probes q (f :: below) ∧
      (t.Visited target probes (.root, q) (route (f :: below) ++ [f.next])).encard = explored
  | .answered (some (.along p explored _)) => (∃ w, Spells probes p w) ∧
      (t.Visited target probes (.root, q) p).encard = explored
  | .answered _ => True

variable {t target probes skipUndefined}

theorem arrive?_append (a : NodeId × Q) (p r : List Nat) :
    t.arrive? target probes a (p ++ r) =
      (t.arrive? target probes a p).bind (t.arrive? target probes · r) :=
  List.foldlM_append

theorem arrive?_concat (a : NodeId × Q) (p : List Nat) (i : Nat) :
    t.arrive? target probes a (p ++ [i]) =
      (t.arrive? target probes a p).bind (t.onward? target probes · i) := by
  rw [arrive?_append]
  congr 1
  funext c
  simp [arrive?]

theorem onward?_eq_some_iff {a c : NodeId × Q} {i : Nat} :
    t.onward? target probes a i = some c ↔ ∃ s, probes[i]? = some s ∧
      t.successor? a.1 s = some c.1 ∧ target.step? a.2 s = some c.2 := by
  simp only [onward?, Option.bind_eq_some_iff, Option.map_eq_some_iff]
  constructor
  · intro h
    obtain ⟨⟨d, q?⟩, hturn, q', hq', rfl⟩ := h
    obtain ⟨s, hs, hd, hstep⟩ := turn?_eq_some_iff.1 hturn
    exact ⟨s, hs, hd, hstep.symm.trans hq'⟩
  · intro h
    obtain ⟨s, hs, hd, hstep⟩ := h
    exact ⟨_, turn?_eq_some_iff.2 ⟨s, hs, hd, hstep.symm⟩, c.2, rfl, rfl⟩

theorem lt_size_of_onward? {a c : NodeId × Q} {i : Nat}
    (h : t.onward? target probes a i = some c) : i < probes.size := by
  obtain ⟨s, hs, _⟩ := onward?_eq_some_iff.1 h
  exact (Array.getElem?_eq_some_iff.1 hs).1

theorem arrive?_eq_some_iff {a c : NodeId × Q} {p : List Nat} :
    t.arrive? target probes a p = some c ↔ ∃ w, Spells probes p w ∧
      w.foldlM t.successor? a.1 = some c.1 ∧ target.run? a.2 w = some c.2 := by
  induction p generalizing a with
  | nil =>
    constructor
    · intro h
      cases h
      exact ⟨[], spells_nil.2 rfl, rfl, rfl⟩
    · intro h
      obtain ⟨w, hw, hc, hq⟩ := h
      rw [spells_nil.1 hw] at hc hq
      have hca : c = a := Prod.ext (Option.some.inj hc).symm (Option.some.inj hq).symm
      rw [hca]
      rfl
  | cons i p ih =>
    rw [arrive?, List.foldlM_cons]
    change (t.onward? target probes a i).bind (t.arrive? target probes · p) = _ ↔ _
    constructor
    · intro h
      obtain ⟨b, hb, h⟩ := Option.bind_eq_some_iff.1 h
      obtain ⟨s, hs, hedge, hstep⟩ := onward?_eq_some_iff.1 hb
      obtain ⟨w, hw, hc, hq⟩ := ih.1 h
      refine ⟨s :: w, spells_cons.2 ⟨hs, hw⟩, ?_, ?_⟩
      · rw [List.foldlM_cons, hedge]
        exact hc
      · rw [TransitionSystem.run?, hstep]
        exact hq
    · intro h
      obtain ⟨w, hw, hc, hq⟩ := h
      cases w with
      | nil => exact absurd hw spells_cons_nil
      | cons s w =>
        obtain ⟨hs, hw⟩ := spells_cons.1 hw
        rw [List.foldlM_cons] at hc
        obtain ⟨d, hedge, hc⟩ := Option.bind_eq_some_iff.1 hc
        obtain ⟨q', hstep, hq⟩ := Option.bind_eq_some_iff.1 hq
        have hon : t.onward? target probes a i = some (d, q') :=
          onward?_eq_some_iff.2 ⟨s, hs, hedge, hstep⟩
        rw [hon]
        exact ih.2 ⟨w, hw, hc, hq⟩

section Visited
variable {a : NodeId × Q} {p : List Nat} {n : Nat}

theorem visited_start : t.Visited target probes a [0] = {[]} := by
  ext r
  rw [Visited, Set.mem_ofPred_eq, Set.mem_singleton_iff]
  constructor
  · intro h
    cases r with
    | nil => rfl
    | cons i r => simp [List.cons_lex_cons_iff] at h
  · rintro rfl
    exact ⟨.nil, rfl⟩

theorem visited_succ : t.Visited target probes a (p ++ [n + 1]) =
    t.Visited target probes a (p ++ [n]) ∪
      {r | (∃ r', r = p ++ n :: r') ∧ (t.arrive? target probes a r).isSome} := by
  ext r
  simp only [Visited, Set.mem_ofPred_eq, Set.mem_union, ← or_and_right]
  refine and_congr_left fun _ => ?_
  rw [lex_concat_iff, lex_concat_iff]
  constructor
  · rintro (h | h | ⟨i, r', hi, hr⟩)
    · exact Or.inl (Or.inl h)
    · exact Or.inl (Or.inr (Or.inl h))
    · rcases Nat.lt_succ_iff_lt_or_eq.1 hi with hlt | rfl
      · exact Or.inl (Or.inr (Or.inr ⟨i, r', hlt, hr⟩))
      · exact Or.inr ⟨r', hr⟩
  · rintro ((h | h | ⟨i, r', hi, hr⟩) | ⟨r', hr⟩)
    · exact Or.inl h
    · exact Or.inr (Or.inl h)
    · exact Or.inr (Or.inr ⟨i, r', Nat.lt_succ_of_lt hi, hr⟩)
    · exact Or.inr (Or.inr ⟨n, r', Nat.lt_succ_self n, hr⟩)

theorem visited_succ_of_none (h : t.arrive? target probes a (p ++ [n]) = none) :
    t.Visited target probes a (p ++ [n + 1]) = t.Visited target probes a (p ++ [n]) := by
  rw [visited_succ, Set.union_eq_left]
  intro r hr
  obtain ⟨⟨r', rfl⟩, hr⟩ := hr
  rw [List.append_cons, arrive?_append, h] at hr
  cases hr

theorem visited_enter (h : (t.arrive? target probes a p).isSome) :
    t.Visited target probes a (p ++ [0]) = insert p (t.Visited target probes a p) := by
  ext r
  simp only [Visited, Set.mem_ofPred_eq, Set.mem_insert_iff, lex_concat_iff]
  constructor
  · rintro ⟨hlex | rfl | ⟨i, r', hi, _⟩, hr⟩
    · exact Or.inr ⟨hlex, hr⟩
    · exact Or.inl rfl
    · exact absurd hi (Nat.not_lt_zero i)
  · rintro (rfl | ⟨hlex, hr⟩)
    · exact ⟨Or.inr (Or.inl rfl), h⟩
    · exact ⟨Or.inl hlex, hr⟩

theorem visited_leave {i : Nat} (hn : probes.size ≤ n) :
    t.Visited target probes a (p ++ [i] ++ [n]) = t.Visited target probes a (p ++ [i + 1]) := by
  rw [visited_succ]
  ext r
  simp only [Visited, Set.mem_ofPred_eq, Set.mem_union, ← or_and_right]
  refine and_congr_left fun hr => ?_
  rw [lex_concat_iff]
  refine or_congr_right ?_
  constructor
  · rintro (rfl | ⟨j, r', _, rfl⟩)
    · exact ⟨[], rfl⟩
    · exact ⟨j :: r', (List.append_cons p i (j :: r')).symm⟩
  · rintro ⟨r', rfl⟩
    cases r' with
    | nil => exact Or.inl rfl
    | cons j r' =>
      rw [List.append_cons, List.append_cons, arrive?_append, arrive?_concat] at hr
      obtain ⟨c, hc⟩ := Option.isSome_iff_exists.1 hr
      obtain ⟨d, hd, _⟩ := Option.bind_eq_some_iff.1 hc
      obtain ⟨b, _, hj⟩ := Option.bind_eq_some_iff.1 hd
      exact Or.inr ⟨j, r', Nat.lt_of_lt_of_le (lt_size_of_onward? hj) hn, List.append_cons ..⟩

end Visited

section Stack
variable {q : Q} {f : Frame Q} {below : List (Frame Q)} {explored : Nat}

omit [DecidableEq σ] [Hashable σ] in
@[simp] theorem route_advanced (n : Nat) :
    route ({ f with next := n } :: below) = route (f :: below) := by
  rw [route_cons, route_cons]

omit [DecidableEq σ] [Hashable σ] in
@[simp] theorem route_opened (c : NodeId) (i n : Nat) :
    route (⟨q, c, some i, n⟩ :: below) = route below ++ [i] := by
  rw [route_cons]
  rfl

theorem Stands.advanced (h : t.Stands target probes q (f :: below)) (n : Nat) :
    t.Stands target probes q ({ f with next := n } :: below) := by
  cases h with
  | root next => exact .root n
  | opened next hf hi hc => exact .opened n hf hi hc

theorem Stands.arrive?_route (h : t.Stands target probes q (f :: below)) :
    t.arrive? target probes (.root, q) (route (f :: below)) = some (f.node, f.state) := by
  induction below generalizing f with
  | nil =>
    cases h with
    | root next => rfl
  | cons g below ih =>
    cases h with
    | opened next hg hi hc =>
      rw [route_opened, arrive?_concat, ih hg]
      exact hc

variable (h : t.Counted target probes q (.searching explored (f :: below)))
include h

theorem counted_of_stop {s : σ} (hs : probes[f.next]? = some s) (undefined : Bool) :
    t.Counted target probes q (.answered (some
      (.along (path ({ f with next := f.next + 1 } :: below) f.next) explored undefined))) := by
  obtain ⟨hstands, hcount⟩ := h
  have hpath : path ({ f with next := f.next + 1 } :: below) f.next =
      route (f :: below) ++ [f.next] := by
    rw [path, ← route, route_advanced]
  obtain ⟨w, hw, _⟩ := arrive?_eq_some_iff.1 hstands.arrive?_route
  rw [Counted, hpath]
  refine ⟨⟨w ++ [s], ?_⟩, hcount⟩
  rw [Spells] at hw ⊢
  simp [hw, hs]

theorem counted_of_leave (hs : probes[f.next]? = none) :
    t.Counted target probes q (.searching explored below) := by
  obtain ⟨hstands, hcount⟩ := h
  cases hstands with
  | root next => exact trivial
  | opened next hg hi hc =>
    refine ⟨hg, ?_⟩
    rw [route_opened, visited_leave (Array.getElem?_eq_none_iff.1 hs)] at hcount
    rw [hi, hcount]

theorem counted_of_pass (hnone : t.onward? target probes (f.node, f.state) f.next = none) :
    t.Counted target probes q (.searching explored ({ f with next := f.next + 1 } :: below)) := by
  obtain ⟨hstands, hcount⟩ := h
  refine ⟨hstands.advanced (f.next + 1), ?_⟩
  have hnowhere : t.arrive? target probes (.root, q) (route (f :: below) ++ [f.next]) = none := by
    rw [arrive?_concat, hstands.arrive?_route]
    exact hnone
  rw [route_advanced, visited_succ_of_none hnowhere, hcount]

theorem counted_of_enter {c : NodeId} {q' : Q}
    (hc : t.onward? target probes (f.node, f.state) f.next = some (c, q')) :
    t.Counted target probes q (.searching (explored + 1)
      (⟨q', c, some f.next, 0⟩ :: { f with next := f.next + 1 } :: below)) := by
  obtain ⟨hstands, hcount⟩ := h
  have hentered := Stands.opened 0 (hstands.advanced (f.next + 1)) rfl hc
  refine ⟨hentered, ?_⟩
  have harrives := Option.isSome_of_eq_some hentered.arrive?_route
  rw [route_opened, route_advanced] at harrives ⊢
  -- the places counted so far stand before the route, so the one entered is not among them
  have hnew : route (f :: below) ++ [f.next] ∉
      t.Visited target probes (.root, q) (route (f :: below) ++ [f.next]) :=
    fun hvisited => Std.Irrefl.irrefl (r := List.Lex (· < ·)) _ hvisited.1
  rw [visited_enter harrives, Set.encard_insert_of_notMem hnew, hcount]
  rfl

end Stack

theorem counted_turn {q : Q} {progress : Progress Q} (h : t.Counted target probes q progress) :
    t.Counted target probes q (t.turn target probes skipUndefined progress) := by
  match progress with
  | .answered answer => exact h
  | .searching explored [] => exact trivial
  | .searching explored (f :: below) =>
    rw [turn]
    cases hs : probes[f.next]? with
    | none => exact counted_of_leave h hs
    | some s =>
      simp only
      cases hc : t.successor? f.node s with
      | none => exact counted_of_pass h (by simp [onward?, turn?, hs, hc])
      | some c =>
        simp only
        cases hstep : target.step? f.state s with
        | none =>
          simp only
          split
          · exact counted_of_stop h hs true
          · exact counted_of_pass h (by simp [onward?, turn?, hs, hc, hstep])
        | some q' =>
          simp only
          split
          · exact counted_of_stop h hs false
          · exact counted_of_enter h (onward?_eq_some_iff.2 ⟨s, hs, hc, hstep⟩)

theorem counted_outset (t : Tree σ P) (target : Acceptor σ Q) (probes : Array σ) (q : Q) :
    t.Counted target probes q (t.outset target q) := by
  rw [outset]
  split
  · exact trivial
  · refine ⟨.root 0, ?_⟩
    change (t.Visited target probes _ [0]).encard = _
    rw [visited_start, Set.encard_singleton]
    rfl

theorem counted_turns (t : Tree σ P) (target : Acceptor σ Q) (probes : Array σ)
    (skipUndefined : Bool) (q : Q) (n : Nat) :
    t.Counted target probes q ((t.turn target probes skipUndefined)^[n] (t.outset target q)) := by
  induction n with
  | zero => exact counted_outset t target probes q
  | succ n ih =>
    rw [Function.iterate_succ_apply']
    exact counted_turn ih

theorem exists_turns_separation {q : Q} (hq : target.start? = some q) (ht : t.WellFormed)
    (probes : Array σ) (skipUndefined : Bool) :
    ∃ n, (t.turn target probes skipUndefined)^[n] (t.outset target q) =
      .answered (t.separation? target probes skipUndefined) := by
  simp only [outset, separation?, hq]
  split
  · exact ⟨0, rfl⟩
  · exact exists_turns_searchFrom target probes skipUndefined ht 1 _

end Tree
end MembershipCache
