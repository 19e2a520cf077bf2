import MembershipCache.Proofs.Tree.Shape
import MembershipCache.Separation

/-! What the search for a contradiction finds. Below every frame of its stack stand the sequences of
positions still to come; the search stops at the first of them, in lexicographic order with
beginnings first, that leads to a contradiction. -/
namespace MembershipCache
universe u v w

namespace Tree
open Separation
variable {σ : Type u} {P : Type v} {Q : Type w} [DecidableEq σ] [Hashable σ]
variable (t : Tree σ P) (target : Acceptor σ Q) (probes : Array σ) (skipUndefined : Bool)

def turn? (id : NodeId) (q : Q) (i : Nat) : Option (NodeId × Option Q) :=
  (probes[i]?).bind fun s => (t.successor? id s).map (·, target.step? q s)

def clash? : NodeId × Option Q → Option Bool
  | (c, none) => if !skipUndefined && (t.verdictAt c).conflicts false then some true else none
  | (c, some q) => if (t.verdictAt c).conflicts (target.label q) then some false else none

/-- Whether positions lead to a contradiction. All steps but the last have to be defined. -/
def hit? (id : NodeId) (q : Q) : List Nat → Option Bool
  | [] => none
  | [i] => (t.turn? target probes id q i).bind (t.clash? target skipUndefined)
  | i :: j :: p =>
    (t.turn? target probes id q i).bind fun (c, q?) => q?.bind fun q => hit? c q (j :: p)

section Hit
variable {t target probes skipUndefined} {id c : NodeId} {q : Q} {i : Nat}

theorem turn?_of_edge {s : σ} (hs : probes[i]? = some s) (hc : t.successor? id s = some c) :
    t.turn? target probes id q i = some (c, target.step? q s) := by
  simp [turn?, hs, hc]

theorem hit?_of_no_turn (h : t.turn? target probes id q i = none) (p : List Nat) :
    t.hit? target probes skipUndefined id q (i :: p) = none := by
  cases p <;> simp [hit?, h]

theorem hit?_of_undefined (h : t.turn? target probes id q i = some (c, none))
    (hclash : t.clash? target skipUndefined (c, none) = none) (p : List Nat) :
    t.hit? target probes skipUndefined id q (i :: p) = none := by
  cases p <;> simp [hit?, h, hclash]

theorem hit?_deeper {q' : Q} (h : t.turn? target probes id q i = some (c, some q')) (j : Nat)
    (p : List Nat) : t.hit? target probes skipUndefined id q (i :: j :: p) =
      t.hit? target probes skipUndefined c q' (j :: p) := by
  rw [hit?, h]
  rfl

end Hit

def Barren (f : Frame Q) : Prop :=
  ∀ i p, f.next ≤ i → t.hit? target probes skipUndefined f.node f.state (i :: p) = none

def route (stack : List (Frame Q)) : List Nat := stack.reverse.filterMap Frame.incoming?

omit [DecidableEq σ] [Hashable σ] in
theorem route_cons (f : Frame Q) (below : List (Frame Q)) :
    route (f :: below) = route below ++ f.incoming?.toList := by
  rw [route, List.reverse_cons, List.filterMap_append, route]
  cases h : f.incoming? <;> simp [h]

/-- The first contradiction from the innermost frame that still has one. -/
def First : List (Frame Q) → List Nat → Bool → Prop
  | [], _, _ => False
  | f :: below, positions, undefined =>
    (∃ i p, f.next ≤ i ∧ positions = route (f :: below) ++ i :: p ∧
      t.hit? target probes skipUndefined f.node f.state (i :: p) = some undefined ∧
      ∀ j p', f.next ≤ j → List.Lex (· < ·) (j :: p') (i :: p) →
        t.hit? target probes skipUndefined f.node f.state (j :: p') = none) ∨
    t.Barren target probes skipUndefined f ∧ First below positions undefined

/-- What a search from a stack is to answer. -/
def Finds (stack : List (Frame Q)) : Option Separation → Prop
  | none => ∀ f ∈ stack, t.Barren target probes skipUndefined f
  | some (.along positions _ undefined) =>
    t.First target probes skipUndefined stack positions undefined
  | some .withoutStart | some .atRoot => False

section Stack
variable {t target probes skipUndefined} {f : Frame Q} {stack stack' below : List (Frame Q)}
  {answer : Option Separation}

theorem Finds.imp (hbarren : (∀ f ∈ stack, t.Barren target probes skipUndefined f) →
      ∀ f ∈ stack', t.Barren target probes skipUndefined f)
    (hfirst : ∀ p undefined, t.First target probes skipUndefined stack p undefined →
      t.First target probes skipUndefined stack' p undefined)
    (h : t.Finds target probes skipUndefined stack answer) :
    t.Finds target probes skipUndefined stack' answer := by
  cases answer with
  | none => exact hbarren h
  | some s =>
    cases s with
    | withoutStart => exact h
    | atRoot => exact h
    | along positions explored undefined => exact hfirst positions undefined h

theorem finds_of_barren (hf : t.Barren target probes skipUndefined f)
    (h : t.Finds target probes skipUndefined below answer) :
    t.Finds target probes skipUndefined (f :: below) answer :=
  h.imp (fun hbelow => List.forall_mem_cons.2 ⟨hf, hbelow⟩) fun _ _ hfirst => Or.inr ⟨hf, hfirst⟩

section Advance
variable (hnext : ∀ p, t.hit? target probes skipUndefined f.node f.state (f.next :: p) = none)
include hnext

theorem barren_of_advanced
    (h : t.Barren target probes skipUndefined { f with next := f.next + 1 }) :
    t.Barren target probes skipUndefined f := by
  intro i p hi
  by_cases hi' : i = f.next
  · rw [hi']
    exact hnext p
  · exact h i p (by simp only; omega)

theorem first_of_advanced {positions : List Nat} {undefined : Bool}
    (h : t.First target probes skipUndefined ({ f with next := f.next + 1 } :: below) positions
      undefined) : t.First target probes skipUndefined (f :: below) positions undefined := by
  rcases h with ⟨i, p, hi, hpositions, hhit, hleast⟩ | ⟨hf, hbelow⟩
  · rw [route_cons] at hpositions
    refine Or.inl ⟨i, p, Nat.le_of_succ_le hi, by rw [route_cons, hpositions], hhit, ?_⟩
    intro j p' hj hlex
    by_cases hj' : j = f.next
    · rw [hj']
      exact hnext p'
    · exact hleast j p' (by simp only; omega) hlex
  · exact Or.inr ⟨barren_of_advanced hnext hf, hbelow⟩

theorem finds_of_advanced
    (h : t.Finds target probes skipUndefined ({ f with next := f.next + 1 } :: below) answer) :
    t.Finds target probes skipUndefined (f :: below) answer := by
  refine h.imp ?_ fun _ _ => first_of_advanced hnext
  intro hall
  obtain ⟨hf, hbelow⟩ := List.forall_mem_cons.1 hall
  exact List.forall_mem_cons.2 ⟨barren_of_advanced hnext hf, hbelow⟩

end Advance

theorem finds_next {explored : Nat} {undefined : Bool}
    (h : t.hit? target probes skipUndefined f.node f.state [f.next] = some undefined) :
    t.Finds target probes skipUndefined (f :: below)
      (some (.along (path ({ f with next := f.next + 1 } :: below) f.next) explored undefined)) := by
  refine Or.inl ⟨f.next, [], Nat.le_refl _, ?_, h, ?_⟩
  · change route _ ++ _ = _
    rw [route_cons, route_cons]
  · intro j p' hj hlex
    cases hlex with
    | rel hlt => omega
    | cons hnil => cases hnil

section Child
variable {c : NodeId} {q : Q} (hturn : t.turn? target probes f.node f.state f.next = some (c, some q))
  (hclash : t.clash? target skipUndefined (c, some q) = none)
include hturn hclash

theorem hit?_next_of_barren_child
    (h : t.Barren target probes skipUndefined ⟨q, c, some f.next, 0⟩) (p : List Nat) :
    t.hit? target probes skipUndefined f.node f.state (f.next :: p) = none := by
  cases p with
  | nil =>
    rw [hit?, hturn]
    exact hclash
  | cons j p =>
    rw [hit?_deeper hturn]
    exact h j p (Nat.zero_le j)

theorem first_of_child {positions : List Nat} {undefined : Bool}
    (h : t.First target probes skipUndefined
      (⟨q, c, some f.next, 0⟩ :: { f with next := f.next + 1 } :: below) positions undefined) :
    t.First target probes skipUndefined (f :: below) positions undefined := by
  rcases h with ⟨i, p, _, hpositions, hhit, hleast⟩ | ⟨hchild, hrest⟩
  · refine Or.inl ⟨f.next, i :: p, Nat.le_refl _, ?_, ?_, ?_⟩
    · rw [hpositions, route_cons, route_cons, route_cons]
      simp
    · rw [hit?_deeper hturn]
      exact hhit
    · intro j p' hj hlex
      cases hlex with
      | rel hlt => omega
      | cons hlex =>
        cases p' with
        | nil =>
          rw [hit?, hturn]
          exact hclash
        | cons j' p' =>
          rw [hit?_deeper hturn]
          exact hleast j' p' (Nat.zero_le j') hlex
  · exact first_of_advanced (hit?_next_of_barren_child hturn hclash hchild) hrest

theorem finds_of_child (h : t.Finds target probes skipUndefined
      (⟨q, c, some f.next, 0⟩ :: { f with next := f.next + 1 } :: below) answer) :
    t.Finds target probes skipUndefined (f :: below) answer := by
  refine h.imp ?_ fun _ _ => first_of_child hturn hclash
  intro hall
  obtain ⟨hchild, hrest⟩ := List.forall_mem_cons.1 hall
  obtain ⟨hf, hbelow⟩ := List.forall_mem_cons.1 hrest
  have hpassed := hit?_next_of_barren_child hturn hclash hchild
  exact List.forall_mem_cons.2 ⟨barren_of_advanced hpassed hf, hbelow⟩

end Child

end Stack

theorem hit?_of_finds_start {t : Tree σ P} {target : Acceptor σ Q} {probes : Array σ}
    {skipUndefined : Bool} {id : NodeId} {q : Q} {s : Separation}
    (h : t.Finds target probes skipUndefined [⟨q, id, none, 0⟩] (some s)) :
    ∃ p explored undefined, s = .along p explored undefined ∧
      t.hit? target probes skipUndefined id q p = some undefined ∧
      ∀ p', List.Lex (· < ·) p' p → t.hit? target probes skipUndefined id q p' = none := by
  cases s with
  | withoutStart => exact h.elim
  | atRoot => exact h.elim
  | along positions explored undefined =>
    rcases h with ⟨i, p, _, hpositions, hhit, hleast⟩ | ⟨_, hbelow⟩
    · refine ⟨positions, explored, undefined, rfl, ?_, ?_⟩
      · rw [hpositions]
        exact hhit
      · intro p' hlex
        rw [hpositions] at hlex
        cases p' with
        | nil => rfl
        | cons j p' => exact hleast j p' (Nat.zero_le j) hlex
    · exact hbelow.elim

/-- Edges lead to later nodes only, so the search leaves none out. -/
theorem searchFrom_finds {t : Tree σ P} (ht : t.WellFormed) (explored : Nat)
    (stack : List (Frame Q)) :
    t.Finds target probes skipUndefined stack
      (t.searchFrom target probes skipUndefined explored stack) := by
  fun_induction t.searchFrom target probes skipUndefined explored stack with
  | case1 explored => simp [Finds]
  | case2 explored f below hs ih =>
    refine finds_of_barren (fun i p hi => hit?_of_no_turn ?_ p) ih
    have hi : probes[i]? = none := by
      rw [Array.getElem?_eq_none_iff] at hs ⊢
      omega
    simp [turn?, hi]
  | case3 explored f below s hs stack hc ih =>
    refine finds_of_advanced (hit?_of_no_turn ?_) ih
    simp [turn?, hs, hc]
  | case4 explored f below s hs stack child hc hstep hclash =>
    apply finds_next
    rw [hit?, turn?_of_edge hs hc, hstep]
    simp [clash?, hclash]
  | case5 explored f below s hs stack child hc hstep hclash ih =>
    have hturn : t.turn? target probes f.node f.state f.next = some (child, none) := by
      rw [turn?_of_edge hs hc, hstep]
    refine finds_of_advanced (hit?_of_undefined hturn ?_) ih
    rw [clash?, if_neg hclash]
  | case6 explored f below s hs stack child hc state hstep hclash =>
    apply finds_next
    rw [hit?, turn?_of_edge hs hc, hstep]
    simp [clash?, hclash]
  | case7 explored f below s hs stack child hc state hstep hclash hlater ih =>
    have hturn : t.turn? target probes f.node f.state f.next = some (child, some state) := by
      rw [turn?_of_edge hs hc, hstep]
    refine finds_of_child hturn ?_ ih
    rw [clash?, if_neg hclash]
  | case8 explored f below s hs stack child hc state hstep hclash hlater ih =>
    -- the guard against earlier nodes never stops anything in a tree
    exact absurd (ht.successor_later hc) hlater

end Tree
end MembershipCache
