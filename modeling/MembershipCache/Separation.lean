import MembershipCache.Event
import MembershipCache.Tree.Basic
import MembershipCache.TransitionSystem

/-! Search for a word on which an acceptor contradicts a tree: one whose verdict is committed in the
tree to the opposite of the acceptor's answer.

The search is depth first over the nodes of the tree. It tries the probe symbols in their order at
every node, follows only edges that exist, and stops at the first contradiction. A step that the
acceptor does not define is skipped on request; otherwise it counts as a rejection of the word it
completes, and nothing below it is tried. -/
namespace MembershipCache
universe u v w

inductive Separation where
  | withoutStart
  | atRoot
  /-- A word given by the positions of its symbols among the probes; the count of search frames up
  to then, the root's included; and whether the last step is undefined. -/
  | along (positions : List Nat) (explored : Nat) (undefined : Bool)
  deriving DecidableEq, Repr

namespace Separation

def word {σ : Type u} (probes : Array σ) : Separation → Word σ
  | withoutStart | atRoot => []
  | along positions _ _ => positions.filterMap (probes[·]?)

def events : Separation → List Event
  | withoutStart => []
  | atRoot => [.separatedAtRoot]
  | along positions explored true => [.separatedAtUndefined positions.length explored]
  | along positions explored false => [.separated positions.length explored]

structure Frame (Q : Type w) where
  state : Q
  node : NodeId
  incoming? : Option Nat
  next : Nat

def path {Q : Type w} (stack : List (Frame Q)) (last : Nat) : List Nat :=
  stack.reverse.filterMap Frame.incoming? ++ [last]

end Separation

namespace Tree
open Separation
variable {σ : Type u} {P : Type v} {Q : Type w} [DecidableEq σ] [Hashable σ]

/-- Bounds the turns still to come from a frame: it has one for every probe left, and each may open
a frame for a later node. -/
def turnBound (probes size : Nat) (f : Frame Q) : Nat :=
  (probes - f.next + 1) * levelBound (probes + 1) (size - f.node.position)

theorem turnBound_pos (probes size : Nat) (f : Frame Q) : 0 < turnBound probes size f :=
  Nat.mul_pos (Nat.succ_pos _) (levelBound_pos _ _)

theorem turnBound_advance {probes : Nat} (size : Nat) {f : Frame Q} (h : f.next < probes) :
    turnBound probes size { f with next := f.next + 1 } < turnBound probes size f :=
  Nat.mul_lt_mul_of_pos_right (by simp only; omega) (levelBound_pos _ _)

theorem turnBound_open {probes size : Nat} {f : Frame Q} (state : Q) {child : NodeId}
    (h : f.next < probes) (hsize : f.node.position < size)
    (hchild : f.node.position < child.position) :
    turnBound probes size ⟨state, child, some f.next, 0⟩ +
        turnBound probes size { f with next := f.next + 1 } < turnBound probes size f := by
  have hlow : levelBound (probes + 1) (size - child.position) * (probes + 1 + 1) ≤
      levelBound (probes + 1) (size - f.node.position) := by
    exact levelBound_mono (probes + 1) (Nat.succ_le_of_lt (Nat.sub_lt_sub_left hsize hchild))
  have hpos := levelBound_pos (probes + 1) (size - child.position)
  have hturn : probes - f.next + 1 = (probes - (f.next + 1) + 1) + 1 := by omega
  simp only [turnBound, Nat.sub_zero, hturn]
  rw [Nat.add_mul (probes - (f.next + 1) + 1) 1, Nat.one_mul]
  rw [Nat.mul_add, Nat.mul_one, Nat.mul_comm] at hlow
  omega

/-- Works off the stack of frames, innermost first. Only edges to later nodes are followed, so that
the walk ends. In a tree of at most 2^32 nodes there are no others and the condition never fails:
`exists_turns_separation` takes turns without it to the same answer. In a larger one names start
over and an edge may lead back: there the plain loop, which has no such condition, follows the edge,
answers differently and need not end. -/
def searchFrom (t : Tree σ P) (target : Acceptor σ Q) (probes : Array σ) (skipUndefined : Bool)
    (explored : Nat) : List (Frame Q) → Option Separation
  | [] => none
  | frame :: below =>
    match _hs : probes[frame.next]? with
    | none => t.searchFrom target probes skipUndefined explored below
    | some s =>
      let stack := { frame with next := frame.next + 1 } :: below
      match _hc : t.successor? frame.node s with
      | none => t.searchFrom target probes skipUndefined explored stack
      | some child =>
        match target.step? frame.state s with
        | none =>
          -- a missing step rejects the word it completes, and nothing below it is tried
          if !skipUndefined && (t.verdictAt child).conflicts false then
            some (.along (path stack frame.next) explored true)
          else t.searchFrom target probes skipUndefined explored stack
        | some state =>
          if (t.verdictAt child).conflicts (target.label state) then
            some (.along (path stack frame.next) explored false)
          else if hlater : frame.node.position < child.position then
            t.searchFrom target probes skipUndefined (explored + 1)
              (⟨state, child, some frame.next, 0⟩ :: stack)
          else t.searchFrom target probes skipUndefined explored stack
termination_by stack => totalBound (turnBound probes.size t.size) stack
decreasing_by
  all_goals simp only [totalBound]
  · have := turnBound_pos probes.size t.size frame
    omega
  all_goals
    have hnext := (Array.getElem?_eq_some_iff.1 _hs).1
    have := turnBound_advance t.size hnext
  · omega
  · omega
  · have := turnBound_open state hnext (lt_size_of_successor? _hc) hlater
    omega
  · omega

def separation? (t : Tree σ P) (target : Acceptor σ Q) (probes : Array σ) (skipUndefined : Bool) :
    Option Separation :=
  match target.start? with
  | none => if skipUndefined then none else some .withoutStart
  | some state =>
    if (t.verdictAt .root).conflicts (target.label state) then some .atRoot
    else t.searchFrom target probes skipUndefined 1 [⟨state, .root, none, 0⟩]

def separatingWord? (t : Tree σ P) (target : Acceptor σ Q) (probes : Array σ)
    (skipUndefined : Bool) : Option (Word σ) :=
  (t.separation? target probes skipUndefined).map (·.word probes)

end Tree
end MembershipCache
