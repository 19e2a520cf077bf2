import MembershipCache.Recency
import MembershipCache.Refusal
import MembershipCache.Tree.Growth
import MembershipCache.Tree.View

/-! The cache for sources that may err or drift. A verdict may be replaced by a differing one,
unless a user asserted it and the new one comes from the oracle. Every insert that reaches a node
refreshes it, whatever becomes of the verdict, so the oldest entry is the word that has gone longest
without being observed. -/
namespace MembershipCache
universe u

structure Revisable (σ : Type u) [DecidableEq σ] [Hashable σ] where
  tree : Tree σ Provenance
  recency : Recency σ

namespace Revisable
variable {σ : Type u} [DecidableEq σ] [Hashable σ]

def new (alphabet : Alphabet σ) (settings : Settings) : Revisable σ :=
  ⟨.new alphabet settings, .empty⟩

/-- Asserts a verdict for a word. The answer tells whether a differing verdict was replaced. -/
def insertAs (c : Revisable σ) (w : Word σ) (accepted : Bool) (origin : Provenance) :
    Reply (Revisable σ) (Except (Refusal σ) Bool) :=
  match c.tree.enter w with
  | .error s => ⟨.error (.unknownSymbol s), c, []⟩
  | .ok descent =>
    let existing := descent.tree.verdictAt descent.node
    let incoming := Verdict.ofBool accepted
    let stored := descent.tree.tagAt descent.node
    -- an observation counts as one even where the verdict stays
    let recency := c.recency.touch descent.node w
    let written := descent.tree.modify descent.node fun n => (n.setVerdict incoming).setTag origin
    if existing = .unknown then ⟨.ok false, ⟨written, recency⟩, descent.events⟩
    else if existing = incoming then ⟨.ok false, ⟨descent.tree, recency⟩, descent.events⟩
    else if stored.givesWayTo origin then
      ⟨.ok true, ⟨written, recency⟩,
        descent.events ++ [.overwrote w.length existing incoming stored origin]⟩
    else
      ⟨.ok false, ⟨descent.tree, recency⟩,
        descent.events ++ [.kept w.length existing origin]⟩

def insert (c : Revisable σ) (w : Word σ) (accepted : Bool) :
    Reply (Revisable σ) (Except (Refusal σ) Bool) := c.insertAs w accepted .oracle

def insertFromUser (c : Revisable σ) (w : Word σ) (accepted : Bool) :
    Reply (Revisable σ) (Except (Refusal σ) Bool) := c.insertAs w accepted .user

def addSymbol (c : Revisable σ) (s : σ) : Reply (Revisable σ) Bool :=
  (c.tree.addSymbol s).within fun tree => { c with tree }

def ages (c : Revisable σ) : List (NodeId × Word σ) := c.recency.toList

def oldestInput? (c : Revisable σ) : Option (Word σ) := c.recency.oldestWord?

def originOf? (c : Revisable σ) (w : Word σ) : Option Provenance := do
  let n ← c.tree.node? (← c.tree.nodeOf? w)
  if n.verdict.isKnown then some n.tag else none

/-- Forgets the age of a node and of everything below it, and answers how many ages that were. The
verdicts stay. -/
def retire (c : Revisable σ) (id : NodeId) : Revisable σ × Nat :=
  match c.tree.node? id with
  | none => (c, 0)
  | some _ =>
    let (recency, count) := c.recency.removeAll (c.tree.breadthFirst [id])
    ({ c with recency }, count)

end Revisable
end MembershipCache
