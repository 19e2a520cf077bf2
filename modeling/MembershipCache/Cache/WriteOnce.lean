import MembershipCache.Refusal
import MembershipCache.Tree.Growth

/-! The cache for sources that never contradict themselves. A verdict once committed stays: the same
verdict again changes nothing, and the opposite one is refused. -/
namespace MembershipCache
universe u

structure WriteOnce (σ : Type u) [DecidableEq σ] [Hashable σ] where
  tree : Tree σ Unit

namespace WriteOnce
variable {σ : Type u} [DecidableEq σ] [Hashable σ]

def new (alphabet : Alphabet σ) (settings : Settings) : WriteOnce σ :=
  ⟨.new alphabet settings⟩

def insert (c : WriteOnce σ) (w : Word σ) (accepted : Bool) :
    Reply (WriteOnce σ) (Except (Refusal σ) Unit) :=
  match c.tree.enter w with
  | .error s => ⟨.error (.unknownSymbol s), c, []⟩
  | .ok descent =>
    let existing := descent.tree.verdictAt descent.node
    let attempted := Verdict.ofBool accepted
    if existing = .unknown then
      ⟨.ok (), ⟨descent.tree.modify descent.node (·.setVerdict attempted)⟩, descent.events⟩
    else if existing = attempted then ⟨.ok (), ⟨descent.tree⟩, descent.events⟩
    else
      ⟨.error (.conflict w existing attempted), ⟨descent.tree⟩,
        descent.events ++ [.rejected w.length existing attempted]⟩

def insertAccepted (c : WriteOnce σ) (w : Word σ) :
    Reply (WriteOnce σ) (Except (Refusal σ) Unit) := c.insert w true

def addSymbol (c : WriteOnce σ) (s : σ) : Reply (WriteOnce σ) Bool :=
  (c.tree.addSymbol s).within fun tree => ⟨tree⟩

end WriteOnce
end MembershipCache
