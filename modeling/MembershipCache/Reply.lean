import MembershipCache.Event

/-! The outcome of a call that may change a cache: the answer, the cache afterwards, and what was
reported on the way. A refused call has an afterwards too. -/
namespace MembershipCache
universe u v w

structure Reply (γ : Type u) (α : Type v) where
  answer : α
  state : γ
  events : List Event

namespace Reply
variable {γ : Type u} {δ : Type w} {ε α : Type v} {β : Type v}

def within (r : Reply γ α) (f : γ → δ) : Reply δ α := ⟨r.answer, f r.state, r.events⟩

/-- Calls one after the other, up to and with the first one that is refused. -/
def untilRefused (call : γ → β → Reply γ (Except ε α)) (state : γ) :
    List β → Reply γ (List (Except ε α))
  | [] => ⟨[], state, []⟩
  | b :: bs =>
    let first := call state b
    match first.answer with
    | .error _ => ⟨[first.answer], first.state, first.events⟩
    | .ok _ =>
      let rest := untilRefused call first.state bs
      ⟨first.answer :: rest.answer, rest.state, first.events ++ rest.events⟩

end Reply
end MembershipCache
