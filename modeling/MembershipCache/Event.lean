import MembershipCache.NodeId
import MembershipCache.Verdict

/-! What a cache reports while it works. Each event is written as a level, a message and named
fields. -/
namespace MembershipCache

inductive Event where
  | created (parent child : NodeId) (index : Nat)
  | widened (before after visited : Nat)
  | rejected (length : Nat) (existing attempted : Verdict)
  | overwrote (length : Nat) (existing incoming : Verdict) (stored origin : Provenance)
  | kept (length : Nat) (existing : Verdict) (origin : Provenance)
  | separatedAtRoot
  | separatedAtUndefined (length explored : Nat)
  | separated (length explored : Nat)
  deriving DecidableEq, Repr

namespace Event

inductive Level where
  | trace | debug
  deriving DecidableEq, Repr

inductive Value where
  | number (n : Nat)
  | text (s : String)
  deriving DecidableEq, Repr

def Level.name : Level → String
  | .trace => "TRACE"
  | .debug => "DEBUG"

def level : Event → Level
  | created .. | widened .. => .trace
  | _ => .debug

def message : Event → String
  | created .. => "created node"
  | widened .. => "widened tree for new symbol"
  | rejected .. => "conflicting insert rejected"
  | overwrote .. => "overwrote committed acceptance"
  | kept .. => "kept user-asserted acceptance"
  | separatedAtRoot => "separating word found at root"
  | separatedAtUndefined .. => "separating word found at undefined transition"
  | separated .. => "separating word found"

def fields : Event → List (String × Value)
  | created parent child index =>
    [("parent", .number parent.position), ("child", .number child.position),
      ("symbol_index", .number index)]
  | widened before after visited =>
    [("old_size", .number before), ("new_size", .number after), ("widened", .number visited)]
  | rejected length existing attempted =>
    [("len", .number length), ("existing", .text existing.name),
      ("attempted", .text attempted.name)]
  | overwrote length existing incoming stored origin =>
    [("len", .number length), ("existing", .text existing.name), ("incoming", .text incoming.name),
      ("stored_origin", .text stored.label), ("origin", .text origin.label)]
  | kept length existing origin =>
    [("len", .number length), ("existing", .text existing.name), ("origin", .text origin.label)]
  | separatedAtRoot => [("len", .number 0)]
  | separatedAtUndefined length explored | separated length explored =>
    [("len", .number length), ("explored", .number explored)]

end Event
end MembershipCache
