import Std.Data.HashMap
import MembershipCache.NodeId
import MembershipCache.Word

/-! Which node was refreshed longest ago. Every entry holds the word that last wrote to its node and
stands in a chain from the oldest to the newest; it knows its two neighbours, so that refreshing and
removing take a bounded number of steps wherever it stands. -/
namespace MembershipCache
universe u

structure Recency.Entry (σ : Type u) where
  word : Word σ
  older? : Option NodeId
  newer? : Option NodeId

structure Recency (σ : Type u) where
  entries : Std.HashMap NodeId (Recency.Entry σ)
  oldest? : Option NodeId
  newest? : Option NodeId

namespace Recency
variable {σ : Type u}

def empty : Recency σ := ⟨∅, none, none⟩

instance : Inhabited (Recency σ) := ⟨empty⟩

def size (r : Recency σ) : Nat := r.entries.size

def isEmpty (r : Recency σ) : Bool := r.entries.isEmpty

def contains (r : Recency σ) (id : NodeId) : Bool := r.entries.contains id

def wordOf? (r : Recency σ) (id : NodeId) : Option (Word σ) := r.entries[id]?.map (·.word)

def oldestWord? (r : Recency σ) : Option (Word σ) := r.oldest?.bind r.wordOf?

/-- Makes `next?` the newer neighbour of an entry, or the oldest of the chain if there is no such
entry. -/
def linkNewer (r : Recency σ) (id? next? : Option NodeId) : Recency σ :=
  match id?.bind fun id => r.entries[id]?.map (id, ·) with
  | some (id, e) => { r with entries := r.entries.insert id { e with newer? := next? } }
  | none => { r with oldest? := next? }

def linkOlder (r : Recency σ) (id? previous? : Option NodeId) : Recency σ :=
  match id?.bind fun id => r.entries[id]?.map (id, ·) with
  | some (id, e) => { r with entries := r.entries.insert id { e with older? := previous? } }
  | none => { r with newest? := previous? }

def remove (r : Recency σ) (id : NodeId) : Recency σ × Option (Word σ) :=
  match r.entries[id]? with
  | none => (r, none)
  | some e =>
    let rest : Recency σ := { r with entries := r.entries.erase id }
    ((rest.linkNewer e.older? e.newer?).linkOlder e.newer? e.older?, some e.word)

/-- A word has just written to a node, which thereby becomes the newest. -/
def touch (r : Recency σ) (id : NodeId) (w : Word σ) : Recency σ :=
  let rest := (r.remove id).1
  let last? := rest.newest?
  let linked := rest.linkNewer last? (some id)
  { linked with entries := linked.entries.insert id ⟨w, last?, none⟩, newest? := some id }

def chain (r : Recency σ) : Nat → Option NodeId → List (NodeId × Word σ)
  | 0, _ | _, none => []
  | steps + 1, some id =>
    match r.entries[id]? with
    | none => []
    | some e => (id, e.word) :: r.chain steps e.newer?

/-- The nodes with their words, from oldest to newest. No chain is longer than the entries
are many. -/
def toList (r : Recency σ) : List (NodeId × Word σ) := r.chain r.size r.oldest?

def removeAll (r : Recency σ) : List NodeId → Recency σ × Nat
  | [] => (r, 0)
  | id :: ids =>
    let (rest, word?) := r.remove id
    let (rest, count) := rest.removeAll ids
    (rest, if word?.isSome then count + 1 else count)

end Recency
end MembershipCache
