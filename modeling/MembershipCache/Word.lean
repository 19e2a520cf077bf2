/-! Input words. A word is the list of its symbols; the empty word stands at the root of a cache.
Words are ordered by `compare` on lists: symbol by symbol, a proper beginning first. -/
namespace MembershipCache
universe u

abbrev Word (σ : Type u) := List σ

namespace Word
variable {σ : Type u}

def empty : Word σ := []

/-- All beginnings of a word, shortest first, from the empty word up to the word itself. -/
def prefixes : Word σ → List (Word σ)
  | [] => [[]]
  | s :: w => [] :: (prefixes w).map (s :: ·)

theorem mem_prefixes {p w : Word σ} : p ∈ prefixes w ↔ p <+: w := by
  induction w generalizing p with
  | nil => simp [prefixes]
  | cons s w ih => cases p with
    | nil => simp [prefixes]
    | cons r p => grind [prefixes]

def sorted [Ord σ] (ws : List (Word σ)) : List (Word σ) :=
  ws.mergeSort fun v w => (compare v w).isLE

def distinct [BEq σ] (ws : List (Word σ)) : List (Word σ) := ws.eraseDups

end Word
end MembershipCache
