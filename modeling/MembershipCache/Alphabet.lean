import Std.Data.HashMap
import MembershipCache.Word

/-! Growable alphabets. A symbol is registered once, under the next free index, and keeps it: the
indices in use are always `0, ..., size - 1`. The array answers from index to symbol, the hash map
from symbol to index, and `positions_eq` ties the two. -/
namespace MembershipCache
universe u

structure Alphabet (σ : Type u) [DecidableEq σ] [Hashable σ] where
  symbols : Array σ
  positions : Std.HashMap σ Nat
  positions_eq : ∀ (s : σ) (i : Nat), positions[s]? = some i ↔ symbols[i]? = some s

namespace Alphabet
variable {σ : Type u} [DecidableEq σ] [Hashable σ]

def empty : Alphabet σ where
  symbols := #[]
  positions := ∅
  positions_eq := by simp

instance : Inhabited (Alphabet σ) := ⟨empty⟩

def size (a : Alphabet σ) : Nat := a.symbols.size

def isEmpty (a : Alphabet σ) : Bool := a.symbols.isEmpty

def toList (a : Alphabet σ) : List σ := a.symbols.toList

def index? (a : Alphabet σ) (s : σ) : Option Nat := a.positions[s]?

def symbol? (a : Alphabet σ) (i : Nat) : Option σ := a.symbols[i]?

def contains (a : Alphabet σ) (s : σ) : Bool := a.positions.contains s

theorem index?_eq_some_iff {a : Alphabet σ} {s : σ} {i : Nat} :
    a.index? s = some i ↔ a.symbol? i = some s := a.positions_eq s i

theorem symbol?_eq_getElem? (a : Alphabet σ) (i : Nat) : a.symbol? i = a.toList[i]? := by
  simp [symbol?, toList]

theorem lt_size_of_index? {a : Alphabet σ} {s : σ} {i : Nat} (h : a.index? s = some i) :
    i < a.size := (Array.getElem?_eq_some_iff.1 (index?_eq_some_iff.1 h)).1

theorem contains_eq_isSome (a : Alphabet σ) (s : σ) : a.contains s = (a.index? s).isSome := by
  simp [contains, index?]

theorem nodup_toList (a : Alphabet σ) : a.toList.Nodup := by
  rw [List.nodup_iff_pairwise_ne, List.pairwise_iff_getElem]
  intro i j hi hj hij heq
  have index_at : ∀ k, (hk : k < a.toList.length) → a.index? a.toList[k] = some k := by
    intro k hk
    rw [index?_eq_some_iff, symbol?_eq_getElem?, List.getElem?_eq_getElem hk]
  have h := index_at i hi
  rw [heq, index_at j hj] at h
  exact absurd (Option.some.inj h) (Nat.ne_of_gt hij)

theorem index?_eq_idxOf? (a : Alphabet σ) (s : σ) : a.index? s = a.toList.idxOf? s := by
  apply Option.ext
  intro i
  rw [index?_eq_some_iff, symbol?_eq_getElem?, List.idxOf?_eq_some_iff]
  constructor
  · intro h
    obtain ⟨hi, rfl⟩ := List.getElem?_eq_some_iff.1 h
    refine ⟨hi, rfl, fun j hj heq => ?_⟩
    have distinct := List.pairwise_iff_getElem.1 (List.nodup_iff_pairwise_ne.1 a.nodup_toList)
    exact distinct j i (Nat.lt_trans hj hi) hi hj heq
  · rintro ⟨hi, rfl, _⟩
    exact List.getElem?_eq_getElem hi

theorem contains_eq_contains_toList (a : Alphabet σ) (s : σ) :
    a.contains s = a.toList.contains s := by
  rw [contains_eq_isSome, index?_eq_idxOf?, Bool.eq_iff_iff, List.isSome_idxOf?,
    List.contains_iff_mem]

/-- The alphabet with `s` in it, and the index of `s`: the old one if `s` was there already, the
old size if it is new. -/
def add (a : Alphabet σ) (s : σ) : Alphabet σ × Nat :=
  match h : a.positions[s]? with
  | some i => (a, i)
  | none =>
    let i := a.symbols.size
    ({ symbols := a.symbols.push s
       positions := a.positions.insert s i
       positions_eq := by
        intro r j
        have hr := a.positions_eq r j
        have fresh := a.positions_eq s j
        rw [Std.HashMap.getElem?_insert, Array.getElem?_push]
        grind }, i)

theorem add_of_index? {a : Alphabet σ} {s : σ} {i : Nat} (h : a.index? s = some i) :
    a.add s = (a, i) := by
  unfold index? at h
  unfold add
  split <;> simp_all

theorem toList_add (a : Alphabet σ) (s : σ) :
    (a.add s).1.toList = if a.contains s then a.toList else a.toList ++ [s] := by
  have h := a.contains_eq_isSome s
  unfold index? at h
  rw [h]
  unfold add
  split <;> simp_all [toList]

def ofList (ss : List σ) : Alphabet σ := ss.foldl (fun a s => (a.add s).1) empty

theorem toList_ofList (ss : List σ) :
    (ofList ss).toList = ss.foldl (fun l s => if l.contains s then l else l ++ [s]) [] := by
  suffices ∀ a : Alphabet σ, (ss.foldl (fun a s => (a.add s).1) a).toList =
      ss.foldl (fun l s => if l.contains s then l else l ++ [s]) a.toList from this empty
  induction ss with
  | nil => intro a; rfl
  | cons s ss ih =>
    intro a
    rw [List.foldl_cons, ih, List.foldl_cons, toList_add, contains_eq_contains_toList]

def addAll (a : Alphabet σ) : List σ → Alphabet σ × List Nat
  | [] => (a, [])
  | s :: ss =>
    let (b, i) := a.add s
    let (c, is) := b.addAll ss
    (c, i :: is)

/-- The characters from `first` to `last`, both included. The code points of surrogates among them
are no characters. -/
def characters (first last : Char) : List Char :=
  ((List.range' first.toNat (last.toNat + 1 - first.toNat)).filter fun n =>
    n < 0xd800 || 0xdfff < n).map Char.ofNat

/-- The index of every symbol of a word, or the first symbol that has none. -/
def indices (a : Alphabet σ) : Word σ → Except σ (List Nat)
  | [] => .ok []
  | s :: w =>
    match a.index? s with
    | none => .error s
    | some i => (a.indices w).map (i :: ·)

end Alphabet
end MembershipCache
