import Mathlib.Data.List.Induction
import MembershipCache.Alphabet

/-! Words against an alphabet. A word is turned into indices as a whole or not at all, and what
stops it is its first symbol that is not registered. -/
namespace MembershipCache
universe u

namespace Alphabet
variable {σ : Type u} [DecidableEq σ] [Hashable σ]

theorem index?_eq_none_iff {a : Alphabet σ} {s : σ} : a.index? s = none ↔ s ∉ a.toList := by
  rw [index?_eq_idxOf?, List.idxOf?_eq_none_iff]

theorem indices_cons_ok {a : Alphabet σ} {s : σ} {w : Word σ} {path : List Nat}
    (h : a.indices (s :: w) = .ok path) :
    ∃ i rest, a.index? s = some i ∧ a.indices w = .ok rest ∧ path = i :: rest := by
  cases hs : a.index? s with
  | none => simp [indices, hs] at h
  | some i =>
    cases hw : a.indices w with
    | error r => simp [indices, hs, hw, Except.map] at h
    | ok rest =>
      simp only [indices, hs, hw, Except.map] at h
      cases h
      exact ⟨i, rest, rfl, rfl, rfl⟩

theorem indices_concat_ok {a : Alphabet σ} {s : σ} {w : Word σ} {path : List Nat}
    (h : a.indices (w ++ [s]) = .ok path) :
    ∃ rest i, a.indices w = .ok rest ∧ a.index? s = some i ∧ path = rest ++ [i] := by
  induction w generalizing path with
  | nil =>
    obtain ⟨i, rest, hs, hrest, rfl⟩ := indices_cons_ok h
    cases hrest
    exact ⟨[], i, rfl, hs, rfl⟩
  | cons r w ih =>
    obtain ⟨j, path, hr, hpath, rfl⟩ := indices_cons_ok h
    obtain ⟨rest, i, hw, hs, rfl⟩ := ih hpath
    refine ⟨j :: rest, i, ?_, hs, rfl⟩
    rw [indices, hr]
    simp only [hw, Except.map]

theorem lt_size_of_indices {a : Alphabet σ} {w : Word σ} {path : List Nat}
    (h : a.indices w = .ok path) : ∀ i ∈ path, i < a.size := by
  induction w generalizing path with
  | nil =>
    cases h
    simp
  | cons s w ih =>
    obtain ⟨i, rest, hs, hw, rfl⟩ := indices_cons_ok h
    intro j hj
    cases List.mem_cons.1 hj with
    | inl heq =>
      rw [heq]
      exact lt_size_of_index? hs
    | inr hrest => exact ih hw j hrest

theorem length_indices {a : Alphabet σ} {w : Word σ} {path : List Nat}
    (h : a.indices w = .ok path) : path.length = w.length := by
  induction w generalizing path with
  | nil =>
    cases h
    rfl
  | cons s w ih =>
    obtain ⟨i, rest, _, hw, rfl⟩ := indices_cons_ok h
    rw [List.length_cons, List.length_cons, ih hw]

theorem indices_eq_error_iff {a : Alphabet σ} {w : Word σ} {s : σ} :
    a.indices w = .error s ↔ w.find? (· ∉ a.toList) = some s := by
  induction w with
  | nil => simp [indices]
  | cons r w ih =>
    cases hr : a.index? r with
    | none =>
      have hnew := index?_eq_none_iff.1 hr
      simp [indices, hr, hnew]
    | some i =>
      have hold : ¬ r ∉ a.toList := by
        rw [← index?_eq_none_iff, hr]
        simp
      rw [List.find?_cons_of_neg (by simpa using hold), ← ih]
      cases hw : a.indices w <;> simp [indices, hr, hw, Except.map]

theorem size_eq_length (a : Alphabet σ) : a.size = a.toList.length := by
  simp [size, toList]

theorem prefix_add (a : Alphabet σ) (s : σ) : a.toList <+: (a.add s).1.toList := by
  rw [toList_add]
  split
  · exact List.prefix_refl _
  · exact List.prefix_append _ _

theorem toList_add_of_notMem {a : Alphabet σ} {s : σ} (h : s ∉ a.toList) :
    (a.add s).1.toList = a.toList ++ [s] := by
  rw [toList_add, if_neg]
  rwa [contains_eq_contains_toList, List.contains_iff_mem]

theorem size_add_of_notMem {a : Alphabet σ} {s : σ} (h : s ∉ a.toList) :
    (a.add s).1.size = a.size + 1 := by
  rw [size_eq_length, toList_add_of_notMem h, List.length_append, List.length_singleton,
    ← size_eq_length]

theorem index?_add_of_notMem {a : Alphabet σ} {s : σ} (h : s ∉ a.toList) :
    (a.add s).1.index? s = some a.size := by
  rw [index?_eq_some_iff, symbol?_eq_getElem?, toList_add_of_notMem h, size_eq_length,
    List.getElem?_concat_length]

theorem toList_ofList_of_nodup {ss : List σ} (h : ss.Nodup) : (ofList ss).toList = ss := by
  rw [toList_ofList]
  induction ss using List.reverseRecOn with
  | nil => rfl
  | append_singleton ss s ih =>
    obtain ⟨hss, _, hs⟩ := List.nodup_append.1 h
    have hnew : s ∉ ss := fun hmem => hs s hmem s (List.mem_singleton_self s) rfl
    rw [List.foldl_append, ih hss]
    simp [hnew]

section Longer
variable {a b : Alphabet σ} (h : a.toList <+: b.toList)
include h

theorem size_le_of_prefix : a.size ≤ b.size := by
  rw [size_eq_length, size_eq_length]
  exact h.length_le

theorem symbol?_of_prefix {i : Nat} (hi : i < a.size) : b.symbol? i = a.symbol? i := by
  rw [size_eq_length] at hi
  rw [symbol?_eq_getElem?, symbol?_eq_getElem?]
  exact (List.prefix_iff_getElem?.1 h i hi).trans (List.getElem?_eq_getElem hi).symm

theorem index?_of_prefix {s : σ} {i : Nat} (hs : a.index? s = some i) : b.index? s = some i := by
  rw [index?_eq_some_iff, symbol?_of_prefix h (lt_size_of_index? hs)]
  exact index?_eq_some_iff.1 hs

theorem indices_of_prefix {w : Word σ} {path : List Nat} (hw : a.indices w = .ok path) :
    b.indices w = .ok path := by
  induction w generalizing path with
  | nil => exact hw
  | cons s w ih =>
    obtain ⟨i, rest, hs, hrest, rfl⟩ := indices_cons_ok hw
    rw [indices, index?_of_prefix h hs]
    simp only [ih hrest, Except.map]

end Longer

theorem size_le_add (a : Alphabet σ) (s : σ) : a.size ≤ (a.add s).1.size :=
  size_le_of_prefix (a.prefix_add s)

theorem index?_add_of_some {a : Alphabet σ} {r : σ} {i : Nat} (s : σ) (h : a.index? r = some i) :
    (a.add s).1.index? r = some i := index?_of_prefix (a.prefix_add s) h

theorem index?_add_self (a : Alphabet σ) (s : σ) : (a.add s).1.index? s = some (a.add s).2 := by
  cases hs : a.index? s with
  | some i =>
    rw [add_of_index? hs]
    exact hs
  | none =>
    rw [index?] at hs
    rw [add]
    split
    · next i hi =>
      rw [hi] at hs
      cases hs
    · exact Std.HashMap.getElem?_insert_self

theorem index?_add_of_ne {a : Alphabet σ} {s r : σ} (h : r ≠ s) :
    (a.add s).1.index? r = a.index? r := by
  cases hr : a.index? r with
  | some i => exact index?_add_of_some s hr
  | none =>
    rw [index?_eq_none_iff] at hr ⊢
    rw [toList_add]
    split
    · exact hr
    · simpa [hr] using h

/-- A symbol that was not registered before gets an index behind all others. -/
theorem size_le_of_index?_add {a : Alphabet σ} {s r : σ} {i : Nat} (h : a.index? r = none)
    (hi : (a.add s).1.index? r = some i) : a.size ≤ i := by
  have hnew := index?_eq_none_iff.1 h
  rw [index?_eq_some_iff, symbol?_eq_getElem?, toList_add] at hi
  rw [size_eq_length]
  split at hi
  · exact absurd (List.mem_of_getElem? hi) hnew
  · refine Nat.le_of_not_lt fun hlt => hnew ?_
    rw [List.getElem?_append_left hlt] at hi
    exact List.mem_of_getElem? hi

end Alphabet
end MembershipCache
