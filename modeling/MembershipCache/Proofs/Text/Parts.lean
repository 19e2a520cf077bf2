import Mathlib.Data.List.Basic
import MembershipCache.Text.Quoted

/-! Where the parts of a text end: a number where its digits do, an item of a list at the separator.
So two texts that start with a number agree only if the numbers do. -/
namespace MembershipCache.Text

/-- A text before which digits end: it has no digit in front. -/
def EndsDigits (rest : List Char) : Prop := ∀ c ∈ rest.head?, c.isDigit = false

theorem endsDigits_cons {c : Char} {rest : List Char} : EndsDigits (c :: rest) ↔ ¬c.isDigit := by
  simp [EndsDigits]

section Cutting
variable {p : Char → Bool} {digits rest : List Char}

theorem takeWhile_append_rest (h : ∀ c ∈ digits, p c) (hrest : ∀ c ∈ rest.head?, p c = false) :
    (digits ++ rest).takeWhile p = digits := by
  rw [List.takeWhile_append_of_pos h]
  cases rest with
  | nil => simp
  | cons c rest => simp [hrest c rfl]

theorem dropWhile_append_rest (h : ∀ c ∈ digits, p c) (hrest : ∀ c ∈ rest.head?, p c = false) :
    (digits ++ rest).dropWhile p = rest := by
  rw [List.dropWhile_append_of_pos h]
  cases rest with
  | nil => rfl
  | cons c rest => simp [hrest c rfl]

end Cutting

/-- The digits of a number are one digit, or those of a smaller number and one more digit. -/
theorem toDigits_induction {b : Nat} (hb : 1 < b) {motive : Nat → List Char → Prop}
    (single : ∀ d < b, motive d [d.digitChar])
    (concat : ∀ n digits d, 0 < n → d < b → motive n digits →
      motive (b * n + d) (digits ++ [d.digitChar]))
    (n : Nat) : motive n (Nat.toDigits b n) := by
  induction n using Nat.strongRecOn with
  | ind n ih =>
    obtain h | h := Nat.lt_or_ge n b
    · rw [Nat.toDigits_of_lt_base h]
      exact single n h
    · have hpos : 0 < b := Nat.zero_lt_of_lt hb
      have hdigits := concat (n / b) _ (n % b) (Nat.div_pos h hpos) (Nat.mod_lt n hpos)
        (ih (n / b) (Nat.div_lt_self (Nat.lt_of_lt_of_le hpos h) hb))
      rwa [Nat.div_add_mod, ← Nat.toDigits_of_base_le hb h] at hdigits

theorem isDigit_toDigits {n : Nat} {c : Char} (h : c ∈ Nat.toDigits 10 n) : c.isDigit :=
  Nat.isDigit_of_mem_toDigits (by decide) (by decide) h

theorem toDigits_leading (n : Nat) :
    ∃ c cs, Nat.toDigits 10 n = c :: cs ∧ (c = '0' → n = 0 ∧ cs = []) := by
  refine toDigits_induction (by decide)
    (motive := fun n digits => ∃ c cs, digits = c :: cs ∧ (c = '0' → n = 0 ∧ cs = [])) ?_ ?_ n
  · intro d _
    exact ⟨d.digitChar, [], rfl, fun h => ⟨by simpa using h, rfl⟩⟩
  · rintro n _ d hn _ ⟨c, cs, rfl, hzero⟩
    exact ⟨c, cs ++ [d.digitChar], rfl, fun hc => absurd (hzero hc).1 (Nat.ne_of_gt hn)⟩

theorem toDigits_append_inj {m n : Nat} {r s : List Char} (hr : EndsDigits r) (hs : EndsDigits s)
    (h : Nat.toDigits 10 m ++ r = Nat.toDigits 10 n ++ s) : m = n ∧ r = s := by
  have cut (k : Nat) {t : List Char} (ht : EndsDigits t) :
      (Nat.toDigits 10 k ++ t).takeWhile Char.isDigit = Nat.toDigits 10 k ∧
        (Nat.toDigits 10 k ++ t).dropWhile Char.isDigit = t :=
    ⟨takeWhile_append_rest (fun _ => isDigit_toDigits) ht,
      dropWhile_append_rest (fun _ => isDigit_toDigits) ht⟩
  have hdigits : Nat.toDigits 10 m = Nat.toDigits 10 n := by
    rw [← (cut m hr).1, ← (cut n hs).1, h]
  refine ⟨?_, by rw [← (cut m hr).2, ← (cut n hs).2, h]⟩
  rw [← Nat.ofDigitChars_ten_toDigits (n := m), hdigits, Nat.ofDigitChars_ten_toDigits]

theorem toDigits_append_ne_minus (n : Nat) (r s : List Char) : Nat.toDigits 10 n ++ r ≠ '-' :: s := by
  obtain ⟨c, cs, hcs, -⟩ := toDigits_leading n
  have hc : c.isDigit := isDigit_toDigits (n := n) (by simp [hcs])
  rw [hcs]
  intro h
  obtain ⟨rfl, -⟩ := List.cons.inj h
  exact absurd hc (by decide)

theorem decimal_append_inj {m n : Int} {r s : List Char} (hr : EndsDigits r) (hs : EndsDigits s)
    (h : decimal m ++ r = decimal n ++ s) : m = n ∧ r = s := by
  cases m with
  | ofNat m => cases n with
    | ofNat n =>
      obtain ⟨rfl, rfl⟩ := toDigits_append_inj hr hs h
      exact ⟨rfl, rfl⟩
    | negSucc n => exact absurd h (toDigits_append_ne_minus m r _)
  | negSucc m => cases n with
    | ofNat n => exact absurd h.symm (toDigits_append_ne_minus n s _)
    | negSucc n =>
      obtain ⟨hmn, rfl⟩ := toDigits_append_inj hr hs (List.cons.inj h).2
      obtain rfl := Nat.succ.inj hmn
      exact ⟨rfl, rfl⟩

theorem intercalate_cons (sep t : List Char) (ts : List (List Char)) :
    sep.intercalate (t :: ts) = t ++ ts.flatMap (sep ++ ·) := by
  induction ts generalizing t with
  | nil => simp
  | cons u ts ih => rw [List.intercalate_cons_cons, ih, List.flatMap_cons, List.append_assoc]; simp

end MembershipCache.Text
