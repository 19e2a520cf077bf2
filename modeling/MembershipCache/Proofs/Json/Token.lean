import MembershipCache.Json.Token
import MembershipCache.Proofs.Text.Parts

/-! Reading what was written, one token at a time: escapes up to the closing quote, then strings,
integers and punctuation in front of whatever else a text holds. -/
namespace MembershipCache.Json

/-! ## Strings -/

theorem pieces_escape (c : Char) (rest : List Char) :
    pieces (escape c ++ rest) = (pieces rest).map fun p => (.char c :: p.1, p.2) := by
  have of_unescape? (e : Char) (he : e ≠ 'u') (h : unescape? e = some c) :
      pieces ('\\' :: e :: rest) = (pieces rest).map fun p => (.char c :: p.1, p.2) := by
    rw [pieces.eq_3 e rest (fun _ _ _ _ _ hu _ => he hu), h]
    cases pieces rest <;> rfl
  unfold escape
  split
  · next h => exact of_unescape? '"' (by decide) (by rw [h]; rfl)
  split
  · next h => exact of_unescape? '\\' (by decide) (by rw [h]; rfl)
  split
  · next h => exact of_unescape? 'b' (by decide) (by rw [h]; rfl)
  split
  · next h => exact of_unescape? 'f' (by decide) (by rw [h]; rfl)
  split
  · next h => exact of_unescape? 'n' (by decide) (by rw [h]; rfl)
  split
  · next h => exact of_unescape? 'r' (by decide) (by rw [h]; rfl)
  split
  · next h => exact of_unescape? 't' (by decide) (by rw [h]; rfl)
  split
  · next h =>
    have hunit : ∀ n < 0x20, unit? '0' '0' (Nat.digitChar (n / 16)) (Nat.digitChar (n % 16)) =
        some (.char (.ofNat n)) := by decide
    have hc := hunit c.toNat h
    rw [Char.ofNat_toNat] at hc
    simp only [List.cons_append, List.nil_append, pieces, hc]
    cases pieces rest <;> rfl
  · next hquote hslash _ _ _ _ _ h =>
    simp only [List.cons_append, List.nil_append]
    rw [pieces.eq_4 c rest hquote (fun _ _ _ _ _ hc _ => hslash hc) (fun _ _ hc _ => hslash hc),
      if_neg h]
    cases pieces rest <;> rfl

theorem pieces_flatMap_escape (cs rest : List Char) :
    pieces (cs.flatMap escape ++ '"' :: rest) = some (cs.map .char, rest) := by
  induction cs with
  | nil => simp [pieces]
  | cons c cs ih => rw [List.flatMap_cons, List.append_assoc, pieces_escape, ih]; rfl

theorem join?_map_char (cs : List Char) : join? (cs.map .char) = some cs := by
  induction cs with
  | nil => rfl
  | cons c cs ih => rw [List.map_cons, join?, ih]; rfl

/-! ## Numbers -/

/-- A text before which an integer ends. -/
def EndsInteger (rest : List Char) : Prop :=
  ∀ c ∈ rest.head?, c.isDigit = false ∧ c ∉ ['.', 'e', 'E']

theorem endsInteger_cons {c : Char} {rest : List Char} :
    EndsInteger (c :: rest) ↔ c.isDigit = false ∧ c ∉ ['.', 'e', 'E'] := by simp [EndsInteger]

theorem EndsInteger.endsDigits {rest : List Char} (h : EndsInteger rest) :
    Text.EndsDigits rest := fun c hc => (h c hc).1

theorem integerPart?_toDigits (n : Nat) {rest : List Char} (hrest : Text.EndsDigits rest) :
    integerPart? (Nat.toDigits 10 n ++ rest) = some (Nat.toDigits 10 n, rest) := by
  obtain ⟨c, cs, hcs, hzero⟩ := Text.toDigits_leading n
  have hdigits : ∀ d ∈ c :: cs, d.isDigit := hcs ▸ fun _ => Text.isDigit_toDigits
  rw [hcs, List.cons_append]
  by_cases hc : c = '0'
  · obtain ⟨-, rfl⟩ := hzero hc
    rw [hc]
    rfl
  · have hcs := fun d hd => hdigits d (List.mem_cons_of_mem c hd)
    rw [integerPart?.eq_2 c _ hc, if_pos (hdigits c (List.mem_cons_self ..)),
      Text.takeWhile_append_rest hcs hrest, Text.dropWhile_append_rest hcs hrest]

theorem fraction?_none {rest : List Char} (h : EndsInteger rest) :
    fraction? rest = some (false, rest) := by
  rw [fraction?.eq_2]
  rintro r rfl
  exact (endsInteger_cons.1 h).2 (by simp)

theorem exponent?_none {rest : List Char} (h : EndsInteger rest) :
    exponent? rest = some (false, rest) := by
  unfold exponent?
  split
  · next c sign r =>
    have hc := (endsInteger_cons.1 h).2
    simp only [List.mem_cons, not_or] at hc
    simp [hc]
  · rfl

theorem number?_toDigits (negative : Bool) (n : Nat) {rest : List Char} (h : EndsInteger rest)
    (hn : negative = true → n ≠ 0) : number? negative (Nat.toDigits 10 n ++ rest) =
      some (.number (some (if negative then -n else n)), rest) := by
  simp only [number?, integerPart?_toDigits n h.endsDigits, fraction?_none h, exponent?_none h,
    Nat.ofDigitChars_ten_toDigits, Option.bind_eq_bind, Option.bind_some]
  cases negative with
  | false => simp
  | true => simp [hn rfl]

/-! ## Tokens -/

theorem tokens?_nil : tokens? [] = some [] := by rw [tokens?]

/-- A character that is no blank starts a token, behind which reading goes on. -/
theorem tokens?_cons {c : Char} {cs rest : List Char} {t : Token} (hc : isBlank c = false)
    (h : next? c cs = some (t, rest)) : tokens? (c :: cs) = (tokens? rest).map (t :: ·) := by
  rw [tokens?, if_neg (by simp [hc])]
  split
  · next hnone => exact absurd (hnone.symm.trans h) (by simp)
  · next hsome =>
    obtain ⟨rfl, rfl⟩ := Prod.mk.inj (Option.some.inj (hsome.symm.trans h))
    rfl

theorem tokens?_writeText (cs rest : List Char) :
    tokens? (writeText cs ++ rest) = (tokens? rest).map (.text (some cs) :: ·) := by
  rw [writeText, List.cons_append, List.append_assoc]
  refine tokens?_cons (by decide) ?_
  simp only [next?, List.cons_append, List.nil_append, pieces_flatMap_escape, join?_map_char,
    Option.map_some]

theorem isBlank_digit {c : Char} (hc : c.isDigit) : isBlank c = false := by
  simp only [isBlank, Bool.or_eq_false_iff, decide_eq_false_iff_not]
  refine ⟨⟨⟨?_, ?_⟩, ?_⟩, ?_⟩ <;> (rintro rfl; exact absurd hc (by decide))

theorem next?_digit {c : Char} (hc : c.isDigit) (cs : List Char) :
    next? c cs = number? false (c :: cs) := by
  unfold next?
  split
  case h_12 => rfl
  all_goals exact absurd hc (by decide)

theorem tokens?_decimal (n : Int) {rest : List Char} (h : EndsInteger rest) :
    tokens? (Text.decimal n ++ rest) = (tokens? rest).map (.number (some n) :: ·) := by
  cases n with
  | ofNat n =>
    obtain ⟨c, cs, hcs, -⟩ := Text.toDigits_leading n
    have hc : c.isDigit := Text.isDigit_toDigits (n := n) (by simp [hcs])
    have hnumber := number?_toDigits false n h (by simp)
    rw [Text.decimal]
    rw [hcs, List.cons_append] at hnumber ⊢
    exact tokens?_cons (isBlank_digit hc) ((next?_digit hc _).trans hnumber)
  | negSucc n =>
    have hnumber := number?_toDigits true (n + 1) h (by simp)
    exact tokens?_cons (by decide) hnumber

end MembershipCache.Json
