import MembershipCache.Json.Text

/-! The lexical grammar of JSON: blanks, punctuation, the three literal words, numbers and strings.
Numbers are told apart by whether they are integers: a fraction, an exponent and the minus sign of
a zero make a number that is not one. -/
namespace MembershipCache.Json

inductive Token where
  | openList | closeList | openRecord | closeRecord | comma | colon
  | null | bool (b : Bool)
  | number (value? : Option Int)
  | text (content? : Option (List Char))
  deriving DecidableEq, Repr

def isBlank (c : Char) : Bool := c = ' ' || c = '\n' || c = '\t' || c = '\r'

/-- Digits in front of the point, and what follows: a zero alone, or any digits that start with
another one. -/
def integerPart? : List Char → Option (List Char × List Char)
  | '0' :: rest => some (['0'], rest)
  | c :: rest =>
    if c.isDigit then some (c :: rest.takeWhile Char.isDigit, rest.dropWhile Char.isDigit) else none
  | [] => none

def afterDigits? : List Char → Option (List Char)
  | c :: rest => if c.isDigit then some (rest.dropWhile Char.isDigit) else none
  | [] => none

def fraction? : List Char → Option (Bool × List Char)
  | '.' :: rest => (afterDigits? rest).map (true, ·)
  | rest => some (false, rest)

def exponent? : List Char → Option (Bool × List Char)
  | c :: sign :: rest =>
    if c = 'e' || c = 'E' then
      (afterDigits? (if sign = '+' || sign = '-' then rest else sign :: rest)).map (true, ·)
    else some (false, c :: sign :: rest)
  | rest => some (false, rest)

def number? (negative : Bool) (cs : List Char) : Option (Token × List Char) := do
  let (digits, rest) ← integerPart? cs
  let (hasFraction, rest) ← fraction? rest
  let (hasExponent, rest) ← exponent? rest
  let n := Nat.ofDigitChars 10 digits 0
  let value? : Option Int :=
    if hasFraction || hasExponent || (negative && n = 0) then none
    else if negative then some (-n)
    else some n
  some (.number value?, rest)

def next? (c : Char) (cs : List Char) : Option (Token × List Char) :=
  match c, cs with
  | '[', _ => some (.openList, cs)
  | ']', _ => some (.closeList, cs)
  | '\x7b', _ => some (.openRecord, cs)
  | '\x7d', _ => some (.closeRecord, cs)
  | ',', _ => some (.comma, cs)
  | ':', _ => some (.colon, cs)
  | '"', _ => (pieces cs).map fun (ps, rest) => (.text (join? ps), rest)
  | '-', _ => number? true cs
  | 'n', 'u' :: 'l' :: 'l' :: rest => some (.null, rest)
  | 't', 'r' :: 'u' :: 'e' :: rest => some (.bool true, rest)
  | 'f', 'a' :: 'l' :: 's' :: 'e' :: rest => some (.bool false, rest)
  | _, _ => number? false (c :: cs)

theorem length_dropWhile_le (p : Char → Bool) (cs : List Char) :
    (cs.dropWhile p).length ≤ cs.length := (List.dropWhile_sublist p).length_le

theorem integerPart?_length {cs digits rest : List Char}
    (h : integerPart? cs = some (digits, rest)) : rest.length < cs.length := by
  unfold integerPart? at h
  split at h
  · obtain ⟨rfl, rfl⟩ := Prod.mk.inj (Option.some.inj h)
    exact Nat.lt_succ_self _
  · next c cs _ =>
    split at h
    · obtain ⟨rfl, rfl⟩ := Prod.mk.inj (Option.some.inj h)
      exact Nat.lt_succ_of_le (length_dropWhile_le Char.isDigit cs)
    · cases h
  · cases h

theorem afterDigits?_length {cs rest : List Char} (h : afterDigits? cs = some rest) :
    rest.length ≤ cs.length := by
  unfold afterDigits? at h
  split at h
  · next c cs =>
    split at h
    · obtain rfl := Option.some.inj h
      exact Nat.le_succ_of_le (length_dropWhile_le Char.isDigit cs)
    · cases h
  · cases h

theorem fraction?_length {cs rest : List Char} {b : Bool} (h : fraction? cs = some (b, rest)) :
    rest.length ≤ cs.length := by
  unfold fraction? at h
  split at h
  · obtain ⟨r, hr, h⟩ := Option.map_eq_some_iff.1 h
    obtain ⟨rfl, rfl⟩ := Prod.mk.inj h
    exact Nat.le_succ_of_le (afterDigits?_length hr)
  · obtain ⟨rfl, rfl⟩ := Prod.mk.inj (Option.some.inj h)
    exact Nat.le_refl _

theorem exponent?_length {cs rest : List Char} {b : Bool} (h : exponent? cs = some (b, rest)) :
    rest.length ≤ cs.length := by
  unfold exponent? at h
  split at h
  · next c sign cs =>
    split at h
    · obtain ⟨r, hr, h⟩ := Option.map_eq_some_iff.1 h
      obtain ⟨rfl, rfl⟩ := Prod.mk.inj h
      have := afterDigits?_length hr
      split at this <;> simp only [List.length_cons] at * <;> omega
    · obtain ⟨rfl, rfl⟩ := Prod.mk.inj (Option.some.inj h)
      exact Nat.le_refl _
  · obtain ⟨rfl, rfl⟩ := Prod.mk.inj (Option.some.inj h)
    exact Nat.le_refl _

theorem number?_length {negative : Bool} {cs rest : List Char} {t : Token}
    (h : number? negative cs = some (t, rest)) : rest.length < cs.length := by
  simp only [number?, Option.bind_eq_bind, Option.bind_eq_some_iff, Prod.exists] at h
  obtain ⟨_, _, hi, _, _, hf, _, _, he, h⟩ := h
  have := integerPart?_length hi
  have := fraction?_length hf
  have := exponent?_length he
  obtain ⟨rfl, rfl⟩ := Prod.mk.inj (Option.some.inj h)
  omega

theorem next?_length {c : Char} {cs rest : List Char} {t : Token}
    (h : next? c cs = some (t, rest)) : rest.length ≤ cs.length := by
  unfold next? at h
  split at h
  case h_7 =>
    obtain ⟨⟨ps, r⟩, hr, h⟩ := Option.map_eq_some_iff.1 h
    obtain ⟨rfl, rfl⟩ := Prod.mk.inj h
    exact Nat.le_of_lt (pieces_length hr)
  case h_8 => exact Nat.le_of_lt (number?_length h)
  case h_12 => exact Nat.le_of_lt_succ (number?_length h)
  case h_9 | h_10 | h_11 =>
    obtain ⟨rfl, rfl⟩ := Prod.mk.inj (Option.some.inj h)
    simp only [List.length_cons]
    omega
  all_goals
    obtain ⟨rfl, rfl⟩ := Prod.mk.inj (Option.some.inj h)
    exact Nat.le_refl _

/-- The tokens of a text, or nothing if some character starts none. -/
def tokens? : List Char → Option (List Token)
  | [] => some []
  | c :: cs =>
    if isBlank c then tokens? cs
    else
      match _h : next? c cs with
      | none => none
      | some (t, rest) => (tokens? rest).map (t :: ·)
termination_by cs => cs.length
decreasing_by
  · simp
  · have := next?_length _h
    simp; omega

end MembershipCache.Json
