import MembershipCache.Proofs.Text.Parts
import MembershipCache.Refusal

/-! Texts that are shown tell what they show. A symbol may hold quotes, commas, brackets or the words
of a message, but an escape can be read back wherever it stands, so a quoted text ends at the first
quote that is not escaped, a number where its digits end, and a word at the bracket behind its last
symbol. -/
namespace MembershipCache
universe u

namespace Text

/-! ## One character -/

def hexValue (digits : List Char) : Nat :=
  digits.foldl (fun n d => 16 * n + if d.isDigit then d.toNat - 48 else d.toNat - 87) 0

def unescape? : List Char → Option (Char × List Char)
  | '\\' :: c :: rest =>
    if c = '0' then some ('\x00', rest)
    else if c = 't' then some ('\t', rest)
    else if c = 'n' then some ('\n', rest)
    else if c = 'r' then some ('\r', rest)
    else if c = 'u' then
      let digits := rest.tail
      some (.ofNat (hexValue (digits.takeWhile (· != '\x7d'))), (digits.dropWhile (· != '\x7d')).tail)
    else some (c, rest)
  | c :: rest => some (c, rest)
  | [] => none

theorem hexValue_concat (digits : List Char) {n : Nat} (hn : n < 16) :
    hexValue (digits ++ [n.digitChar]) = 16 * hexValue digits + n := by
  have hdigit : ∀ n < 16, (if n.digitChar.isDigit then n.digitChar.toNat - 48
      else n.digitChar.toNat - 87) = n := by decide
  simp only [hexValue, List.foldl_append, List.foldl_cons, List.foldl_nil, hdigit n hn]

theorem hexValue_toDigits (n : Nat) : hexValue (Nat.toDigits 16 n) = n := by
  refine toDigits_induction (by decide) (motive := fun n digits => hexValue digits = n) ?_ ?_ n
  · intro d hd
    simpa [hexValue] using hexValue_concat [] hd
  · intro n digits d _ hd hdigits
    rw [hexValue_concat digits hd, hdigits]

theorem ne_brace_of_mem_toDigits (n : Nat) : ∀ c ∈ Nat.toDigits 16 n, (c != '\x7d') = true := by
  refine toDigits_induction (by decide)
    (motive := fun _ digits => ∀ c ∈ digits, (c != '\x7d') = true) ?_ ?_ n
  · simp
  · intro n digits d _ _ hdigits c hc
    obtain hc | hc := List.mem_append.1 hc
    · exact hdigits c hc
    · simp [List.mem_singleton.1 hc]

/-- Quotes that no escape uses for anything else. -/
def IsQuote (quote : Char) : Prop := quote ∉ ['\\', '0', 't', 'n', 'r', 'u']

section
variable {quote : Char} (hq : IsQuote quote)
include hq

theorem unescape?_escape (c : Char) (rest : List Char) :
    unescape? (escape quote c ++ rest) = some (c, rest) := by
  simp only [IsQuote, List.mem_cons, List.not_mem_nil, or_false, not_or] at hq
  obtain ⟨-, h0, ht, hn, hr, hu⟩ := hq
  unfold escape
  split
  · next h =>
    obtain rfl | rfl : c = quote ∨ c = '\\' := by simpa using h
    · simp [unescape?, *]
    · simp [unescape?]
  split
  · simp [unescape?, *]
  split
  · simp [unescape?, *]
  split
  · simp [unescape?, *]
  split
  · simp [unescape?, *]
  split
  · next h _ _ _ _ _ =>
    have hc : c ≠ '\\' := fun hc => h (by simp [hc])
    simp [unescape?, hc]
  · have hbrace : ∀ d ∈ ('\x7d' :: rest).head?, (d != '\x7d') = false := by simp
    have hvalue := takeWhile_append_rest (ne_brace_of_mem_toDigits c.toNat) hbrace
    have hrest := dropWhile_append_rest (ne_brace_of_mem_toDigits c.toNat) hbrace
    simp [unescape?, hvalue, hrest, hexValue_toDigits]

theorem escape_append_inj {c d : Char} {r s : List Char}
    (h : escape quote c ++ r = escape quote d ++ s) : c = d ∧ r = s := by
  have hcd := congrArg unescape? h
  rw [unescape?_escape hq, unescape?_escape hq] at hcd
  exact Prod.mk.inj (Option.some.inj hcd)

theorem escape_append_ne_quote (c : Char) (r s : List Char) :
    escape quote c ++ r ≠ quote :: s := by
  have hslash : '\\' ≠ quote := fun h => hq (by simp [← h])
  unfold escape
  split
  · simp [hslash]
  · next h =>
    have hc : c ≠ quote := fun hc => h (by simp [hc])
    repeat' split
    all_goals simp [hslash, hc]

/-! ## Quoted text -/

theorem quoteWith_append_inj {cs ds r s : List Char}
    (h : quoteWith quote cs ++ r = quoteWith quote ds ++ s) : cs = ds ∧ r = s := by
  simp only [quoteWith, List.cons_append, List.append_assoc, List.nil_append,
    List.cons.injEq, true_and] at h
  induction cs generalizing ds with
  | nil => cases ds with
    | nil => exact ⟨rfl, (List.cons.inj h).2⟩
    | cons d ds =>
      rw [List.flatMap_cons, List.append_assoc] at h
      exact absurd h.symm (escape_append_ne_quote hq d _ r)
  | cons c cs ih => cases ds with
    | nil =>
      rw [List.flatMap_cons, List.append_assoc] at h
      exact absurd h (escape_append_ne_quote hq c _ s)
    | cons d ds =>
      rw [List.flatMap_cons, List.flatMap_cons, List.append_assoc, List.append_assoc] at h
      obtain ⟨rfl, htail⟩ := escape_append_inj hq h
      obtain ⟨rfl, rfl⟩ := ih htail
      exact ⟨rfl, rfl⟩

end

end Text

/-! ## Symbols and words -/

/-- Symbols whose text can be told from what follows it, as long as that is no digit. -/
class LawfulQuoted (σ : Type u) [Quoted σ] : Prop where
  quoted_append_inj {a b : σ} {r s : List Char} : Text.EndsDigits r → Text.EndsDigits s →
    Quoted.quoted a ++ r = Quoted.quoted b ++ s → a = b ∧ r = s

instance : LawfulQuoted Char where
  quoted_append_inj _ _ h := by
    obtain ⟨hab, hrs⟩ := Text.quoteWith_append_inj (by simp [Text.IsQuote]) h
    exact ⟨List.singleton_inj.1 hab, hrs⟩

instance : LawfulQuoted String where
  quoted_append_inj _ _ h := by
    obtain ⟨hab, hrs⟩ := Text.quoteWith_append_inj (by simp [Text.IsQuote]) h
    exact ⟨String.toList_inj.1 hab, hrs⟩

instance : LawfulQuoted Int64 where
  quoted_append_inj hr hs h := by
    obtain ⟨hab, hrs⟩ := Text.decimal_append_inj hr hs h
    exact ⟨Int64.toInt_inj.1 hab, hrs⟩

section Words
variable {σ : Type u} [Quoted σ]

def Word.quotedMore (w : Word σ) : List Char :=
  (w.map Quoted.quoted).flatMap ([',', ' '] ++ ·) ++ [']']

theorem Word.quoted_cons (a : σ) (w : Word σ) :
    Word.quoted (a :: w) = '[' :: (Quoted.quoted a ++ w.quotedMore) := by
  rw [Word.quoted, List.map_cons, Text.intercalate_cons, List.append_assoc]
  · rfl
  · exact List.cons_ne_nil a w

theorem Word.quotedMore_cons (a : σ) (w : Word σ) :
    Word.quotedMore (a :: w) = ',' :: ' ' :: (Quoted.quoted a ++ w.quotedMore) := by
  simp [Word.quotedMore]

theorem Word.endsDigits_quotedMore (w : Word σ) (r : List Char) :
    Text.EndsDigits (w.quotedMore ++ r) := by
  cases w with
  | nil => exact Text.endsDigits_cons.2 (by decide)
  | cons a w =>
    rw [Word.quotedMore_cons]
    exact Text.endsDigits_cons.2 (by decide)

variable [LawfulQuoted σ]

theorem Word.quotedMore_append_inj {v w : Word σ} {r s : List Char}
    (h : v.quotedMore ++ r = w.quotedMore ++ s) : v = w ∧ r = s := by
  induction v generalizing w with
  | nil => cases w with
    | nil => exact ⟨rfl, (List.cons.inj h).2⟩
    | cons b w => simp [Word.quotedMore] at h
  | cons a v ih => cases w with
    | nil => simp [Word.quotedMore] at h
    | cons b w =>
      simp only [Word.quotedMore_cons, List.cons_append, List.append_assoc, List.cons.injEq,
        true_and] at h
      obtain ⟨rfl, hmore⟩ := LawfulQuoted.quoted_append_inj (Word.endsDigits_quotedMore v r)
        (Word.endsDigits_quotedMore w s) h
      obtain ⟨rfl, rfl⟩ := ih hmore
      exact ⟨rfl, rfl⟩

theorem Word.quoted_append_inj {v w : Word σ} {r s : List Char}
    (h : v.quoted ++ r = w.quoted ++ s) : v = w ∧ r = s := by
  cases v with
  | nil => cases w with
    | nil => exact ⟨rfl, (List.cons.inj h).2⟩
    | cons b w => simp [Word.quoted] at h
  | cons a v => cases w with
    | nil => simp [Word.quoted] at h
    | cons b w =>
      rw [Word.quoted_cons, Word.quoted_cons] at h
      refine Word.quotedMore_append_inj ?_
      rw [Word.quotedMore_cons, Word.quotedMore_cons]
      exact congrArg (',' :: ' ' :: ·) (List.cons.inj h).2

end Words

/-! ## Messages -/

theorem Verdict.name_append_inj {e f : Verdict} {r s : List Char}
    (h : e.name.toList ++ r = f.name.toList ++ s) : e = f ∧ r = s := by
  cases e <;> cases f <;> simp [Verdict.name] at h <;> exact ⟨rfl, h⟩

section Messages
variable {σ : Type u} [Quoted σ]

theorem Refusal.message_conflict (v : Word σ) (e a : Verdict) : (Refusal.conflict v e a).message =
    "conflicting acceptance for word " ++ String.ofList v.quoted ++ ": " ++ e.name ++ " vs " ++
      a.name := rfl

theorem Refusal.message_unknownSymbol (x : σ) : (Refusal.unknownSymbol x).message =
    "symbol " ++ String.ofList (Quoted.quoted x) ++ " is not part of the input alphabet" := rfl

theorem Refusal.message_unsupported (c : Capability) :
    (Refusal.unsupported c : Refusal σ).message = "builder does not support " ++ c.name := rfl

variable [LawfulQuoted σ]

theorem Refusal.message_conflict_inj {v w : Word σ} {e f a b : Verdict}
    (h : (Refusal.conflict v e a).message = (Refusal.conflict w f b).message) :
    v = w ∧ e = f ∧ a = b := by
  rw [message_conflict, message_conflict, ← String.toList_inj] at h
  simp only [String.toList_append, String.toList_ofList, List.append_assoc,
    List.append_cancel_left_eq] at h
  obtain ⟨hword, hrest⟩ := Word.quoted_append_inj h
  obtain ⟨hexisting, hrest⟩ := Verdict.name_append_inj (List.append_cancel_left hrest)
  have hnames := List.append_cancel_left hrest
  obtain ⟨hattempted, -⟩ := Verdict.name_append_inj (congrArg (· ++ []) hnames)
  exact ⟨hword, hexisting, hattempted⟩

theorem Refusal.message_unknownSymbol_inj {x y : σ}
    (h : (Refusal.unknownSymbol x).message = (Refusal.unknownSymbol y).message) : x = y := by
  rw [message_unknownSymbol, message_unknownSymbol, ← String.toList_inj] at h
  simp only [String.toList_append, String.toList_ofList, List.append_assoc,
    List.append_cancel_left_eq] at h
  have hends : Text.EndsDigits " is not part of the input alphabet".toList := by
    simp [Text.EndsDigits]
  exact (LawfulQuoted.quoted_append_inj hends hends h).1

theorem Refusal.message_injective : Function.Injective (message (σ := σ)) := by
  intro x y h
  cases x with
  | conflict v e a => cases y with
    | conflict w f b =>
      obtain ⟨rfl, rfl, rfl⟩ := message_conflict_inj h
      rfl
    | unknownSymbol x => simp [message_conflict, message_unknownSymbol, ← String.toList_inj] at h
    | unsupported c => simp [message_conflict, message_unsupported, ← String.toList_inj] at h
  | unknownSymbol x => cases y with
    | conflict w f b => simp [message_conflict, message_unknownSymbol, ← String.toList_inj] at h
    | unknownSymbol y => rw [message_unknownSymbol_inj h]
    | unsupported c => simp [message_unknownSymbol, message_unsupported, ← String.toList_inj] at h
  | unsupported c => cases y with
    | conflict w f b => simp [message_conflict, message_unsupported, ← String.toList_inj] at h
    | unknownSymbol x => simp [message_unknownSymbol, message_unsupported, ← String.toList_inj] at h
    | unsupported d => cases c; cases d; rfl

end Messages

/-- What is shown tells what it shows: the text of a word its symbols, the message of a refusal its
kind with the word and both verdicts, the symbol or the capability. -/
structure ShowsApart (σ : Type u) [Quoted σ] : Prop where
  words : Function.Injective (Word.quoted (σ := σ))
  refusals : Function.Injective (Refusal.message (σ := σ))

theorem showsApart_of_lawfulQuoted (σ : Type u) [Quoted σ] [LawfulQuoted σ] : ShowsApart σ where
  words _ _ h := (Word.quoted_append_inj (congrArg (· ++ []) h)).1
  refusals := Refusal.message_injective

theorem texts_show_apart : ShowsApart Char ∧ ShowsApart Int64 ∧ ShowsApart String :=
  ⟨showsApart_of_lawfulQuoted Char, showsApart_of_lawfulQuoted Int64,
    showsApart_of_lawfulQuoted String⟩

/-- A symbol that looks like two, and one that looks like the rest of its message. -/
theorem texts_show_apart_despite_separators :
    Word.quoted ["a\", \"b"] ≠ Word.quoted ["a", "b"] ∧
      (Refusal.conflict ["a\"]: accept vs reject"] .accept .reject).message ≠
        (Refusal.conflict ["a"] .accept .reject).message :=
  ⟨texts_show_apart.2.2.words.ne (by simp), texts_show_apart.2.2.refusals.ne (by simp)⟩

end MembershipCache
