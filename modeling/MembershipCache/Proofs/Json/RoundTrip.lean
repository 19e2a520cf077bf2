import MembershipCache.Json.Codec
import MembershipCache.Proofs.Json.Token

/-! What was written reads back unchanged, for every kind of value that has a JSON form. -/
namespace MembershipCache.Json
universe u

/-- Symbols written as one token that reads back, in front of whatever ends an integer. -/
class LawfulScalar (σ : Type u) [Scalar σ] : Prop where
  tokens?_write (a : σ) : ∃ t, Scalar.ofToken? t = some a ∧
    ∀ rest, EndsInteger rest → tokens? (Scalar.write a ++ rest) = (tokens? rest).map (t :: ·)

class LawfulCodec (α : Type u) [Codec α] : Prop where
  ofTokens?_write (a : α) : ∃ ts, tokens? (Codec.write a) = some ts ∧ Codec.ofTokens? ts = some a

theorem decode?_of_lawfulCodec {α : Type u} [Codec α] [LawfulCodec α] (a : α) :
    decode? (encode a) = some a := by
  obtain ⟨ts, hts, ha⟩ := LawfulCodec.ofTokens?_write a
  rw [decode?, encode, String.toList_ofList, hts, Option.bind_some, ha]

/-! ## Words -/

instance : LawfulScalar Char where
  tokens?_write c := ⟨.text (some [c]), rfl, fun rest _ => tokens?_writeText [c] rest⟩

instance : LawfulScalar String where
  tokens?_write s := ⟨.text (some s.toList), congrArg some String.ofList_toList,
    fun rest _ => tokens?_writeText s.toList rest⟩

instance : LawfulScalar Int64 where
  tokens?_write n := by
    refine ⟨.number (some n.toInt), ?_, fun rest h => tokens?_decimal n.toInt h⟩
    simp only [Scalar.ofToken?, Int64.minValue_le_toInt, Int64.toInt_le, and_self, if_true,
      Int64.ofInt_toInt]

section Words
variable {σ : Type u} [Scalar σ]

def writeMore (w : Word σ) : List Char := (w.map Scalar.write).flatMap ([','] ++ ·) ++ [']']

theorem writeMore_cons (a : σ) (w : Word σ) :
    writeMore (a :: w) = ',' :: (Scalar.write a ++ writeMore w) := by simp [writeMore]

theorem write_word_cons (a : σ) (w : Word σ) :
    Codec.write (a :: w : Word σ) = '[' :: (Scalar.write a ++ writeMore w) := by
  change '[' :: ([','].intercalate ((a :: w).map Scalar.write) ++ [']']) = _
  rw [List.map_cons, Text.intercalate_cons, List.append_assoc]
  rfl

theorem endsInteger_writeMore (w : Word σ) : EndsInteger (writeMore w) := by
  cases w with
  | nil => exact endsInteger_cons.2 (by decide)
  | cons a w =>
    rw [writeMore_cons]
    exact endsInteger_cons.2 (by decide)

theorem tokens?_closeList : tokens? [']'] = some [.closeList] := by
  rw [tokens?_cons (by decide) rfl, tokens?_nil]; rfl

variable [LawfulScalar σ]

theorem moreSymbols?_writeMore (w : Word σ) :
    ∃ ts, tokens? (writeMore w) = some ts ∧ moreSymbols? ts = some w := by
  induction w with
  | nil => exact ⟨[.closeList], tokens?_closeList, rfl⟩
  | cons a w ih =>
    obtain ⟨ts, hts, hw⟩ := ih
    obtain ⟨t, ht, hwrite⟩ := LawfulScalar.tokens?_write a
    refine ⟨.comma :: t :: ts, ?_, ?_⟩
    · rw [writeMore_cons, tokens?_cons (by decide) rfl, hwrite _ (endsInteger_writeMore w), hts]
      rfl
    · simp only [moreSymbols?, ht, hw, Option.bind_eq_bind, Option.bind_some]

instance : LawfulCodec (Word σ) where
  ofTokens?_write w := by
    cases w with
    | nil =>
      refine ⟨[.openList, .closeList], ?_, rfl⟩
      change tokens? ['[', ']'] = _
      rw [tokens?_cons (by decide) rfl, tokens?_closeList]
      rfl
    | cons a w =>
      obtain ⟨ts, hts, hw⟩ := moreSymbols?_writeMore w
      obtain ⟨t, ht, hwrite⟩ := LawfulScalar.tokens?_write a
      refine ⟨.openList :: t :: ts, ?_, ?_⟩
      · rw [write_word_cons, tokens?_cons (by decide) rfl, hwrite _ (endsInteger_writeMore w), hts]
        rfl
      -- at least the closing bracket follows, so this is not the form of the empty word
      · cases ts with
        | nil => cases hw
        | cons u ts =>
          simp only [Codec.ofTokens?, ht, hw, Option.bind_eq_bind, Option.bind_some]

end Words

/-! ## Labels and settings -/

theorem tokens?_writeText_only (cs : List Char) : tokens? (writeText cs) = some [.text (some cs)] := by
  have h := tokens?_writeText cs []
  rwa [List.append_nil, tokens?_nil] at h

instance : LawfulCodec Verdict where
  ofTokens?_write v := ⟨[.text (some v.label.toList)], tokens?_writeText_only _, by cases v <;> rfl⟩

instance : LawfulCodec Provenance where
  ofTokens?_write p := ⟨[.text (some p.label.toList)], tokens?_writeText_only _, by cases p <;> rfl⟩

theorem capacity?_number (n : UInt64) : capacity? (.number (some n.toNat)) = some n := by
  change (if n.toNat < UInt64.size then some (UInt64.ofNat n.toNat) else none) = some n
  rw [if_pos n.toNat_lt, UInt64.ofNat_toNat]

theorem members?_capacity (n : UInt64) :
    members? none [.text (some capacityKey.toList), .colon, .number (some n.toNat), .closeRecord] =
      some n := by
  rw [members?, if_pos rfl]
  simp only [capacity?_number]

instance : LawfulCodec Settings where
  ofTokens?_write s := by
    have hbrace : EndsInteger ['\x7d'] := endsInteger_cons.2 (by decide)
    have hcapacity := tokens?_decimal s.nodeCapacity.toNat hbrace
    rw [Text.decimal_natCast] at hcapacity
    refine ⟨[.openRecord, .text (some capacityKey.toList), .colon,
      .number (some s.nodeCapacity.toNat), .closeRecord], ?_, ?_⟩
    · change tokens? ('\x7b' :: (writeText capacityKey.toList ++
        ':' :: (Nat.toDigits 10 s.nodeCapacity.toNat ++ ['\x7d']))) = _
      rw [tokens?_cons (by decide) rfl, tokens?_writeText, tokens?_cons (by decide) rfl, hcapacity,
        tokens?_cons (by decide) rfl, tokens?_nil]
      rfl
    · change (members? none _).map _ = _
      rw [members?_capacity]
      rfl

/-- Whatever is written reads back as what it was. -/
theorem decode?_encode :
    (∀ w : Word Char, decode? (encode w) = some w) ∧
    (∀ w : Word Int64, decode? (encode w) = some w) ∧
    (∀ w : Word String, decode? (encode w) = some w) ∧
    (∀ v : Verdict, decode? (encode v) = some v) ∧
    (∀ p : Provenance, decode? (encode p) = some p) ∧
    ∀ s : Settings, decode? (encode s) = some s :=
  ⟨decode?_of_lawfulCodec, decode?_of_lawfulCodec, decode?_of_lawfulCodec, decode?_of_lawfulCodec,
    decode?_of_lawfulCodec, decode?_of_lawfulCodec⟩

end MembershipCache.Json
