import MembershipCache.Json.Token
import MembershipCache.Text.Quoted
import MembershipCache.Tree.Basic

/-! JSON forms of the values that callers keep: words, verdicts, provenances and settings. A word
is the list of its symbols; a verdict or provenance is its label; settings are a record. Reading
accepts more than writing produces: blanks, escapes, labels as keys, settings as a list. -/
namespace MembershipCache.Json
universe u

class Scalar (σ : Type u) where
  write : σ → List Char
  ofToken? : Token → Option σ

class Codec (α : Type u) where
  write : α → List Char
  ofTokens? : List Token → Option α

def encode {α : Type u} [Codec α] (a : α) : String := String.ofList (Codec.write a)

def decode? {α : Type u} [Codec α] (s : String) : Option α :=
  (tokens? s.toList).bind Codec.ofTokens?

instance : Scalar Char where
  write c := writeText [c]
  ofToken?
    | .text (some [c]) => some c
    | _ => none

instance : Scalar String where
  write s := writeText s.toList
  ofToken?
    | .text (some cs) => some (.ofList cs)
    | _ => none

instance : Scalar Int64 where
  write n := Text.decimal n.toInt
  ofToken?
    | .number (some n) =>
      if Int64.minValue.toInt ≤ n ∧ n ≤ Int64.maxValue.toInt then some (.ofInt n) else none
    | _ => none

section Words
variable {σ : Type u} [Scalar σ]

def moreSymbols? : List Token → Option (Word σ)
  | [.closeList] => some []
  | .comma :: t :: ts => do
    let s ← Scalar.ofToken? t
    let w ← moreSymbols? ts
    some (s :: w)
  | _ => none

instance : Codec (Word σ) where
  write w := '[' :: ([','].intercalate (w.map Scalar.write) ++ [']'])
  ofTokens?
    | [.openList, .closeList] => some []
    | .openList :: t :: ts => do
      let s ← Scalar.ofToken? t
      let w ← moreSymbols? ts
      some (s :: w)
    | _ => none

end Words

/-- A label, alone or as the only key of a record whose value is null. -/
def label? : List Token → Option (List Char)
  | [.text label?] => label?
  | [.openRecord, .text label?, .colon, .null, .closeRecord] => label?
  | _ => none

instance : Codec Verdict where
  write v := writeText v.label.toList
  ofTokens? ts := (label? ts).bind fun cs =>
    [Verdict.accept, .reject, .unknown].find? (·.label.toList = cs)

instance : Codec Provenance where
  write p := writeText p.label.toList
  ofTokens? ts := (label? ts).bind fun cs => [Provenance.oracle, .user].find? (·.label.toList = cs)

section Skipping

inductive Expected where
  | value | key | done
  deriving DecidableEq, Repr

inductive Bracket where
  | list | record
  deriving DecidableEq, Repr

/-- What follows a value of any kind. The brackets are those still open, innermost first. -/
def skip? : Expected → List Bracket → List Token → Option (List Token)
  | .done, [], ts => some ts
  | .done, .list :: opened, .closeList :: ts => skip? .done opened ts
  | .done, .list :: opened, .comma :: ts => skip? .value (.list :: opened) ts
  | .done, .record :: opened, .closeRecord :: ts => skip? .done opened ts
  | .done, .record :: opened, .comma :: ts => skip? .key (.record :: opened) ts
  | .key, opened, .text _ :: .colon :: ts => skip? .value opened ts
  | .value, opened, .openList :: .closeList :: ts => skip? .done opened ts
  | .value, opened, .openList :: ts => skip? .value (.list :: opened) ts
  | .value, opened, .openRecord :: .closeRecord :: ts => skip? .done opened ts
  | .value, opened, .openRecord :: ts => skip? .key (.record :: opened) ts
  | .value, opened, .null :: ts | .value, opened, .bool _ :: ts | .value, opened, .number _ :: ts
  | .value, opened, .text _ :: ts => skip? .done opened ts
  | _, _, _ => none

theorem skip?_length {e : Expected} {opened : List Bracket} {ts rest : List Token}
    (h : skip? e opened ts = some rest) : rest.length ≤ ts.length := by
  fun_induction skip? e opened ts <;> simp_all <;> omega

end Skipping

def capacityKey : String := "node_capacity"

def capacity? : Token → Option UInt64
  | .number (some (.ofNat n)) => if n < UInt64.size then some (.ofNat n) else none
  | _ => none

/-- The members of a record of settings up to its closing bracket. The capacity comes exactly once,
among members with other keys, whose values do not matter. -/
def members? (found? : Option UInt64) : List Token → Option UInt64
  | .text (some key) :: .colon :: t :: ts =>
    if key = capacityKey.toList then
      match found?, capacity? t, ts with
      | none, some n, [.closeRecord] => some n
      | none, some n, .comma :: ts => members? (some n) ts
      | _, _, _ => none
    else
      match _h : skip? .value [] (t :: ts) with
      | some [.closeRecord] => found?
      | some (.comma :: ts) => members? found? ts
      | _ => none
  | _ => none
termination_by ts => ts.length
decreasing_by
  · simp; omega
  · have := skip?_length _h
    simp at this ⊢; omega

instance : Codec Settings where
  write s :=
    '\x7b' :: (writeText capacityKey.toList ++
      ':' :: (Nat.toDigits 10 s.nodeCapacity.toNat ++ ['\x7d']))
  ofTokens?
    | [.openList, t, .closeList] => (capacity? t).map (⟨·⟩)
    | .openRecord :: ts => (members? none ts).map (⟨·⟩)
    | _ => none

end MembershipCache.Json
