import MembershipCache.Text.GraphemeExtend
import MembershipCache.Word

/-! How symbols and words are shown in messages. Characters and strings stand between quotes, with
escapes for the quote itself, the backslash, and whatever would not show as a character of its own;
an integer is its digits without leading zeros, behind a minus sign if negative; a word is its
symbols between brackets, and the empty word is the letter epsilon. -/
namespace MembershipCache
universe u

namespace Text

/-- The halfwidth voicing marks extend a grapheme, yet each fills a cell of its own. -/
def isHalfwidthVoicing (c : Char) : Bool := c.toNat = 0xff9e || c.toNat = 0xff9f

/-- Whether a character can be seen, and seen apart from the character before it. -/
def showsAlone (c : Char) : Bool :=
  isPrintable c && !isDefaultIgnorable c && (!isGraphemeExtend c || isHalfwidthVoicing c)

def escape (quote c : Char) : List Char :=
  if c = quote || c = '\\' then ['\\', c]
  else if c = '\x00' then ['\\', '0']
  else if c = '\t' then ['\\', 't']
  else if c = '\n' then ['\\', 'n']
  else if c = '\r' then ['\\', 'r']
  else if showsAlone c then [c]
  else ['\\', 'u', '\x7b'] ++ Nat.toDigits 16 c.toNat ++ ['\x7d']

def quoteWith (quote : Char) (cs : List Char) : List Char :=
  quote :: (cs.flatMap (escape quote) ++ [quote])

def decimal : Int → List Char
  | .ofNat n => Nat.toDigits 10 n
  | .negSucc n => '-' :: Nat.toDigits 10 (n + 1)

theorem decimal_natCast (n : Nat) : decimal n = Nat.toDigits 10 n := rfl

end Text

class Quoted (σ : Type u) where
  quoted : σ → List Char

instance : Quoted Char := ⟨fun c => Text.quoteWith '\x27' [c]⟩

instance : Quoted String := ⟨fun s => Text.quoteWith '"' s.toList⟩

instance : Quoted Int64 := ⟨fun n => Text.decimal n.toInt⟩

def Word.quoted {σ : Type u} [Quoted σ] : Word σ → List Char
  | [] => ['ε']
  | w => '[' :: ([',', ' '].intercalate (w.map Quoted.quoted) ++ [']'])

example : String.ofList (Word.quoted ['a', '\x27', '"', '\n', '\u0301']) =
    "['a', '\\'', '\"', '\\n', '\\u\x7b301\x7d']" := by decide +kernel

example : String.ofList (Word.quoted ["\u30ab\uff9e", "\u1160\u1161"]) =
    "[\"\u30ab\uff9e\", \"\\u\x7b1160\x7d\u1161\"]" := by decide +kernel

example : String.ofList (Word.quoted ["x", "it's", "\\"]) = "[\"x\", \"it's\", \"\\\\\"]" := by
  decide +kernel

end MembershipCache
