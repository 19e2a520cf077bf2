/-! What is known about a word, which is accepted, rejected, or nothing yet, and who asserted it. A
user outranks the oracle: only a user replaces a user's verdict. -/
namespace MembershipCache

inductive Verdict where
  | accept | reject | unknown
  deriving DecidableEq, Repr

namespace Verdict

instance : Inhabited Verdict := ⟨.unknown⟩

def ofBool : Bool → Verdict
  | true => .accept
  | false => .reject

def ofOption : Option Bool → Verdict
  | some b => ofBool b
  | none => .unknown

/-- The classification without the third case: what is not known counts as rejected. -/
def toBool : Verdict → Bool
  | .accept => true
  | .reject | .unknown => false

def committed? : Verdict → Option Bool
  | .accept => some true
  | .reject => some false
  | .unknown => none

def isKnown (v : Verdict) : Bool := v.committed?.isSome

/-- A committed verdict clashes with the opposite answer; an unknown one with neither. -/
def conflicts (v : Verdict) (answer : Bool) : Bool :=
  match v with
  | .accept => !answer
  | .reject => answer
  | .unknown => false

def name : Verdict → String
  | .accept => "accept"
  | .reject => "reject"
  | .unknown => "unknown"

def label : Verdict → String
  | .accept => "Accept"
  | .reject => "Reject"
  | .unknown => "Unknown"

@[simp] theorem committed?_ofBool (b : Bool) : (ofBool b).committed? = some b := by cases b <;> rfl

@[simp] theorem ofOption_committed? (v : Verdict) : ofOption v.committed? = v := by cases v <;> rfl

@[simp] theorem ofBool_ne_unknown (b : Bool) : ofBool b ≠ .unknown := by cases b <;> simp [ofBool]

theorem conflicts_iff {v : Verdict} {answer : Bool} :
    v.conflicts answer ↔ v.committed? = some (!answer) := by
  cases v <;> cases answer <;> simp [conflicts, committed?]

end Verdict

inductive Provenance where
  | oracle | user
  deriving DecidableEq, Repr

namespace Provenance

instance : Inhabited Provenance := ⟨.oracle⟩

/-- Whether a verdict of this provenance may be replaced by a differing one of the other. -/
def givesWayTo (stored incoming : Provenance) : Bool := incoming = .user || stored = .oracle

def label : Provenance → String
  | .oracle => "Oracle"
  | .user => "User"

end Provenance
end MembershipCache
