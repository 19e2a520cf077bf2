import MembershipCache.Text.Quoted
import MembershipCache.Verdict

/-! Why a cache turns a call down. -/
namespace MembershipCache
universe u

inductive Capability where
  | userInsertion
  deriving DecidableEq, Repr

def Capability.name : Capability → String
  | .userInsertion => "user-origin insertion"

inductive Refusal (σ : Type u) where
  | conflict (word : Word σ) (existing attempted : Verdict)
  | unknownSymbol (symbol : σ)
  | unsupported (capability : Capability)
  deriving DecidableEq, Repr

namespace Refusal
variable {σ : Type u}

def isConflict : Refusal σ → Bool
  | conflict .. => true
  | unknownSymbol _ | unsupported _ => false

def message [Quoted σ] : Refusal σ → String
  | conflict word existing attempted =>
    "conflicting acceptance for word " ++ String.ofList word.quoted ++ ": " ++ existing.name ++
      " vs " ++ attempted.name
  | unknownSymbol symbol =>
    "symbol " ++ String.ofList (Quoted.quoted symbol) ++ " is not part of the input alphabet"
  | unsupported capability => "builder does not support " ++ capability.name

end Refusal
end MembershipCache
