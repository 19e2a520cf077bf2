import MembershipCache.Cache.Revisable

/-! Entry of user assertions as something that a cache may or may not offer. -/
namespace MembershipCache
universe u v

/-- Caches whose verdicts may be replaced. Entry of user assertions is optional, and a cache without
it does not name it. -/
class RevisingCache (κ : Type v) (σ : outParam (Type u)) where
  insert : κ → Word σ → Bool → Reply κ (Except (Refusal σ) Bool)
  oldestInput? : κ → Option (Word σ)
  userEntry? : κ → Option (Word σ → Bool → Reply κ (Except (Refusal σ) Bool)) := fun _ => none

variable {σ : Type u} [DecidableEq σ] [Hashable σ]

instance : RevisingCache (Revisable σ) σ where
  insert := Revisable.insert
  oldestInput? := Revisable.oldestInput?
  userEntry? c := some c.insertFromUser

/-- A revisable cache that takes observations of the oracle only. -/
structure OracleOnly (σ : Type u) [DecidableEq σ] [Hashable σ] where
  cache : Revisable σ

def OracleOnly.addSymbol (c : OracleOnly σ) (s : σ) : Reply (OracleOnly σ) Bool :=
  (c.cache.addSymbol s).within fun cache => ⟨cache⟩

instance : RevisingCache (OracleOnly σ) σ where
  insert c w accepted := (c.cache.insert w accepted).within fun cache => ⟨cache⟩
  oldestInput? c := c.cache.oldestInput?

def assertFromUser {κ : Type v} {τ : Type u} [RevisingCache κ τ] (c : κ) (w : Word τ)
    (accepted : Bool) : Reply κ (Except (Refusal τ) Bool) :=
  match RevisingCache.userEntry? c with
  | some enter => enter w accepted
  | none => ⟨.error (.unsupported .userInsertion), c, []⟩

end MembershipCache
