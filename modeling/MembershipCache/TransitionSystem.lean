import MembershipCache.Word

/-! Deterministic transition systems with partial steps and a label on every state. With Boolean
labels such a system is an acceptor: a word is accepted if its run exists and ends on `true`. -/
namespace MembershipCache
universe u v w

structure TransitionSystem (σ : Type u) (Q : Type v) (α : Type w) where
  start? : Option Q
  step? : Q → σ → Option Q
  label : Q → α

abbrev Acceptor (σ : Type u) (Q : Type v) := TransitionSystem σ Q Bool

namespace TransitionSystem
variable {σ : Type u} {Q : Type v} {α : Type w}

def run? (m : TransitionSystem σ Q α) (q : Q) : Word σ → Option Q
  | [] => some q
  | s :: w => (m.step? q s).bind (m.run? · w)

theorem run?_append (m : TransitionSystem σ Q α) (q : Q) (v w : Word σ) :
    m.run? q (v ++ w) = (m.run? q v).bind (m.run? · w) := by
  induction v generalizing q with
  | nil => rfl
  | cons s v ih => cases h : m.step? q s <;> simp [run?, h, ih]

theorem run?_concat (m : TransitionSystem σ Q α) (q : Q) (w : Word σ) (s : σ) :
    m.run? q (w ++ [s]) = (m.run? q w).bind (m.step? · s) := by
  rw [run?_append]
  congr 1
  funext q'
  simp [run?]

theorem run?_eq_foldlM (m : TransitionSystem σ Q α) (q : Q) (w : Word σ) :
    m.run? q w = w.foldlM m.step? q := by
  induction w generalizing q with
  | nil => rfl
  | cons s w ih =>
    rw [run?, List.foldlM_cons]
    exact Option.bind_congr fun q' _ => ih q'

end TransitionSystem

/-- A word without a run, for want of a start or of a step, is rejected. -/
def Acceptor.accepts {σ : Type u} {Q : Type v} (m : Acceptor σ Q) (w : Word σ) : Bool :=
  match m.start?.bind (m.run? · w) with
  | some q => m.label q
  | none => false

end MembershipCache
