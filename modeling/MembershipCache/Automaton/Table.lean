import MembershipCache.Alphabet
import MembershipCache.TransitionSystem

/-! Automata kept as a table: states are numbered from zero, each has a row of targets by symbol
index, and a row is only as long as its last entry needs. -/
namespace MembershipCache
universe u

structure TableAutomaton (σ : Type u) [DecidableEq σ] [Hashable σ] where
  alphabet : Alphabet σ
  accepting : Array Bool
  rows : Array (Array (Option Nat))
  initial? : Option Nat

namespace TableAutomaton
variable {σ : Type u} [DecidableEq σ] [Hashable σ]

def ofAlphabet (alphabet : Alphabet σ) : TableAutomaton σ := ⟨alphabet, #[], #[], none⟩

def empty : TableAutomaton σ := ofAlphabet .empty

def size (m : TableAutomaton σ) : Nat := m.accepting.size

def isAccepting (m : TableAutomaton σ) (q : Nat) : Bool := m.accepting[q]?.getD false

def transition? (m : TableAutomaton σ) (q : Nat) (s : σ) : Option Nat :=
  (m.alphabet.index? s).bind fun i => m.rows[q]?.bind fun row => row[i]?.join

def addState (m : TableAutomaton σ) (accepting : Bool) : TableAutomaton σ × Nat :=
  ({ m with accepting := m.accepting.push accepting, rows := m.rows.push #[] }, m.size)

def addInitialState (m : TableAutomaton σ) (accepting : Bool) : TableAutomaton σ × Nat :=
  let (m, q) := m.addState accepting
  ({ m with initial? := some q }, q)

/-- Makes a state the initial one. No state, or one that does not exist, leaves none. -/
def setInitial (m : TableAutomaton σ) (q? : Option Nat) : TableAutomaton σ :=
  { m with initial? := q?.filter (· < m.size) }

def setAccepting (m : TableAutomaton σ) (q : Nat) (accepting : Bool) : TableAutomaton σ :=
  { m with accepting := m.accepting.setIfInBounds q accepting }

def setEntry (row : Array (Option Nat)) (i target : Nat) : Array (Option Nat) :=
  (row ++ .replicate (i + 1 - row.size) none).setIfInBounds i (some target)

/-- Defines a step and registers its symbol, unless one of the states does not exist. -/
def addTransition (m : TableAutomaton σ) (source : Nat) (s : σ) (target : Nat) :
    TableAutomaton σ × Bool :=
  if source < m.size && target < m.size then
    let (alphabet, i) := m.alphabet.add s
    ({ m with alphabet, rows := m.rows.modify source (setEntry · i target) }, true)
  else (m, false)

def acceptor (m : TableAutomaton σ) : Acceptor σ Nat := ⟨m.initial?, m.transition?, m.isAccepting⟩

end TableAutomaton
end MembershipCache
