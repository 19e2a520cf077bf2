import MembershipCache.Automaton.Table
import MembershipCache.Proofs.Alphabet
import MembershipCache.Proofs.Run

/-! Automata built request by request. States and symbols may turn up in any order, and rows are
lengthened only when an entry needs it; all the same the table holds, for every state and symbol,
the target that was set last, and a word is accepted along these targets alone. -/
namespace MembershipCache
universe u v w

inductive Runs {σ : Type u} {Q : Type v} (step? : Q → σ → Option Q) : Q → Word σ → Q → Prop where
  | nil (q : Q) : Runs step? q [] q
  | cons {q p r : Q} {s : σ} {w : Word σ} (first : step? q s = some p) (rest : Runs step? p w r) :
      Runs step? q (s :: w) r

section Runs
variable {σ : Type u} {Q : Type v} {α : Type w}

theorem TransitionSystem.run?_eq_some_iff {m : TransitionSystem σ Q α} {q r : Q} {w : Word σ} :
    m.run? q w = some r ↔ Runs m.step? q w r := by
  constructor
  · intro h
    induction w generalizing q with
    | nil =>
      cases h
      exact .nil r
    | cons s w ih =>
      obtain ⟨p, hp, hw⟩ := Option.bind_eq_some_iff.1 h
      exact .cons hp (ih hw)
  · intro h
    induction h with
    | nil q => rfl
    | cons first _ ih =>
      rw [run?, first]
      exact ih

theorem Acceptor.accepts_iff_runs {m : Acceptor σ Q} {w : Word σ} : m.accepts w = true ↔
    ∃ q r, m.start? = some q ∧ Runs m.step? q w r ∧ m.label r = true := by
  simp only [← TransitionSystem.run?_eq_some_iff]
  rw [accepts]
  cases hq : m.start? with
  | none => simp
  | some q => cases hr : m.run? q w <;> simp [hr]

end Runs

namespace TableAutomaton
variable {σ : Type u} [DecidableEq σ] [Hashable σ]

inductive Request (σ : Type u) where
  | addState (accepting : Bool)
  | addInitialState (accepting : Bool)
  | setInitial (q? : Option Nat)
  | setAccepting (q : Nat) (accepting : Bool)
  | addTransition (source : Nat) (s : σ) (target : Nat)
  deriving DecidableEq

def step (m : TableAutomaton σ) : Request σ → TableAutomaton σ
  | .addState accepting => (m.addState accepting).1
  | .addInitialState accepting => (m.addInitialState accepting).1
  | .setInitial q? => m.setInitial q?
  | .setAccepting q accepting => m.setAccepting q accepting
  | .addTransition source s target => (m.addTransition source s target).1

def run (m : TableAutomaton σ) (rs : List (Request σ)) : TableAutomaton σ := rs.foldl step m

theorem run_concat (m : TableAutomaton σ) (rs : List (Request σ)) (r : Request σ) :
    m.run (rs ++ [r]) = (m.run rs).step r := by
  simp [run]

def Request.states : Request σ → Nat
  | .addState _ | .addInitialState _ => 1
  | .setInitial _ | .setAccepting .. | .addTransition .. => 0

section Operations
variable {m : TableAutomaton σ} {source target : Nat}

theorem addTransition_of_exist (hsource : source < m.size) (htarget : target < m.size) (s : σ) :
    m.addTransition source s target =
      ({ m with
          alphabet := (m.alphabet.add s).1
          rows := m.rows.modify source (setEntry · (m.alphabet.add s).2 target) }, true) := by
  simp [addTransition, hsource, htarget]

theorem addTransition_of_missing (h : ¬(source < m.size ∧ target < m.size)) (s : σ) :
    m.addTransition source s target = (m, false) := by
  simp [addTransition, h]

theorem addTransition_eq_true_iff {s : σ} :
    (m.addTransition source s target).2 = true ↔ source < m.size ∧ target < m.size := by
  by_cases h : source < m.size ∧ target < m.size
  · simp [addTransition_of_exist h.1 h.2, h]
  · simp [addTransition_of_missing h, h]

theorem size_step (m : TableAutomaton σ) (r : Request σ) : (m.step r).size = m.size + r.states := by
  cases r with
  | addState accepting => simp [step, addState, size, Request.states]
  | addInitialState accepting => simp [step, addInitialState, addState, size, Request.states]
  | setInitial q? => rfl
  | setAccepting q accepting => simp [step, setAccepting, size, Request.states]
  | addTransition source s target =>
    by_cases h : source < m.size ∧ target < m.size
    · rw [step, addTransition_of_exist h.1 h.2]
      rfl
    · rw [step, addTransition_of_missing h]
      rfl

end Operations

/-- The target in a row under a symbol's index, whether or not a symbol has that index. -/
def cell? (m : TableAutomaton σ) (q i : Nat) : Option Nat := m.rows[q]?.bind (·[i]?.join)

theorem transition?_eq_bind (m : TableAutomaton σ) (q : Nat) (s : σ) :
    m.transition? q s = (m.alphabet.index? s).bind (m.cell? q) := rfl

theorem join_getElem?_setEntry (row : Array (Option Nat)) (i target j : Nat) :
    (setEntry row i target)[j]?.join = if j = i then some target else row[j]?.join := by
  simp only [setEntry, Array.getElem?_setIfInBounds, Array.getElem?_append,
    Array.getElem?_replicate, Array.size_append, Array.size_replicate]
  grind

/-- There is a row for every state and no other, entries stand under symbols only, and they lead to
states. -/
structure WellFormed (m : TableAutomaton σ) : Prop where
  rows_size : m.rows.size = m.size
  cell_indexed : ∀ {q i target : Nat}, m.cell? q i = some target → i < m.alphabet.size
  cell_exists : ∀ {q i target : Nat}, m.cell? q i = some target → target < m.size
  initial_exists : ∀ {q : Nat}, m.initial? = some q → q < m.size

theorem cell?_addState (m : TableAutomaton σ) (accepting : Bool) (q i : Nat) :
    (m.addState accepting).1.cell? q i = m.cell? q i := by
  simp only [cell?, addState, Array.getElem?_push]
  split
  · next h =>
    rw [h, Array.getElem?_eq_none (Nat.le_refl _)]
    rfl
  · rfl

theorem cell?_addTransition {m : TableAutomaton σ} (h : m.WellFormed) {source target : Nat}
    (hsource : source < m.size) (htarget : target < m.size) (s : σ) (q i : Nat) :
    (m.addTransition source s target).1.cell? q i =
      if q = source ∧ i = (m.alphabet.add s).2 then some target else m.cell? q i := by
  rw [addTransition_of_exist hsource htarget]
  simp only [cell?, Array.getElem?_modify]
  by_cases hq : q = source
  · subst hq
    have hrow := Array.getElem?_eq_getElem (h.rows_size ▸ hsource)
    simp [hrow, join_getElem?_setEntry]
  · simp [hq, Ne.symm hq]

theorem wellFormed_ofAlphabet (a : Alphabet σ) : (ofAlphabet a).WellFormed := by
  refine ⟨rfl, ?_, ?_, ?_⟩
  · intro q i target h
    simp [cell?, ofAlphabet] at h
  · intro q i target h
    simp [cell?, ofAlphabet] at h
  · intro q h
    cases h

namespace WellFormed
variable {m : TableAutomaton σ} (h : m.WellFormed)
include h

theorem addState (accepting : Bool) : (m.addState accepting).1.WellFormed := by
  have hsize : (m.addState accepting).1.size = m.size + 1 := size_step m (.addState accepting)
  refine ⟨?_, ?_, ?_, ?_⟩
  · rw [hsize, ← h.rows_size]
    exact Array.size_push ..
  · intro q i target ht
    rw [cell?_addState] at ht
    exact h.cell_indexed ht
  · intro q i target ht
    rw [cell?_addState] at ht
    rw [hsize]
    exact Nat.lt_succ_of_lt (h.cell_exists ht)
  · intro q hq
    rw [hsize]
    exact Nat.lt_succ_of_lt (h.initial_exists hq)

theorem addInitialState (accepting : Bool) : (m.addInitialState accepting).1.WellFormed := by
  have hadded := h.addState accepting
  refine ⟨hadded.rows_size, hadded.cell_indexed, hadded.cell_exists, ?_⟩
  intro q hq
  cases hq
  have hsize : (m.addInitialState accepting).1.size = m.size + 1 :=
    size_step m (.addInitialState accepting)
  rw [hsize]
  exact Nat.lt_succ_self _

theorem setInitial (q? : Option Nat) : (m.setInitial q?).WellFormed := by
  refine ⟨h.rows_size, h.cell_indexed, h.cell_exists, ?_⟩
  intro q hq
  exact of_decide_eq_true (Option.filter_eq_some_iff.1 hq).2

theorem setAccepting (q : Nat) (accepting : Bool) : (m.setAccepting q accepting).WellFormed := by
  have hsize : (m.setAccepting q accepting).size = m.size := size_step m (.setAccepting q accepting)
  refine ⟨?_, h.cell_indexed, ?_, ?_⟩
  · rw [hsize]
    exact h.rows_size
  · rw [hsize]
    exact h.cell_exists
  · rw [hsize]
    exact h.initial_exists

theorem addTransition (source : Nat) (s : σ) (target : Nat) :
    (m.addTransition source s target).1.WellFormed := by
  by_cases hexist : source < m.size ∧ target < m.size
  · have hcell := cell?_addTransition h hexist.1 hexist.2 s
    rw [addTransition_of_exist hexist.1 hexist.2] at hcell ⊢
    refine ⟨?_, ?_, ?_, h.initial_exists⟩
    · rw [Array.size_modify]
      exact h.rows_size
    · intro q i t ht
      rw [hcell] at ht
      split at ht
      · next hnew =>
        rw [hnew.2]
        exact Alphabet.lt_size_of_index? (m.alphabet.index?_add_self s)
      · exact Nat.lt_of_lt_of_le (h.cell_indexed ht) (m.alphabet.size_le_add s)
    · intro q i t ht
      rw [hcell] at ht
      split at ht
      · cases ht
        exact hexist.2
      · exact h.cell_exists ht
  · rw [addTransition_of_missing hexist]
    exact h

theorem step (r : Request σ) : (m.step r).WellFormed := by
  cases r with
  | addState accepting => exact h.addState accepting
  | addInitialState accepting => exact h.addInitialState accepting
  | setInitial q? => exact h.setInitial q?
  | setAccepting q accepting => exact h.setAccepting q accepting
  | addTransition source s target => exact h.addTransition source s target

theorem run (rs : List (Request σ)) : (m.run rs).WellFormed := by
  induction rs generalizing m with
  | nil => exact h
  | cons r rs ih => exact ih (h.step r)

/-- A symbol that was not registered before has no entry in any row, so nothing that stood in the
table comes under it. -/
theorem cell?_add (q : Nat) (s : σ) :
    m.cell? q (m.alphabet.add s).2 = m.transition? q s := by
  rw [transition?_eq_bind]
  cases hs : m.alphabet.index? s with
  | some i => rw [Alphabet.add_of_index? hs, Option.bind_some]
  | none =>
    cases he : m.cell? q (m.alphabet.add s).2 with
    | none => rfl
    | some target =>
      have hi := Alphabet.size_le_of_index?_add hs (m.alphabet.index?_add_self s)
      have hlt := h.cell_indexed he
      omega

theorem transition?_addTransition {source target : Nat} (hsource : source < m.size)
    (htarget : target < m.size) (s : σ) (q : Nat) (r : σ) :
    (m.addTransition source s target).1.transition? q r =
      if q = source ∧ r = s then some target else m.transition? q r := by
  have hcell := cell?_addTransition h hsource htarget s q
  rw [transition?_eq_bind, funext hcell, addTransition_of_exist hsource htarget]
  by_cases hr : r = s
  · subst hr
    simp [Alphabet.index?_add_self, h.cell?_add]
  · simp only [Alphabet.index?_add_of_ne hr, hr, and_false, if_false, transition?_eq_bind]
    refine Option.bind_congr fun i hi => if_neg ?_
    intro hsame
    -- the two symbols would share an index
    have hs := m.alphabet.index?_add_self s
    rw [← hsame.2, Alphabet.index?_eq_some_iff] at hs
    rw [← Alphabet.index?_add_of_ne hr, Alphabet.index?_eq_some_iff, hs] at hi
    exact hr (Option.some.inj hi).symm

end WellFormed

/-- The target that a request sets for a state and a symbol. A transition that is not added sets
none. -/
def target? (q : Nat) (s : σ) : TableAutomaton σ × Request σ → Option Nat
  | (m, .addTransition source r target) =>
    if source = q ∧ r = s ∧ (m.addTransition source r target).2 then some target else none
  | (_, .addState _) | (_, .addInitialState _) | (_, .setInitial _) | (_, .setAccepting ..) => none

def created? : TableAutomaton σ × Request σ → Option Nat
  | (m, .addState accepting) => some (m.addState accepting).2
  | (m, .addInitialState accepting) => some (m.addInitialState accepting).2
  | (_, .setInitial _) | (_, .setAccepting ..) | (_, .addTransition ..) => none

def appointed? : TableAutomaton σ × Request σ → Option (Option Nat)
  | (m, .addInitialState accepting) => some (some (m.addInitialState accepting).2)
  | (m, .setInitial q?) => some (q?.filter (· < m.size))
  | (_, .addState _) | (_, .setAccepting ..) | (_, .addTransition ..) => none

def flag? (q : Nat) : TableAutomaton σ × Request σ → Option Bool
  | (m, .addState accepting) => if (m.addState accepting).2 = q then some accepting else none
  | (m, .addInitialState accepting) =>
    if (m.addInitialState accepting).2 = q then some accepting else none
  | (m, .setAccepting p accepting) => if p = q ∧ p < m.size then some accepting else none
  | (_, .setInitial _) | (_, .addTransition ..) => none

section Logs
variable (m : TableAutomaton σ) (rs : List (Request σ))

def targets (q : Nat) (s : σ) : List Nat := (encounters step m rs).filterMap (target? q s)

def created : List Nat := (encounters step m rs).filterMap created?

def appointed : List (Option Nat) := (encounters step m rs).filterMap appointed?

def flags (q : Nat) : List Bool := (encounters step m rs).filterMap (flag? q)

end Logs

theorem transition?_step {m : TableAutomaton σ} (h : m.WellFormed) (r : Request σ) (q : Nat)
    (s : σ) : (m.step r).transition? q s =
      ((target? q s (m, r)).map some).getD (m.transition? q s) := by
  cases r with
  | addState accepting =>
    have hcell := funext (cell?_addState m accepting q)
    rw [step, transition?_eq_bind, hcell]
    rfl
  | addInitialState accepting =>
    have hcell := funext (cell?_addState m accepting q)
    rw [step, transition?_eq_bind]
    exact congrArg _ hcell
  | setInitial q? => rfl
  | setAccepting p accepting => rfl
  | addTransition source r target =>
    rw [step, target?]
    by_cases hexist : source < m.size ∧ target < m.size
    · rw [h.transition?_addTransition hexist.1 hexist.2, addTransition_of_exist hexist.1 hexist.2]
      by_cases hnew : q = source ∧ s = r
      · simp [hnew]
      · have hother : ¬(source = q ∧ r = s) := fun hsame => hnew ⟨hsame.1.symm, hsame.2.symm⟩
        simp [hnew, hother]
    · simp [addTransition_of_missing hexist]

theorem initial?_step (m : TableAutomaton σ) (r : Request σ) :
    (m.step r).initial? = (appointed? (m, r)).getD m.initial? := by
  cases r with
  | addState accepting => rfl
  | addInitialState accepting => rfl
  | setInitial q? => rfl
  | setAccepting p accepting => rfl
  | addTransition source s target =>
    by_cases hexist : source < m.size ∧ target < m.size
    · rw [step, addTransition_of_exist hexist.1 hexist.2]
      rfl
    · rw [step, addTransition_of_missing hexist]
      rfl

theorem isAccepting_addState (m : TableAutomaton σ) (accepting : Bool) (q : Nat) :
    (m.addState accepting).1.isAccepting q =
      if m.size = q then accepting else m.isAccepting q := by
  simp only [isAccepting, addState, Array.getElem?_push, size, eq_comm]
  split <;> rfl

theorem isAccepting_step (m : TableAutomaton σ) (r : Request σ) (q : Nat) :
    (m.step r).isAccepting q = (flag? q (m, r)).getD (m.isAccepting q) := by
  cases r with
  | addState accepting =>
    rw [step, isAccepting_addState, flag?]
    split <;> simp [addState, *]
  | addInitialState accepting =>
    refine (isAccepting_addState m accepting q).trans ?_
    rw [flag?]
    split <;> simp [addInitialState, addState, *]
  | setInitial q? => rfl
  | setAccepting p accepting =>
    simp only [step, isAccepting, setAccepting, Array.getElem?_setIfInBounds, flag?, size]
    grind
  | addTransition source s target =>
    by_cases hexist : source < m.size ∧ target < m.size
    · rw [step, addTransition_of_exist hexist.1 hexist.2]
      rfl
    · rw [step, addTransition_of_missing hexist]
      rfl

theorem transition?_run {m : TableAutomaton σ} (h : m.WellFormed) (rs : List (Request σ)) (q : Nat)
    (s : σ) : (m.run rs).transition? q s =
      ((m.targets rs q s).getLast?.map some).getD (m.transition? q s) := by
  have hlast := foldl_last_set step WellFormed (fun _ r h => h.step r) (transition? · q s)
    (fun e => (target? q s e).map some) (fun _ r h => transition?_step h r q s) h rs
  rw [← List.map_filterMap, List.getLast?_map] at hlast
  exact hlast

theorem transition?_run_ofAlphabet (a : Alphabet σ) (rs : List (Request σ)) (q : Nat) (s : σ) :
    ((ofAlphabet a).run rs).transition? q s = ((ofAlphabet a).targets rs q s).getLast? := by
  have hnone : (ofAlphabet a).transition? q s = none := by simp [transition?, ofAlphabet]
  rw [transition?_run (wellFormed_ofAlphabet a), hnone]
  cases ((ofAlphabet a).targets rs q s).getLast? <;> rfl

theorem initial?_run (m : TableAutomaton σ) (rs : List (Request σ)) :
    (m.run rs).initial? = (m.appointed rs).getLast?.getD m.initial? :=
  foldl_last_set step (fun _ => True) (fun _ _ _ => trivial) initial? appointed?
    (fun c r _ => initial?_step c r) trivial rs

theorem isAccepting_run (m : TableAutomaton σ) (rs : List (Request σ)) (q : Nat) :
    (m.run rs).isAccepting q = (m.flags rs q).getLast?.getD (m.isAccepting q) :=
  foldl_last_set step (fun _ => True) (fun _ _ _ => trivial) (isAccepting · q) (flag? q)
    (fun c r _ => isAccepting_step c r q) trivial rs

theorem created_eq (a : Alphabet σ) (rs : List (Request σ)) :
    (ofAlphabet a).created rs = List.range ((ofAlphabet a).run rs).size := by
  induction rs using List.reverseRecOn with
  | nil => rfl
  | append_singleton rs r ih =>
    rw [created, filterMap_encounters_concat, ← created, ih, run_concat, size_step]
    cases r with
    | addState accepting => exact List.range_succ.symm
    | addInitialState accepting => exact List.range_succ.symm
    | setInitial q? => exact List.append_nil _
    | setAccepting q accepting => exact List.append_nil _
    | addTransition source s target => exact List.append_nil _

section Congruence
variable {m n : TableAutomaton σ} (h : m.size = n.size)
include h

theorem target?_congr (q : Nat) (s : σ) (r : Request σ) :
    target? q s (m, r) = target? q s (n, r) := by
  cases r with
  | addTransition source r target =>
    have hadded : (m.addTransition source r target).2 = (n.addTransition source r target).2 := by
      rw [Bool.eq_iff_iff, addTransition_eq_true_iff, addTransition_eq_true_iff, h]
    simp only [target?, hadded]
  | _ => rfl

theorem appointed?_congr (r : Request σ) : appointed? (m, r) = appointed? (n, r) := by
  cases r with
  | addInitialState accepting => exact congrArg (some ∘ some) h
  | setInitial q? => simp only [appointed?, h]
  | _ => rfl

theorem flag?_congr (q : Nat) (r : Request σ) : flag? q (m, r) = flag? q (n, r) := by
  cases r with
  | addState accepting =>
    have hnumber : (m.addState accepting).2 = (n.addState accepting).2 := h
    simp only [flag?, hnumber]
  | addInitialState accepting =>
    have hnumber : (m.addInitialState accepting).2 = (n.addInitialState accepting).2 := h
    simp only [flag?, hnumber]
  | setAccepting p accepting => simp only [flag?, h]
  | _ => rfl

/-- What is logged of a run depends on how many states there were, and on nothing else. -/
theorem log_congr {α : Type v} {f : TableAutomaton σ × Request σ → Option α}
    (logs : ∀ {c d : TableAutomaton σ} r, c.size = d.size → f (c, r) = f (d, r))
    (rs : List (Request σ)) :
    (encounters step m rs).filterMap f = (encounters step n rs).filterMap f := by
  refine filterMap_encounters_congr f step (size · = size ·) ?_ logs h rs
  intro c d r hcd
  rw [size_step, size_step, hcd]

end Congruence

theorem acceptor_run_congr (a a' : Alphabet σ) (rs : List (Request σ)) :
    ((ofAlphabet a').run rs).acceptor = ((ofAlphabet a).run rs).acceptor := by
  have hsize : (ofAlphabet a').size = (ofAlphabet a).size := rfl
  rw [acceptor, acceptor]
  congr 1
  · rw [initial?_run, initial?_run, appointed, log_congr hsize fun r h => appointed?_congr h r]
    rfl
  · funext q s
    rw [transition?_run_ofAlphabet, transition?_run_ofAlphabet, targets,
      log_congr hsize fun r h => target?_congr h q s r]
    rfl
  · funext q
    rw [isAccepting_run, isAccepting_run, flags, log_congr hsize fun r h => flag?_congr h q r]
    rfl

/-- A run and its table: where a symbol leads, whatever the alphabet was at the start, which
transitions are refused, that initial state and targets exist, and which words are accepted. -/
theorem run_tabulates (a : Alphabet σ) (rs : List (Request σ)) :
    let start : TableAutomaton σ := ofAlphabet a
    let m := start.run rs
    let table (q : Nat) (s : σ) : Option Nat := (start.targets rs q s).getLast?
    (∀ q s, m.transition? q s = table q s) ∧
    (∀ a', ((ofAlphabet a').run rs).acceptor = m.acceptor) ∧
    (∀ before q s t after, rs = before ++ .addTransition q s t :: after →
      let met := start.run before
      ((met.addTransition q s t).2 = false ↔
        ¬(q ∈ start.created before ∧ t ∈ start.created before)) ∧
      ((met.addTransition q s t).2 = false → (met.addTransition q s t).1 = met)) ∧
    m.initial? = (start.appointed rs).getLast?.join ∧
    (∀ q, m.initial? = some q → q ∈ start.created rs) ∧
    (∀ q i t, m.cell? q i = some t → t ∈ start.created rs) ∧
    (∀ q, m.isAccepting q = (start.flags rs q).getLast?.getD false) ∧
    (∀ w, m.acceptor.accepts w = true ↔
      ∃ q r, m.initial? = some q ∧ Runs table q w r ∧ m.isAccepting r = true) := by
  intro start m table
  have hm : m.WellFormed := (wellFormed_ofAlphabet a).run rs
  have hcreated {q : Nat} (rs : List (Request σ)) :
      q ∈ start.created rs ↔ q < (start.run rs).size := by
    rw [created_eq, List.mem_range]
  have htable : ∀ q s, m.transition? q s = table q s := transition?_run_ofAlphabet a rs
  refine ⟨htable, fun a' => acceptor_run_congr a a' rs, ?_, ?_, ?_, ?_, ?_, ?_⟩
  · intro before q s t after _ met
    simp only [hcreated]
    have hadded : (met.addTransition q s t).2 = true ↔ q < met.size ∧ t < met.size :=
      addTransition_eq_true_iff
    refine ⟨by rw [← hadded, Bool.not_eq_true], ?_⟩
    intro hrefused
    rw [addTransition_of_missing]
    rw [← hadded, hrefused]
    exact Bool.false_ne_true
  · rw [initial?_run]
    cases (start.appointed rs).getLast? <;> rfl
  · intro q hq
    exact (hcreated rs).2 (hm.initial_exists hq)
  · intro q i t ht
    exact (hcreated rs).2 (hm.cell_exists ht)
  · exact isAccepting_run start rs
  · intro w
    rw [Acceptor.accepts_iff_runs, ← funext fun q => funext (htable q)]
    rfl

theorem run_tabulates_over_late_symbols :
    let start : TableAutomaton Nat := ofAlphabet (.ofList [3])
    let rs : List (Request Nat) := [.addState true, .addTransition 0 7 1, .addInitialState false,
      .addTransition 0 7 1, .addTransition 1 3 0, .addTransition 0 7 0, .setInitial (some 5),
      .setInitial (some 1)]
    let m := start.run rs
    m.transition? 0 7 = some 0 ∧ m.transition? 0 3 = none ∧
      m.initial? = some 1 ∧ 1 ∈ start.created rs ∧ m.acceptor.accepts [3, 7] = true := by
  intro start rs m
  obtain ⟨htable, _, _, hinitial, hexists, _, haccepting, haccepts⟩ :=
    run_tabulates (.ofList [3]) rs
  have hone : m.initial? = some 1 := hinitial
  have hzero : m.isAccepting 0 = true := haccepting 0
  refine ⟨htable 0 7, htable 0 3, hone, hexists 1 hone, (haccepts [3, 7]).2 ⟨1, 0, hone, ?_, hzero⟩⟩
  exact .cons (p := 0) rfl (.cons (p := 0) rfl (.nil 0))

end TableAutomaton
end MembershipCache
