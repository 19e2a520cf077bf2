import Mathlib.Data.List.Basic
import MembershipCache.Proofs.Automaton.Table
import MembershipCache.Proofs.Cache.RevisableRun
import MembershipCache.Proofs.Cache.WriteOnceRun

/-! Alphabets in use. An alphabet may grow by itself, below a cache or inside an automaton; it is the
same whichever way its symbols came. They stand in the order in which they came first, without gaps,
and nothing that comes later moves them. -/
namespace MembershipCache
universe u v w

namespace Alphabet
variable {σ : Type u} [DecidableEq σ] [Hashable σ]

theorem ofList_append (ss later : List σ) :
    ofList (ss ++ later) = later.foldl (fun a s => (a.add s).1) (ofList ss) := List.foldl_append

theorem ofList_concat (ss : List σ) (s : σ) : ofList (ss ++ [s]) = ((ofList ss).add s).1 :=
  ofList_append ss [s]

theorem toList_ofList_eq_eraseDups (ss : List σ) : (ofList ss).toList = ss.eraseDups := by
  induction ss using List.reverseRecOn with
  | nil => rfl
  | append_singleton ss s ih =>
    have hold : (ofList ss).contains s ↔ s ∈ ss := by
      rw [contains_eq_contains_toList, ih, List.contains_iff_mem, List.mem_eraseDups]
    rw [ofList_concat, toList_add, ih, List.eraseDups_append]
    by_cases hs : s ∈ ss
    · rw [if_pos (hold.2 hs)]
      simp [List.removeAll, hs]
    · rw [if_neg (mt hold.1 hs)]
      simp [List.removeAll, hs, List.eraseDups_cons]

theorem prefix_ofList_append (ss later : List σ) :
    (ofList ss).toList <+: (ofList (ss ++ later)).toList := by
  rw [toList_ofList_eq_eraseDups, toList_ofList_eq_eraseDups, List.eraseDups_append]
  exact List.prefix_append _ _

theorem idxOf_toList {a : Alphabet σ} {s : σ} {i : Nat} (h : a.index? s = some i) :
    a.toList.idxOf s = i := by
  rw [List.idxOf_eq_getD_idxOf?, ← index?_eq_idxOf?, h]
  rfl

theorem exists_index?_iff {a : Alphabet σ} {i : Nat} :
    (∃ s, a.index? s = some i) ↔ i < a.size := by
  constructor
  · intro h
    obtain ⟨s, hs⟩ := h
    exact lt_size_of_index? hs
  · intro h
    exact ⟨a.symbols[i], index?_eq_some_iff.2 (Array.getElem?_eq_getElem h)⟩

theorem addAll_ofList (ss later : List σ) :
    (ofList ss).addAll later =
      (ofList (ss ++ later), later.map (ofList (ss ++ later)).toList.idxOf) := by
  induction later generalizing ss with
  | nil => rw [List.append_nil]; rfl
  | cons s later ih =>
    have hplace : (ofList (ss ++ s :: later)).toList.idxOf s = ((ofList ss).add s).2 := by
      apply idxOf_toList
      rw [List.append_cons]
      refine index?_of_prefix (prefix_ofList_append (ss ++ [s]) later) ?_
      rw [ofList_concat]
      exact index?_add_self (ofList ss) s
    simp only [addAll, ← ofList_concat, ih, ← List.append_cons, List.map_cons, hplace]

/-- What grows an alphabet by one symbol at most in every step has grown it by these symbols in the
end. -/
theorem foldl_registers {γ : Type v} {ρ : Type w} (step : γ → ρ → γ) (alphabet : γ → Alphabet σ)
    (symbol? : γ × ρ → Option σ)
    (grows : ∀ c r, alphabet (step c r) =
      (symbol? (c, r)).elim (alphabet c) fun s => ((alphabet c).add s).1)
    {c : γ} {ss : List σ} (hc : alphabet c = ofList ss) (rs : List ρ) :
    alphabet (rs.foldl step c) = ofList (ss ++ (encounters step c rs).filterMap symbol?) := by
  induction rs generalizing c ss with
  | nil => rw [encounters, List.filterMap_nil, List.append_nil]; exact hc
  | cons r rs ih =>
    have hstep := grows c r
    rw [encounters, List.foldl_cons]
    cases hr : symbol? (c, r) with
    | none =>
      rw [hr, Option.elim_none, hc] at hstep
      rw [List.filterMap_cons_none hr, ih hstep]
    | some s =>
      rw [hr, Option.elim_some, hc, ← ofList_concat] at hstep
      rw [List.filterMap_cons_some hr, ih hstep, ← List.append_cons]

theorem foldl_registers_requested {γ : Type v} {ρ : Type w} (step : γ → ρ → γ)
    (alphabet : γ → Alphabet σ) {symbol? : ρ → Option σ}
    (grows : ∀ c r, alphabet (step c r) =
      (symbol? r).elim (alphabet c) fun s => ((alphabet c).add s).1)
    {c : γ} {ss : List σ} (hc : alphabet c = ofList ss) (rs : List ρ) :
    alphabet (rs.foldl step c) = ofList (ss ++ rs.filterMap symbol?) := by
  rw [← filterMap_encounters_snd symbol? step c rs]
  exact foldl_registers step alphabet (fun e => symbol? e.2) grows hc rs

end Alphabet

section Users
open Alphabet
variable {σ : Type u} [DecidableEq σ] [Hashable σ]

namespace WriteOnce

def Request.symbol? : Request σ → Option σ
  | .insert .. => none
  | .addSymbol s => some s

theorem alphabet_insert (c : WriteOnce σ) (w : Word σ) (b : Bool) :
    (c.insert w b).state.tree.alphabet = c.tree.alphabet := by
  cases h : c.tree.enter w with
  | error s => rw [insert_of_error h]
  | ok d =>
    rw [insert, h, ← Tree.alphabet_enter h]
    simp only
    split
    · rfl
    · split <;> rfl

theorem alphabet_step (c : WriteOnce σ) (r : Request σ) : (c.step r).tree.alphabet =
    r.symbol?.elim c.tree.alphabet fun s => (c.tree.alphabet.add s).1 := by
  cases r with
  | insert w b => exact c.alphabet_insert w b
  | addSymbol s => exact c.tree.alphabet_addSymbol s

theorem alphabet_run (ss : List σ) (settings : Settings) (rs : List (Request σ)) :
    ((new (ofList ss) settings).run rs).tree.alphabet =
      ofList (ss ++ rs.filterMap Request.symbol?) :=
  foldl_registers_requested step (·.tree.alphabet) alphabet_step rfl rs

end WriteOnce

namespace Revisable

def Request.symbol? : Request σ → Option σ
  | .insertAs .. | .retire _ => none
  | .addSymbol s => some s

theorem alphabet_insertAs (c : Revisable σ) (w : Word σ) (b : Bool) (o : Provenance) :
    (c.insertAs w b o).state.tree.alphabet = c.tree.alphabet := by
  cases h : c.tree.enter w with
  | error s => rw [insertAs_of_error h]
  | ok d =>
    rw [insertAs, h, ← Tree.alphabet_enter h]
    simp only
    split
    · rfl
    · split
      · rfl
      · split <;> rfl

theorem alphabet_step (c : Revisable σ) (r : Request σ) : (c.step r).tree.alphabet =
    r.symbol?.elim c.tree.alphabet fun s => (c.tree.alphabet.add s).1 := by
  cases r with
  | insertAs w b o => exact c.alphabet_insertAs w b o
  | addSymbol s => exact c.tree.alphabet_addSymbol s
  | retire id =>
    rw [step, tree_retire]
    rfl

theorem alphabet_run (ss : List σ) (settings : Settings) (rs : List (Request σ)) :
    ((new (ofList ss) settings).run rs).tree.alphabet =
      ofList (ss ++ rs.filterMap Request.symbol?) :=
  foldl_registers_requested step (·.tree.alphabet) alphabet_step rfl rs

end Revisable

namespace TableAutomaton

/-- The symbol that a request registers. A transition that is not added registers none. -/
def registered? : TableAutomaton σ × Request σ → Option σ
  | (m, .addTransition source s target) =>
    if (m.addTransition source s target).2 then some s else none
  | (_, .addState _) | (_, .addInitialState _) | (_, .setInitial _) | (_, .setAccepting ..) => none

def registered (m : TableAutomaton σ) (rs : List (Request σ)) : List σ :=
  (encounters step m rs).filterMap registered?

theorem alphabet_step (m : TableAutomaton σ) (r : Request σ) : (m.step r).alphabet =
    (registered? (m, r)).elim m.alphabet fun s => (m.alphabet.add s).1 := by
  cases r with
  | addTransition source s target =>
    rw [step, registered?]
    by_cases hexist : source < m.size ∧ target < m.size
    · rw [addTransition_of_exist hexist.1 hexist.2]
      rfl
    · rw [addTransition_of_missing hexist]
      rfl
  | _ => rfl

theorem alphabet_run (ss : List σ) (rs : List (Request σ)) :
    ((ofAlphabet (ofList ss)).run rs).alphabet =
      ofList (ss ++ (ofAlphabet (ofList ss)).registered rs) :=
  foldl_registers step alphabet registered? alphabet_step rfl rs

end TableAutomaton

/-- An alphabet to which symbols were added one after the other holds them in the order of their
first coming, under the indices from zero on, and answers each with its index. Later symbols leave
these indices alone, and under caches and automata it is no different. -/
theorem indices_are_dense_and_stay (ss : List σ) :
    (Alphabet.ofList ss).toList = ss.eraseDups ∧
    let a := Alphabet.ofList ss
    (∀ s i, a.index? s = some i ↔ a.symbol? i = some s) ∧
    (∀ s, a.contains s = true ↔ ∃ i, a.index? s = some i) ∧
    (∀ i, (∃ s, a.index? s = some i) ↔ i < a.size) ∧
    (∀ later, let b := ofList (ss ++ later)
      a.addAll later = (b, later.map b.toList.idxOf) ∧
      ∀ s i, a.index? s = some i → b.index? s = some i) ∧
    (∀ settings rs, ((WriteOnce.new a settings).run rs).tree.alphabet =
      ofList (ss ++ rs.filterMap WriteOnce.Request.symbol?)) ∧
    (∀ settings rs, ((Revisable.new a settings).run rs).tree.alphabet =
      ofList (ss ++ rs.filterMap Revisable.Request.symbol?)) ∧
    (∀ rs, ((TableAutomaton.ofAlphabet a).run rs).alphabet =
      ofList (ss ++ (TableAutomaton.ofAlphabet a).registered rs)) := by
  refine ⟨toList_ofList_eq_eraseDups ss, ?_⟩
  intro a
  refine ⟨fun _ _ => index?_eq_some_iff, ?_, fun _ => exists_index?_iff, ?_,
    WriteOnce.alphabet_run ss, Revisable.alphabet_run ss, TableAutomaton.alphabet_run ss⟩
  · intro s
    rw [contains_eq_isSome, Option.isSome_iff_exists]
  · intro later b
    refine ⟨addAll_ofList ss later, ?_⟩
    intro s i hs
    exact index?_of_prefix (prefix_ofList_append ss later) hs

end Users
end MembershipCache
