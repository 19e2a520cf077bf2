import Mathlib.Data.Set.Card
import MembershipCache.Proofs.Cache.Commutation
import MembershipCache.Proofs.Dispute

/-! Repair of a revisable cache by an acceptor. As long as the search finds a word on which the two
differ, a user asserts what the acceptor says of it. Every round settles the one word that it is
about, whoever asserted its verdict, and takes no other out of dispute and brings none in; so the
rounds end, and there are as many as there were words in dispute. -/
namespace MembershipCache
universe u w

namespace Revisable
variable {σ : Type u} {Q : Type w} [DecidableEq σ] [Hashable σ] {target : Acceptor σ Q}
  {probes : Array σ} {skipUndefined : Bool}

/-- Rounds of repair, each with the state it met and the word it asserted, up to a state in which
the search finds nothing. -/
inductive Repaired (target : Acceptor σ Q) (probes : Array σ) (skipUndefined : Bool) :
    Revisable σ → List (Revisable σ × Word σ) → Revisable σ → Prop
  | done {c : Revisable σ} (found : c.tree.separatingWord? target probes skipUndefined = none) :
    Repaired target probes skipUndefined c [] c
  | round {c c' : Revisable σ} {w : Word σ} {rounds : List (Revisable σ × Word σ)}
    (found : c.tree.separatingWord? target probes skipUndefined = some w)
    (rest : Repaired target probes skipUndefined
      (c.insertFromUser w (target.accepts w)).state rounds c') :
    Repaired target probes skipUndefined c ((c, w) :: rounds) c'

structure Overruled (c : Revisable σ) (w : Word σ) (b : Bool)
    (r : Reply (Revisable σ) (Except (Refusal σ) Bool)) : Prop where
  wellFormed : r.state.tree.WellFormed
  answer_eq : r.answer = .ok true
  size_eq : r.state.tree.size = c.tree.size
  committed?_eq : ∀ u, r.state.tree.committed? u =
    if u = w then some b else c.tree.committed? u

theorem overruled {c : Revisable σ} (hc : c.tree.WellFormed) {w : Word σ} {b : Bool}
    (hw : c.tree.committed? w = some (!b)) : Overruled c w b (c.insertFromUser w b) := by
  obtain ⟨id, hid, _⟩ := Option.bind_eq_some_iff.1 hw
  have henter : c.tree.enter w = .ok ⟨c.tree, id, []⟩ := Tree.enter_of_nodeOf? hid
  have hsize : (c.insertFromUser w b).state.tree.size = c.tree.size := size_insertAs henter
  rw [Tree.committed?_eq_map_stored?, Option.map_eq_some_iff] at hw
  obtain ⟨⟨x, stored⟩, hstored, hx⟩ := hw
  rw [show x = !b from hx] at hstored
  have h : Inserted c w b .user (c.insertFromUser w b) :=
    inserted hc (hsize ▸ hc.size_le) (Tree.find?_eq_none_of_enter henter)
  refine ⟨h.wellFormed, ?_, hsize, ?_⟩
  · rw [h.answer_eq, hstored]
    simp [overrules]
  · intro u
    rw [Tree.committed?_eq_map_stored?, h.stored?_eq, Tree.committed?_eq_map_stored?, hstored,
      arbitrate_replaced b (Or.inl rfl)]
    split <;> rfl

theorem Overruled.disputed_eq {c : Revisable σ} {w : Word σ}
    {r : Reply (Revisable σ) (Except (Refusal σ) Bool)} (h : Overruled c w (target.accepts w) r) :
    r.state.tree.disputed target probes skipUndefined =
      c.tree.disputed target probes skipUndefined \ {w} :=
  Tree.disputed_eq_diff_of_settled h.committed?_eq

section Start
variable {q : Q} (hq : target.start? = some q)
include hq

theorem overruled_of_separatingWord? {c : Revisable σ} (hc : c.tree.WellFormed) {w : Word σ}
    (hw : c.tree.separatingWord? target probes skipUndefined = some w) :
    Overruled c w (target.accepts w) (c.insertFromUser w (target.accepts w)) :=
  overruled hc (Tree.lookup_eq_iff.1 (Tree.mem_disputed_of_separatingWord? hq hc hw).2)

theorem exists_repaired {c : Revisable σ} (hc : c.tree.WellFormed)
    (hfinite : (c.tree.disputed target probes skipUndefined).Finite) :
    ∃ rounds c', Repaired target probes skipUndefined c rounds c' := by
  induction hn : (c.tree.disputed target probes skipUndefined).ncard using Nat.strong_induction_on
    generalizing c with
  | h n ih =>
    cases hfound : c.tree.separatingWord? target probes skipUndefined with
    | none => exact ⟨[], c, .done hfound⟩
    | some w =>
      have hround := overruled_of_separatingWord? hq hc hfound
      -- the word answered was in dispute and is not after the round, so fewer are left
      have hfewer := Set.ncard_sdiff_singleton_lt_of_mem
        (Tree.mem_disputed_of_separatingWord? hq hc hfound) hfinite
      have hleft := hfinite.sdiff (t := {w})
      rw [← hround.disputed_eq] at hfewer hleft
      rw [hn] at hfewer
      obtain ⟨rounds, c', hrest⟩ := ih _ hfewer hround.wellFormed hleft rfl
      exact ⟨(c, w) :: rounds, c', .round hfound hrest⟩

theorem Repaired.settles {c c' : Revisable σ} {rounds : List (Revisable σ × Word σ)}
    (h : Repaired target probes skipUndefined c rounds c') (hc : c.tree.WellFormed) :
    (rounds.map (·.2)).Nodup ∧
      (∀ w, w ∈ rounds.map (·.2) ↔ w ∈ c.tree.disputed target probes skipUndefined) ∧
      ∀ e ∈ rounds, (e.1.insertFromUser e.2 (target.accepts e.2)).answer = .ok true ∧
        (e.1.insertFromUser e.2 (target.accepts e.2)).state.tree.size = c.tree.size := by
  induction h with
  | @done c found =>
    rw [Tree.separatingWord?_eq_none_iff_disputed hq hc] at found
    rw [found]
    simp
  | @round c c' w rounds found rest ih =>
    have hround := overruled_of_separatingWord? hq hc found
    obtain ⟨hnodup, hwords, hrounds⟩ := ih hround.wellFormed
    rw [hround.disputed_eq] at hwords
    refine ⟨?_, ?_, ?_⟩
    · rw [List.map_cons, List.nodup_cons]
      refine ⟨?_, hnodup⟩
      rw [hwords]
      exact fun h => h.2 rfl
    · intro u
      rw [List.map_cons, List.mem_cons, hwords]
      constructor
      · rintro (rfl | hu)
        · exact Tree.mem_disputed_of_separatingWord? hq hc found
        · exact hu.1
      · intro hu
        by_cases huw : u = w
        · exact Or.inl huw
        · exact Or.inr ⟨hu, huw⟩
    · intro e he
      rcases List.mem_cons.1 he with rfl | he
      · exact ⟨hround.answer_eq, hround.size_eq⟩
      · obtain ⟨hanswer, hsize⟩ := hrounds e he
        exact ⟨hanswer, hsize.trans hround.size_eq⟩

end Start

/-- Repair of a cache ends, and takes as many rounds as there are words in dispute at the start.
Each of them is asserted once, replaces a verdict and needs no node. -/
theorem repair_settles_disputes (a : Alphabet σ) (settings : Settings) (rs : List (Request σ))
    (target : Acceptor σ Q) (probes : Array σ) (skipUndefined : Bool) :
    let c := (new a settings).run rs
    let disputed := c.tree.disputed target probes skipUndefined
    c.tree.size ≤ UInt32.size → target.start?.isSome →
      disputed.Finite ∧
      (∃ rounds c', Repaired target probes skipUndefined c rounds c') ∧
      ∀ rounds c', Repaired target probes skipUndefined c rounds c' →
        rounds.length = disputed.ncard ∧
        (rounds.map (·.2)).Nodup ∧
        (∀ w, w ∈ rounds.map (·.2) ↔ w ∈ disputed) ∧
        ∀ e ∈ rounds, (e.1.insertFromUser e.2 (target.accepts e.2)).answer = .ok true ∧
          (e.1.insertFromUser e.2 (target.accepts e.2)).state.tree.size = c.tree.size := by
  intro c disputed hroom hstart
  obtain ⟨q, hq⟩ := Option.isSome_iff_exists.1 hstart
  have hholds := holds_run a settings rs hroom
  have hfinite : disputed.Finite := hholds.finite_disputed
  refine ⟨hfinite, exists_repaired hq hholds.wellFormed hfinite, ?_⟩
  intro rounds c' hrepaired
  obtain ⟨hnodup, hwords, hrounds⟩ := hrepaired.settles hq hholds.wellFormed
  refine ⟨?_, hnodup, hwords, hrounds⟩
  have hset : disputed = ((rounds.map (·.2)).toFinset : Set (Word σ)) := by
    ext w
    rw [Finset.mem_coe, List.mem_toFinset]
    exact (hwords w).symm
  rw [hset, Set.ncard_coe_finset, List.toFinset_card_of_nodup hnodup, List.length_map]

theorem repair_settles_disputes_of_parity :
    let odd : Acceptor Nat Bool := ⟨some false, fun q _ => some !q, id⟩
    let c : Revisable Nat := (new (.ofList [1]) {}).run
      [.insertAs [] true .user, .insertAs [1] false .oracle, .insertAs [1, 1] false .user]
    c.tree.size ≤ UInt32.size ∧ odd.start?.isSome ∧
      c.tree.disputed odd #[7, 1, 1] true = {[], [1]} ∧
      (∃ rounds c', Repaired odd #[7, 1, 1] true c rounds c') ∧
      ∀ rounds c', Repaired odd #[7, 1, 1] true c rounds c' → rounds.length = 2 := by
  intro odd c
  have hroom : c.tree.size ≤ UInt32.size :=
    Nat.le_trans (size_run_le (.ofList [1]) {} _) (by decide)
  have hletters : (Alphabet.ofList [1]).toList = [1] := Alphabet.toList_ofList_of_nodup (by decide)
  have hstored : ∀ w, c.tree.stored? w = if w = [1, 1] then some (false, .user) else
      if w = [1] then some (false, .oracle) else if w = [] then some (true, .user) else none :=
    (describes_run hletters {} _ hroom).entry_eq
  have hdisputed : c.tree.disputed odd #[7, 1, 1] true = {[], [1]} := by
    ext w
    rw [Tree.disputed, Set.mem_ofPred_eq, Tree.lookup_eq_iff, Tree.committed?_eq_map_stored?,
      hstored]
    constructor
    · intro h
      by_contra hw
      simp only [Set.mem_insert_iff, Set.mem_singleton_iff, not_or] at hw
      by_cases h₁₁ : w = [1, 1]
      · subst h₁₁
        cases h.2
      · rw [if_neg h₁₁, if_neg hw.2, if_neg hw.1] at h
        cases h.2
    · intro h
      rcases h with rfl | rfl
      · exact ⟨⟨by simp, rfl, fun _ => rfl⟩, rfl⟩
      · exact ⟨⟨by simp, rfl, fun _ => rfl⟩, rfl⟩
  obtain ⟨_, hends, hrounds⟩ := repair_settles_disputes (.ofList [1]) {}
    [.insertAs [] true .user, .insertAs [1] false .oracle, .insertAs [1, 1] false .user] odd
    #[7, 1, 1] true hroom rfl
  refine ⟨hroom, rfl, hdisputed, hends, ?_⟩
  intro rounds c' hrepaired
  rw [(hrounds rounds c' hrepaired).1]
  exact hdisputed ▸ Set.ncard_pair (by simp)

end Revisable
end MembershipCache
