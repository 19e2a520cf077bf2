import Mathlib.Data.List.Rotate
import MembershipCache.Proofs.Cache.AgeOrder
import MembershipCache.Proofs.Cache.Reload

/-! Observing the oldest word of a revisable cache again and again. The word has its node, so a turn
never fails and creates nothing, and it takes one entry from the old end of the chain to the new
one, whatever becomes of the verdict. So the ages go round. -/
namespace MembershipCache
universe u

namespace Revisable
variable {σ : Type u} [DecidableEq σ] [Hashable σ]

/-- The cache after the word that is the oldest was observed once more, if there is one. -/
def requeried (c : Revisable σ) (answer : Bool × Provenance) : Revisable σ :=
  match c.oldestInput? with
  | some w => (c.insertAs w answer.1 answer.2).state
  | none => c

namespace Dated
variable {c : Revisable σ} {l : List (NodeId × Word σ)}

theorem oldestInput?_eq (h : Dated c l) : c.oldestInput? = l.head?.map (·.2) :=
  h.represents.oldestWord?_eq

theorem requeried_of_nil (h : Dated c []) (answer : Bool × Provenance) :
    c.requeried answer = c := by
  have hnone : c.oldestInput? = none := h.oldestInput?_eq
  rw [requeried, hnone]

theorem requeried_of_cons {e : NodeId × Word σ} (h : Dated c (e :: l)) (hc : c.tree.WellFormed)
    (answer : Bool × Provenance) :
    let r := c.insertAs e.2 answer.1 answer.2
    c.requeried answer = r.state ∧ (∃ replaced, r.answer = .ok replaced) ∧
      r.state.tree.WellFormed ∧ r.state.tree.size = c.tree.size ∧ Dated r.state (l ++ [e]) := by
  intro r
  have holdest : c.oldestInput? = some e.2 := h.oldestInput?_eq
  have hplaced : c.tree.nodeOf? e.2 = some e.1 := h.placed e List.mem_cons_self
  have henter := Tree.enter_of_nodeOf? hplaced
  have hover := Tree.find?_eq_none_of_enter henter
  have hsize : r.state.tree.size = c.tree.size := size_insertAs henter
  have hroom : r.state.tree.size ≤ UInt32.size := hsize ▸ hc.size_le
  have hi : Inserted c e.2 answer.1 answer.2 r := inserted hc hroom hover
  refine ⟨by rw [requeried, holdest], ⟨_, hi.answer_eq⟩, hi.wellFormed, hsize, ?_⟩
  obtain ⟨l', hl', _⟩ := h.insertAs hc hroom hover
  obtain ⟨id, hid, htouched⟩ := hi.refreshed
  rw [hi.nodeOf?_kept hplaced] at hid
  obtain rfl := Option.some.inj hid
  -- the entry is the first of the chain, and no other has its node
  have hfirst : (e :: l).filter (·.1 ≠ e.1) = l := by
    have hrest := Recency.filter_ne_eq_self (List.nodup_cons.1 h.represents.nodup).1
    rw [List.filter_cons_of_neg (by simp), hrest]
  have htoList := (h.represents.touch e.1 e.2).toList_eq
  rw [hfirst, ← htouched] at htoList
  have hturned : l' = l ++ [e] := hl'.ages_eq.symm.trans htoList
  exact hturned ▸ hl'

theorem foldl_requeried (h : Dated c l) (hc : c.tree.WellFormed)
    (answers : List (Bool × Provenance)) :
    let c' := answers.foldl requeried c
    c'.tree.WellFormed ∧ c'.tree.size = c.tree.size ∧ Dated c' (l.rotate answers.length) := by
  induction answers generalizing c l with
  | nil => exact ⟨hc, rfl, by simpa using h⟩
  | cons answer answers ih =>
    cases l with
    | nil =>
      rw [List.foldl_cons, h.requeried_of_nil]
      simpa using ih h hc
    | cons e l =>
      obtain ⟨hturn, _, hwf, hsize, hdated⟩ := h.requeried_of_cons hc answer
      obtain ⟨hwf', hsize', hdated'⟩ := ih hdated hwf
      rw [List.foldl_cons, hturn, List.length_cons, List.rotate_cons_succ]
      exact ⟨hwf', hsize'.trans hsize, hdated'⟩

theorem oldest_encountered (h : Dated c l) (hc : c.tree.WellFormed)
    {answers : List (Bool × Provenance)} (hlength : answers.length ≤ l.length) :
    (encounters requeried c answers).map (·.1.oldestInput?) =
      (l.take answers.length).map (some ·.2) := by
  induction answers generalizing c l with
  | nil => rfl
  | cons answer answers ih =>
    cases l with
    | nil => cases hlength
    | cons e l =>
      rw [List.length_cons, List.length_cons] at hlength
      have hle := Nat.le_of_succ_le_succ hlength
      obtain ⟨hturn, _, hwf, _, hdated⟩ := h.requeried_of_cons hc answer
      have hrest := ih hdated hwf (Nat.le_trans hle (by simp))
      -- the word that went to the new end does not come up again before the others
      rw [List.take_append_of_le_length hle] at hrest
      rw [encounters, hturn, List.map_cons, hrest, h.oldestInput?_eq]
      rfl

end Dated

/-- As many turns as there are ages: each of the words has one, in the order of age at the start, no
insert fails or creates a node, and the ages end as they began. -/
theorem requerying_goes_round (a : Alphabet σ) (settings : Settings) (rs : List (Request σ))
    (answers : List (Bool × Provenance)) :
    let c := (new a settings).run rs
    let turns := encounters requeried c answers
    c.tree.size ≤ UInt32.size → answers.length = c.ages.length →
      turns.map (fun e => e.1.oldestInput?) = c.ages.map (fun e => some e.2) ∧
      (c.ages.map Prod.snd).Nodup ∧
      (∀ d answer, (d, answer) ∈ turns → ∃ w, d.oldestInput? = some w ∧
        let r := d.insertAs w answer.1 answer.2
        (∃ replaced, r.answer = .ok replaced) ∧ r.state.tree.size = c.tree.size) ∧
      (∀ k ≤ answers.length, ((answers.take k).foldl requeried c).ages = c.ages.rotate k) ∧
      (answers.foldl requeried c).tree.size = c.tree.size ∧
      (answers.foldl requeried c).ages = c.ages := by
  intro c turns hroom hlength
  have hwf := wellFormed_run a settings rs hroom
  obtain ⟨l, hl, _⟩ := dated_run a settings rs hroom
  have hages : c.ages = l := hl.ages_eq
  rw [hages] at hlength ⊢
  obtain ⟨_, hsize, hend⟩ := hl.foldl_requeried hwf answers
  refine ⟨?_, hl.nodup_words, ?_, ?_, hsize, ?_⟩
  · have hwords := hl.oldest_encountered hwf (Nat.le_of_eq hlength)
    rw [hlength, List.take_length] at hwords
    exact hwords
  · intro d answer hturn
    obtain ⟨before, after, hanswers, rfl⟩ := exists_of_mem_encounters hturn
    obtain ⟨hwf', hsize', hmet⟩ := hl.foldl_requeried hwf before
    cases hturned : l.rotate before.length with
    | nil =>
      rw [List.rotate_eq_nil_iff] at hturned
      rw [hturned, hanswers] at hlength
      simp at hlength
    | cons e l' =>
      rw [hturned] at hmet
      obtain ⟨_, hok, _, hsame, _⟩ := hmet.requeried_of_cons hwf' answer
      exact ⟨e.2, hmet.oldestInput?_eq, hok, hsame.trans hsize'⟩
  · intro k hk
    have hturned := (hl.foldl_requeried hwf (answers.take k)).2.2
    rw [List.length_take_of_le hk] at hturned
    exact hturned.ages_eq
  · rw [hlength, List.rotate_length] at hend
    exact hend.ages_eq

theorem requerying_goes_round_over_contradictions :
    let c : Revisable Nat := (new (.ofList [1]) {}).run [.insertAs [] true .user,
      .insertAs [1] false .oracle, .insertAs [1, 1] true .user, .insertAs [] false .oracle]
    let answers : List (Bool × Provenance) := [(true, .oracle), (false, .oracle), (false, .user)]
    c.tree.size ≤ UInt32.size ∧ answers.length = c.ages.length ∧
      (encounters requeried c answers).map (fun e => e.1.oldestInput?) =
        [some [1], some [1, 1], some []] ∧
      (answers.foldl requeried c).tree.size = c.tree.size ∧
      (answers.foldl requeried c).ages = c.ages := by
  intro c answers
  have hroom : c.tree.size ≤ UInt32.size :=
    Nat.le_trans (size_run_le (.ofList [1]) {} _) (by decide)
  have hletters : (Alphabet.ofList [1]).toList = [1] := Alphabet.toList_ofList_of_nodup (by decide)
  have hages : c.ages = [(.ofPosition 1, [1]), (.ofPosition 2, [1, 1]), (.root, [])] :=
    (ages_run hletters {} _ hroom).trans (by decide)
  have hlength : answers.length = c.ages.length := by rw [hages]; rfl
  obtain ⟨hturns, _, _, _, hsize, hend⟩ := requerying_goes_round (.ofList [1]) {}
    [.insertAs [] true .user, .insertAs [1] false .oracle, .insertAs [1, 1] true .user,
      .insertAs [] false .oracle] answers hroom hlength
  rw [hages] at hturns
  exact ⟨hroom, hlength, hturns, hsize, hend⟩

end Revisable
end MembershipCache
