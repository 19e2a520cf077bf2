import Mathlib.Data.List.Nodup
import MembershipCache.Proofs.Cache.Outline
import MembershipCache.Proofs.Recency
import MembershipCache.Proofs.Tree.Traversal

/-! The ages of a revisable cache are a list of words, from the one observed longest ago. An insert
that is not refused moves its word to the newest end, and a retirement drops the words that come
through its node. -/
namespace MembershipCache
universe u

namespace Revisable
variable {σ : Type u} [DecidableEq σ] [Hashable σ]

def reorder (ws : List (Word σ)) : Revisable σ × Request σ → List (Word σ)
  | (c, .insertAs w b o) => if (c.insertAs w b o).answer.isOk then ws.erase w ++ [w] else ws
  | (_, .addSymbol _) => ws
  | (c, .retire id) => ws.filter fun w => !c.tree.passes id w

def aged (c : Revisable σ) (rs : List (Request σ)) : List (Word σ) :=
  (encounters step c rs).foldl reorder []

theorem aged_concat (c : Revisable σ) (rs : List (Request σ)) (r : Request σ) :
    c.aged (rs ++ [r]) = reorder (c.aged rs) (c.run rs, r) := by
  rw [aged, encounters_concat, List.foldl_append]
  rfl

/-- The chain is this list, and each of its words ends at its node, where a verdict is known. -/
structure Dated (c : Revisable σ) (l : List (NodeId × Word σ)) : Prop where
  represents : c.recency.Represents l
  placed : ∀ e ∈ l, c.tree.nodeOf? e.2 = some e.1
  known : ∀ e ∈ l, (c.tree.stored? e.2).isSome

theorem dated_new (a : Alphabet σ) (settings : Settings) : Dated (new a settings) [] :=
  ⟨Recency.represents_empty, fun _ h => absurd h List.not_mem_nil,
    fun _ h => absurd h List.not_mem_nil⟩

namespace Dated
variable {c : Revisable σ} {l : List (NodeId × Word σ)} (h : Dated c l)
include h

theorem ages_eq : c.ages = l := h.represents.toList_eq

theorem nodup_words : (l.map (·.2)).Nodup := by
  have hentries : l.Nodup := List.Nodup.of_map _ h.represents.nodup
  refine List.Nodup.map_on ?_ hentries
  intro e he e' he' hword
  have hid := h.placed e he
  rw [hword, h.placed e' he'] at hid
  exact Prod.ext (Option.some.inj hid).symm hword

theorem insertAs (hc : c.tree.WellFormed) {w : Word σ} {b : Bool} {o : Provenance}
    (hroom : (c.insertAs w b o).state.tree.size ≤ UInt32.size)
    (hover : w.find? (· ∉ c.tree.alphabet.toList) = none) :
    ∃ l', Dated (c.insertAs w b o).state l' ∧ l'.map (·.2) = (l.map (·.2)).erase w ++ [w] := by
  have hi := inserted hc hroom hover
  obtain ⟨id, hid, hrec⟩ := hi.refreshed
  -- taking out the entry of the node is taking out the word
  have hsame : ∀ e ∈ l, e.1 = id ↔ e.2 = w := by
    intro e he
    have hplaced := hi.nodeOf?_kept (h.placed e he)
    constructor
    · intro heid
      rw [heid] at hplaced
      exact hi.wellFormed.nodeOf?_inj hplaced hid
    · intro hew
      rw [hew, hid] at hplaced
      exact (Option.some.inj hplaced).symm
  refine ⟨l.filter (·.1 ≠ id) ++ [(id, w)], ⟨?_, ?_, ?_⟩, ?_⟩
  · rw [hrec]
    exact h.represents.touch id w
  · intro e he
    rcases List.mem_append.1 he with he | he
    · exact hi.nodeOf?_kept (h.placed e (List.mem_of_mem_filter he))
    · rw [List.mem_singleton.1 he]
      exact hid
  · intro e he
    rw [hi.stored?_eq]
    split_ifs with hw
    · exact isSome_arbitrate ..
    · rcases List.mem_append.1 he with he | he
      · exact h.known e (List.mem_of_mem_filter he)
      · rw [List.mem_singleton.1 he] at hw
        exact absurd rfl hw
  · rw [List.map_append, h.nodup_words.erase_eq_filter, List.filter_map, List.map_singleton]
    congr 2
    apply List.filter_congr
    intro e he
    simp only [ne_eq, decide_not, hsame e he, Function.comp_apply, bne, beq_eq_decide]

theorem addSymbol (hc : c.tree.WellFormed) (s : σ) : Dated (c.addSymbol s).state l := by
  refine ⟨h.represents, ?_, ?_⟩
  · intro e he
    rw [← h.placed e he]
    exact hc.nodeOf?_addSymbol s e.2
  · intro e he
    have hentry : (c.addSymbol s).state.tree.stored? e.2 = c.tree.stored? e.2 :=
      hc.stored?_addSymbol s e.2
    rw [hentry]
    exact h.known e he

theorem retire (hc : c.tree.WellFormed) (id : NodeId) :
    Dated (c.retire id).1 (l.filter fun e => !c.tree.passes id e.2) ∧
      (c.retire id).2 = l.countP fun e => c.tree.passes id e.2 := by
  cases hn : c.tree.node? id with
  | none =>
    have hnone : ∀ w, c.tree.passes id w = false := hc.passes_of_absent hn
    have hretire : c.retire id = (c, 0) := by rw [Revisable.retire, hn]
    simp only [hretire, hnone]
    simpa using h
  | some n =>
    have hid : id.position < c.tree.size := Tree.node?_isSome_iff.1 (by simp [hn])
    have hretire : c.retire id =
        ({ c with recency := (c.recency.removeAll (c.tree.breadthFirst [id])).1 },
          (c.recency.removeAll (c.tree.breadthFirst [id])).2) := by
      rw [Revisable.retire, hn]
    have hfilter : l.filter (fun e => !c.tree.passes id e.2) =
        l.filter (·.1 ∉ c.tree.breadthFirst [id]) := by
      apply List.filter_congr
      intro e he
      have hiff := hc.mem_breadthFirst_iff_passes hid (h.placed e he)
      cases hp : c.tree.passes id e.2 <;> simp [hiff, hp]
    obtain ⟨hrest, hcount⟩ := h.represents.removeAll (c.tree.breadthFirst [id])
    rw [hretire]
    refine ⟨⟨?_, ?_, ?_⟩, ?_⟩
    · rw [hfilter]
      exact hrest
    · intro e he
      exact h.placed e (List.mem_of_mem_filter he)
    · intro e he
      exact h.known e (List.mem_of_mem_filter he)
    · rw [← hfilter] at hcount
      have hsplit : l.length = l.countP (fun e => c.tree.passes id e.2) +
          l.countP fun e => ¬c.tree.passes id e.2 := List.length_eq_countP_add_countP _
      have hleft : l.countP (fun e => ¬c.tree.passes id e.2) =
          (l.filter fun e => !c.tree.passes id e.2).length := by
        rw [List.countP_eq_length_filter]
        simp
      simp only
      omega

end Dated

theorem dated_step {c : Revisable σ} {l : List (NodeId × Word σ)} (h : Dated c l)
    (hc : c.tree.WellFormed) {r : Request σ} (hroom : (c.step r).tree.size ≤ UInt32.size) :
    ∃ l', Dated (c.step r) l' ∧ l'.map (·.2) = reorder (l.map (·.2)) (c, r) := by
  cases r with
  | addSymbol s => exact ⟨l, h.addSymbol hc s, rfl⟩
  | retire id =>
    refine ⟨_, (h.retire hc id).1, ?_⟩
    rw [reorder, List.filter_map]
    rfl
  | insertAs w b o =>
    cases hfind : w.find? (· ∉ c.tree.alphabet.toList) with
    | some s =>
      rw [step, reorder, insertAs_of_foreign hfind]
      exact ⟨l, h, rfl⟩
    | none =>
      obtain ⟨l', hl', hwords⟩ := h.insertAs hc hroom hfind
      refine ⟨l', hl', ?_⟩
      rw [hwords, reorder, (inserted hc hroom hfind).answer_eq]
      rfl

theorem dated_run (a : Alphabet σ) (settings : Settings) (rs : List (Request σ))
    (hroom : ((new a settings).run rs).tree.size ≤ UInt32.size) :
    ∃ l, Dated ((new a settings).run rs) l ∧ l.map (·.2) = (new a settings).aged rs := by
  induction rs using List.reverseRecOn with
  | nil => exact ⟨[], dated_new a settings, rfl⟩
  | append_singleton rs r ih =>
    obtain ⟨hwf, hafter⟩ := wellFormed_before rfl hroom
    obtain ⟨l, hl, hwords⟩ := ih (Nat.le_trans (size_step _ r).1 hafter)
    rw [run_concat, aged_concat, ← hwords]
    exact dated_step hl hwf hafter

/-- What one request does to the words in order of age, told from the outline. -/
def reorderBy (ws : List (Word σ)) : Outline σ (Bool × Provenance) × Request σ → List (Word σ)
  | (o, .insertAs w _ _) => if w.find? (· ∉ o.letters) = none then ws.erase w ++ [w] else ws
  | (_, .addSymbol _) => ws
  | (o, .retire id) =>
    match (Word.firstUses o.words)[id.position]? with
    | some u => ws.filter (¬u <+: ·)
    | none => ws

theorem reorder_eq_reorderBy {c : Revisable σ} {o : Outline σ (Bool × Provenance)}
    {entered ws : List (Word σ)} (h : o.Describes c.tree entered c.tree.stored?) {r : Request σ}
    (hroom : (c.step r).tree.size ≤ UInt32.size) : reorder ws (c, r) = reorderBy ws (o, r) := by
  have hc : c.tree.WellFormed := h.holds.wellFormed
  cases r with
  | addSymbol s => rfl
  | insertAs w b origin =>
    rw [reorder, reorderBy, ← h.letters_eq]
    cases hfind : w.find? (· ∉ c.tree.alphabet.toList) with
    | some s =>
      rw [insertAs_of_foreign hfind]
      simp [Except.isOk, Except.toBool]
    | none =>
      rw [(inserted hc hroom hfind).answer_eq]
      simp [Except.isOk, Except.toBool]
  | retire id =>
    rw [reorder, reorderBy]
    cases hu : (Word.firstUses o.words)[id.position]? with
    | some u =>
      have hnode : c.tree.nodeOf? u = some id := by
        have hat := h.holds.numbers.nodeOf?_of_getElem? (h.words_eq ▸ hu)
        rwa [NodeId.ofPosition_position] at hat
      simp only [← hc.passes_nodeOf? hnode]
      simp
    | none =>
      have habsent : c.tree.node? id = none := by
        rw [Tree.node?_eq_none_iff, h.size_eq]
        exact List.getElem?_eq_none_iff.1 hu
      simp [hc.passes_of_absent habsent]

theorem aged_eq {a : Alphabet σ} {letters : List σ} (ha : a.toList = letters) (settings : Settings)
    (rs : List (Request σ)) (hroom : ((new a settings).run rs).tree.size ≤ UInt32.size) :
    (new a settings).aged rs = (encounters outline (.new letters) rs).foldl reorderBy [] := by
  induction rs using List.reverseRecOn with
  | nil => rfl
  | append_singleton rs r ih =>
    have hafter := run_concat (new a settings) rs r ▸ hroom
    have hbefore := Nat.le_trans (size_step _ r).1 hafter
    rw [aged_concat, encounters_concat, List.foldl_concat, ih hbefore]
    exact reorder_eq_reorderBy (describes_run ha settings rs hbefore) hafter

/-- The ages of a cache, told from the outline of its run. -/
theorem ages_run {a : Alphabet σ} {letters : List σ} (ha : a.toList = letters)
    (settings : Settings) (rs : List (Request σ))
    (hroom : ((new a settings).run rs).tree.size ≤ UInt32.size) :
    ((new a settings).run rs).ages =
      ((encounters outline (.new letters) rs).foldl reorderBy []).filterMap fun w =>
        ((rs.foldl outline (.new letters)).nodeOf? w).map (·, w) := by
  obtain ⟨l, hl, hwords⟩ := dated_run a settings rs hroom
  rw [hl.ages_eq, ← aged_eq ha settings rs hroom, ← hwords, List.filterMap_map]
  refine List.filterMap_some.symm.trans (List.filterMap_congr fun e he => ?_)
  rw [Function.comp_apply, ← (describes_run ha settings rs hroom).nodeOf?_eq, hl.placed e he]
  rfl

/-- The ages after a run are the words in order of age, each with its node. None occurs twice, and
on each a verdict is known. A retirement drops what extends the word of its node and answers how
many words that were. -/
theorem run_orders_by_age (a : Alphabet σ) (settings : Settings) (rs : List (Request σ))
    (hroom : ((new a settings).run rs).tree.size ≤ UInt32.size) :
    let c := (new a settings).run rs
    let ws := (new a settings).aged rs
    c.ages.map (fun e => (some e.1, e.2)) = ws.map (fun w => (c.tree.nodeOf? w, w)) ∧
    c.oldestInput? = ws.head? ∧
    ws.Nodup ∧
    (∀ e ∈ c.ages, (c.tree.verdictAt e.1).isKnown) ∧
    (∀ before id after, rs = before ++ .retire id :: after →
      let c := (new a settings).run before
      let ws := (new a settings).aged before
      (∀ u, c.tree.nodeOf? u = some id →
        (new a settings).aged (before ++ [.retire id]) = ws.filter (¬u <+: ·) ∧
          (c.retire id).2 = ws.countP (u <+: ·)) ∧
      (c.tree.node? id = none → c.retire id = (c, 0))) := by
  intro c ws
  obtain ⟨l, hl, hwords⟩ := dated_run a settings rs hroom
  change _ = ws at hwords
  refine ⟨?_, ?_, ?_, ?_, ?_⟩
  · rw [hl.ages_eq, ← hwords, List.map_map]
    apply List.map_congr_left
    intro e he
    rw [Function.comp_apply, hl.placed e he]
  · rw [oldestInput?, hl.represents.oldestWord?_eq, ← hwords, List.head?_map]
  · rw [← hwords]
    exact hl.nodup_words
  · intro e he
    rw [hl.ages_eq] at he
    have hknown := hl.known e he
    rw [Tree.stored?, hl.placed e he, Option.bind_some, Option.isSome_map] at hknown
    exact hknown
  · intro before id after hrs c ws
    obtain ⟨hwf, hafter⟩ := wellFormed_before hrs hroom
    obtain ⟨l, hl, hwords⟩ := dated_run a settings before (Nat.le_trans (size_step _ _).1 hafter)
    change _ = ws at hwords
    refine ⟨?_, ?_⟩
    · intro u hu
      have hpasses : ∀ w, c.tree.passes id w = decide (u <+: w) := by
        intro w
        rw [Bool.eq_iff_iff, hwf.passes_nodeOf? hu, decide_eq_true_iff]
      constructor
      · rw [aged_concat, reorder]
        simp only [decide_not, ← hpasses]
        rfl
      · rw [(hl.retire hwf id).2, ← hwords, List.countP_map]
        simp only [← hpasses]
        rfl
    · intro hid
      rw [retire, hid]

/-- A retirement of the node of `[1]` in the middle of observations, and words that are observed
again after it. -/
theorem run_orders_by_age_over_retirement :
    let c : Revisable Nat := new (.ofList [1, 2]) {}
    let early : List (Request Nat) := [.insertAs [1] true .oracle, .insertAs [1, 2] true .user,
      .insertAs [2] false .oracle]
    let late : List (Request Nat) := [.addSymbol 7, .insertAs [2, 7] true .user,
      .insertAs [1] false .oracle, .insertAs [2] true .user]
    let rs := early ++ .retire (.ofPosition 1) :: late
    (c.run rs).tree.size ≤ UInt32.size ∧
      (c.run rs).ages = [(.ofPosition 4, [2, 7]), (.ofPosition 1, [1]), (.ofPosition 3, [2])] ∧
      (c.run rs).oldestInput? = some [2, 7] ∧
      (c.run early).tree.nodeOf? [1] = some (.ofPosition 1) ∧
      c.aged early = [[1], [1, 2], [2]] ∧
      c.aged (early ++ [.retire (.ofPosition 1)]) = [[2]] ∧
      ((c.run early).retire (.ofPosition 1)).2 = 2 := by
  intro c early late rs
  have hletters : (Alphabet.ofList [1, 2]).toList = [1, 2] :=
    Alphabet.toList_ofList_of_nodup (by decide)
  have hroom : (c.run rs).tree.size ≤ UInt32.size :=
    Nat.le_trans (size_run_le (.ofList [1, 2]) {} rs) (by decide)
  have hearly : (c.run early).tree.size ≤ UInt32.size :=
    Nat.le_trans (size_run_le (.ofList [1, 2]) {} early) (by decide)
  have hages : (c.run rs).ages = _ := ages_run hletters {} rs hroom
  have hnodes := (describes_run hletters {} early hearly).nodeOf?_eq
  have hbefore : c.aged early = [[1], [1, 2], [2]] :=
    (aged_eq hletters {} early hearly).trans (by decide)
  obtain ⟨_, holdest, _, _, hretired⟩ := run_orders_by_age (.ofList [1, 2]) {} rs hroom
  obtain ⟨hleft, hcount⟩ := (hretired early (.ofPosition 1) late rfl).1 [1] (hnodes [1])
  refine ⟨hroom, hages.trans (by decide), ?_, hnodes [1], hbefore, ?_, ?_⟩
  · rw [holdest, aged_eq hletters {} rs hroom]
    decide
  · rw [hleft, hbefore]
    decide
  · rw [hcount, hbefore]
    decide

end Revisable
end MembershipCache
