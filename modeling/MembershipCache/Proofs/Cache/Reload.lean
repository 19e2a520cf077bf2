import Mathlib.Data.List.Dedup
import MembershipCache.Proofs.Cache.AgeOrder
import MembershipCache.Proofs.Cache.Commutation
import MembershipCache.Proofs.Cache.Snapshot
import MembershipCache.Proofs.Cache.Tandem
import MembershipCache.Proofs.Cache.UserAssertion

/-! Loading a batch of inserts twice. The second time every word has its node and its verdict, so
the arena stays. In a write-once cache each insert meets the verdict that its word had from the
first on, and is answered as it was. In a revisable cache inserts may overwrite each other again,
but the machine of each word ends where it did, and so does the order of the ages. -/
namespace MembershipCache
universe u v

/-- Words that are moved to the end in turn stand there in the order of their last moves, behind
those that were not moved. -/
theorem foldl_moved {σ : Type u} [DecidableEq σ] (xs ys : List (Word σ)) (hxs : xs.Nodup) :
    ys.foldl (fun xs y => xs.erase y ++ [y]) xs = xs.filter (· ∉ ys) ++ ys.dedup := by
  induction ys generalizing xs with
  | nil => simp
  | cons y ys ih =>
    have hmoved : (xs.erase y ++ [y]).Nodup := by
      rw [List.nodup_append_comm, List.singleton_append, List.nodup_cons]
      exact ⟨hxs.not_mem_erase, hxs.erase y⟩
    have hrest : xs.filter (· ∉ y :: ys) = (xs.erase y).filter (· ∉ ys) := by
      rw [hxs.erase_eq_filter, List.filter_filter]
      apply List.filter_congr
      intro x _
      by_cases hx : x = y <;> simp [hx]
    rw [List.foldl_cons, ih _ hmoved, List.filter_append, hrest, List.append_assoc]
    by_cases hy : y ∈ ys
    · simp [hy]
    · simp [hy]

namespace Tree
variable {σ : Type u} {P : Type v} [DecidableEq σ] [Hashable σ]

theorem eq_of_node? {t t' : Tree σ P} (hroom : t.size ≤ UInt32.size) (hsize : t'.size = t.size)
    (halphabet : t'.alphabet = t.alphabet) (hwidth : t'.width = t.width)
    (hnode : ∀ id, t'.node? id = t.node? id) : t' = t := by
  have hnodes : t'.nodes = t.nodes := by
    apply Array.ext_getElem?
    intro p
    by_cases hp : p < t.size
    · have hposition : (NodeId.ofPosition p).position = p := by
        rw [NodeId.position_ofPosition, Nat.mod_eq_of_lt (Nat.lt_of_lt_of_le hp hroom)]
      have hsame := hnode (.ofPosition p)
      rwa [node?, node?, hposition] at hsame
    · have hp' : ¬p < t'.size := hsize ▸ hp
      rw [Array.getElem?_eq_none (Nat.le_of_not_lt hp),
        Array.getElem?_eq_none (Nat.le_of_not_lt hp')]
  cases t
  cases t'
  cases hnodes
  cases halphabet
  cases hwidth
  rfl

/-- Verdicts and tags differ at most where a verdict was known and still is. -/
structure Revised (t t' : Tree σ P) : Prop where
  bare_eq : t'.bare = t.bare
  known : ∀ id, (t.verdictAt id).isKnown = true → (t'.verdictAt id).isKnown = true
  untouched : ∀ id, (t.verdictAt id).isKnown = false → t'.node? id = t.node? id

namespace Revised

theorem refl (t : Tree σ P) : t.Revised t := ⟨rfl, fun _ h => h, fun _ _ => rfl⟩

theorem trans {t t' t'' : Tree σ P} (h : t.Revised t') (h' : t'.Revised t'') : t.Revised t'' := by
  refine ⟨h'.bare_eq.trans h.bare_eq, fun id hid => h'.known id (h.known id hid), ?_⟩
  intro id hid
  have hnode := h.untouched id hid
  have hsame : t'.verdictAt id = t.verdictAt id := by rw [verdictAt, hnode, verdictAt]
  rw [h'.untouched id (hsame ▸ hid), hnode]

theorem write {t : Tree σ P} {id : NodeId} (hid : (t.verdictAt id).isKnown = true) (b : Bool)
    (p : P) : t.Revised (t.write id (.ofBool b) p) := by
  have hsize : id.position < t.size := by
    rw [← node?_isSome_iff]
    cases hn : t.node? id with
    | none => simp [verdictAt, hn, Verdict.isKnown, Verdict.committed?] at hid
    | some n => rfl
  refine ⟨t.bare_modify (f := fun n => (n.setVerdict (.ofBool b)).setTag p) (fun _ => rfl) id,
    ?_, ?_⟩
  · intro j hj
    rw [verdictAt_write hsize]
    split
    · simp [Verdict.isKnown]
    · exact hj
  · intro j hj
    rw [Tree.write, node?_modify, if_neg]
    rintro rfl
    rw [hid] at hj
    cases hj

variable {t t' : Tree σ P} (h : t.Revised t')
include h

theorem size_eq : t'.size = t.size := by
  have hsize := congrArg size h.bare_eq
  simpa only [bare, size_relabel] using hsize

theorem committed {w : Word σ} (hw : (t.committed? w).isSome) : (t'.committed? w).isSome := by
  rw [committed?, nodeOf?_eq_of_bare h.bare_eq]
  rw [committed?] at hw
  cases hid : t.nodeOf? w with
  | none => simp [hid] at hw
  | some id =>
    rw [hid] at hw
    exact h.known id hw

theorem children_eq {id : NodeId} {n n' : Node P} (hn : t.node? id = some n)
    (hn' : t'.node? id = some n') : n'.children = n.children := by
  have hchildren := congrArg (·[id.position]?) (children_eq_of_bare h.bare_eq)
  rw [node?] at hn hn'
  simpa [hn, hn'] using hchildren

theorem node_eq [Inhabited P] {w : Word σ} {id : NodeId} {n n' : Node P}
    (hstored : t'.stored? w = t.stored? w) (hw : t.nodeOf? w = some id)
    (hn : t.node? id = some n) (hn' : t'.node? id = some n')
    (hknown : (t.verdictAt id).isKnown = true) : n' = n := by
  rw [stored?, nodeOf?_eq_of_bare h.bare_eq, stored?, hw] at hstored
  simp only [Option.bind_some, verdictAt, tagAt, hn, hn'] at hstored hknown
  obtain ⟨b, hb⟩ := Option.isSome_iff_exists.1 hknown
  rw [hb, Option.map_some, Option.map_eq_some_iff] at hstored
  obtain ⟨b', hb', hpair⟩ := hstored
  obtain ⟨rfl, htag⟩ := Prod.mk.inj hpair
  have hverdict : n'.verdict = n.verdict := by
    rw [← n'.verdict.ofOption_committed?, hb', ← hb, Verdict.ofOption_committed?]
  have hchildren := h.children_eq hn hn'
  cases n
  cases n'
  cases hverdict
  cases htag
  cases hchildren
  rfl

theorem eq_of_stored? [Inhabited P] (ht : t.WellFormed)
    (hstored : ∀ w, t'.stored? w = t.stored? w) : t' = t := by
  refine eq_of_node? ht.size_le h.size_eq (alphabet_eq_of_bare h.bare_eq)
    (width_eq_of_bare h.bare_eq) ?_
  intro id
  cases hn : t.node? id with
  | none =>
    rw [node?_eq_none_iff] at hn ⊢
    exact h.size_eq ▸ hn
  | some n =>
    have hid : id.position < t.size := node?_isSome_iff.1 (Option.isSome_of_eq_some hn)
    cases hknown : (t.verdictAt id).isKnown with
    | false => exact (h.untouched id hknown).trans hn
    | true =>
      obtain ⟨w, hw⟩ := ht.exists_word hid
      obtain ⟨n', hn'⟩ := Option.isSome_iff_exists.1 (node?_isSome_iff.2 (h.size_eq ▸ hid))
      rw [hn', h.node_eq (hstored w) hw hn hn' hknown]

end Revised

end Tree

section Caches
variable {σ : Type u} [DecidableEq σ] [Hashable σ]

namespace WriteOnce

theorem put_of_settled {c : WriteOnce σ} (hc : c.tree.WellFormed) {i : Word σ × Bool}
    (h : i.1.find? (· ∉ c.tree.alphabet.toList) = none → (c.tree.committed? i.1).isSome) :
    c.put i = c := by
  cases henter : c.tree.enter i.1 with
  | error s => rw [put, insert_of_error henter]
  | ok d =>
    have hw := h (Tree.find?_eq_none_of_enter henter)
    have htree : d.tree = c.tree := Tree.tree_enter_of_committed hw henter
    have hd := hc.enter henter (htree ▸ hc.size_le)
    rcases insert_of_ok (b := i.2) henter hd with ⟨hnone, _⟩ | ⟨_, heq⟩ | ⟨_, heq⟩
    · rw [hnone] at hw
      cases hw
    · rw [put, heq, htree]
    · rw [put, heq, htree]

section Split
variable {a : Alphabet σ} {settings : Settings} {before after : List (Word σ × Bool)}
  {i : Word σ × Bool}
  (hroom : ((new a settings).putAll (before ++ i :: after)).tree.size ≤ UInt32.size)
include hroom

theorem inserted_within :
    let c := (new a settings).putAll before
    c.tree.Over a ∧ Inserted c i.1 i.2 (c.insert i.1 i.2) := by
  obtain ⟨hc, hafter⟩ := foldl_invariant_before put (fun c => c.tree.size)
    (fun c i => (c.size_le_insert i.1 i.2).1) (fun c => c.tree.Over a) over_put
    (Tree.over_new a settings) rfl hroom
  exact ⟨hc, inserted hc.wellFormed hafter⟩

/-- A word over the alphabet keeps what it had at its insert, or else what it got there. -/
theorem committed?_within (hover : i.1.find? (· ∉ a.toList) = none) :
    ((new a settings).putAll (before ++ i :: after)).tree.committed? i.1 =
      some ((((new a settings).putAll before).tree.committed? i.1).getD i.2) := by
  obtain ⟨hc, hi⟩ := inserted_within hroom
  have hrest : (new a settings).putAll (before ++ i :: after) =
      (((new a settings).putAll before).put i).putAll after := List.foldl_append
  rw [hrest, putAll_eq_run] at hroom ⊢
  have hafter : (((new a settings).putAll before).put i).tree.committed? i.1 =
      some ((((new a settings).putAll before).tree.committed? i.1).getD i.2) := by
    rw [put, hi.committed?_eq, hc.alphabet_eq, hover]
    cases ((new a settings).putAll before).tree.committed? i.1 <;> simp
  exact kept_run hi.wellFormed _ hroom i.1 _ hafter

theorem put_again : ((new a settings).putAll (before ++ i :: after)).put i =
    (new a settings).putAll (before ++ i :: after) := by
  have hloaded := over_putAll hroom
  refine put_of_settled hloaded.wellFormed fun hover => ?_
  rw [hloaded.alphabet_eq] at hover
  exact Option.isSome_of_eq_some (committed?_within hroom hover)

theorem answer_again :
    (((new a settings).putAll (before ++ i :: after)).insert i.1 i.2).answer =
      (((new a settings).putAll before).insert i.1 i.2).answer := by
  obtain ⟨hc, hi⟩ := inserted_within hroom
  have hloaded := over_putAll hroom
  have hagain := inserted (b := i.2) hloaded.wellFormed
    (Nat.le_trans (Nat.le_of_eq (congrArg (·.tree.size) (put_again hroom))) hroom)
  rw [hagain.answer_eq, hi.answer_eq, hloaded.alphabet_eq, hc.alphabet_eq]
  cases hover : i.1.find? (· ∉ a.toList) with
  | some s => rfl
  | none =>
    -- what is committed in the end is what the insert met, or else its own verdict
    rw [committed?_within hroom hover]
    cases ((new a settings).putAll before).tree.committed? i.1 <;> simp [insertAnswer]

end Split

theorem putAll_again {a : Alphabet σ} {settings : Settings} {is : List (Word σ × Bool)}
    (hroom : ((new a settings).putAll is).tree.size ≤ UInt32.size) :
    let loaded := (new a settings).putAll is
    loaded.putAnswers is = (new a settings).putAnswers is ∧
      encounters put loaded is = is.map (loaded, ·) ∧ loaded.putAll is = loaded := by
  intro loaded
  have hidle : ∀ i ∈ is, loaded.put i = loaded := by
    intro i hi
    obtain ⟨before, after, rfl⟩ := List.append_of_mem hi
    exact put_again hroom
  obtain ⟨hmet, hend⟩ := encounters_of_idle hidle
  refine ⟨?_, hmet, hend⟩
  let again (i : Word σ × Bool) := (loaded.insert i.1 i.2).answer
  have hfirst : (new a settings).putAnswers is = is.map fun i => (i, again i) := by
    refine transcript_eq_map fun d i hd => ?_
    obtain ⟨before, after, rfl, rfl⟩ := exists_of_mem_encounters hd
    exact (answer_again hroom).symm
  have hsecond : loaded.putAnswers is = is.map fun i => (i, again i) := by
    refine transcript_eq_map fun d i hd => ?_
    rw [hmet] at hd
    obtain ⟨_, _, heq⟩ := List.mem_map.1 hd
    cases heq
    rfl
  exact hsecond.trans hfirst.symm

end WriteOnce

namespace Revisable

theorem eq_of_arbitrate_oracle {e : Option (Bool × Provenance)} {b x : Bool}
    (h : arbitrate e b .oracle = some (x, .user)) : e = some (x, .user) := by
  cases e with
  | none => cases h
  | some i =>
    obtain ⟨y, o⟩ := i
    cases o with
    | user => exact (arbitrate_oracle_of_user y b).symm.trans h
    | oracle =>
      rw [arbitrate_oracle_of_oracle] at h
      cases h

section Machine
variable {l : List (Bool × Provenance)}

theorem foldl_again_of_user {e : Option (Bool × Provenance)} {x : Bool}
    (h : l.foldl (fun stored i => arbitrate stored i.1 i.2) e = some (x, .user)) :
    l.foldl (fun stored i => arbitrate stored i.1 i.2) (some (x, .user)) = some (x, .user) := by
  induction l using List.reverseRecOn generalizing x with
  | nil => rfl
  | append_singleton l i ih =>
    obtain ⟨b, o⟩ := i
    rw [List.foldl_append, List.foldl_cons, List.foldl_nil] at h ⊢
    cases o with
    | user =>
      -- of several users the last one is heard, whatever stood there before
      obtain ⟨y, hy⟩ := exists_foldl_of_user (l := l) x
      rw [arbitrate_user] at h
      rw [hy, arbitrate_user, if_neg (by simp)]
      split_ifs at h
      · cases h
      · exact h
    | oracle => rw [ih (eq_of_arbitrate_oracle h), arbitrate_oracle_of_user]

theorem foldl_again :
    l.foldl (fun stored i => arbitrate stored i.1 i.2)
        (l.foldl (fun stored i => arbitrate stored i.1 i.2) none) =
      l.foldl (fun stored i => arbitrate stored i.1 i.2) none := by
  cases hend : l.foldl (fun stored i => arbitrate stored i.1 i.2) none with
  | none => exact hend
  | some e =>
    obtain ⟨x, o⟩ := e
    cases o with
    | user => exact foldl_again_of_user hend
    | oracle =>
      -- then it was never a user's, and the first assertion starts it over
      cases l with
      | nil => cases hend
      | cons i l =>
        obtain ⟨b, o⟩ := i
        cases o with
        | user =>
          obtain ⟨y, hy⟩ := exists_foldl_of_user (l := l) b
          rw [List.foldl_cons, arbitrate, hy] at hend
          cases hend
        | oracle =>
          rw [List.foldl_cons, arbitrate] at hend
          rw [List.foldl_cons, arbitrate_oracle_of_oracle, hend]

end Machine

section Entry
variable {a : Alphabet σ} {w : Word σ}

theorem foldl_entryAfter {l : List (Word σ × Bool × Provenance)} (hl : ∀ i ∈ l, i.1 = w)
    (e : Option (Bool × Provenance)) : l.foldl (entryAfter a) e =
      if w.find? (· ∉ a.toList) = none then
        (l.map (·.2)).foldl (fun stored i => arbitrate stored i.1 i.2) e
      else e := by
  induction l generalizing e with
  | nil => simp
  | cons i l ih =>
    obtain ⟨hi, hl⟩ := List.forall_mem_cons.1 hl
    rw [List.foldl_cons, ih hl, entryAfter, hi]
    cases w.find? (· ∉ a.toList) <;> rfl

theorem isSome_foldl_entryAfter {l : List (Word σ × Bool × Provenance)}
    {e : Option (Bool × Provenance)}
    (h : e.isSome ∨ ∃ i ∈ l, i.1.find? (· ∉ a.toList) = none) :
    (l.foldl (entryAfter a) e).isSome := by
  induction l generalizing e with
  | nil => simpa using h
  | cons j l ih =>
    rw [List.foldl_cons]
    apply ih
    rw [entryAfter]
    cases hj : j.1.find? (· ∉ a.toList) with
    | none => exact Or.inl (isSome_arbitrate ..)
    | some s =>
      rcases h with he | ⟨i, hi, hover⟩
      · exact Or.inl he
      · rcases List.mem_cons.1 hi with rfl | hi
        · rw [hover] at hj
          cases hj
        · exact Or.inr ⟨i, hi, hover⟩

end Entry

section Room
variable {a : Alphabet σ} {settings : Settings} {is : List (Word σ × Bool × Provenance)}

theorem committed?_putAll (hroom : ((new a settings).putAll is).tree.size ≤ UInt32.size)
    {i : Word σ × Bool × Provenance} (hi : i ∈ is) (hover : i.1.find? (· ∉ a.toList) = none) :
    (((new a settings).putAll is).tree.committed? i.1).isSome := by
  rw [Tree.committed?_eq_map_stored?, Option.isSome_map, (putAll_by_word hroom i.1).2]
  apply isSome_foldl_entryAfter
  exact Or.inr ⟨i, List.mem_filter.2 ⟨hi, by simp⟩, hover⟩

theorem stored?_putAll_again
    (hroom : (((new a settings).putAll is).putAll is).tree.size ≤ UInt32.size) (w : Word σ) :
    (((new a settings).putAll is).putAll is).tree.stored? w =
      ((new a settings).putAll is).tree.stored? w := by
  have htwice : ((new a settings).putAll is).putAll is = (new a settings).putAll (is ++ is) :=
    List.foldl_append.symm
  have honce := Nat.le_trans (((new a settings).putAll is).size_le_putAll is) hroom
  have hown : ∀ i ∈ is.filter (·.1 = w), i.1 = w := by
    intro i hi
    simpa using (List.mem_filter.1 hi).2
  rw [htwice] at hroom ⊢
  rw [(putAll_by_word hroom w).2, (putAll_by_word honce w).2, List.filter_append,
    List.foldl_append, foldl_entryAfter hown, foldl_entryAfter hown]
  split
  · exact foldl_again
  · rfl

end Room

theorem revised_put {c : Revisable σ} (hc : c.tree.WellFormed) {i : Word σ × Bool × Provenance}
    (h : i.1.find? (· ∉ c.tree.alphabet.toList) = none → (c.tree.committed? i.1).isSome) :
    c.tree.Revised (c.put i).tree := by
  cases henter : c.tree.enter i.1 with
  | error s =>
    rw [put, insertAs_of_error henter]
    exact .refl c.tree
  | ok d =>
    have hw := h (Tree.find?_eq_none_of_enter henter)
    have htree : d.tree = c.tree := Tree.tree_enter_of_committed hw henter
    have hd := hc.enter henter (htree ▸ hc.size_le)
    have hknown : (c.tree.verdictAt d.node).isKnown = true := by
      rw [Verdict.isKnown, ← htree, hd.committed?_node]
      exact hw
    rcases insertAs_of_ok (b := i.2.1) (o := i.2.2) henter hd with
      ⟨hnone, _⟩ | ⟨_, _, heq⟩ | ⟨_, _, _, heq⟩ | ⟨_, _, _, heq⟩
    · rw [Tree.committed?_eq_map_stored?, hnone] at hw
      cases hw
    · rw [put, heq, htree]
      exact .refl c.tree
    · rw [put, heq, htree]
      exact .write hknown i.2.1 i.2.2
    · rw [put, heq, htree]
      exact .refl c.tree

theorem revised_putAll {a : Alphabet σ} {c : Revisable σ} (hc : c.tree.Over a)
    {is : List (Word σ × Bool × Provenance)}
    (h : ∀ i ∈ is, i.1.find? (· ∉ a.toList) = none → (c.tree.committed? i.1).isSome) :
    c.tree.Revised (c.putAll is).tree := by
  induction is generalizing c with
  | nil => exact .refl c.tree
  | cons i is ih =>
    obtain ⟨hi, his⟩ := List.forall_mem_cons.1 h
    have hput : c.tree.Revised (c.put i).tree :=
      revised_put hc.wellFormed (hc.alphabet_eq.symm ▸ hi)
    have hover := over_put c i hc (hput.size_eq ▸ hc.wellFormed.size_le)
    exact hput.trans (ih hover fun j hj hfind => hput.committed (his j hj hfind))

def wordsOver (a : Alphabet σ) (is : List (Word σ × Bool × Provenance)) : List (Word σ) :=
  (is.map (·.1)).filter fun w => w.find? (· ∉ a.toList) = none

theorem dated_putAll {a : Alphabet σ} {c : Revisable σ} (hc : c.tree.Over a)
    {l : List (NodeId × Word σ)} (h : Dated c l) {is : List (Word σ × Bool × Provenance)}
    (hroom : (c.putAll is).tree.size ≤ UInt32.size) :
    ∃ l', Dated (c.putAll is) l' ∧
      l'.map (·.2) = (wordsOver a is).foldl (fun ws w => ws.erase w ++ [w]) (l.map (·.2)) := by
  induction is generalizing c l with
  | nil => exact ⟨l, h, rfl⟩
  | cons i is ih =>
    have hsize : (c.put i).tree.size ≤ UInt32.size :=
      Nat.le_trans ((c.put i).size_le_putAll is) hroom
    have hput := over_put c i hc hsize
    have hwordsOver : wordsOver a (i :: is) =
        if i.1.find? (· ∉ a.toList) = none then i.1 :: wordsOver a is else wordsOver a is := by
      simp only [wordsOver, List.map_cons, List.filter_cons, decide_eq_true_iff]
    rw [hwordsOver]
    cases hfind : i.1.find? (· ∉ a.toList) with
    | some s =>
      have hidle : c.put i = c := by
        rw [← hc.alphabet_eq] at hfind
        rw [put, insertAs_of_foreign hfind]
      obtain ⟨l', hl', hwords⟩ := ih hput (hidle.symm ▸ h) hroom
      exact ⟨l', hl', hwords⟩
    | none =>
      rw [← hc.alphabet_eq] at hfind
      obtain ⟨l₁, hl₁, hwords₁⟩ := h.insertAs hc.wellFormed hsize hfind
      obtain ⟨l', hl', hwords⟩ := ih hput hl₁ hroom
      refine ⟨l', hl', ?_⟩
      rw [hwords, hwords₁]
      rfl

/-- The words in order of age make up the ages, each with its node. -/
theorem Dated.map_eq {c : Revisable σ} {l : List (NodeId × Word σ)} (h : Dated c l) :
    l.map (fun e => (some e.1, e.2)) = (l.map (·.2)).map fun w => (c.tree.nodeOf? w, w) := by
  rw [List.map_map]
  apply List.map_congr_left
  intro e he
  rw [Function.comp_apply, h.placed e he]

theorem Dated.ages_congr {c c' : Revisable σ} {l l' : List (NodeId × Word σ)} (h : Dated c l)
    (h' : Dated c' l') (htree : c'.tree = c.tree) (hwords : l'.map (·.2) = l.map (·.2)) :
    c'.ages = c.ages := by
  have hmap := h'.map_eq
  rw [hwords, htree, ← h.map_eq] at hmap
  have hinjective : Function.Injective fun e : NodeId × Word σ => (some e.1, e.2) := by
    intro e f hef
    simpa [Prod.ext_iff] using hef
  rw [h.ages_eq, h'.ages_eq]
  exact List.map_injective_iff.2 hinjective hmap

theorem putAll_again {a : Alphabet σ} {settings : Settings}
    {is : List (Word σ × Bool × Provenance)}
    (hroom : ((new a settings).putAll is).tree.size ≤ UInt32.size) :
    let loaded := (new a settings).putAll is
    (loaded.putAll is).tree = loaded.tree ∧ (loaded.putAll is).ages = loaded.ages := by
  intro loaded
  have hover : loaded.tree.Over a := over_putAll hroom
  have hrevised : loaded.tree.Revised (loaded.putAll is).tree :=
    revised_putAll hover fun i hi => committed?_putAll hroom hi
  have hagain : (loaded.putAll is).tree.size ≤ UInt32.size := hrevised.size_eq ▸ hroom
  have htree : (loaded.putAll is).tree = loaded.tree :=
    hrevised.eq_of_stored? hover.wellFormed (stored?_putAll_again hagain)
  refine ⟨htree, ?_⟩
  obtain ⟨l, hl, hwords⟩ := dated_putAll (Tree.over_new a settings) (dated_new a settings) hroom
  obtain ⟨l', hl', hwords'⟩ := dated_putAll hover hl hagain
  refine hl.ages_congr hl' htree ?_
  -- what was moved to the end once comes to the end in the same order again
  rw [hwords', foldl_moved _ _ hl.nodup_words, hwords, List.map_nil, foldl_moved _ _ List.nodup_nil]
  simp

end Revisable

/-- A batch of inserts that is loaded once more changes nothing: whatever it contains, the arena,
the verdicts, who asserted them and the ages are where they were. In a write-once cache not even a
single insert changes anything, and each is answered as it was. -/
theorem reload_changes_nothing :
    (∀ (a : Alphabet σ) (settings : Settings) (is : List (Word σ × Bool × Provenance)),
      let loaded := (Revisable.new a settings).putAll is
      let reloaded := loaded.putAll is
      loaded.tree.size ≤ UInt32.size →
        reloaded.tree = loaded.tree ∧
        (∀ w, reloaded.tree.lookup w = loaded.tree.lookup w) ∧
        (∀ w, reloaded.originOf? w = loaded.originOf? w) ∧
        reloaded.ages = loaded.ages) ∧
    (∀ (a : Alphabet σ) (settings : Settings) (is : List (Word σ × Bool)),
      let loaded := (WriteOnce.new a settings).putAll is
      loaded.tree.size ≤ UInt32.size →
        loaded.putAnswers is = (WriteOnce.new a settings).putAnswers is ∧
        encounters WriteOnce.put loaded is = is.map (loaded, ·) ∧
        loaded.putAll is = loaded) := by
  constructor
  · intro a settings is loaded reloaded hroom
    obtain ⟨htree, hages⟩ := Revisable.putAll_again hroom
    refine ⟨htree, fun w => congrArg (·.lookup w) htree, fun w => ?_, hages⟩
    rw [Revisable.originOf?, Revisable.originOf?, show reloaded.tree = loaded.tree from htree]
  · intro a settings is loaded hroom
    exact WriteOnce.putAll_again hroom

theorem reload_changes_nothing_over_contradictions :
    let a : Alphabet Nat := .ofList [1, 2]
    let is₁ : List (Word Nat × Bool × Provenance) := [([1, 2], true, .oracle), ([1], false, .user),
      ([7], true, .user), ([1, 2], false, .oracle), ([1], true, .oracle), ([2], true, .user),
      ([1], true, .user), ([2], true, .oracle)]
    let is₂ : List (Word Nat × Bool) :=
      [([1, 2], true), ([1], false), ([7], true), ([1, 2], false), ([1], false)]
    let c : Revisable Nat := .new a {}
    let d : WriteOnce Nat := .new a {}
    (c.putAll is₁).tree.size ≤ UInt32.size ∧ (d.putAll is₂).tree.size ≤ UInt32.size ∧
      ((c.putAll is₁).putAll is₁).tree = (c.putAll is₁).tree ∧
      ((c.putAll is₁).putAll is₁).ages = (c.putAll is₁).ages ∧
      (d.putAll is₂).putAnswers is₂ = d.putAnswers is₂ ∧
      (d.putAll is₂).putAll is₂ = d.putAll is₂ := by
  intro a is₁ is₂ c d
  have hroom₁ : (c.putAll is₁).tree.size ≤ UInt32.size :=
    Nat.le_trans (Revisable.size_putAll_le a {} is₁) (by decide)
  have hroom₂ : (d.putAll is₂).tree.size ≤ UInt32.size :=
    Nat.le_trans (WriteOnce.size_putAll_le a {} is₂) (by decide)
  obtain ⟨hrevisable, hwriteOnce⟩ := @reload_changes_nothing Nat _ _
  obtain ⟨htree, _, _, hages⟩ := hrevisable a {} is₁ hroom₁
  obtain ⟨hanswers, _, hend⟩ := hwriteOnce a {} is₂ hroom₂
  exact ⟨hroom₁, hroom₂, htree, hages, hanswers, hend⟩

/-- The answers of a revisable cache may change: the second time the first assertion meets the last
one. -/
example :
    let c : Revisable Nat := .new .empty {}
    let loaded := c.putAll [([], true, .oracle), ([], false, .oracle)]
    (c.insertAs [] true .oracle).answer = .ok false ∧
      (loaded.insertAs [] true .oracle).answer = .ok true := ⟨rfl, rfl⟩

end Caches
end MembershipCache
