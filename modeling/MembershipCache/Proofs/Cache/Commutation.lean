import MembershipCache.Proofs.Cache.Outline
import MembershipCache.Proofs.Observation
import MembershipCache.Proofs.Tree.Shortlex

/-! Inserts in another order. An insert is answered from the entry of its own word and moves that
entry alone, so only the order among the inserts of one word counts. All else that the order leaves
behind are the numbers of the nodes and the ages. -/
namespace MembershipCache
universe u v w

namespace Tree
variable {σ : Type u} {P : Type v} [DecidableEq σ] [Hashable σ]

/-- The trees differ in nothing but how their nodes are numbered. -/
structure Alike (t₁ t₂ : Tree σ P) : Prop where
  lookup_eq : ∀ w, t₁.lookup w = t₂.lookup w
  size_eq : t₁.size = t₂.size
  visits : ∃ ws, t₁.Visits ws ∧ t₂.Visits ws
  separatingWord?_eq : ∀ {Q : Type w} (target : Acceptor σ Q) (probes : Array σ)
    (skipUndefined : Bool), t₁.separatingWord? target probes skipUndefined =
      t₂.separatingWord? target probes skipUndefined

theorem Holds.alike {t₁ t₂ : Tree σ P} {ws₁ ws₂ : List (Word σ)} (h₁ : t₁.Holds ws₁)
    (h₂ : t₂.Holds ws₂) (halphabet : t₁.alphabet = t₂.alphabet)
    (hlookup : ∀ w, t₁.lookup w = t₂.lookup w) : Alike.{u, v, w} t₁ t₂ := by
  refine ⟨hlookup, size_congr h₁ h₂ hlookup, ?_, ?_⟩
  · obtain ⟨ws, hws⟩ := h₁.wellFormed.exists_visits
    refine ⟨ws, hws, h₂.wellFormed.visits_iff.2 ?_⟩
    obtain ⟨hsorted, hmem⟩ := h₁.wellFormed.visits_iff.1 hws
    refine ⟨halphabet ▸ hsorted, fun w => ?_⟩
    rw [hmem, isSome_nodeOf?_congr h₁ h₂ hlookup]
  · intro Q target probes skipUndefined
    exact separatingWord?_congr h₁ h₂ hlookup target probes skipUndefined

/-- A tree in order over this alphabet, as inserts leave it. -/
structure Over (t : Tree σ P) (a : Alphabet σ) : Prop where
  wellFormed : t.WellFormed
  alphabet_eq : t.alphabet = a

theorem over_new [Inhabited P] (a : Alphabet σ) (settings : Settings) :
    (new a settings : Tree σ P).Over a := ⟨wellFormed_new a settings, rfl⟩

/-- A reachable tree over these letters into which these verdicts were entered, with its outline. -/
structure Filled (t : Tree σ Unit) (letters : List σ) (is : List (Word σ × Bool)) : Prop where
  reachable : t.Reachable
  room : t.size ≤ UInt32.size
  described :
    let rs := is.map fun i => WriteOnce.Request.insert i.1 i.2
    let o := rs.foldl WriteOnce.outline (.new letters)
    o.Describes t o.words t.committed?

end Tree

/-- The same inserts, those of each word in the same order. -/
def SameByWord {σ : Type u} [DecidableEq σ] {β : Type v} (is js : List (Word σ × β)) : Prop :=
  ∀ w, is.filter (·.1 = w) = js.filter (·.1 = w)

theorem sameByWord_of_perm {σ : Type u} [DecidableEq σ] {β : Type v} {is js : List (Word σ × β)}
    (hperm : is.Perm js) (hone : ∀ w b b', (w, b) ∈ is → (w, b') ∈ is → b = b') :
    SameByWord is js := by
  intro w
  have hequal : ∀ i ∈ is.filter (·.1 = w), ∀ j ∈ is.filter (·.1 = w), i = j := by
    intro i hi j hj
    obtain ⟨his, hiw⟩ := List.mem_filter.1 hi
    obtain ⟨hjs, hjw⟩ := List.mem_filter.1 hj
    have hword : i.1 = j.1 := (of_decide_eq_true hiw).trans (of_decide_eq_true hjw).symm
    exact Prod.ext hword (hone i.1 i.2 j.2 his (hword ▸ hjs))
  have hfilter : (is.filter (·.1 = w)).Perm (js.filter (·.1 = w)) := hperm.filter _
  refine hfilter.eq_of_pairwise (fun _ _ _ _ heq _ => heq) ?_ ?_
  · exact List.pairwise_of_forall_mem_list hequal
  · refine List.pairwise_of_forall_mem_list fun i hi j hj => ?_
    exact hequal i (hfilter.mem_iff.2 hi) j (hfilter.mem_iff.2 hj)

section Caches
variable {σ : Type u} [DecidableEq σ] [Hashable σ]

namespace WriteOnce

def put (c : WriteOnce σ) (i : Word σ × Bool) : WriteOnce σ := (c.insert i.1 i.2).state

def putAll (c : WriteOnce σ) (is : List (Word σ × Bool)) : WriteOnce σ := is.foldl put c

def putAnswers (c : WriteOnce σ) (is : List (Word σ × Bool)) :
    List ((Word σ × Bool) × Except (Refusal σ) Unit) :=
  transcript put (fun c i => (c.insert i.1 i.2).answer) c is

theorem size_putAll_le (a : Alphabet σ) (settings : Settings) (is : List (Word σ × Bool)) :
    ((new a settings).putAll is).tree.size ≤ 1 + Tree.totalBound (·.1.length) is := by
  rw [← Tree.size_new (P := Unit) a settings]
  exact foldl_le_add_totalBound put (fun c => c.tree.size)
    (fun c i => (c.size_le_insert i.1 i.2).2) _ is

def entryAfter (a : Alphabet σ) (x? : Option Bool) (i : Word σ × Bool) : Option Bool :=
  if i.1.find? (· ∉ a.toList) = none ∧ x? = none then some i.2 else x?

theorem putAll_eq_run (c : WriteOnce σ) (is : List (Word σ × Bool)) :
    c.putAll is = c.run (is.map fun i => .insert i.1 i.2) := by
  rw [run, List.foldl_map]
  rfl

theorem reachable_putAll (a : Alphabet σ) (settings : Settings) (is : List (Word σ × Bool)) :
    ((new a settings).putAll is).tree.Reachable := by
  rw [putAll_eq_run]
  exact .writeOnce a settings _

theorem over_put {a : Alphabet σ} (c : WriteOnce σ) (i : Word σ × Bool) (h : c.tree.Over a)
    (hroom : (c.put i).tree.size ≤ UInt32.size) : (c.put i).tree.Over a := by
  have hi := inserted h.wellFormed hroom
  exact ⟨hi.wellFormed, hi.alphabet_eq.trans h.alphabet_eq⟩

section Room
variable {a : Alphabet σ} {settings : Settings} {is : List (Word σ × Bool)}
  (hroom : ((new a settings).putAll is).tree.size ≤ UInt32.size)
include hroom

theorem over_putAll : ((new a settings).putAll is).tree.Over a :=
  foldl_invariant put (fun c => c.tree.size) (fun c i => (c.size_le_insert i.1 i.2).1)
    (fun c => c.tree.Over a) over_put (Tree.over_new a settings) is hroom

theorem holds_putAll : ∃ ws, ((new a settings).putAll is).tree.Holds ws := by
  rw [putAll_eq_run] at hroom ⊢
  exact ⟨_, holds_run a settings _ hroom⟩

/-- The inserts of one word are answered, and leave its entry, as if there were no others. -/
theorem putAll_by_word (w : Word σ) :
    let own := is.filter (·.1 = w)
    ((new a settings).putAnswers is).filter (·.1.1 = w) =
        transcript (entryAfter a)
          (fun x? i => insertAnswer i.1 i.2 (i.1.find? (· ∉ a.toList)) x?) none own ∧
      ((new a settings).putAll is).tree.committed? w = own.foldl (entryAfter a) none := by
  have hnone : (new a settings).tree.committed? w = none := Tree.committed?_new a settings w
  rw [← hnone]
  refine transcript_under_key put (fun c => c.tree.size)
    (fun c i => (c.size_le_insert i.1 i.2).1) (fun c => c.tree.Over a) over_put
    (fun c i => (c.insert i.1 i.2).answer) Prod.fst (fun c w => c.tree.committed? w)
    (entryAfter a) _ ?_ ?_ (Tree.over_new a settings) is hroom w
  · intro c i h hroom v
    have hi := inserted h.wellFormed hroom
    have hentry := hi.committed?_eq v
    rw [h.alphabet_eq] at hentry
    rw [put, hentry, entryAfter]
    by_cases hv : v = i.1
    · subst hv
      simp
    · simp [hv, Ne.symm hv]
  · intro c i h hroom
    have hanswer := (inserted h.wellFormed hroom).answer_eq
    rwa [h.alphabet_eq] at hanswer

end Room

theorem filled_putAll {letters : List σ} {is : List (Word σ × Bool)} (settings : Settings)
    (hletters : letters.Nodup) (hfits : 1 + Tree.totalBound (·.1.length) is ≤ UInt32.size) :
    ((new (.ofList letters) settings).putAll is).tree.Filled letters is := by
  have hroom := Nat.le_trans (size_putAll_le (.ofList letters) settings is) hfits
  refine ⟨reachable_putAll _ settings is, hroom, ?_⟩
  rw [putAll_eq_run] at hroom ⊢
  have h := describes_run (Alphabet.toList_ofList_of_nodup hletters) settings _ hroom
  rw [h.words_eq] at h
  exact h

theorem putAll_congr {a : Alphabet σ} {settings settings' : Settings} {is js : List (Word σ × Bool)}
    (h : SameByWord is js) (hroom₁ : ((new a settings).putAll is).tree.size ≤ UInt32.size)
    (hroom₂ : ((new a settings').putAll js).tree.size ≤ UInt32.size) :
    (∀ w, ((new a settings).putAnswers is).filter (·.1.1 = w) =
        ((new a settings').putAnswers js).filter (·.1.1 = w)) ∧
      Tree.Alike.{u, 0, w} ((new a settings).putAll is).tree
        ((new a settings').putAll js).tree := by
  have hlookup : ∀ w, ((new a settings).putAll is).tree.lookup w =
      ((new a settings').putAll js).tree.lookup w := by
    intro w
    rw [Tree.lookup, (putAll_by_word hroom₁ w).2, Tree.lookup, (putAll_by_word hroom₂ w).2, h w]
  obtain ⟨ws₁, hholds₁⟩ := holds_putAll hroom₁
  obtain ⟨ws₂, hholds₂⟩ := holds_putAll hroom₂
  have halphabet := (over_putAll hroom₁).alphabet_eq.trans (over_putAll hroom₂).alphabet_eq.symm
  refine ⟨fun w => ?_, hholds₁.alike hholds₂ halphabet hlookup⟩
  rw [(putAll_by_word hroom₁ w).1, (putAll_by_word hroom₂ w).1, h w]

end WriteOnce

namespace Revisable

def put (c : Revisable σ) (i : Word σ × Bool × Provenance) : Revisable σ :=
  (c.insertAs i.1 i.2.1 i.2.2).state

def putAll (c : Revisable σ) (is : List (Word σ × Bool × Provenance)) : Revisable σ :=
  is.foldl put c

def putAnswers (c : Revisable σ) (is : List (Word σ × Bool × Provenance)) :
    List ((Word σ × Bool × Provenance) × Except (Refusal σ) Bool) :=
  transcript put (fun c i => (c.insertAs i.1 i.2.1 i.2.2).answer) c is

theorem size_le_putAll (c : Revisable σ) (is : List (Word σ × Bool × Provenance)) :
    c.tree.size ≤ (c.putAll is).tree.size :=
  le_foldl put (fun c => c.tree.size) (fun c i => (c.size_le_insertAs i.1 i.2.1 i.2.2).1) c is

theorem size_putAll_le (a : Alphabet σ) (settings : Settings)
    (is : List (Word σ × Bool × Provenance)) :
    ((new a settings).putAll is).tree.size ≤ 1 + Tree.totalBound (·.1.length) is := by
  rw [← Tree.size_new (P := Provenance) a settings]
  exact foldl_le_add_totalBound put (fun c => c.tree.size)
    (fun c i => (c.size_le_insertAs i.1 i.2.1 i.2.2).2) _ is

def entryAfter (a : Alphabet σ) (e : Option (Bool × Provenance)) (i : Word σ × Bool × Provenance) :
    Option (Bool × Provenance) :=
  match i.1.find? (· ∉ a.toList) with
  | some _ => e
  | none => arbitrate e i.2.1 i.2.2

def answerFrom (a : Alphabet σ) (e : Option (Bool × Provenance)) (i : Word σ × Bool × Provenance) :
    Except (Refusal σ) Bool :=
  match i.1.find? (· ∉ a.toList) with
  | some s => .error (.unknownSymbol s)
  | none => .ok (overrules e i.2.1 i.2.2)

theorem putAll_eq_run (c : Revisable σ) (is : List (Word σ × Bool × Provenance)) :
    c.putAll is = c.run (is.map fun i => .insertAs i.1 i.2.1 i.2.2) := by
  rw [run, List.foldl_map]
  rfl

theorem over_put {a : Alphabet σ} (c : Revisable σ) (i : Word σ × Bool × Provenance)
    (h : c.tree.Over a) (hroom : (c.put i).tree.size ≤ UInt32.size) : (c.put i).tree.Over a := by
  cases hfind : i.1.find? (· ∉ c.tree.alphabet.toList) with
  | some s =>
    rw [put, insertAs_of_foreign hfind]
    exact h
  | none =>
    have hi := inserted h.wellFormed hroom hfind
    exact ⟨hi.wellFormed, hi.alphabet_eq.trans h.alphabet_eq⟩

section Room
variable {a : Alphabet σ} {settings : Settings} {is : List (Word σ × Bool × Provenance)}
  (hroom : ((new a settings).putAll is).tree.size ≤ UInt32.size)
include hroom

theorem over_putAll : ((new a settings).putAll is).tree.Over a :=
  foldl_invariant put (fun c => c.tree.size) (fun c i => (c.size_le_insertAs i.1 i.2.1 i.2.2).1)
    (fun c => c.tree.Over a) over_put (Tree.over_new a settings) is hroom

theorem holds_putAll : ∃ ws, ((new a settings).putAll is).tree.Holds ws := by
  rw [putAll_eq_run] at hroom ⊢
  exact ⟨_, holds_run a settings _ hroom⟩

theorem putAll_by_word (w : Word σ) :
    let own := is.filter (·.1 = w)
    ((new a settings).putAnswers is).filter (·.1.1 = w) =
        transcript (entryAfter a) (answerFrom a) none own ∧
      ((new a settings).putAll is).tree.stored? w = own.foldl (entryAfter a) none := by
  have hnone : (new a settings).tree.stored? w = none := stored?_new a settings w
  rw [← hnone]
  refine transcript_under_key put (fun c => c.tree.size)
    (fun c i => (c.size_le_insertAs i.1 i.2.1 i.2.2).1) (fun c => c.tree.Over a) over_put
    (fun c i => (c.insertAs i.1 i.2.1 i.2.2).answer) Prod.fst (fun c w => c.tree.stored? w)
    (entryAfter a) (answerFrom a) ?_ ?_ (Tree.over_new a settings) is hroom w
  · intro c i h hroom v
    rw [put, entryAfter, ← h.alphabet_eq]
    cases hfind : i.1.find? (· ∉ c.tree.alphabet.toList) with
    | some s =>
      rw [insertAs_of_foreign hfind]
      simp
    | none =>
      rw [(inserted h.wellFormed hroom hfind).stored?_eq]
      by_cases hv : v = i.1
      · subst hv
        simp
      · simp [hv, Ne.symm hv]
  · intro c i h hroom
    rw [answerFrom, ← h.alphabet_eq]
    cases hfind : i.1.find? (· ∉ c.tree.alphabet.toList) with
    | some s => rw [insertAs_of_foreign hfind]
    | none => rw [(inserted h.wellFormed hroom hfind).answer_eq]

end Room

theorem putAll_congr {a : Alphabet σ} {settings settings' : Settings}
    {is js : List (Word σ × Bool × Provenance)} (h : SameByWord is js)
    (hroom₁ : ((new a settings).putAll is).tree.size ≤ UInt32.size)
    (hroom₂ : ((new a settings').putAll js).tree.size ≤ UInt32.size) :
    (∀ w, ((new a settings).putAnswers is).filter (·.1.1 = w) =
        ((new a settings').putAnswers js).filter (·.1.1 = w)) ∧
      Tree.Alike.{u, 0, w} ((new a settings).putAll is).tree ((new a settings').putAll js).tree ∧
      ∀ w, ((new a settings).putAll is).originOf? w =
        ((new a settings').putAll js).originOf? w := by
  have hstored : ∀ w, ((new a settings).putAll is).tree.stored? w =
      ((new a settings').putAll js).tree.stored? w := by
    intro w
    rw [(putAll_by_word hroom₁ w).2, (putAll_by_word hroom₂ w).2, h w]
  have hlookup : ∀ w, ((new a settings).putAll is).tree.lookup w =
      ((new a settings').putAll js).tree.lookup w := by
    intro w
    rw [Tree.lookup, Tree.committed?_eq_map_stored?, hstored, Tree.lookup,
      Tree.committed?_eq_map_stored?]
  obtain ⟨ws₁, hholds₁⟩ := holds_putAll hroom₁
  obtain ⟨ws₂, hholds₂⟩ := holds_putAll hroom₂
  have halphabet := (over_putAll hroom₁).alphabet_eq.trans (over_putAll hroom₂).alphabet_eq.symm
  refine ⟨fun w => ?_, hholds₁.alike hholds₂ halphabet hlookup, fun w => ?_⟩
  · rw [(putAll_by_word hroom₁ w).1, (putAll_by_word hroom₂ w).1, h w]
  · rw [originOf?_eq_map_stored?, hstored, originOf?_eq_map_stored?]

end Revisable

/-- Inserts of different words commute: as long as those of each word keep their order, every insert
is answered as before, and nothing can be seen of the order afterwards but the numbers of the nodes
and the ages. Where a write-once cache is told nothing contradictory, any order will do. -/
theorem inserts_commute :
    (∀ (a : Alphabet σ) (settings settings' : Settings) (is js : List (Word σ × Bool)),
      let c := (WriteOnce.new a settings).putAll is
      let d := (WriteOnce.new a settings').putAll js
      c.tree.size ≤ UInt32.size → d.tree.size ≤ UInt32.size →
      SameByWord is js ∨ is.Perm js ∧ (∀ w b b', (w, b) ∈ is → (w, b') ∈ is → b = b') →
        (∀ w, ((WriteOnce.new a settings).putAnswers is).filter (·.1.1 = w) =
          ((WriteOnce.new a settings').putAnswers js).filter (·.1.1 = w)) ∧
        Tree.Alike.{u, 0, w} c.tree d.tree) ∧
    (∀ (a : Alphabet σ) (settings settings' : Settings)
        (is js : List (Word σ × Bool × Provenance)),
      let c := (Revisable.new a settings).putAll is
      let d := (Revisable.new a settings').putAll js
      c.tree.size ≤ UInt32.size → d.tree.size ≤ UInt32.size → SameByWord is js →
        (∀ w, ((Revisable.new a settings).putAnswers is).filter (·.1.1 = w) =
          ((Revisable.new a settings').putAnswers js).filter (·.1.1 = w)) ∧
        Tree.Alike.{u, 0, w} c.tree d.tree ∧ ∀ w, c.originOf? w = d.originOf? w) := by
  constructor
  · intro a settings settings' is js c d hroom₁ hroom₂ h
    rcases h with h | ⟨hperm, hone⟩
    · exact WriteOnce.putAll_congr h hroom₁ hroom₂
    · exact WriteOnce.putAll_congr (sameByWord_of_perm hperm hone) hroom₁ hroom₂
  · intro a settings settings' is js c d hroom₁ hroom₂ h
    exact Revisable.putAll_congr h hroom₁ hroom₂

theorem inserts_commute_over_shared_beginnings :
    let a : Alphabet Nat := .ofList [1, 2]
    let is₁ : List (Word Nat × Bool) :=
      [([1, 2], true), ([1], false), ([7], true), ([2], false), ([1, 2], true)]
    let js₁ : List (Word Nat × Bool) :=
      [([2], false), ([7], true), ([1, 2], true), ([1, 2], true), ([1], false)]
    let is₂ : List (Word Nat × Bool × Provenance) :=
      [([1, 2], true, .oracle), ([1], false, .oracle), ([1, 2], false, .user)]
    let js₂ : List (Word Nat × Bool × Provenance) :=
      [([1], false, .oracle), ([1, 2], true, .oracle), ([1, 2], false, .user)]
    let c₁ := (WriteOnce.new a {}).putAll is₁
    let d₁ := (WriteOnce.new a {}).putAll js₁
    let c₂ := (Revisable.new a {}).putAll is₂
    let d₂ := (Revisable.new a {}).putAll js₂
    (c₁.tree.size ≤ UInt32.size ∧ d₁.tree.size ≤ UInt32.size ∧ c₂.tree.size ≤ UInt32.size ∧
      d₂.tree.size ≤ UInt32.size) ∧
      (is₁.Perm js₁ ∧ ∀ w b b', (w, b) ∈ is₁ → (w, b') ∈ is₁ → b = b') ∧ SameByWord is₂ js₂ ∧
      Tree.Alike.{0, 0, w} c₁.tree d₁.tree ∧ Tree.Alike.{0, 0, w} c₂.tree d₂.tree ∧
      (c₁.tree.lookup [1, 2] = (true, some true) ∧ d₁.tree.lookup [1, 2] = (true, some true)) ∧
      (c₁.tree.nodeOf? [2] = some (.ofPosition 3) ∧ d₁.tree.nodeOf? [2] = some (.ofPosition 1)) ∧
      c₂.originOf? [1, 2] = some .user ∧ d₂.originOf? [1, 2] = some .user := by
  intro a is₁ js₁ is₂ js₂ c₁ d₁ c₂ d₂
  have hc₁ : c₁.tree.Filled [1, 2] is₁ := WriteOnce.filled_putAll {} (by decide) (by decide)
  have hd₁ : d₁.tree.Filled [1, 2] js₁ := WriteOnce.filled_putAll {} (by decide) (by decide)
  have hroom₂ : c₂.tree.size ≤ UInt32.size :=
    Nat.le_trans (Revisable.size_putAll_le a {} is₂) (by decide)
  have hroom₂' : d₂.tree.size ≤ UInt32.size :=
    Nat.le_trans (Revisable.size_putAll_le a {} js₂) (by decide)
  have hperm : is₁.Perm js₁ := by decide
  have hone : ∀ w b b', (w, b) ∈ is₁ → (w, b') ∈ is₁ → b = b' := by
    intro w b b' hb hb'
    simp only [is₁, List.mem_cons, List.not_mem_nil, or_false, Prod.mk.injEq] at hb hb'
    grind
  have hbyWord : SameByWord is₂ js₂ := by
    intro w
    by_cases hw : w = [1]
    · subst hw
      decide
    · simp [is₂, js₂, List.filter_cons, Ne.symm hw]
  obtain ⟨hwriteOnce, hrevisable⟩ := @inserts_commute.{0, w} Nat _ _
  obtain ⟨_, halike₁⟩ := hwriteOnce a {} {} is₁ js₁ hc₁.room hd₁.room (.inr ⟨hperm, hone⟩)
  obtain ⟨_, halike₂, horigin⟩ := hrevisable a {} {} is₂ js₂ hroom₂ hroom₂' hbyWord
  have hlookup : c₁.tree.lookup [1, 2] = (true, some true) :=
    Tree.lookup_eq_iff.2 (hc₁.described.entry_eq [1, 2])
  have huser : c₂.originOf? [1, 2] = some .user := by
    have hc₂ : c₂ = _ := Revisable.putAll_eq_run _ is₂
    rw [hc₂] at hroom₂ ⊢
    exact (Revisable.lookup_run (Alphabet.toList_ofList_of_nodup (by decide)) {} _ hroom₂ [1, 2]).2
  exact ⟨⟨hc₁.room, hd₁.room, hroom₂, hroom₂'⟩, ⟨hperm, hone⟩, hbyWord, halike₁, halike₂,
    ⟨hlookup, (halike₁.lookup_eq [1, 2]).symm.trans hlookup⟩,
    ⟨hc₁.described.nodeOf?_eq [2], hd₁.described.nodeOf?_eq [2]⟩, huser,
    (horigin [1, 2]).symm.trans huser⟩

end Caches
end MembershipCache
