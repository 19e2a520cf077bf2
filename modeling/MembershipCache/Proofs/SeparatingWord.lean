import Mathlib.Data.List.Lex
import MembershipCache.Proofs.Cache.Reachable
import MembershipCache.Proofs.Separation

/-! Separating words. A word counts if the probes spell it, it has a node, and the acceptor is
defined along it, on demand but for the last step. The search answers a word on which verdict and
acceptor disagree exactly if there is one that counts. -/
namespace MembershipCache
universe u v w

def Spells {σ : Type u} (probes : Array σ) (p : List Nat) (w : Word σ) : Prop :=
  p.map (probes[·]?) = w.map some

section Spells
variable {σ : Type u} {probes : Array σ} {p : List Nat} {w : Word σ}

@[simp] theorem spells_nil : Spells probes [] w ↔ w = [] := by
  cases w <;> simp [Spells]

@[simp] theorem spells_cons_nil {i : Nat} : ¬Spells probes (i :: p) [] := by
  simp [Spells]

@[simp] theorem spells_cons {i : Nat} {s : σ} :
    Spells probes (i :: p) (s :: w) ↔ probes[i]? = some s ∧ Spells probes p w := by
  simp [Spells]

theorem Spells.word_eq (h : Spells probes p w) : p.filterMap (probes[·]?) = w := by
  have hword := congrArg (List.filterMap id) h
  simpa [List.filterMap_map] using hword

theorem exists_spells : (∃ p, Spells probes p w) ↔ ∀ s ∈ w, s ∈ probes := by
  induction w with
  | nil => exact ⟨fun _ _ h => absurd h List.not_mem_nil, fun _ => ⟨[], by simp⟩⟩
  | cons s w ih =>
    rw [List.forall_mem_cons, ← ih]
    constructor
    · intro h
      obtain ⟨p, hp⟩ := h
      cases p with
      | nil => simp at hp
      | cons i p =>
        obtain ⟨hi, hp⟩ := spells_cons.1 hp
        exact ⟨Array.mem_of_getElem? hi, p, hp⟩
    · intro h
      obtain ⟨hs, p, hp⟩ := h
      obtain ⟨i, hi⟩ := Array.getElem?_of_mem hs
      exact ⟨i :: p, spells_cons.2 ⟨hi, hp⟩⟩

/-- An answer that some positions spell which are in a set, the first of them in lexicographic
order. -/
def FirstSpelled (probes : Array σ) (found : List Nat → Prop) : Option (Word σ) → Prop
  | none => ∀ p, ¬found p
  | some w => ∃ p, Spells probes p w ∧ found p ∧ ∀ p', List.Lex (· < ·) p' p → ¬found p'

theorem FirstSpelled.unique {found : List Nat → Prop} {w₁? w₂? : Option (Word σ)}
    (h₁ : FirstSpelled probes found w₁?) (h₂ : FirstSpelled probes found w₂?) : w₁? = w₂? := by
  cases w₁? with
  | none =>
    cases w₂? with
    | none => rfl
    | some w₂ =>
      obtain ⟨p, _, hp, _⟩ := h₂
      exact absurd hp (h₁ p)
  | some w₁ =>
    obtain ⟨p₁, hw₁, hp₁, hleast₁⟩ := h₁
    cases w₂? with
    | none => exact absurd hp₁ (h₂ p₁)
    | some w₂ =>
      obtain ⟨p₂, hw₂, hp₂, hleast₂⟩ := h₂
      have hp : p₁ = p₂ := Std.Trichotomous.trichotomous (r := List.Lex (· < ·)) p₁ p₂
        (fun hlex => hleast₂ p₁ hlex hp₁) (fun hlex => hleast₁ p₂ hlex hp₂)
      rw [← hw₁.word_eq, ← hw₂.word_eq, hp]

end Spells

namespace Tree
open Separation
variable {σ : Type u} {P : Type v} {Q : Type w} [DecidableEq σ] [Hashable σ]
variable (t : Tree σ P) (target : Acceptor σ Q) (probes : Array σ) (skipUndefined : Bool)

structure Eligible (w : Word σ) : Prop where
  probed : ∀ s ∈ w, s ∈ probes
  present : (t.nodeOf? w).isSome
  defined : (target.start?.bind (target.run? · w.dropLast)).isSome
  definedToEnd : skipUndefined = true → (target.start?.bind (target.run? · w)).isSome

/-- Positions that spell a word that the search may answer and on which the acceptor contradicts the
tree. -/
def Contradicted (p : List Nat) : Prop :=
  ∃ w, Spells probes p w ∧ t.Eligible target probes skipUndefined w ∧
    t.lookup w = (true, some (!target.accepts w))

variable {t target probes skipUndefined}

theorem turn?_eq_some_iff {id c : NodeId} {q : Q} {i : Nat} {q? : Option Q} :
    t.turn? target probes id q i = some (c, q?) ↔
      ∃ s, probes[i]? = some s ∧ t.successor? id s = some c ∧ q? = target.step? q s := by
  simp only [turn?, Option.bind_eq_some_iff, Option.map_eq_some_iff, Prod.mk.injEq]
  constructor
  · intro h
    obtain ⟨s, hs, c', hc, hcc, hq⟩ := h
    exact ⟨s, hs, by rw [hc, hcc], hq.symm⟩
  · intro h
    obtain ⟨s, hs, hc, hq⟩ := h
    exact ⟨s, hs, c, hc, rfl, hq.symm⟩

theorem hit?_last_iff {id : NodeId} {q : Q} {i : Nat} {undefined : Bool} :
    t.hit? target probes skipUndefined id q [i] = some undefined ↔
      ∃ s c, probes[i]? = some s ∧ t.successor? id s = some c ∧
        t.clash? target skipUndefined (c, target.step? q s) = some undefined := by
  rw [hit?, Option.bind_eq_some_iff]
  constructor
  · intro h
    obtain ⟨⟨c, q?⟩, hturn, hclash⟩ := h
    obtain ⟨s, hs, hc, hq⟩ := turn?_eq_some_iff.1 hturn
    exact ⟨s, c, hs, hc, hq ▸ hclash⟩
  · intro h
    obtain ⟨s, c, hs, hc, hclash⟩ := h
    exact ⟨_, turn?_eq_some_iff.2 ⟨s, hs, hc, rfl⟩, hclash⟩

theorem hit?_deeper_iff {id : NodeId} {q : Q} {i j : Nat} {p : List Nat} {undefined : Bool} :
    t.hit? target probes skipUndefined id q (i :: j :: p) = some undefined ↔
      ∃ s c q', probes[i]? = some s ∧ t.successor? id s = some c ∧ target.step? q s = some q' ∧
        t.hit? target probes skipUndefined c q' (j :: p) = some undefined := by
  rw [hit?, Option.bind_eq_some_iff]
  constructor
  · intro h
    obtain ⟨⟨c, q?⟩, hturn, hq⟩ := h
    obtain ⟨q', hq', hhit⟩ := Option.bind_eq_some_iff.1 hq
    obtain ⟨s, hs, hc, hstep⟩ := turn?_eq_some_iff.1 hturn
    exact ⟨s, c, q', hs, hc, hstep.symm.trans hq', hhit⟩
  · intro h
    obtain ⟨s, c, q', hs, hc, hstep, hhit⟩ := h
    exact ⟨_, turn?_eq_some_iff.2 ⟨s, hs, hc, hstep.symm⟩, hhit⟩

theorem hit?_eq_some_iff {id : NodeId} {q : Q} {p : List Nat} {undefined : Bool} :
    t.hit? target probes skipUndefined id q p = some undefined ↔
      ∃ w s c q', Spells probes p (w ++ [s]) ∧ (w ++ [s]).foldlM t.successor? id = some c ∧
        target.run? q w = some q' ∧
        t.clash? target skipUndefined (c, target.step? q' s) = some undefined := by
  -- the last position is a case of its own: there, and only there, the step may be undefined
  induction p generalizing id q with
  | nil => simp [hit?]
  | cons i p ih =>
    cases p with
    | nil =>
      rw [hit?_last_iff]
      constructor
      · intro h
        obtain ⟨s, c, hs, hc, hclash⟩ := h
        refine ⟨[], s, c, q, ?_, ?_, rfl, hclash⟩
        · simpa using hs
        · simpa using hc
      · intro h
        obtain ⟨w, s, c, q', hspells, hc, hrun, hclash⟩ := h
        cases w with
        | cons r w => simp at hspells
        | nil =>
          cases hrun
          refine ⟨s, c, ?_, ?_, hclash⟩
          · simpa using hspells
          · simpa using hc
    | cons j p =>
      rw [hit?_deeper_iff]
      constructor
      · intro h
        obtain ⟨r, c, q₁, hr, hc, hstep, hhit⟩ := h
        obtain ⟨w, s, d, q', hspells, hd, hrun, hclash⟩ := ih.1 hhit
        refine ⟨r :: w, s, d, q', spells_cons.2 ⟨hr, hspells⟩, ?_, ?_, hclash⟩
        · simpa [hc] using hd
        · simpa [TransitionSystem.run?, hstep] using hrun
      · intro h
        obtain ⟨w, s, d, q', hspells, hd, hrun, hclash⟩ := h
        cases w with
        | nil => simp at hspells
        | cons r w =>
          obtain ⟨hr, hspells⟩ := spells_cons.1 hspells
          rw [List.cons_append, List.foldlM_cons] at hd
          obtain ⟨c, hc, hd⟩ := Option.bind_eq_some_iff.1 hd
          obtain ⟨q₁, hstep, hrun⟩ := Option.bind_eq_some_iff.1 hrun
          have hhit := ih.2 ⟨w, s, d, q', hspells, hd, hrun, hclash⟩
          exact ⟨r, c, q₁, hr, hc, hstep, hhit⟩

theorem clash?_isSome_iff {c : NodeId} {q? : Option Q} :
    (t.clash? target skipUndefined (c, q?)).isSome ↔
      (t.verdictAt c).committed? = some (!q?.elim false target.label) ∧
        (skipUndefined = true → q?.isSome) := by
  cases q? with
  | none => cases skipUndefined <;> simp [clash?, Verdict.conflicts_iff]
  | some q => simp [clash?, Verdict.conflicts_iff]

theorem lookup_eq_iff {w : Word σ} {b : Bool} :
    t.lookup w = (true, some b) ↔ t.committed? w = some b := by
  rw [lookup]
  cases t.committed? w <;> simp

omit [DecidableEq σ] [Hashable σ] in
theorem accepts_eq_elim (w : Word σ) :
    target.accepts w = (target.start?.bind (target.run? · w)).elim false target.label := by
  rw [Acceptor.accepts]
  cases target.start?.bind (target.run? · w) <;> rfl

theorem separatingWord?_of_no_start (h : target.start? = none) :
    t.separatingWord? target probes skipUndefined = if skipUndefined then none else some [] := by
  rw [separatingWord?, separation?, h]
  cases skipUndefined <;> rfl

section Start
variable {q : Q} (hq : target.start? = some q)
include hq

/-- The search finds a contradiction along a word exactly if the word counts and its verdict is not
the answer of the acceptor. -/
theorem hit?_root_iff {p : List Nat} {w : Word σ} (hp : Spells probes p w) :
    (t.hit? target probes skipUndefined .root q p).isSome ↔
      w ≠ [] ∧ t.Eligible target probes skipUndefined w ∧
        t.lookup w = (true, some (!target.accepts w)) := by
  rw [lookup_eq_iff, accepts_eq_elim, hq, Option.bind_some]
  cases w using List.reverseRecOn with
  | nil =>
    cases p with
    | nil => simp [hit?]
    | cons i p => simp at hp
  | append_singleton w s =>
    have hrun : target.run? q (w ++ [s]) = (target.run? q w).bind (target.step? · s) :=
      target.run?_concat q w s
    rw [Option.isSome_iff_exists]
    constructor
    · intro h
      obtain ⟨undefined, hhit⟩ := h
      obtain ⟨w', s', c, q', hspells, hc, hq', hclash⟩ := hit?_eq_some_iff.1 hhit
      have hws : w' ++ [s'] = w ++ [s] := by rw [← hspells.word_eq, hp.word_eq]
      obtain ⟨rfl, hs⟩ := List.append_inj' hws rfl
      cases hs
      have hdisagrees := clash?_isSome_iff.1 (Option.isSome_of_eq_some hclash)
      have hnode : t.nodeOf? (w' ++ [s]) = some c := hc
      rw [hq', Option.bind_some] at hrun
      refine ⟨by simp, ⟨exists_spells.1 ⟨p, hp⟩, by rw [hnode]; rfl, ?_, ?_⟩, ?_⟩
      · rw [List.dropLast_concat, hq, Option.bind_some, hq']
        rfl
      · rw [hq, Option.bind_some, hrun]
        exact hdisagrees.2
      · rw [committed?, hnode, Option.bind_some, hrun]
        exact hdisagrees.1
    · intro h
      obtain ⟨_, heligible, hcommitted⟩ := h
      obtain ⟨c, hnode, hverdict⟩ := Option.bind_eq_some_iff.1 hcommitted
      have hdefined := heligible.defined
      have htoEnd := heligible.definedToEnd
      rw [List.dropLast_concat, hq, Option.bind_some] at hdefined
      obtain ⟨q', hq'⟩ := Option.isSome_iff_exists.1 hdefined
      rw [hq', Option.bind_some] at hrun
      rw [hq, Option.bind_some, hrun] at htoEnd
      rw [hrun] at hverdict
      obtain ⟨undefined, hclash⟩ := Option.isSome_iff_exists.1
        (clash?_isSome_iff.2 ⟨hverdict, htoEnd⟩)
      exact ⟨undefined, hit?_eq_some_iff.2 ⟨w, s, c, q', hp, hnode, hq', hclash⟩⟩

theorem eligible_of_hit {p : List Nat} {undefined : Bool}
    (h : t.hit? target probes skipUndefined .root q p = some undefined) :
    ∃ w, Spells probes p w ∧ t.Eligible target probes skipUndefined w ∧
      t.lookup w = (true, some (!target.accepts w)) := by
  obtain ⟨w, s, _, _, hspells, _⟩ := hit?_eq_some_iff.1 h
  obtain ⟨_, hfound⟩ := (hit?_root_iff hq hspells).1 (Option.isSome_of_eq_some h)
  exact ⟨w ++ [s], hspells, hfound⟩

theorem eligible_nil :
    t.Eligible target probes skipUndefined [] := by
  refine ⟨fun _ h => absurd h List.not_mem_nil, rfl, ?_, fun _ => ?_⟩
  · rw [hq]
    rfl
  · rw [hq]
    rfl

theorem root_conflicts_iff : (t.verdictAt .root).conflicts (target.label q) = true ↔
    t.lookup [] = (true, some (!target.accepts [])) := by
  rw [lookup_eq_iff, accepts_eq_elim, hq, Verdict.conflicts_iff]
  rfl

theorem isSome_hit?_iff_contradicted {p : List Nat} (hp : p ≠ []) :
    (t.hit? target probes skipUndefined .root q p).isSome ↔
      t.Contradicted target probes skipUndefined p := by
  constructor
  · intro h
    obtain ⟨undefined, hhit⟩ := Option.isSome_iff_exists.1 h
    exact eligible_of_hit hq hhit
  · intro h
    obtain ⟨w, hspells, hw⟩ := h
    refine (hit?_root_iff hq hspells).2 ⟨?_, hw⟩
    rintro rfl
    cases p with
    | nil => exact hp rfl
    | cons i p => exact spells_cons_nil hspells

theorem contradicted_nil : t.Contradicted target probes skipUndefined [] ↔
    (t.verdictAt .root).conflicts (target.label q) = true := by
  rw [root_conflicts_iff hq]
  constructor
  · intro h
    obtain ⟨w, hspells, _, hlookup⟩ := h
    rw [spells_nil.1 hspells] at hlookup
    exact hlookup
  · intro h
    exact ⟨[], spells_nil.2 rfl, eligible_nil hq, h⟩

theorem separatingWord?_first (ht : t.WellFormed) (probes : Array σ) (skipUndefined : Bool) :
    FirstSpelled probes (t.Contradicted target probes skipUndefined)
      (t.separatingWord? target probes skipUndefined) := by
  have hfinds := t.searchFrom_finds target probes skipUndefined ht 1 [⟨q, .root, none, 0⟩]
  rw [separatingWord?, separation?, hq]
  simp only
  split
  · next hroot =>
    refine ⟨[], spells_nil.2 rfl, (contradicted_nil hq).2 hroot, ?_⟩
    intro p hlex
    cases hlex
  · next hroot =>
    have hnil : ¬t.Contradicted target probes skipUndefined [] := mt (contradicted_nil hq).1 hroot
    have hcons : ∀ {i p}, t.hit? target probes skipUndefined .root q (i :: p) = none →
        ¬t.Contradicted target probes skipUndefined (i :: p) := by
      intro i p hnone h
      rw [← isSome_hit?_iff_contradicted hq (List.cons_ne_nil i p), hnone] at h
      cases h
    cases hsearch : t.searchFrom target probes skipUndefined 1 [⟨q, .root, none, 0⟩] with
    | none =>
      rw [hsearch] at hfinds
      have hbarren := hfinds _ List.mem_cons_self
      intro p
      cases p with
      | nil => exact hnil
      | cons i p => exact hcons (hbarren i p (Nat.zero_le i))
    | some s =>
      rw [hsearch] at hfinds
      obtain ⟨p, explored, undefined, rfl, hhit, hleast⟩ := hit?_of_finds_start hfinds
      obtain ⟨w, hspells, hw⟩ := eligible_of_hit hq hhit
      refine ⟨p, ?_, ⟨w, hspells, hw⟩, ?_⟩
      · change Spells probes p (p.filterMap (probes[·]?))
        rw [hspells.word_eq]
        exact hspells
      · intro p' hlex
        cases p' with
        | nil => exact hnil
        | cons i p' => exact hcons (hleast _ hlex)

theorem separatingWord?_eq_none_iff (ht : t.WellFormed) :
    t.separatingWord? target probes skipUndefined = none ↔
      ∀ w, t.Eligible target probes skipUndefined w →
        t.lookup w ≠ (true, some (!target.accepts w)) := by
  have hfirst := separatingWord?_first hq ht probes skipUndefined
  constructor
  · intro h w hw hlookup
    rw [h] at hfirst
    obtain ⟨p, hspells⟩ := exists_spells.2 hw.probed
    exact hfirst p ⟨w, hspells, hw, hlookup⟩
  · intro h
    by_contra hne
    obtain ⟨w, hfound⟩ := Option.ne_none_iff_exists'.1 hne
    rw [hfound] at hfirst
    obtain ⟨_, _, ⟨v, _, hv, hlookup⟩, _⟩ := hfirst
    exact h v hv hlookup

theorem eligible_of_separatingWord? (ht : t.WellFormed) {w : Word σ}
    (h : t.separatingWord? target probes skipUndefined = some w) :
    t.Eligible target probes skipUndefined w ∧ t.lookup w = (true, some (!target.accepts w)) := by
  have hfirst := separatingWord?_first hq ht probes skipUndefined
  rw [h] at hfirst
  obtain ⟨p, hw, ⟨v, hv, hfound⟩, _⟩ := hfirst
  rw [← hw.word_eq, hv.word_eq]
  exact hfound

end Start

/-- The search decides whether an acceptor agrees with the tree on the words that count. -/
theorem separatingWord?_decides {P : Type} {t : Tree σ P} (ht : t.Reachable)
    (hroom : t.size ≤ UInt32.size) (target : Acceptor σ Q) (probes : Array σ)
    (skipUndefined : Bool) :
    (target.start?.isSome →
      (t.separatingWord? target probes skipUndefined = none ↔
        ∀ w b, t.Eligible target probes skipUndefined w → t.lookup w = (true, some b) →
          b = target.accepts w) ∧
      ∀ w, t.separatingWord? target probes skipUndefined = some w →
        t.Eligible target probes skipUndefined w ∧
          t.lookup w = (true, some (!target.accepts w))) ∧
    (target.start? = none → t.separatingWord? target probes skipUndefined =
      if skipUndefined then none else some []) := by
  have hwf := ht.wellFormed hroom
  refine ⟨?_, ?_⟩
  · intro hstart
    obtain ⟨q, hq⟩ := Option.isSome_iff_exists.1 hstart
    refine ⟨?_, fun w h => eligible_of_separatingWord? hq hwf h⟩
    rw [separatingWord?_eq_none_iff hq hwf]
    constructor
    · intro h w b hw hlookup
      by_contra hne
      have hb : b = !target.accepts w := Bool.eq_not.2 hne
      exact h w hw (by rw [hlookup, hb])
    · intro h w hw hlookup
      simpa using h w _ hw hlookup
  · intro hstart
    rw [separatingWord?, separation?, hstart]
    cases skipUndefined <;> rfl

theorem separatingWord?_decides_parity :
    let even : Acceptor Nat Bool := ⟨some true, fun q s => if s = 1 then some !q else none, id⟩
    let c := (WriteOnce.new (.ofList [1, 2]) {}).run [.insert [1] true, .insert [2] false]
    let probes := #[7, 1, 2, 1]
    c.tree.Reachable ∧ c.tree.size ≤ UInt32.size ∧ even.start?.isSome ∧
      (c.tree.separatingWord? even probes false = none ↔
        ∀ w b, c.tree.Eligible even probes false w → c.tree.lookup w = (true, some b) →
          b = even.accepts w) := by
  intro even c probes
  have hroom : c.tree.size ≤ UInt32.size :=
    Nat.le_trans (WriteOnce.size_run_le (.ofList [1, 2]) {} _) (by decide)
  have hreachable : c.tree.Reachable := .writeOnce ..
  obtain ⟨hdecides, _⟩ := separatingWord?_decides hreachable hroom even probes false
  exact ⟨hreachable, hroom, rfl, (hdecides rfl).1⟩

end Tree
end MembershipCache
