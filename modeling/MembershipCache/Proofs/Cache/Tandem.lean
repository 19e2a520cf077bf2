import MembershipCache.Proofs.Cache.RevisableRun
import MembershipCache.Proofs.Cache.WriteOnceMap
import MembershipCache.Proofs.Tree.Relabel

/-! A write-once and a revisable cache that are told the same things. Their trees have the same
nodes throughout. As long as nothing told contradicts what was told before, they have the same
verdicts too; the first contradiction is where one of them refuses and the other gives in. -/
namespace MembershipCache
universe u v w

namespace Tree
variable {σ : Type u} {P : Type v} {P' : Type w} [DecidableEq σ] [Hashable σ]

def bare (t : Tree σ P) : Tree σ Unit := t.relabel (fun _ => .unknown) fun _ => ()

def byOracle (t : Tree σ P) : Tree σ Provenance := t.relabel id fun _ => .oracle

theorem bare_byOracle (t : Tree σ P) : t.byOracle.bare = t.bare := by
  simp only [bare, byOracle, relabel, Array.map_map, mk.injEq, and_true]
  rfl

theorem bare_modify {f : Node P → Node P} (hf : ∀ n, (f n).children = n.children) (t : Tree σ P)
    (id : NodeId) : (t.modify id f).bare = t.bare := by
  simp only [bare, relabel, modify, mk.injEq, and_true]
  apply Array.ext_getElem?
  intro p
  rw [Array.getElem?_map, Array.getElem?_map, Array.getElem?_modify]
  split
  · cases t.nodes[p]? <;> simp [Node.relabel, hf]
  · rfl

theorem enter_bare [Inhabited P] (t : Tree σ P) (w : Word σ) :
    t.bare.enter w = (t.enter w).map fun d => ⟨d.tree.bare, d.node, d.events⟩ :=
  t.enter_relabel rfl rfl w

theorem enter_byOracle [Inhabited P] (t : Tree σ P) (w : Word σ) :
    t.byOracle.enter w = (t.enter w).map fun d => ⟨d.tree.byOracle, d.node, d.events⟩ :=
  t.enter_relabel rfl rfl w

section Alike
variable {t : Tree σ P} {t' : Tree σ P'} (h : t.bare = t'.bare)
include h

theorem alphabet_eq_of_bare : t.alphabet = t'.alphabet := congrArg alphabet h

theorem width_eq_of_bare : t.width = t'.width := congrArg width h

theorem children_eq_of_bare : t.nodes.map (·.children) = t'.nodes.map (·.children) := by
  have hchildren := congrArg (fun t => t.nodes.map (·.children)) h
  simpa only [bare, map_children_relabel] using hchildren

theorem nodeOf?_eq_of_bare (w : Word σ) : t.nodeOf? w = t'.nodeOf? w := by
  have hnode := congrArg (·.nodeOf? w) h
  simpa only [bare, nodeOf?_relabel] using hnode

theorem enter_of_bare [Inhabited P] [Inhabited P'] {w : Word σ} {d : Descent σ P}
    (hd : t.enter w = .ok d) : ∃ d', t'.enter w = .ok d' ∧ d.tree.bare = d'.tree.bare := by
  have henter := t.enter_bare w
  rw [h, t'.enter_bare, hd] at henter
  cases hd' : t'.enter w with
  | error s => simp [hd', Except.map] at henter
  | ok d' =>
    rw [hd'] at henter
    exact ⟨d', rfl, (congrArg Descent.tree (Except.ok.inj henter)).symm⟩

end Alike

end Tree

section Caches
variable {σ : Type u} [DecidableEq σ] [Hashable σ]

namespace WriteOnce

theorem bare_insert {c : WriteOnce σ} {w : Word σ} {d : Descent σ Unit}
    (h : c.tree.enter w = .ok d) (b : Bool) :
    (c.insert w b).state.tree.bare = d.tree.bare := by
  have hwritten := d.tree.bare_modify (f := (·.setVerdict (.ofBool b))) (fun _ => rfl) d.node
  rw [insert, h]
  simp only
  split
  · exact hwritten
  · split <;> rfl

theorem answer_eq_unknownSymbol_iff {c : WriteOnce σ} {w : Word σ} {b : Bool} {s : σ} :
    (c.insert w b).answer = .error (.unknownSymbol s) ↔
      w.find? (· ∉ c.tree.alphabet.toList) = some s := by
  rw [← Tree.enter_eq_error_iff]
  cases h : c.tree.enter w with
  | error r => simp [insert_of_error h]
  | ok d =>
    rw [insert, h]
    simp only [reduceCtorEq, iff_false]
    split
    · simp
    · split <;> simp

end WriteOnce

namespace Revisable

theorem bare_insertAs {c : Revisable σ} {w : Word σ} {d : Descent σ Provenance}
    (h : c.tree.enter w = .ok d) (b : Bool) (o : Provenance) :
    (c.insertAs w b o).state.tree.bare = d.tree.bare := by
  have hwritten := d.tree.bare_modify
    (f := fun n => (n.setVerdict (.ofBool b)).setTag o) (fun _ => rfl) d.node
  rw [insertAs, h]
  simp only
  split
  · exact hwritten
  · split
    · rfl
    · split
      · exact hwritten
      · rfl

theorem answer_eq_unknownSymbol_iff {c : Revisable σ} {w : Word σ} {b : Bool} {o : Provenance}
    {s : σ} : (c.insertAs w b o).answer = .error (.unknownSymbol s) ↔
      w.find? (· ∉ c.tree.alphabet.toList) = some s := by
  rw [← Tree.enter_eq_error_iff]
  cases h : c.tree.enter w with
  | error r => simp [insertAs_of_error h]
  | ok d =>
    rw [insertAs, h]
    simp only [reduceCtorEq, iff_false]
    split
    · simp
    · split
      · simp
      · split <;> simp

end Revisable

structure Tandem (σ : Type u) [DecidableEq σ] [Hashable σ] where
  writeOnce : WriteOnce σ
  revisable : Revisable σ

namespace Tandem

/-- What both are told, the one as an observation of the oracle; and a retirement, which concerns
the revisable one alone. -/
inductive Request (σ : Type u) where
  | insert (w : Word σ) (accepted : Bool)
  | addSymbol (s : σ)
  | retire (id : NodeId)
  deriving DecidableEq

def new (a : Alphabet σ) (settings settings' : Settings) : Tandem σ :=
  ⟨.new a settings, .new a settings'⟩

def step (c : Tandem σ) : Request σ → Tandem σ
  | .insert w b => ⟨(c.writeOnce.insert w b).state, (c.revisable.insert w b).state⟩
  | .addSymbol s => ⟨(c.writeOnce.addSymbol s).state, (c.revisable.addSymbol s).state⟩
  | .retire id => ⟨c.writeOnce, (c.revisable.retire id).1⟩

def run (c : Tandem σ) (rs : List (Request σ)) : Tandem σ := rs.foldl step c

def refuses : Tandem σ × Request σ → Bool
  | (c, .insert w b) => WriteOnce.inConflict (c.writeOnce.insert w b).answer
  | (_, .addSymbol _) | (_, .retire _) => false

def givesIn : Tandem σ × Request σ → Bool
  | (c, .insert w b) =>
    match (c.revisable.insert w b).answer with
    | .ok replaced => replaced
    | .error _ => false
  | (_, .addSymbol _) | (_, .retire _) => false

def SameNodes (c : Tandem σ) : Prop := c.revisable.tree.bare = c.writeOnce.tree.bare

def SameVerdicts (c : Tandem σ) : Prop := c.revisable.tree = c.writeOnce.tree.byOracle

theorem SameVerdicts.sameNodes {c : Tandem σ} (h : c.SameVerdicts) : c.SameNodes := by
  rw [SameNodes, h, Tree.bare_byOracle]

theorem sameVerdicts_new (a : Alphabet σ) (settings settings' : Settings) :
    (new a settings settings').SameVerdicts :=
  (Tree.new_relabel (f := id) (g := fun _ : Unit => Provenance.oracle) rfl rfl a settings
    settings').symm

theorem sameNodes_step {c : Tandem σ} (h : c.SameNodes) (r : Request σ) :
    (c.step r).SameNodes := by
  cases r with
  | insert w b =>
    cases hd : c.revisable.tree.enter w with
    | error s =>
      have hd' : c.writeOnce.tree.enter w = .error s := by
        rw [Tree.enter_eq_error_iff] at hd ⊢
        rwa [← Tree.alphabet_eq_of_bare h]
      rw [step, Revisable.insert, Revisable.insertAs_of_error hd, WriteOnce.insert_of_error hd']
      exact h
    | ok d =>
      obtain ⟨d', hd', hbare⟩ := Tree.enter_of_bare h hd
      rw [SameNodes, step, Revisable.insert, Revisable.bare_insertAs hd, WriteOnce.bare_insert hd',
        hbare]
  | addSymbol s =>
    have hgrown := congrArg (fun t : Tree σ Unit => (t.addSymbol s).state) h
    simp only [Tree.bare, Tree.addSymbol_relabel] at hgrown
    exact hgrown
  | retire id =>
    rw [SameNodes, step, Revisable.tree_retire]
    exact h

/-- As long as the verdicts are the same, one cache refuses an insert exactly if the other gives in
to it, and the verdicts stay the same if neither happens. -/
theorem insert_agrees {c : Tandem σ} (h : c.SameVerdicts) (w : Word σ) (b : Bool) :
    refuses (c, .insert w b) = givesIn (c, .insert w b) ∧
      (refuses (c, .insert w b) = false → (c.step (.insert w b)).SameVerdicts) := by
  have henter := c.writeOnce.tree.enter_byOracle w
  rw [← h] at henter
  cases hd : c.writeOnce.tree.enter w with
  | error s =>
    rw [hd] at henter
    simp only [refuses, givesIn, step, Revisable.insert, Revisable.insertAs_of_error henter,
      WriteOnce.insert_of_error hd]
    exact ⟨rfl, fun _ => h⟩
  | ok d =>
    rw [hd] at henter
    have hverdict : d.tree.byOracle.verdictAt d.node = d.tree.verdictAt d.node :=
      d.tree.verdictAt_relabel rfl d.node
    have htag : d.tree.byOracle.tagAt d.node = .oracle := d.tree.tagAt_relabel rfl d.node
    have hwritten := d.tree.modify_relabel id (fun _ : Unit => Provenance.oracle)
      (h := (·.setVerdict (.ofBool b))) (fun n => (n.setVerdict (.ofBool b)).setTag .oracle)
      (fun _ => rfl) d.node
    simp only [refuses, givesIn, step, SameVerdicts, Revisable.insert, Revisable.insertAs,
      WriteOnce.insert, hd, henter, Except.map, hverdict, htag]
    split
    · exact ⟨rfl, fun _ => hwritten⟩
    · split
      · exact ⟨rfl, fun _ => rfl⟩
      · refine ⟨rfl, fun hrefuses => ?_⟩
        cases hrefuses

theorem step_agrees {c : Tandem σ} (h : c.SameVerdicts) (r : Request σ) :
    refuses (c, r) = givesIn (c, r) ∧ (refuses (c, r) = false → (c.step r).SameVerdicts) := by
  cases r with
  | insert w b => exact insert_agrees h w b
  | addSymbol s =>
    refine ⟨rfl, fun _ => ?_⟩
    have hgrown := c.writeOnce.tree.addSymbol_relabel id (fun _ : Unit => Provenance.oracle) s
    have hstate : (c.revisable.tree.addSymbol s).state =
        (c.writeOnce.tree.addSymbol s).state.byOracle := by
      rw [h, Tree.byOracle, hgrown]
      rfl
    exact hstate
  | retire id =>
    refine ⟨rfl, fun _ => ?_⟩
    rw [SameVerdicts, step, Revisable.tree_retire]
    exact h

theorem sameNodes_run {c : Tandem σ} (h : c.SameNodes) (rs : List (Request σ)) :
    (c.run rs).SameNodes := by
  induction rs generalizing c with
  | nil => exact h
  | cons r rs ih => exact ih (sameNodes_step h r)

theorem sameVerdicts_run {c : Tandem σ} (h : c.SameVerdicts) {rs : List (Request σ)}
    (hrs : ∀ e ∈ encounters step c rs, refuses e = false) : (c.run rs).SameVerdicts := by
  induction rs generalizing c with
  | nil => exact h
  | cons r rs ih =>
    have hstep := (step_agrees h r).2 (hrs _ List.mem_cons_self)
    exact ih hstep fun e he => hrs e (List.mem_cons_of_mem _ he)

theorem findIdx?_refuses_eq {c : Tandem σ} (h : c.SameVerdicts) (rs : List (Request σ)) :
    (encounters step c rs).findIdx? refuses = (encounters step c rs).findIdx? givesIn := by
  induction rs generalizing c with
  | nil => rfl
  | cons r rs ih =>
    obtain ⟨hagree, hkept⟩ := step_agrees h r
    rw [encounters, List.findIdx?_cons, List.findIdx?_cons, ← hagree]
    -- the verdicts may part after a refusal, but then the first one is found on both sides
    cases hrefuses : refuses (c, r) with
    | true => rfl
    | false => rw [ih (hkept hrefuses)]

theorem SameVerdicts.lookup_eq {c : Tandem σ} (h : c.SameVerdicts) (w : Word σ) :
    c.revisable.tree.lookup w = c.writeOnce.tree.lookup w := by
  have hcommitted : c.revisable.tree.committed? w = c.writeOnce.tree.committed? w := by
    rw [h, Tree.byOracle, Tree.committed?, Tree.nodeOf?_relabel, Tree.committed?]
    exact Option.bind_congr fun id _ => congrArg _ (Tree.verdictAt_relabel _ rfl id)
  rw [Tree.lookup, hcommitted, Tree.lookup]

/-- Told the same things, the two caches build the same nodes and turn down the same words for the
same symbols. The first conflict of the one is the first replacement of the other, and up to there
they know the same. -/
theorem agrees_until_contradiction (a : Alphabet σ) (settings settings' : Settings)
    (rs : List (Request σ)) :
    let start := new a settings settings'
    (∀ before, before <+: rs →
      let c := start.run before
      c.revisable.tree.nodes.map (·.children) = c.writeOnce.tree.nodes.map (·.children) ∧
        c.revisable.tree.alphabet = c.writeOnce.tree.alphabet ∧
        c.revisable.tree.width = c.writeOnce.tree.width ∧
        ∀ w, c.revisable.tree.nodeOf? w = c.writeOnce.tree.nodeOf? w) ∧
    (∀ c w b, (c, .insert w b) ∈ encounters step start rs →
      ∀ s, (c.writeOnce.insert w b).answer = .error (.unknownSymbol s) ↔
        (c.revisable.insert w b).answer = .error (.unknownSymbol s)) ∧
    (encounters step start rs).findIdx? refuses = (encounters step start rs).findIdx? givesIn ∧
    (∀ before, before <+: rs → (∀ e ∈ encounters step start before, refuses e = false) →
      ∀ w, (start.run before).revisable.tree.lookup w =
        (start.run before).writeOnce.tree.lookup w) := by
  intro start
  have hstart : start.SameVerdicts := sameVerdicts_new a settings settings'
  refine ⟨?_, ?_, findIdx?_refuses_eq hstart rs, ?_⟩
  · intro before _ c
    have hc : c.SameNodes := sameNodes_run hstart.sameNodes before
    exact ⟨Tree.children_eq_of_bare hc, Tree.alphabet_eq_of_bare hc, Tree.width_eq_of_bare hc,
      Tree.nodeOf?_eq_of_bare hc⟩
  · intro c w b he s
    obtain ⟨before, _, _, rfl⟩ := exists_of_mem_encounters he
    have hc : (start.run before).SameNodes := sameNodes_run hstart.sameNodes before
    have halphabet := Tree.alphabet_eq_of_bare hc
    rw [WriteOnce.answer_eq_unknownSymbol_iff, Revisable.insert,
      Revisable.answer_eq_unknownSymbol_iff]
    exact halphabet ▸ Iff.rfl
  · intro before _ hbefore w
    exact (sameVerdicts_run hstart hbefore).lookup_eq w

/-- From the first contradiction on, each cache goes by its own rule. -/
example :
    let c : Tandem Nat := new .empty {} {}
    let rs : List (Request Nat) := [.insert [] true, .insert [] true, .insert [] false]
    (encounters step c rs).findIdx? refuses = some 2 ∧
      (c.run rs).writeOnce.tree.lookup [] = (true, some true) ∧
      (c.run rs).revisable.tree.lookup [] = (true, some false) := by
  decide +kernel

end Tandem

end Caches
end MembershipCache
