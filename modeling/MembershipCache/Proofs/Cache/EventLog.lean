import MembershipCache.Proofs.Cache.Reachable
import MembershipCache.Proofs.Cache.Tandem
import MembershipCache.Proofs.Cache.UserAssertion
import MembershipCache.Proofs.Tree.Sketch

/-! What a cache reports of its construction. An insert reports the nodes it creates, in order, and
after them at most one thing about the verdict; nothing else creates a node. So the tree of a cache
can be drawn from the reports of the run behind it. -/
namespace MembershipCache
universe u v w x

/-- What an insert may report after the nodes it created: that it was refused for a conflict, that it
replaced a verdict, or that it left a user's verdict alone. -/
structure Decided (further : List Event) (conflict replaced kept : Prop) : Prop where
  length_le : further.length ≤ 1
  message_mem : ∀ e ∈ further, e.message ∈ ["conflicting insert rejected",
    "overwrote committed acceptance", "kept user-asserted acceptance"]
  rejected_iff : (∃ e ∈ further, e.message = "conflicting insert rejected") ↔ conflict
  overwrote_iff : (∃ e ∈ further, e.message = "overwrote committed acceptance") ↔ replaced
  kept_iff : (∃ e ∈ further, e.message = "kept user-asserted acceptance") ↔ kept

namespace Decided
variable {conflict replaced kept : Prop}

theorem nil (hconflict : ¬conflict) (hreplaced : ¬replaced) (hkept : ¬kept) :
    Decided [] conflict replaced kept := by
  refine ⟨Nat.zero_le _, ?_, ?_, ?_, ?_⟩ <;> simp [*]

theorem rejected {length : Nat} {existing attempted : Verdict} (hconflict : conflict)
    (hreplaced : ¬replaced) (hkept : ¬kept) :
    Decided [.rejected length existing attempted] conflict replaced kept := by
  refine ⟨Nat.le_refl _, ?_, ?_, ?_, ?_⟩ <;> simp [Event.message, *]

theorem overwrote {length : Nat} {existing incoming : Verdict} {stored origin : Provenance}
    (hconflict : ¬conflict) (hreplaced : replaced) (hkept : ¬kept) :
    Decided [.overwrote length existing incoming stored origin] conflict replaced kept := by
  refine ⟨Nat.le_refl _, ?_, ?_, ?_, ?_⟩ <;> simp [Event.message, *]

theorem left {length : Nat} {existing : Verdict} {origin : Provenance} (hconflict : ¬conflict)
    (hreplaced : ¬replaced) (hkept : kept) :
    Decided [.kept length existing origin] conflict replaced kept := by
  refine ⟨Nat.le_refl _, ?_, ?_, ?_, ?_⟩ <;> simp [Event.message, *]

theorem message_ne {further : List Event} (h : Decided further conflict replaced kept) :
    ∀ e ∈ further, e.message ≠ "created node" := by
  intro e he heq
  have hmem := h.message_mem e he
  rw [heq] at hmem
  simp at hmem

end Decided

namespace Tree
variable {σ : Type u} {P : Type v} [DecidableEq σ] [Hashable σ]

/-- What an insert that passes the alphabet reports: the missing beginnings of its word, in order, at
the next places of the arena, and then what it decided. -/
def Reported (t t' : Tree σ P) (w : Word σ) (events : List Event) (conflict replaced kept : Prop) :
    Prop :=
  ∃ created further, events = created ++ further ∧
    List.Forall₂ t'.Announces ((t.missing w).zipIdx t.size) created ∧
    Decided further conflict replaced kept

structure Logged {γ : Type w} {α : Type x} (t : Tree σ P) (w : Word σ) (tree : γ → Tree σ P)
    (r : Reply γ (Except (Refusal σ) α)) (replaced kept : Prop) : Prop where
  refused_iff : (∃ s, r.answer = .error (.unknownSymbol s)) ↔ ∃ s ∈ w, s ∉ t.alphabet.toList
  silent : ∀ s, r.answer = .error (.unknownSymbol s) → r.events = []
  reported : (∀ s ∈ w, s ∈ t.alphabet.toList) → t.Reported (tree r.state) w r.events
    (∃ v x y, r.answer = .error (.conflict v x y)) replaced kept

theorem sketch_eq_of_bare {t t' : Tree σ P} (h : t.bare = t'.bare) : t.sketch = t'.sketch := by
  have hsize := congrArg size h
  have hchild := congrArg child? h
  simp only [bare, size_relabel, child?_relabel] at hsize hchild
  exact sketch_congr hsize hchild

theorem exists_foreign_iff {t : Tree σ P} {w : Word σ} :
    (∃ s, w.find? (· ∉ t.alphabet.toList) = some s) ↔ ∃ s ∈ w, s ∉ t.alphabet.toList := by
  rw [← Option.isSome_iff_exists, List.find?_isSome]
  simp only [decide_eq_true_eq]

section Entering
variable [Inhabited P] {t t' : Tree σ P} {w : Word σ} {d : Descent σ P} {further : List Event}
  {conflict replaced kept : Prop} (hd : t.enter w = .ok d) (hroom : d.tree.size ≤ UInt32.size)
  (hbare : t'.bare = d.tree.bare) (hdecided : Decided further conflict replaced kept)
include hd hroom hbare hdecided

theorem Holds.reported {ws : List (Word σ)} (h : t.Holds ws) :
    t.Reported t' w (d.events ++ further) conflict replaced kept := by
  refine ⟨d.events, further, rfl, ?_, hdecided⟩
  refine (h.numbers.announced h.wellFormed hd hroom).imp fun _ _ hevent => ?_
  refine hevent.mono (fun {u id} hu => ?_) (alphabet_eq_of_bare hbare)
  rw [nodeOf?_eq_of_bare hbare]
  exact hu

theorem WellFormed.draw_reported (ht : t.WellFormed) :
    (d.events ++ further).foldlM Sketch.draw? t.sketch = some t'.sketch := by
  rw [List.foldlM_append, ht.draw_enter hd hroom, sketch_eq_of_bare hbare]
  exact Sketch.foldlM_draw?_of_message hdecided.message_ne _

end Entering

end Tree

section Caches
variable {σ : Type u} [DecidableEq σ] [Hashable σ]

namespace WriteOnce

theorem events_insert {c : WriteOnce σ} {w : Word σ} {b : Bool} {d : Descent σ Unit}
    (h : c.tree.enter w = .ok d) (hd : Tree.Entered c.tree w d) :
    ∃ further, (c.insert w b).events = d.events ++ further ∧
      Decided further (∃ v x y, (c.insert w b).answer = .error (.conflict v x y)) False False := by
  rcases insert_of_ok (b := b) h hd with ⟨_, heq⟩ | ⟨_, heq⟩ | ⟨_, heq⟩
  · rw [heq]
    exact ⟨[], (List.append_nil _).symm, .nil (by simp) id id⟩
  · rw [heq]
    exact ⟨[], (List.append_nil _).symm, .nil (by simp) id id⟩
  · rw [heq]
    exact ⟨_, rfl, .rejected ⟨_, _, _, rfl⟩ id id⟩

theorem logged_insert {c : WriteOnce σ} {ws : List (Word σ)} (hc : c.tree.Holds ws) {w : Word σ}
    {b : Bool} (hroom : (c.insert w b).state.tree.size ≤ UInt32.size) :
    c.tree.Logged w tree (c.insert w b) False False := by
  refine ⟨?_, ?_, ?_⟩
  · simp only [answer_eq_unknownSymbol_iff, Tree.exists_foreign_iff]
  · intro s hs
    rw [answer_eq_unknownSymbol_iff, ← Tree.enter_eq_error_iff] at hs
    rw [insert_of_error hs]
  · intro hover
    obtain ⟨d, h⟩ := Tree.exists_enter hover
    rw [size_insert h] at hroom
    obtain ⟨further, hevents, hdecided⟩ := events_insert (b := b) h (hc.wellFormed.enter h hroom)
    rw [hevents]
    exact hc.reported h hroom (bare_insert h b) hdecided

def reports : WriteOnce σ × Request σ → List Event
  | (c, .insert w b) => (c.insert w b).events
  | (c, .addSymbol s) => (c.addSymbol s).events

def log (c : WriteOnce σ) (rs : List (Request σ)) : List Event :=
  (encounters step c rs).flatMap reports

theorem draw_step {c : WriteOnce σ} (hc : c.tree.WellFormed) {r : Request σ}
    (hroom : (c.step r).tree.size ≤ UInt32.size) :
    (reports (c, r)).foldlM Sketch.draw? c.tree.sketch = some (c.step r).tree.sketch := by
  cases r with
  | addSymbol s => exact c.tree.draw_addSymbol s
  | insert w b =>
    cases h : c.tree.enter w with
    | error s =>
      rw [reports, step, insert_of_error h]
      rfl
    | ok d =>
      rw [step, size_insert h] at hroom
      obtain ⟨further, hevents, hdecided⟩ := events_insert (b := b) h (hc.enter h hroom)
      rw [reports, hevents]
      exact hc.draw_reported h hroom (bare_insert h b) hdecided

theorem draw_log (a : Alphabet σ) (settings : Settings) (rs : List (Request σ))
    (hroom : ((new a settings).run rs).tree.size ≤ UInt32.size) :
    ((new a settings).log rs).foldlM Sketch.draw? .root =
      some ((new a settings).run rs).tree.sketch := by
  rw [← Tree.sketch_new (P := Unit) a settings]
  exact foldlM_reports step (fun c => c.tree.size) (fun c r => (size_step c r).1)
    (fun c => c.tree.WellFormed) (fun _ _ hc => wellFormed_step hc) reports Sketch.draw?
    (fun c => c.tree.sketch) (fun _ _ hc => draw_step hc) (Tree.wellFormed_new a settings) rs hroom

end WriteOnce

namespace Revisable

theorem events_insertAs {c : Revisable σ} {w : Word σ} {b : Bool} {o : Provenance}
    {d : Descent σ Provenance} (h : c.tree.enter w = .ok d) (hd : Tree.Entered c.tree w d) :
    ∃ further, (c.insertAs w b o).events = d.events ++ further ∧
      Decided further (∃ v x y, (c.insertAs w b o).answer = .error (.conflict v x y))
        ((c.insertAs w b o).answer = .ok true)
        (o = .oracle ∧ c.tree.lookup w = (true, some (!b)) ∧ c.originOf? w = some .user) := by
  rw [← stored?_eq_some_iff]
  rcases insertAs_of_ok (b := b) (o := o) h hd with
    ⟨hw, heq⟩ | ⟨stored, hw, heq⟩ | ⟨stored, hw, hg, heq⟩ | ⟨stored, hw, hg, heq⟩
  · rw [heq, hw]
    exact ⟨[], (List.append_nil _).symm, .nil (by simp) (by simp) (by simp)⟩
  · rw [heq, hw]
    exact ⟨[], (List.append_nil _).symm, .nil (by simp) (by simp) (by simp)⟩
  · rw [heq, hw]
    refine ⟨_, rfl, .overwrote (by simp) rfl ?_⟩
    rintro ⟨rfl, hstored⟩
    simp only [reduceCtorEq, false_or] at hg
    simp [hg] at hstored
  · rw [heq, hw]
    refine ⟨_, rfl, .left (by simp) (by simp) ?_⟩
    cases o <;> cases stored <;> simp at hg ⊢

theorem logged_insertAs {c : Revisable σ} {ws : List (Word σ)} (hc : c.tree.Holds ws) {w : Word σ}
    {b : Bool} {o : Provenance} (hroom : (c.insertAs w b o).state.tree.size ≤ UInt32.size) :
    c.tree.Logged w tree (c.insertAs w b o) ((c.insertAs w b o).answer = .ok true)
      (o = .oracle ∧ c.tree.lookup w = (true, some (!b)) ∧ c.originOf? w = some .user) := by
  refine ⟨?_, ?_, ?_⟩
  · simp only [answer_eq_unknownSymbol_iff, Tree.exists_foreign_iff]
  · intro s hs
    rw [answer_eq_unknownSymbol_iff, ← Tree.enter_eq_error_iff] at hs
    rw [insertAs_of_error hs]
  · intro hover
    obtain ⟨d, h⟩ := Tree.exists_enter hover
    rw [size_insertAs h] at hroom
    obtain ⟨further, hevents, hdecided⟩ :=
      events_insertAs (b := b) (o := o) h (hc.wellFormed.enter h hroom)
    rw [hevents]
    exact hc.reported h hroom (bare_insertAs h b o) hdecided

def reports : Revisable σ × Request σ → List Event
  | (c, .insertAs w b o) => (c.insertAs w b o).events
  | (c, .addSymbol s) => (c.addSymbol s).events
  | (_, .retire _) => []

def log (c : Revisable σ) (rs : List (Request σ)) : List Event :=
  (encounters step c rs).flatMap reports

theorem draw_step {c : Revisable σ} (hc : c.tree.WellFormed) {r : Request σ}
    (hroom : (c.step r).tree.size ≤ UInt32.size) :
    (reports (c, r)).foldlM Sketch.draw? c.tree.sketch = some (c.step r).tree.sketch := by
  cases r with
  | addSymbol s => exact c.tree.draw_addSymbol s
  | retire id =>
    rw [step, tree_retire]
    rfl
  | insertAs w b o =>
    cases h : c.tree.enter w with
    | error s =>
      rw [reports, step, insertAs_of_error h]
      rfl
    | ok d =>
      rw [step, size_insertAs h] at hroom
      obtain ⟨further, hevents, hdecided⟩ :=
        events_insertAs (b := b) (o := o) h (hc.enter h hroom)
      rw [reports, hevents]
      exact hc.draw_reported h hroom (bare_insertAs h b o) hdecided

theorem draw_log (a : Alphabet σ) (settings : Settings) (rs : List (Request σ))
    (hroom : ((new a settings).run rs).tree.size ≤ UInt32.size) :
    ((new a settings).log rs).foldlM Sketch.draw? .root =
      some ((new a settings).run rs).tree.sketch := by
  rw [← Tree.sketch_new (P := Provenance) a settings]
  exact foldlM_reports step (fun c => c.tree.size) (fun c r => (size_step c r).1)
    (fun c => c.tree.WellFormed) (fun _ _ hc => wellFormed_step hc) reports Sketch.draw?
    (fun c => c.tree.sketch) (fun _ _ hc => draw_step hc) (Tree.wellFormed_new a settings) rs hroom

end Revisable

/-- The reports of a run tell how its tree was built. Every insert whose word is over the alphabet
reports the nodes it creates, in order and nothing else of the kind, and after them at most one
decision about verdicts that differ; new symbols create no node. Drawn from a lone root, the reports
of the run give the nodes and the slots of its last tree. -/
theorem reports_tell_construction :
    (∀ (a : Alphabet σ) (settings : Settings) (rs : List (WriteOnce.Request σ)),
      let start := WriteOnce.new a settings
      (start.run rs).tree.size ≤ UInt32.size →
        (∀ before w b after, rs = before ++ .insert w b :: after →
          let c := start.run before
          c.tree.Logged w WriteOnce.tree (c.insert w b) False False) ∧
        (∀ before s after, rs = before ++ .addSymbol s :: after →
          ∀ e ∈ ((start.run before).addSymbol s).events, e.message ≠ "created node") ∧
        (start.log rs).foldlM Sketch.draw? .root = some (start.run rs).tree.sketch) ∧
    (∀ (a : Alphabet σ) (settings : Settings) (rs : List (Revisable.Request σ)),
      let start := Revisable.new a settings
      (start.run rs).tree.size ≤ UInt32.size →
        (∀ before w b o after, rs = before ++ .insertAs w b o :: after →
          let c := start.run before
          let r := c.insertAs w b o
          c.tree.Logged w Revisable.tree r (r.answer = .ok true)
            (o = .oracle ∧ c.tree.lookup w = (true, some (!b)) ∧ c.originOf? w = some .user)) ∧
        (∀ before s after, rs = before ++ .addSymbol s :: after →
          ∀ e ∈ ((start.run before).addSymbol s).events, e.message ≠ "created node") ∧
        (start.log rs).foldlM Sketch.draw? .root = some (start.run rs).tree.sketch) := by
  refine ⟨?_, ?_⟩
  · intro a settings rs start hroom
    refine ⟨?_, fun _ _ _ _ _ he => Tree.message_addSymbol he,
      WriteOnce.draw_log a settings rs hroom⟩
    intro before w b after hrs c
    have hafter := (WriteOnce.wellFormed_before hrs hroom).2
    have hbefore := Nat.le_trans (WriteOnce.size_step c (.insert w b)).1 hafter
    exact WriteOnce.logged_insert (WriteOnce.holds_run a settings before hbefore) hafter
  · intro a settings rs start hroom
    refine ⟨?_, fun _ _ _ _ _ he => Tree.message_addSymbol he,
      Revisable.draw_log a settings rs hroom⟩
    intro before w b o after hrs c r
    have hafter := (Revisable.wellFormed_before hrs hroom).2
    have hbefore := Nat.le_trans (Revisable.size_step c (.insertAs w b o)).1 hafter
    exact Revisable.logged_insertAs (Revisable.holds_run a settings before hbefore) hafter

theorem reports_tell_construction_over_conflict :
    let start₁ : WriteOnce Nat := .new (.ofList [1]) {}
    let rs₁ : List (WriteOnce.Request Nat) := [.insert [] true, .insert [] false, .insert [1, 7] true,
      .addSymbol 7, .insert [1, 7] true]
    let c₁ := start₁.run (rs₁.take 1)
    let start₂ : Revisable Nat := .new (.ofList [1]) {}
    let rs₂ : List (Revisable.Request Nat) := [.insertAs [] true .user, .insertAs [] false .oracle,
      .insertAs [1, 1] true .oracle, .retire .root, .insertAs [] false .user]
    let c₂ := start₂.run (rs₂.take 1)
    (start₁.run rs₁).tree.size ≤ UInt32.size ∧ (start₂.run rs₂).tree.size ≤ UInt32.size ∧
      (start₁.log rs₁).foldlM Sketch.draw? .root = some (start₁.run rs₁).tree.sketch ∧
      (start₂.log rs₂).foldlM Sketch.draw? .root = some (start₂.run rs₂).tree.sketch ∧
      c₁.tree.Logged [] WriteOnce.tree (c₁.insert [] false) False False ∧
      (c₁.insert [] false).events = [.rejected 0 .accept .reject] ∧
      (∃ created further, (c₂.insertAs [] false .oracle).events = created ++ further ∧
        ∃ e ∈ further, e.message = "kept user-asserted acceptance") := by
  intro start₁ rs₁ c₁ start₂ rs₂ c₂
  have hroom₁ : (start₁.run rs₁).tree.size ≤ UInt32.size :=
    Nat.le_trans (WriteOnce.size_run_le (.ofList [1]) {} rs₁) (by decide)
  have hroom₂ : (start₂.run rs₂).tree.size ≤ UInt32.size :=
    Nat.le_trans (Revisable.size_run_le (.ofList [1]) {} rs₂) (by decide)
  obtain ⟨hwriteOnce, hrevisable⟩ := @reports_tell_construction Nat _ _
  obtain ⟨hinserts₁, _, hdraw₁⟩ := hwriteOnce (.ofList [1]) {} rs₁ hroom₁
  obtain ⟨hinserts₂, _, hdraw₂⟩ := hrevisable (.ofList [1]) {} rs₂ hroom₂
  obtain ⟨created, further, hevents, _, hdecided⟩ :=
    (hinserts₂ (rs₂.take 1) [] false .oracle (rs₂.drop 2) rfl).reported (by simp)
  exact ⟨hroom₁, hroom₂, hdraw₁, hdraw₂, hinserts₁ (rs₁.take 1) [] false (rs₁.drop 2) rfl, rfl,
    created, further, hevents, hdecided.kept_iff.2 ⟨rfl, rfl, rfl⟩⟩

end Caches
end MembershipCache
