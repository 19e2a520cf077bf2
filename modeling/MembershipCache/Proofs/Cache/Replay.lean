import MembershipCache.Proofs.Cache.AgeOrder

/-! Runs repeated over the alphabet they end with. There every symbol is known from the start: the
requests for symbols fall away, and with them the inserts that came too early for one. All others
are answered as before and lead to the same nodes, because the states of the repeated run are those
of the first one stretched to its last alphabet. -/
namespace MembershipCache
universe u v w x

inductive Answer (σ : Type u) (α : Type v) where
  | inserted (result : Except (Refusal σ) α)
  | grew (grown : Bool)
  | retired (count : Nat)

/-- Whether a request is repeated. New symbols are not, and neither is an insert that was refused
for a foreign one. -/
def Answer.isReplayed {σ : Type u} {α : Type v} : Answer σ α → Bool
  | inserted (.error (.unknownSymbol _)) | grew _ => false
  | inserted _ | retired _ => true

namespace Tree
variable {σ : Type u} {P : Type v} [DecidableEq σ] [Hashable σ] {t : Tree σ P} {a : Alphabet σ}

theorem Holds.addSymbol_stretch {ws : List (Word σ)} (h : t.Holds ws) {s : σ}
    (ha : (t.addSymbol s).state.alphabet.toList <+: a.toList) :
    (t.addSymbol s).state.stretch a = t.stretch a := by
  rw [h.flush.addSymbol_eq_stretch h.wellFormed] at ha ⊢
  exact t.stretch_stretch (Alphabet.size_le_of_prefix ha)

theorem Flush.width_le (h : t.Flush) (ha : t.alphabet.toList <+: a.toList) : t.width ≤ a.size := by
  rw [h.width_eq]
  exact Alphabet.size_le_of_prefix ha

theorem Flush.stretch_of_toList_eq (h : t.Flush) (ha : a.toList = t.alphabet.toList) :
    (t.stretch a).nodes = t.nodes ∧ (t.stretch a).width = t.width := by
  have hsize : a.size = t.width := by
    rw [h.width_eq, Alphabet.size_eq_length, Alphabet.size_eq_length, ha]
  exact ⟨h.map_widen (Nat.le_of_eq hsize), hsize⟩

/-- If stretching does not show in what is replayed, and what is dropped does not show after
stretching, then a replay over an alphabet that goes on where the run ended repeats the run. -/
theorem Acts.replay {γ : Type w} {ρ : Type x} {α : Type v} [Inhabited P] {step : γ → ρ → γ}
    {tree : γ → Tree σ P} {entered? : γ × ρ → Option (Word σ)} (h : Acts step tree entered?)
    (answer : γ → ρ → Answer σ α) (stretch : γ → γ)
    (replayed : ∀ {c ws r}, (tree c).Holds ws → (tree c).alphabet.toList <+: a.toList →
      (answer c r).isReplayed = true →
      answer (stretch c) r = answer c r ∧ step (stretch c) r = stretch (step c r))
    (dropped : ∀ {c ws r}, (tree c).Holds ws → (tree (step c r)).alphabet.toList <+: a.toList →
      (answer c r).isReplayed = false → stretch (step c r) = stretch c)
    {c : γ} (hc : (tree c).Holds []) {rs : List ρ}
    (hroom : (tree (rs.foldl step c)).size ≤ UInt32.size)
    (ha : (tree (rs.foldl step c)).alphabet.toList <+: a.toList) :
    let kept := (transcript step answer c rs).filter (·.2.isReplayed)
    transcript step answer (stretch c) (kept.map Prod.fst) = kept ∧
      (kept.map Prod.fst).foldl step (stretch c) = stretch (rs.foldl step c) := by
  refine transcript_replay step answer stretch (fun d r hd hr => ?_) fun d r hd hr => ?_
  · obtain ⟨⟨ws, hmet⟩, hbefore, hafter⟩ := h.encountered hc hroom hd
    exact replayed hmet ((hbefore.trans hafter).trans ha) hr
  · obtain ⟨⟨ws, hmet⟩, _, hafter⟩ := h.encountered hc hroom hd
    exact dropped hmet (hafter.trans ha) hr

end Tree

namespace WriteOnce
variable {σ : Type u} [DecidableEq σ] [Hashable σ]

def answer (c : WriteOnce σ) : Request σ → Answer σ Unit
  | .insert w b => .inserted (c.insert w b).answer
  | .addSymbol s => .grew (c.addSymbol s).answer

def calls (c : WriteOnce σ) (rs : List (Request σ)) : List (Request σ × Answer σ Unit) :=
  transcript step answer c rs

def replayed (c : WriteOnce σ) (rs : List (Request σ)) : List (Request σ × Answer σ Unit) :=
  (c.calls rs).filter (·.2.isReplayed)

def stretch (c : WriteOnce σ) (a : Alphabet σ) : WriteOnce σ := ⟨c.tree.stretch a⟩

section Stretch
variable {c : WriteOnce σ} {a : Alphabet σ}

theorem insert_stretch (hwidth : c.tree.width ≤ a.size)
    (ha : c.tree.alphabet.toList <+: a.toList) {w : Word σ} {d : Descent σ Unit}
    (h : c.tree.enter w = .ok d) (b : Bool) :
    (c.stretch a).insert w b = (c.insert w b).within (·.stretch a) := by
  have hentered : (c.stretch a).tree.enter w = _ := c.tree.enter_stretch hwidth ha h
  have hwritten : (d.tree.stretch a).modify d.node (·.setVerdict (.ofBool b)) = _ :=
    d.tree.modify_stretch (fun _ => rfl) d.node
  rw [insert, insert, h, hentered]
  simp only [Tree.verdictAt_stretch, hwritten]
  split
  · rfl
  · split <;> rfl

theorem isReplayed_insert {w : Word σ} {b : Bool} :
    (c.answer (.insert w b)).isReplayed = true ↔ ∃ d, c.tree.enter w = .ok d := by
  rw [answer, insert]
  cases c.tree.enter w with
  | error s => simp [Answer.isReplayed]
  | ok d =>
    simp only [Except.ok.injEq, exists_eq', iff_true]
    split
    · rfl
    · split <;> rfl

theorem stretch_of_replayed {ws : List (Word σ)} {r : Request σ} (h : c.tree.Holds ws)
    (ha : c.tree.alphabet.toList <+: a.toList) (hr : (c.answer r).isReplayed = true) :
    (c.stretch a).answer r = c.answer r ∧ (c.stretch a).step r = (c.step r).stretch a := by
  cases r with
  | insert w b =>
    obtain ⟨d, hd⟩ := isReplayed_insert.1 hr
    simp only [answer, step, insert_stretch (h.flush.width_le ha) ha hd]
    exact ⟨rfl, rfl⟩
  | addSymbol s => cases hr

theorem stretch_of_dropped {ws : List (Word σ)} {r : Request σ} (h : c.tree.Holds ws)
    (ha : (c.step r).tree.alphabet.toList <+: a.toList) (hr : (c.answer r).isReplayed = false) :
    (c.step r).stretch a = c.stretch a := by
  cases r with
  | insert w b =>
    cases hw : c.tree.enter w with
    | error s => rw [step, insert_of_error hw]
    | ok d =>
      rw [isReplayed_insert.2 ⟨d, hw⟩] at hr
      cases hr
  | addSymbol s => exact congrArg mk (h.addSymbol_stretch ha)

end Stretch

theorem calls_replay {a a' : Alphabet σ} (settings settings' : Settings) {rs : List (Request σ)}
    (hroom : ((new a settings).run rs).tree.size ≤ UInt32.size)
    (ha : ((new a settings).run rs).tree.alphabet.toList <+: a'.toList) :
    let kept := (new a settings).replayed rs
    (new a' settings').calls (kept.map Prod.fst) = kept ∧
      (new a' settings').run (kept.map Prod.fst) = ((new a settings).run rs).stretch a' := by
  have hnew : (new a settings).tree.Holds [] := Tree.Holds.new a settings
  have hstart : (new a settings).stretch a' = new a' settings' := by
    have hle : a.toList <+: a'.toList := (acts.prefix_foldl ⟨[], hnew⟩ rs hroom).trans ha
    exact congrArg mk (Tree.new_stretch settings settings' (Alphabet.size_le_of_prefix hle))
  rw [← hstart]
  exact acts.replay answer (·.stretch a') stretch_of_replayed stretch_of_dropped hnew hroom ha

end WriteOnce

namespace Revisable
variable {σ : Type u} [DecidableEq σ] [Hashable σ]

def answer (c : Revisable σ) : Request σ → Answer σ Bool
  | .insertAs w b o => .inserted (c.insertAs w b o).answer
  | .addSymbol s => .grew (c.addSymbol s).answer
  | .retire id => .retired (c.retire id).2

def calls (c : Revisable σ) (rs : List (Request σ)) : List (Request σ × Answer σ Bool) :=
  transcript step answer c rs

def replayed (c : Revisable σ) (rs : List (Request σ)) : List (Request σ × Answer σ Bool) :=
  (c.calls rs).filter (·.2.isReplayed)

def stretch (c : Revisable σ) (a : Alphabet σ) : Revisable σ := ⟨c.tree.stretch a, c.recency⟩

section Stretch
variable {c : Revisable σ} {a : Alphabet σ}

theorem insertAs_stretch (hwidth : c.tree.width ≤ a.size)
    (ha : c.tree.alphabet.toList <+: a.toList) {w : Word σ} {d : Descent σ Provenance}
    (h : c.tree.enter w = .ok d) (b : Bool) (o : Provenance) :
    (c.stretch a).insertAs w b o = (c.insertAs w b o).within (·.stretch a) := by
  have hentered : (c.stretch a).tree.enter w = _ := c.tree.enter_stretch hwidth ha h
  have hwritten : (d.tree.stretch a).modify d.node
      (fun n => (n.setVerdict (.ofBool b)).setTag o) = _ :=
    d.tree.modify_stretch (fun _ => rfl) d.node
  rw [insertAs, insertAs, h, hentered]
  simp only [Tree.verdictAt_stretch, Tree.tagAt_stretch, hwritten]
  split
  · rfl
  · split
    · rfl
    · split <;> rfl

theorem retire_stretch (hc : c.tree.WellFormed) (ha : c.tree.alphabet.toList <+: a.toList)
    (id : NodeId) : (c.stretch a).retire id = ((c.retire id).1.stretch a, (c.retire id).2) := by
  rw [retire, retire]
  simp only [stretch, Tree.node?_stretch, hc.breadthFirst_stretch ha]
  cases c.tree.node? id <;> rfl

theorem isReplayed_insertAs {w : Word σ} {b : Bool} {o : Provenance} :
    (c.answer (.insertAs w b o)).isReplayed = true ↔ ∃ d, c.tree.enter w = .ok d := by
  rw [answer, insertAs]
  cases c.tree.enter w with
  | error s => simp [Answer.isReplayed]
  | ok d =>
    simp only [Except.ok.injEq, exists_eq', iff_true]
    split
    · rfl
    · split
      · rfl
      · split <;> rfl

theorem stretch_of_replayed {ws : List (Word σ)} {r : Request σ} (h : c.tree.Holds ws)
    (ha : c.tree.alphabet.toList <+: a.toList) (hr : (c.answer r).isReplayed = true) :
    (c.stretch a).answer r = c.answer r ∧ (c.stretch a).step r = (c.step r).stretch a := by
  cases r with
  | insertAs w b o =>
    obtain ⟨d, hd⟩ := isReplayed_insertAs.1 hr
    simp only [answer, step, insertAs_stretch (h.flush.width_le ha) ha hd]
    exact ⟨rfl, rfl⟩
  | addSymbol s => cases hr
  | retire id =>
    simp only [answer, step, retire_stretch h.wellFormed ha, and_self]

theorem stretch_of_dropped {ws : List (Word σ)} {r : Request σ} (h : c.tree.Holds ws)
    (ha : (c.step r).tree.alphabet.toList <+: a.toList) (hr : (c.answer r).isReplayed = false) :
    (c.step r).stretch a = c.stretch a := by
  cases r with
  | insertAs w b o =>
    cases hw : c.tree.enter w with
    | error s => rw [step, insertAs_of_error hw]
    | ok d =>
      rw [isReplayed_insertAs.2 ⟨d, hw⟩] at hr
      cases hr
  | addSymbol s => exact congrArg (mk · c.recency) (h.addSymbol_stretch ha)
  | retire id => cases hr

end Stretch

theorem calls_replay {a a' : Alphabet σ} (settings settings' : Settings) {rs : List (Request σ)}
    (hroom : ((new a settings).run rs).tree.size ≤ UInt32.size)
    (ha : ((new a settings).run rs).tree.alphabet.toList <+: a'.toList) :
    let kept := (new a settings).replayed rs
    (new a' settings').calls (kept.map Prod.fst) = kept ∧
      (new a' settings').run (kept.map Prod.fst) = ((new a settings).run rs).stretch a' := by
  have hnew : (new a settings).tree.Holds [] := Tree.Holds.new a settings
  have hstart : (new a settings).stretch a' = new a' settings' := by
    have hle : a.toList <+: a'.toList := (acts.prefix_foldl ⟨[], hnew⟩ rs hroom).trans ha
    exact congrArg (mk · .empty) (Tree.new_stretch settings settings' (Alphabet.size_le_of_prefix hle))
  rw [← hstart]
  exact acts.replay answer (·.stretch a') stretch_of_replayed stretch_of_dropped hnew hroom ha

end Revisable

/-- A run may as well have started with its last alphabet: without the requests for symbols and the
inserts that came too early for one, every request is answered as before, and the run ends with the
same nodes over the same symbols, and with the same ages. -/
theorem replay_over_last_alphabet {σ : Type u} [DecidableEq σ] [Hashable σ] :
    (∀ (a last : Alphabet σ) (settings settings' : Settings) (rs : List (WriteOnce.Request σ)),
      let c := (WriteOnce.new a settings).run rs
      c.tree.size ≤ UInt32.size → last.toList = c.tree.alphabet.toList →
      let kept := (WriteOnce.new a settings).replayed rs
      let c' := (WriteOnce.new last settings').run (kept.map Prod.fst)
      (WriteOnce.new last settings').calls (kept.map Prod.fst) = kept ∧
        c'.tree.alphabet.toList = c.tree.alphabet.toList ∧ c'.tree.nodes = c.tree.nodes ∧
        c'.tree.width = c.tree.width) ∧
    (∀ (a last : Alphabet σ) (settings settings' : Settings) (rs : List (Revisable.Request σ)),
      let c := (Revisable.new a settings).run rs
      c.tree.size ≤ UInt32.size → last.toList = c.tree.alphabet.toList →
      let kept := (Revisable.new a settings).replayed rs
      let c' := (Revisable.new last settings').run (kept.map Prod.fst)
      (Revisable.new last settings').calls (kept.map Prod.fst) = kept ∧
        c'.tree.alphabet.toList = c.tree.alphabet.toList ∧ c'.tree.nodes = c.tree.nodes ∧
        c'.tree.width = c.tree.width ∧ c'.ages = c.ages) := by
  constructor
  · intro a last settings settings' rs c hroom hlast kept c'
    have hflush := (WriteOnce.holds_run a settings rs hroom).flush
    obtain ⟨hnodes, hwidth⟩ := hflush.stretch_of_toList_eq hlast
    have hprefix : c.tree.alphabet.toList <+: last.toList := hlast ▸ List.prefix_rfl
    obtain ⟨hcalls, hend⟩ := WriteOnce.calls_replay settings settings' hroom hprefix
    refine ⟨hcalls, ?_⟩
    simp only [c', kept, hend]
    exact ⟨hlast, hnodes, hwidth⟩
  · intro a last settings settings' rs c hroom hlast kept c'
    have hflush := (Revisable.holds_run a settings rs hroom).flush
    obtain ⟨hnodes, hwidth⟩ := hflush.stretch_of_toList_eq hlast
    have hprefix : c.tree.alphabet.toList <+: last.toList := hlast ▸ List.prefix_rfl
    obtain ⟨hcalls, hend⟩ := Revisable.calls_replay settings settings' hroom hprefix
    refine ⟨hcalls, ?_⟩
    simp only [c', kept, hend]
    exact ⟨hlast, hnodes, hwidth, rfl⟩

theorem replay_over_last_alphabet_of_early_inserts :
    let a : Alphabet Nat := .ofList [1]
    let rs₁ : List (WriteOnce.Request Nat) := [.insert [1, 7] true, .insert [1] true, .addSymbol 7,
      .insert [7, 1] false, .insert [1] false, .addSymbol 3, .insert [1, 7] true]
    let rs₂ : List (Revisable.Request Nat) := [.insertAs [1, 7] true .user,
      .insertAs [1] true .oracle, .addSymbol 7, .insertAs [7, 1] false .oracle, .retire .root,
      .insertAs [1] false .user, .insertAs [7] true .oracle]
    let last₁ := Alphabet.ofList ((WriteOnce.new a {}).run rs₁).tree.alphabet.toList
    let last₂ := Alphabet.ofList ((Revisable.new a {}).run rs₂).tree.alphabet.toList
    let kept₁ := (WriteOnce.new a {}).replayed rs₁
    let kept₂ := (Revisable.new a {}).replayed rs₂
    ((WriteOnce.new a {}).run rs₁).tree.size ≤ UInt32.size ∧
      ((Revisable.new a {}).run rs₂).tree.size ≤ UInt32.size ∧
      last₁.toList = ((WriteOnce.new a {}).run rs₁).tree.alphabet.toList ∧
      last₂.toList = ((Revisable.new a {}).run rs₂).tree.alphabet.toList ∧
      last₁.toList = [1, 7, 3] ∧ last₂.toList = [1, 7] ∧
      (WriteOnce.new last₁ {}).calls (kept₁.map Prod.fst) = kept₁ ∧
      (Revisable.new last₂ {}).calls (kept₂.map Prod.fst) = kept₂ ∧
      ((WriteOnce.new last₁ {}).run (kept₁.map Prod.fst)).tree.lookup [7, 1] = (true, some false) ∧
      ((Revisable.new last₂ {}).run (kept₂.map Prod.fst)).ages =
        [(.ofPosition 1, [1]), (.ofPosition 2, [7])] := by
  intro a rs₁ rs₂ last₁ last₂ kept₁ kept₂
  have ha : a.toList = [1] := Alphabet.toList_ofList_of_nodup (by decide)
  have hroom₁ := Nat.le_trans (WriteOnce.size_run_le a {} rs₁) (by decide : _ ≤ UInt32.size)
  have hroom₂ := Nat.le_trans (Revisable.size_run_le a {} rs₂) (by decide : _ ≤ UInt32.size)
  have hlast₁ : last₁.toList = ((WriteOnce.new a {}).run rs₁).tree.alphabet.toList :=
    Alphabet.toList_ofList_of_nodup (Alphabet.nodup_toList _)
  have hlast₂ : last₂.toList = ((Revisable.new a {}).run rs₂).tree.alphabet.toList :=
    Alphabet.toList_ofList_of_nodup (Alphabet.nodup_toList _)
  have hletters₁ := hlast₁.trans (WriteOnce.describes_run ha {} rs₁ hroom₁).letters_eq
  have hletters₂ := hlast₂.trans (Revisable.describes_run ha {} rs₂ hroom₂).letters_eq
  obtain ⟨hwriteOnce, hrevisable⟩ := @replay_over_last_alphabet Nat _ _
  obtain ⟨hcalls₁, hsymbols, hnodes, _⟩ := hwriteOnce a last₁ {} {} rs₁ hroom₁ hlast₁
  obtain ⟨hcalls₂, _, _, _, hages⟩ := hrevisable a last₂ {} {} rs₂ hroom₂ hlast₂
  refine ⟨hroom₁, hroom₂, hlast₁, hlast₂, hletters₁.trans (by decide), hletters₂.trans (by decide),
    hcalls₁, hcalls₂, ?_, ?_⟩
  · rw [Tree.lookup_congr hsymbols hnodes]
    exact WriteOnce.lookup_run ha {} rs₁ hroom₁ [7, 1]
  · rw [hages, Revisable.ages_run ha {} rs₂ hroom₂]
    decide

end MembershipCache
