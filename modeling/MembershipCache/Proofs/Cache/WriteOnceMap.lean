import MembershipCache.Proofs.Cache.Outline

/-! A write-once cache is a partial map from words to verdicts in which the first write stays. What a
word is mapped to depends on the inserts of that word alone, less those that a foreign symbol
stopped, and an insert is in conflict exactly if the map holds the opposite. -/
namespace MembershipCache
universe u

namespace WriteOnce
variable {σ : Type u} [DecidableEq σ] [Hashable σ]

def stoppedBySymbol : Except (Refusal σ) Unit → Bool
  | .error (.unknownSymbol _) => true
  | _ => false

def inConflict : Except (Refusal σ) Unit → Bool
  | .error refusal => refusal.isConflict
  | .ok _ => false

def observation? (w : Word σ) : WriteOnce σ × Request σ → Option Bool
  | (c, .insert v b) => if v = w ∧ stoppedBySymbol (c.insert v b).answer = false then some b else none
  | (_, .addSymbol _) => none

/-- The verdicts that the inserts of a word carried, in order, where no foreign symbol stopped
them. -/
def observed (c : WriteOnce σ) (rs : List (Request σ)) (w : Word σ) : List Bool :=
  (encounters step c rs).filterMap (observation? w)

def ConflictFree (c : WriteOnce σ) (rs : List (Request σ)) : Prop :=
  ∀ d w b, (d, .insert w b) ∈ encounters step c rs → inConflict (d.insert w b).answer = false

theorem observed_concat (c : WriteOnce σ) (rs : List (Request σ)) (r : Request σ) (w : Word σ) :
    c.observed (rs ++ [r]) w = c.observed rs w ++ (observation? w (c.run rs, r)).toList :=
  filterMap_encounters_concat ..

theorem conflictFree_addSymbol (c : WriteOnce σ) (rs : List (Request σ)) (s : σ) :
    c.ConflictFree (rs ++ [.addSymbol s]) ↔ c.ConflictFree rs := by
  simp [ConflictFree, encounters_concat]

theorem conflictFree_insert (c : WriteOnce σ) (rs : List (Request σ)) (v : Word σ) (b : Bool) :
    c.ConflictFree (rs ++ [.insert v b]) ↔
      c.ConflictFree rs ∧ inConflict ((c.run rs).insert v b).answer = false := by
  simp only [ConflictFree, encounters_concat, List.mem_append, List.mem_singleton]
  constructor
  · intro h
    exact ⟨fun d w x hd => h d w x (Or.inl hd), h _ v b (Or.inr rfl)⟩
  · intro h d w x hd
    obtain ⟨hold, hlast⟩ := h
    rcases hd with hd | hd
    · exact hold d w x hd
    · cases hd
      exact hlast

omit [DecidableEq σ] [Hashable σ] in
theorem stoppedBySymbol_insertAnswer (w : Word σ) (b : Bool) (s? : Option σ) (x? : Option Bool) :
    stoppedBySymbol (insertAnswer w b s? x?) = s?.isSome := by
  cases s? with
  | some s => rfl
  | none =>
    cases x? with
    | none => rfl
    | some x =>
      rw [insertAnswer]
      split <;> rfl

omit [DecidableEq σ] [Hashable σ] in
theorem inConflict_insertAnswer (w : Word σ) (b : Bool) (s? : Option σ) (x? : Option Bool) :
    inConflict (insertAnswer w b s? x?) = (s?.isNone && x? == some (!b)) := by
  cases s? with
  | some s => rfl
  | none =>
    cases x? with
    | none => rfl
    | some x => cases x <;> cases b <;> rfl

theorem observation?_insert {c : WriteOnce σ} {v : Word σ} {b : Bool}
    (h : Inserted c v b (c.insert v b)) (w : Word σ) : observation? w (c, .insert v b) =
      if v = w ∧ v.find? (· ∉ c.tree.alphabet.toList) = none then some b else none := by
  rw [observation?, h.answer_eq, stoppedBySymbol_insertAnswer]
  cases v.find? (· ∉ c.tree.alphabet.toList) <;> simp

theorem committed?_run (a : Alphabet σ) (settings : Settings) (rs : List (Request σ))
    (hroom : ((new a settings).run rs).tree.size ≤ UInt32.size) (w : Word σ) :
    ((new a settings).run rs).tree.committed? w = ((new a settings).observed rs w).head? := by
  induction rs using List.reverseRecOn with
  | nil => exact Tree.committed?_new a settings w
  | append_singleton rs r ih =>
    have hsize := Nat.le_trans (size_step _ r).1 (run_concat (new a settings) rs r ▸ hroom)
    have hwf := wellFormed_run a settings rs hsize
    rw [observed_concat, List.head?_append, ← ih hsize]
    rw [run_concat] at hroom ⊢
    cases r with
    | addSymbol s =>
      rw [observation?, Option.toList_none, List.head?_nil, Option.or_none]
      exact hwf.committed?_addSymbol s w
    | insert v b =>
      have h := inserted hwf hroom
      rw [step, h.committed?_eq, observation?_insert h]
      by_cases hv : v = w
      · subst hv
        cases hfind : v.find? (· ∉ ((new a settings).run rs).tree.alphabet.toList) with
        | some s => simp
        | none => cases ((new a settings).run rs).tree.committed? v <;> simp
      · simp [hv, Ne.symm hv]

theorem inserted_run {a : Alphabet σ} {settings : Settings} {rs before after : List (Request σ)}
    {w : Word σ} {b : Bool} (h : rs = before ++ .insert w b :: after)
    (hroom : ((new a settings).run rs).tree.size ≤ UInt32.size) :
    Inserted ((new a settings).run before) w b (((new a settings).run before).insert w b) := by
  obtain ⟨hwf, hafter⟩ := wellFormed_before h hroom
  exact inserted hwf hafter

def Consistent (c : WriteOnce σ) (rs : List (Request σ)) : Prop :=
  ∀ w, ∀ b ∈ c.observed rs w, ∀ b' ∈ c.observed rs w, b = b'

theorem consistent_of_nothing_observed {c : WriteOnce σ} {rs : List (Request σ)} {r : Request σ}
    (h : ∀ w, c.observed (rs ++ [r]) w = c.observed rs w) :
    c.Consistent (rs ++ [r]) ↔ c.Consistent rs := by
  simp only [Consistent, h]

/-- An insert that gets through keeps the verdicts consistent exactly if the first one observed is
not the opposite. -/
theorem consistent_concat {c : WriteOnce σ} {rs : List (Request σ)} {v : Word σ} {b : Bool}
    (h : ∀ w, c.observed (rs ++ [.insert v b]) w = c.observed rs w ++ if v = w then [b] else []) :
    c.Consistent (rs ++ [.insert v b]) ↔
      c.Consistent rs ∧ (c.observed rs v).head? ≠ some (!b) := by
  constructor
  · intro hcons
    refine ⟨fun w x hx y hy => hcons w x ?_ y ?_, ?_⟩
    · rw [h]
      exact List.mem_append_left _ hx
    · rw [h]
      exact List.mem_append_left _ hy
    · intro hhead
      have hold : (!b) ∈ c.observed (rs ++ [.insert v b]) v := by
        rw [h]
        exact List.mem_append_left _ (List.mem_of_head? hhead)
      have hnew : b ∈ c.observed (rs ++ [.insert v b]) v := by
        rw [h]
        simp
      have := hcons v _ hold _ hnew
      simp at this
  · intro hold w
    obtain ⟨hcons, hhead⟩ := hold
    rw [h]
    by_cases hv : v = w
    · subst hv
      have hall : ∀ x ∈ c.observed rs v, x = b := by
        intro x hx
        cases hobs : c.observed rs v with
        | nil => simp [hobs] at hx
        | cons y ys =>
          have hy : y = b := by
            rw [hobs, List.head?_cons] at hhead
            cases y <;> cases b <;> simp_all
          rw [← hy]
          exact hcons v x hx y (by simp [hobs])
      intro x hx y hy
      rw [if_pos rfl, List.mem_append, List.mem_singleton] at hx hy
      have hxb : x = b := hx.elim (hall x) id
      have hyb : y = b := hy.elim (hall y) id
      rw [hxb, hyb]
    · rw [if_neg hv, List.append_nil]
      exact hcons w

theorem conflictFree_iff_consistent (a : Alphabet σ) (settings : Settings) (rs : List (Request σ))
    (hroom : ((new a settings).run rs).tree.size ≤ UInt32.size) :
    (new a settings).ConflictFree rs ↔ (new a settings).Consistent rs := by
  induction rs using List.reverseRecOn with
  | nil =>
    constructor
    · intro _ w b hb
      cases hb
    · intro _ d w b hd
      cases hd
  | append_singleton rs r ih =>
    have hsize := Nat.le_trans (size_step _ r).1 (run_concat (new a settings) rs r ▸ hroom)
    cases r with
    | addSymbol s =>
      rw [conflictFree_addSymbol, ih hsize, consistent_of_nothing_observed]
      intro w
      rw [observed_concat]
      exact List.append_nil _
    | insert v b =>
      have h : Inserted ((new a settings).run rs) v b _ := inserted_run rfl hroom
      have hanswer : inConflict (((new a settings).run rs).insert v b).answer =
          ((v.find? (· ∉ ((new a settings).run rs).tree.alphabet.toList)).isNone &&
            ((new a settings).observed rs v).head? == some (!b)) := by
        rw [h.answer_eq, inConflict_insertAnswer, committed?_run a settings rs hsize v]
      rw [conflictFree_insert, ih hsize, hanswer]
      cases hfind : v.find? (· ∉ ((new a settings).run rs).tree.alphabet.toList) with
      | some s =>
        rw [consistent_of_nothing_observed]
        · simp
        · intro w
          rw [observed_concat, observation?_insert h, hfind]
          simp
      | none =>
        rw [consistent_concat]
        · simp
        · intro w
          rw [observed_concat, observation?_insert h, hfind]
          by_cases hv : v = w <;> simp [hv]

theorem mem_observed_of_inserts (a : Alphabet σ) (settings : Settings) (obs : List (Word σ × Bool))
    (hover : ∀ o ∈ obs, ∀ s ∈ o.1, s ∈ a.toList)
    (hroom : ((new a settings).run (obs.map fun o => .insert o.1 o.2)).tree.size ≤ UInt32.size) :
    ((new a settings).run (obs.map fun o => .insert o.1 o.2)).tree.alphabet = a ∧
      ∀ w b, b ∈ (new a settings).observed (obs.map fun o => .insert o.1 o.2) w ↔
        (w, b) ∈ obs := by
  induction obs using List.reverseRecOn with
  | nil => exact ⟨rfl, fun w b => by simp [observed, encounters]⟩
  | append_singleton obs o ih =>
    obtain ⟨v, x⟩ := o
    simp only [List.map_append, List.map_cons, List.map_nil] at hroom ⊢
    have h : Inserted ((new a settings).run (obs.map fun o => .insert o.1 o.2)) v x _ :=
      inserted_run rfl hroom
    have hsize := Nat.le_trans (size_step _ _).1 (run_concat (new a settings) _ _ ▸ hroom)
    obtain ⟨ha, hobs⟩ := ih (fun o ho => hover o (List.mem_append_left _ ho)) hsize
    have hv : v.find? (· ∉ a.toList) = none := by
      rw [List.find?_eq_none]
      intro s hs
      simpa using hover (v, x) (by simp) s hs
    refine ⟨?_, ?_⟩
    · rw [run_concat]
      exact h.alphabet_eq.trans ha
    · intro w b
      rw [observed_concat, observation?_insert h, ha, hv, List.mem_append, hobs, List.mem_append]
      by_cases hw : v = w
      · subst hw
        simp [eq_comm]
      · simp [hw, Ne.symm hw]

/-- A run and the partial map it builds: what is looked up, what every insert answers, and when no
insert is in conflict. -/
theorem run_builds_partial_map (a : Alphabet σ) (settings : Settings) (rs : List (Request σ))
    (hroom : ((new a settings).run rs).tree.size ≤ UInt32.size) :
    (∀ w b, ((new a settings).run rs).tree.lookup w = (true, some b) ↔
      ((new a settings).observed rs w).head? = some b) ∧
    (∀ w, ((new a settings).run rs).tree.lookup w = (false, none) ↔
      (new a settings).observed rs w = []) ∧
    (∀ before w b after, rs = before ++ .insert w b :: after →
      let c := (new a settings).run before
      (c.insert w b).answer =
        match w.find? (· ∉ c.tree.alphabet.toList) with
        | some s => .error (.unknownSymbol s)
        | none =>
          if c.tree.lookup w = (true, some (!b)) then
            .error (.conflict w (.ofBool (!b)) (.ofBool b))
          else .ok ()) ∧
    ((new a settings).ConflictFree rs ↔ (new a settings).Consistent rs) ∧
    (∀ obs : List (Word σ × Bool), rs = obs.map (fun o => .insert o.1 o.2) →
      (∀ o ∈ obs, ∀ s ∈ o.1, s ∈ a.toList) →
      ((new a settings).ConflictFree rs ↔ ∀ w b b', (w, b) ∈ obs → (w, b') ∈ obs → b = b')) := by
  have hlookup : ∀ w, ((new a settings).run rs).tree.lookup w =
      (((new a settings).observed rs w).head?.isSome, ((new a settings).observed rs w).head?) := by
    intro w
    rw [Tree.lookup, committed?_run a settings rs hroom]
  refine ⟨?_, ?_, ?_, conflictFree_iff_consistent a settings rs hroom, ?_⟩
  · intro w b
    rw [hlookup]
    cases ((new a settings).observed rs w).head? <;> simp
  · intro w
    rw [hlookup]
    cases (new a settings).observed rs w <;> simp
  · intro before w b after hrs c
    have h := inserted_run hrs hroom
    rw [h.answer_eq]
    cases hfind : w.find? (· ∉ c.tree.alphabet.toList) with
    | some s => rfl
    | none =>
      rw [Tree.lookup]
      cases hw : c.tree.committed? w with
      | none => rfl
      | some x => cases x <;> cases b <;> rfl
  · intro obs hrs hover
    subst hrs
    obtain ⟨_, hobs⟩ := mem_observed_of_inserts a settings obs hover hroom
    rw [conflictFree_iff_consistent a settings _ hroom, Consistent]
    constructor
    · intro h w b b' hb hb'
      exact h w b ((hobs w b).2 hb) b' ((hobs w b').2 hb')
    · intro h w b hb b' hb'
      exact h w b b' ((hobs w b).1 hb) ((hobs w b').1 hb')

theorem run_builds_partial_map_over_growth :
    let c : WriteOnce Nat := new (.ofList [1, 2]) {}
    let early : List (Request Nat) := [.insert [1, 2] true, .insert [7] true, .addSymbol 7,
      .insert [7] false]
    let rs := early ++ [.insert [1, 2] false]
    (c.run rs).tree.size ≤ UInt32.size ∧
      (c.run rs).tree.lookup [7] = (true, some false) ∧
      (c.observed rs [7]).head? = some false ∧
      ((c.run early).insert [1, 2] false).answer = .error (.conflict [1, 2] .accept .reject) ∧
      (c.ConflictFree rs ↔ c.Consistent rs) := by
  intro c early rs
  have hletters : (Alphabet.ofList [1, 2]).toList = [1, 2] :=
    Alphabet.toList_ofList_of_nodup (by decide)
  have hroom : (c.run rs).tree.size ≤ UInt32.size :=
    Nat.le_trans (size_run_le (.ofList [1, 2]) {} rs) (by decide)
  have hearly : (c.run early).tree.size ≤ UInt32.size :=
    Nat.le_trans (size_run_le (.ofList [1, 2]) {} early) (by decide)
  have hseven : (c.run rs).tree.lookup [7] = (true, some false) :=
    lookup_run hletters {} rs hroom [7]
  have hfind : [1, 2].find? (· ∉ (c.run early).tree.alphabet.toList) = none := by
    rw [(describes_run hletters {} early hearly).letters_eq]
    decide
  have hbefore : (c.run early).tree.lookup [1, 2] = (true, some true) :=
    lookup_run hletters {} early hearly [1, 2]
  obtain ⟨hlookup, _, hanswers, hconflict, _⟩ :=
    run_builds_partial_map (.ofList [1, 2]) {} rs hroom
  have hanswer := hanswers early [1, 2] false [] rfl
  simp only [c] at hfind hbefore
  simp only [hfind, hbefore] at hanswer
  exact ⟨hroom, hseven, (hlookup [7] false).1 hseven, hanswer, hconflict⟩

/-- A word with a foreign symbol may be given both verdicts: it is turned down twice, and no
conflict is answered. -/
theorem conflictFree_with_both_verdicts :
    let obs : List (Word Nat × Bool) := [([7], true), ([7], false)]
    let c : WriteOnce Nat := new .empty {}
    let rs := obs.map fun o => Request.insert o.1 o.2
    (c.run rs).tree.size ≤ UInt32.size ∧ c.ConflictFree rs ∧
      ¬ ∀ w b b', (w, b) ∈ obs → (w, b') ∈ obs → b = b' := by
  intro obs c rs
  have hinsert : ∀ b, c.insert [7] b = ⟨.error (.unknownSymbol 7), c, []⟩ := by
    intro b
    have henter : c.tree.enter [7] = .error 7 := by
      apply Tree.enter_eq_error_iff.2
      simp [c, new, Tree.new, Alphabet.empty, Alphabet.toList]
    rw [insert, henter]
  refine ⟨Nat.le_trans (size_run_le .empty {} rs) (by decide), ?_, ?_⟩
  · intro d w b hd
    simp only [rs, obs, List.map_cons, List.map_nil, encounters, step, hinsert, List.mem_cons,
      List.not_mem_nil, or_false, Prod.mk.injEq, Request.insert.injEq] at hd
    rcases hd with ⟨rfl, rfl, rfl⟩ | ⟨rfl, rfl, rfl⟩ <;> rw [hinsert] <;> rfl
  · intro h
    have := h [7] true false (by simp [obs]) (by simp [obs])
    cases this

end WriteOnce
end MembershipCache
