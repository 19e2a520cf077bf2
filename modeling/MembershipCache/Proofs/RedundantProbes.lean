import MembershipCache.Proofs.ProbeOrder

/-! Probes that add nothing. A symbol foreign to the tree leads nowhere, and where a symbol is
repeated its first place decides; so the search answers what it would answer with neither. Whether
it answers at all does not depend on the order of the probes. -/
namespace MembershipCache
universe u v w

section Places
variable {σ : Type u} [DecidableEq σ] {l : List σ} {r s : σ}

theorem idxOf_cons_lt_iff {a : σ} : (a :: l).idxOf r < (a :: l).idxOf s ↔
    s ≠ a ∧ (r = a ∨ l.idxOf r < l.idxOf s) := by
  by_cases hs : s = a
  · simp [hs]
  · by_cases hr : r = a
    · simp [hr, hs, List.idxOf_cons_ne _ (Ne.symm hs)]
    · simp [hr, hs, List.idxOf_cons_ne _ (Ne.symm hs), List.idxOf_cons_ne _ (Ne.symm hr)]

theorem idxOf_filter_lt_iff {p : σ → Bool} (hr : p r = true) (hs : p s = true) :
    (l.filter p).idxOf r < (l.filter p).idxOf s ↔ l.idxOf r < l.idxOf s := by
  induction l with
  | nil => rfl
  | cons a l ih =>
    by_cases ha : p a = true
    · rw [List.filter_cons_of_pos ha, idxOf_cons_lt_iff, idxOf_cons_lt_iff, ih]
    · have hra : r ≠ a := fun h => ha (h ▸ hr)
      have hsa : s ≠ a := fun h => ha (h ▸ hs)
      rw [List.filter_cons_of_neg ha, idxOf_cons_lt_iff, ih]
      simp [hra, hsa]

theorem idxOf_eraseDups_lt_iff : l.eraseDups.idxOf r < l.eraseDups.idxOf s ↔
    l.idxOf r < l.idxOf s := by
  induction hn : l.length using Nat.strongRecOn generalizing l with
  | ind n ih =>
    cases l with
    | nil => rfl
    | cons a l =>
      have hshorter : (l.filter fun b => !b == a).length < n := by
        rw [← hn, List.length_cons]
        exact Nat.lt_succ_of_le (List.length_filter_le _ l)
      rw [List.eraseDups_cons, idxOf_cons_lt_iff, idxOf_cons_lt_iff, ih _ hshorter rfl]
      by_cases hra : r = a
      · simp [hra]
      · by_cases hsa : s = a
        · simp [hsa]
        · rw [idxOf_filter_lt_iff (by simpa using hra) (by simpa using hsa)]

end Places

theorem probedBefore_congr {σ : Type u} [DecidableEq σ] {probes probes' : Array σ} {known : σ → Prop}
    (hplaces : ∀ r s, known r → known s → (probes'.toList.idxOf r < probes'.toList.idxOf s ↔
      probes.toList.idxOf r < probes.toList.idxOf s))
    {v w : Word σ} (hv : ∀ s ∈ v, known s) (hw : ∀ s ∈ w, known s) :
    ProbedBefore probes' v w ↔ ProbedBefore probes v w := by
  induction v generalizing w with
  | nil => cases w <;> simp [ProbedBefore, firstPositions]
  | cons r v ih =>
    cases w with
    | nil => simp [ProbedBefore, firstPositions]
    | cons s w =>
      obtain ⟨hr, hv⟩ := List.forall_mem_cons.1 hv
      obtain ⟨hs, hw⟩ := List.forall_mem_cons.1 hw
      have hrest := ih hv hw
      have hlt := hplaces r s hr hs
      have heq : probes'.toList.idxOf r = probes'.toList.idxOf s ↔
          probes.toList.idxOf r = probes.toList.idxOf s := by
        have hgt := hplaces s r hs hr
        omega
      simp only [ProbedBefore, firstPositions, List.map_cons, List.cons_lex_cons_iff] at hrest ⊢
      rw [hrest, hlt, heq]

namespace Tree
variable {σ : Type u} {P : Type v} {Q : Type w} [DecidableEq σ] [Hashable σ]

/-- The probes that are symbols of the tree, each once, in the order in which they stand first. -/
def essentialProbes (t : Tree σ P) (probes : Array σ) : Array σ :=
  (probes.toList.eraseDups.filter t.alphabet.contains).toArray

variable {t : Tree σ P} {target : Acceptor σ Q} {probes probes' : Array σ} {skipUndefined : Bool}

theorem mem_essentialProbes {s : σ} :
    s ∈ t.essentialProbes probes ↔ s ∈ probes ∧ t.alphabet.contains s = true := by
  simp [essentialProbes]

theorem idxOf_essentialProbes_lt_iff {r s : σ} (hr : t.alphabet.contains r = true)
    (hs : t.alphabet.contains s = true) :
    (t.essentialProbes probes).toList.idxOf r < (t.essentialProbes probes).toList.idxOf s ↔
      probes.toList.idxOf r < probes.toList.idxOf s := by
  rw [essentialProbes, List.toList_toArray, idxOf_filter_lt_iff hr hs, idxOf_eraseDups_lt_iff]

theorem contains_of_committed {w : Word σ} {b : Bool} (hw : t.committed? w = some b) :
    ∀ s ∈ w, t.alphabet.contains s = true := by
  obtain ⟨id, hid, -⟩ := Option.bind_eq_some_iff.1 hw
  clear hw
  induction w using List.reverseRecOn generalizing id with
  | nil => exact fun s hs => absurd hs List.not_mem_nil
  | append_singleton w r ih =>
    rw [nodeOf?_concat] at hid
    obtain ⟨p, hp, hpr⟩ := Option.bind_eq_some_iff.1 hid
    obtain ⟨i, hi, _⟩ := Option.bind_eq_some_iff.1 hpr
    intro s hs
    rcases List.mem_append.1 hs with hs | hs
    · exact ih p hp s hs
    · rw [List.mem_singleton.1 hs, Alphabet.contains_eq_isSome, hi]
      rfl

/-- Of the probes only those count that are symbols of the tree. -/
theorem disputed_congr_of_probes
    (h : ∀ s, t.alphabet.contains s = true → (s ∈ probes' ↔ s ∈ probes)) :
    t.disputed target probes' skipUndefined = t.disputed target probes skipUndefined := by
  ext w
  rw [disputed, disputed, Set.mem_ofPred_eq, Set.mem_ofPred_eq]
  refine and_congr_left fun hlookup => ?_
  have hprobed : (∀ s ∈ w, s ∈ probes') ↔ ∀ s ∈ w, s ∈ probes := by
    refine forall₂_congr fun s hs => h s ?_
    exact contains_of_committed (lookup_eq_iff.1 hlookup) s hs
  constructor
  · intro hw
    exact ⟨hprobed.1 hw.probed, hw.defined, hw.definedToEnd⟩
  · intro hw
    exact ⟨hprobed.2 hw.probed, hw.defined, hw.definedToEnd⟩

theorem separatingWord?_essentialProbes (ht : t.WellFormed) :
    t.separatingWord? target (t.essentialProbes probes) skipUndefined =
      t.separatingWord? target probes skipUndefined := by
  cases hstart : target.start? with
  | none => rw [separatingWord?_of_no_start hstart, separatingWord?_of_no_start hstart]
  | some q =>
    have hdisputed : t.disputed target (t.essentialProbes probes) skipUndefined =
        t.disputed target probes skipUndefined :=
      disputed_congr_of_probes fun s hs => by simp [mem_essentialProbes, hs]
    apply Option.ext
    intro w
    rw [separatingWord?_eq_some_iff hstart ht, separatingWord?_eq_some_iff hstart ht, hdisputed]
    refine and_congr_right fun hw => forall₂_congr fun v hv => not_congr ?_
    refine probedBefore_congr (fun r s hr hs => idxOf_essentialProbes_lt_iff hr hs) ?_ ?_
    · exact contains_of_committed (lookup_eq_iff.1 hv.2)
    · exact contains_of_committed (lookup_eq_iff.1 hw.2)

theorem separatingWord?_eq_none_iff_of_perm (ht : t.WellFormed) (h : probes.Perm probes') :
    t.separatingWord? target probes' skipUndefined = none ↔
      t.separatingWord? target probes skipUndefined = none := by
  cases hstart : target.start? with
  | none => rw [separatingWord?_of_no_start hstart, separatingWord?_of_no_start hstart]
  | some q =>
    rw [separatingWord?_eq_none_iff_disputed hstart ht,
      separatingWord?_eq_none_iff_disputed hstart ht,
      disputed_congr_of_probes fun s _ => h.mem_iff.symm]

/-- Neither repeated probes nor foreign ones change the answer of the search, and no reordering
changes whether it finds anything. -/
theorem redundant_probes_add_nothing {P : Type} {t : Tree σ P} (ht : t.Reachable)
    (hroom : t.size ≤ UInt32.size) (target : Acceptor σ Q) (probes : Array σ)
    (skipUndefined : Bool) :
    t.separatingWord? target (t.essentialProbes probes) skipUndefined =
      t.separatingWord? target probes skipUndefined ∧
    ∀ probes' : Array σ, probes.Perm probes' →
      (t.separatingWord? target probes' skipUndefined = none ↔
        t.separatingWord? target probes skipUndefined = none) := by
  have hwf := ht.wellFormed hroom
  refine ⟨separatingWord?_essentialProbes hwf, ?_⟩
  intro probes' hperm
  exact separatingWord?_eq_none_iff_of_perm hwf hperm

theorem redundant_probes_add_nothing_among_foreign :
    let even : Acceptor Nat Bool := ⟨some true, fun q s => if s = 1 then some !q else none, id⟩
    let is : List (Word Nat × Bool) := [([1, 2], true), ([1, 1], false)]
    let t := ((WriteOnce.new (.ofList [1, 2]) {}).putAll is).tree
    let probes := #[7, 2, 2, 1, 9, 2, 1]
    t.Reachable ∧ t.size ≤ UInt32.size ∧ t.essentialProbes probes = #[2, 1] ∧
      t.separatingWord? even probes false = some [1, 2] ∧
      t.separatingWord? even #[2, 1] false = some [1, 2] ∧
      t.separatingWord? even #[1, 2, 1, 7, 2, 9, 2] false ≠ none := by
  intro even is t probes
  have hfilled : t.Filled [1, 2] is := WriteOnce.filled_putAll {} (by decide) (by decide)
  obtain ⟨hreachable, hroom, h⟩ := hfilled
  have hfound : t.separatingWord? even probes false = some [1, 2] :=
    (h.separatingWord?_eq_some_iff rfl).2 (by decide)
  have hessential : t.essentialProbes probes = #[2, 1] := by
    have hcontains : t.alphabet.contains = ([1, 2] : List Nat).contains := by
      funext s
      rw [Alphabet.contains_eq_contains_toList, h.letters_eq]
      rfl
    rw [essentialProbes, hcontains]
    rfl
  have hperm : probes.Perm #[1, 2, 1, 7, 2, 9, 2] := Array.perm_iff_toList_perm.2 (by decide)
  obtain ⟨hsame, hnone⟩ := redundant_probes_add_nothing hreachable hroom even probes false
  rw [hessential, hfound] at hsame
  rw [hfound] at hnone
  exact ⟨hreachable, hroom, hessential, hfound, hsame, mt (hnone _ hperm).1 (by simp)⟩

end Tree
end MembershipCache
