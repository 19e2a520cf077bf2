import Mathlib.Data.List.Induction
import MembershipCache.Tree.Basic

/-! Runs of anything that works off requests one after the other: the state each request meets, and
what holds all along a run whose size stays bounded. -/
namespace MembershipCache
universe u v w x y
variable {γ : Type u} {ρ : Type v} {α : Type w}

/-- The requests of a run, each with the state it met. -/
def encounters (step : γ → ρ → γ) (c : γ) : List ρ → List (γ × ρ)
  | [] => []
  | r :: rs => (c, r) :: encounters step (step c r) rs

theorem encounters_concat (step : γ → ρ → γ) (c : γ) (rs : List ρ) (r : ρ) :
    encounters step c (rs ++ [r]) = encounters step c rs ++ [(rs.foldl step c, r)] := by
  induction rs generalizing c with
  | nil => rfl
  | cons q rs ih => simp only [List.cons_append, encounters, ih, List.foldl_cons]

theorem filterMap_encounters_concat (f : γ × ρ → Option α) (step : γ → ρ → γ) (c : γ)
    (rs : List ρ) (r : ρ) : (encounters step c (rs ++ [r])).filterMap f =
      (encounters step c rs).filterMap f ++ (f (rs.foldl step c, r)).toList := by
  rw [encounters_concat, List.filterMap_append]
  cases h : f (rs.foldl step c, r) <;> simp [h]

theorem filterMap_encounters_snd (f : ρ → Option α) (step : γ → ρ → γ) (c : γ) (rs : List ρ) :
    (encounters step c rs).filterMap (fun e => f e.2) = rs.filterMap f := by
  induction rs generalizing c with
  | nil => rfl
  | cons r rs ih => simp only [encounters, List.filterMap_cons, ih]

theorem filterMap_encounters_congr (f : γ × ρ → Option α) (step : γ → ρ → γ)
    (Like : γ → γ → Prop) (keeps : ∀ {c d} r, Like c d → Like (step c r) (step d r))
    (logs : ∀ {c d} r, Like c d → f (c, r) = f (d, r)) {c d : γ} (h : Like c d) (rs : List ρ) :
    (encounters step c rs).filterMap f = (encounters step d rs).filterMap f := by
  induction rs generalizing c d with
  | nil => rfl
  | cons r rs ih => simp only [encounters, List.filterMap_cons, logs r h, ih (keeps r h)]

theorem exists_of_mem_encounters {step : γ → ρ → γ} {c d : γ} {r : ρ} {rs : List ρ}
    (h : (d, r) ∈ encounters step c rs) :
    ∃ before after, rs = before ++ r :: after ∧ d = before.foldl step c := by
  induction rs generalizing c with
  | nil => cases h
  | cons q rs ih =>
    rcases List.mem_cons.1 h with heq | hrest
    · cases heq
      exact ⟨[], rs, rfl, rfl⟩
    · obtain ⟨before, after, rfl, hd⟩ := ih hrest
      exact ⟨q :: before, after, rfl, hd⟩

theorem encounters_of_idle {step : γ → ρ → γ} {c : γ} {rs : List ρ}
    (h : ∀ r ∈ rs, step c r = c) :
    encounters step c rs = rs.map (c, ·) ∧ rs.foldl step c = c := by
  induction rs with
  | nil => exact ⟨rfl, rfl⟩
  | cons r rs ih =>
    obtain ⟨hr, hrs⟩ := List.forall_mem_cons.1 h
    obtain ⟨hmet, hend⟩ := ih hrs
    rw [encounters, List.foldl_cons, hr, hmet]
    exact ⟨rfl, hend⟩

def transcript (step : γ → ρ → γ) (answer : γ → ρ → α) (c : γ) (rs : List ρ) : List (ρ × α) :=
  (encounters step c rs).map fun e => (e.2, answer e.1 e.2)

theorem transcript_eq_map {step : γ → ρ → γ} {answer : γ → ρ → α} {c : γ} {rs : List ρ} {f : ρ → α}
    (h : ∀ d r, (d, r) ∈ encounters step c rs → answer d r = f r) :
    transcript step answer c rs = rs.map fun r => (r, f r) := by
  induction rs generalizing c with
  | nil => rfl
  | cons r rs ih =>
    have hrest := ih fun d q hd => h d q (List.mem_cons_of_mem _ hd)
    rw [transcript] at hrest ⊢
    rw [encounters, List.map_cons, List.map_cons, hrest, h c r List.mem_cons_self]

/-- A run may be repeated from another state and with requests left out. If what is left out is not
seen through the map between the states, and the rest is answered and worked off alike on both
sides, then the answers are the same, and the map leads from one end to the other. -/
theorem transcript_replay (step : γ → ρ → γ) (answer : γ → ρ → α) (f : γ → γ)
    {keep : ρ × α → Bool} {c : γ} {rs : List ρ}
    (kept : ∀ d r, (d, r) ∈ encounters step c rs → keep (r, answer d r) = true →
      answer (f d) r = answer d r ∧ step (f d) r = f (step d r))
    (dropped : ∀ d r, (d, r) ∈ encounters step c rs → keep (r, answer d r) = false →
      f (step d r) = f d) :
    let calls := (transcript step answer c rs).filter keep
    transcript step answer (f c) (calls.map Prod.fst) = calls ∧
      (calls.map Prod.fst).foldl step (f c) = f (rs.foldl step c) := by
  induction rs generalizing c with
  | nil => exact ⟨rfl, rfl⟩
  | cons r rs ih =>
    obtain ⟨hanswers, hend⟩ := ih
      (fun d q hd => kept d q (List.mem_cons_of_mem _ hd))
      (fun d q hd => dropped d q (List.mem_cons_of_mem _ hd))
    simp only [transcript, encounters, List.map_cons, List.foldl_cons] at hanswers hend ⊢
    cases hkeep : keep (r, answer c r) with
    | true =>
      obtain ⟨hanswer, hstep⟩ := kept c r List.mem_cons_self hkeep
      rw [List.filter_cons_of_pos hkeep]
      simp only [List.map_cons, List.foldl_cons, encounters, hanswer, hstep, hanswers, hend,
        and_self]
    | false =>
      have hstep := dropped c r List.mem_cons_self hkeep
      rw [List.filter_cons_of_neg (by simp [hkeep]), ← hstep]
      exact ⟨hanswers, hend⟩

theorem transcript_without (step : γ → ρ → γ) (answer : γ → ρ → α) (idle : α → Bool) {c : γ}
    {rs : List ρ}
    (h : ∀ d r, (d, r) ∈ encounters step c rs → idle (answer d r) = true → step d r = d) :
    let calls := (transcript step answer c rs).filter (!idle ·.2)
    transcript step answer c (calls.map Prod.fst) = calls ∧
      (calls.map Prod.fst).foldl step c = rs.foldl step c := by
  refine transcript_replay step answer id (fun _ _ _ _ => ⟨rfl, rfl⟩) fun d r hd hr => ?_
  exact h d r hd (by simpa using hr)

theorem foldl_last_set (step : γ → ρ → γ) (good : γ → Prop)
    (keeps : ∀ c r, good c → good (step c r)) (field : γ → α) (set? : γ × ρ → Option α)
    (sets : ∀ c r, good c → field (step c r) = (set? (c, r)).getD (field c)) {c : γ} (hc : good c)
    (rs : List ρ) :
    field (rs.foldl step c) =
      ((encounters step c rs).filterMap set?).getLast?.getD (field c) := by
  induction rs generalizing c with
  | nil => rfl
  | cons r rs ih =>
    have hstep := sets c r hc
    rw [List.foldl_cons, ih (keeps c r hc), encounters]
    cases hset : set? (c, r) with
    | none =>
      rw [List.filterMap_cons_none hset, hstep, hset]
      rfl
    | some x =>
      rw [List.filterMap_cons_some hset, List.getLast?_cons, hstep, hset]
      rfl

theorem foldl_last_request (step : γ → ρ → γ) (field : γ → α) {set? : ρ → Option α}
    (sets : ∀ c r, field (step c r) = (set? r).getD (field c)) (c : γ) (rs : List ρ) :
    field (rs.foldl step c) = (rs.filterMap set?).getLast?.getD (field c) := by
  rw [← filterMap_encounters_snd set? step c rs]
  exact foldl_last_set step (fun _ => True) (fun _ _ _ => trivial) field (fun e => set? e.2)
    (fun c r _ => sets c r) trivial rs

section Bounded
variable (step : γ → ρ → γ) (size : γ → Nat)

theorem foldl_le_add_totalBound {cost : ρ → Nat} (h : ∀ c r, size (step c r) ≤ size c + cost r) (c : γ)
    (rs : List ρ) : size (rs.foldl step c) ≤ size c + Tree.totalBound cost rs := by
  induction rs generalizing c with
  | nil => exact Nat.le_refl _
  | cons r rs ih =>
    have hstep := h c r
    have hrest := ih (step c r)
    rw [List.foldl_cons, Tree.totalBound]
    omega

variable (grows : ∀ c r, size c ≤ size (step c r))
include grows

theorem le_foldl (c : γ) (rs : List ρ) : size c ≤ size (rs.foldl step c) := by
  induction rs generalizing c with
  | nil => exact Nat.le_refl _
  | cons r rs ih => exact Nat.le_trans (grows c r) (ih (step c r))

/-- What ties a state to a log of the run behind it holds at the end of a run that stays below a
bound, if every step below the bound keeps it. -/
theorem foldl_logged_invariant (log? : γ × ρ → Option α) (good : γ → List α → Prop) {bound : Nat}
    (keeps : ∀ c r l, good c l → size (step c r) ≤ bound →
      good (step c r) (l ++ (log? (c, r)).toList))
    {c : γ} (hc : good c []) (rs : List ρ) (h : size (rs.foldl step c) ≤ bound) :
    good (rs.foldl step c) ((encounters step c rs).filterMap log?) := by
  induction rs using List.reverseRecOn with
  | nil => exact hc
  | append_singleton rs r ih =>
    rw [List.foldl_append, List.foldl_cons, List.foldl_nil] at h ⊢
    rw [filterMap_encounters_concat]
    exact keeps _ r _ (ih (Nat.le_trans (grows _ r) h)) h

variable (good : γ → Prop) {bound : Nat}
  (keeps : ∀ c r, good c → size (step c r) ≤ bound → good (step c r))
include keeps

theorem foldl_invariant {c : γ} (hc : good c) (rs : List ρ)
    (h : size (rs.foldl step c) ≤ bound) : good (rs.foldl step c) := by
  induction rs generalizing c with
  | nil => exact hc
  | cons r rs ih =>
    have hstep := Nat.le_trans (le_foldl step size grows (step c r) rs) h
    exact ih (keeps c r hc hstep) h

theorem foldlM_reports {ε : Type x} {κ : Type y} (report : γ × ρ → List ε) (draw : κ → ε → Option κ)
    (picture : γ → κ)
    (tells : ∀ c r, good c → size (step c r) ≤ bound →
      (report (c, r)).foldlM draw (picture c) = some (picture (step c r)))
    {c : γ} (hc : good c) (rs : List ρ) (h : size (rs.foldl step c) ≤ bound) :
    ((encounters step c rs).flatMap report).foldlM draw (picture c) =
      some (picture (rs.foldl step c)) := by
  induction rs generalizing c with
  | nil => rfl
  | cons r rs ih =>
    have hstep := Nat.le_trans (le_foldl step size grows (step c r) rs) h
    rw [encounters, List.flatMap_cons, List.foldlM_append, tells c r hc hstep]
    exact ih (keeps c r hc hstep) h

theorem foldl_invariant_before {c : γ} (hc : good c) {rs before after : List ρ} {r : ρ}
    (hrs : rs = before ++ r :: after) (h : size (rs.foldl step c) ≤ bound) :
    good (before.foldl step c) ∧ size (step (before.foldl step c) r) ≤ bound := by
  rw [hrs, List.foldl_append, List.foldl_cons] at h
  have hafter := Nat.le_trans (le_foldl step size grows _ after) h
  have hbefore := Nat.le_trans (grows _ r) hafter
  exact ⟨foldl_invariant step size grows good keeps hc before hbefore, hafter⟩

section Extends
variable (R : γ → γ → Prop) (hrefl : ∀ c, R c c) (htrans : ∀ {c d e}, R c d → R d e → R c e)
include hrefl htrans

theorem foldl_extends_allowed (allowed : ρ → Prop)
    (extends_step : ∀ c r, good c → allowed r → size (step c r) ≤ bound → R c (step c r)) {c : γ}
    (hc : good c) (rs : List ρ) (hallowed : ∀ r ∈ rs, allowed r)
    (h : size (rs.foldl step c) ≤ bound) : R c (rs.foldl step c) := by
  induction rs generalizing c with
  | nil => exact hrefl c
  | cons r rs ih =>
    obtain ⟨hr, hrs⟩ := List.forall_mem_cons.1 hallowed
    have hstep := Nat.le_trans (le_foldl step size grows (step c r) rs) h
    exact htrans (extends_step c r hc hr hstep) (ih (keeps c r hc hstep) hrs h)

theorem foldl_extends
    (extends_step : ∀ c r, good c → size (step c r) ≤ bound → R c (step c r)) {c : γ} (hc : good c)
    (rs : List ρ) (h : size (rs.foldl step c) ≤ bound) : R c (rs.foldl step c) :=
  foldl_extends_allowed step size grows good keeps R hrefl htrans (fun _ => True)
    (fun c r hc _ => extends_step c r hc) hc rs (fun _ _ => trivial) h

end Extends

/-- If a request is answered from the entry under its key and moves that entry alone, then the
requests under one key fare as they would without the others. -/
theorem transcript_under_key {κ : Type x} {ε : Type y} [DecidableEq κ] (answer : γ → ρ → α)
    (key : ρ → κ) (entry : γ → κ → ε) (move : ε → ρ → ε) (reply : ε → ρ → α)
    (moves : ∀ c r, good c → size (step c r) ≤ bound → ∀ k,
      entry (step c r) k = if key r = k then move (entry c k) r else entry c k)
    (replies : ∀ c r, good c → size (step c r) ≤ bound → answer c r = reply (entry c (key r)) r)
    {c : γ} (hc : good c) (rs : List ρ) (h : size (rs.foldl step c) ≤ bound) (k : κ) :
    let own := rs.filter (key · = k)
    (transcript step answer c rs).filter (key ·.1 = k) = transcript move reply (entry c k) own ∧
      entry (rs.foldl step c) k = own.foldl move (entry c k) := by
  induction rs generalizing c with
  | nil => exact ⟨rfl, rfl⟩
  | cons r rs ih =>
    have hstep := Nat.le_trans (le_foldl step size grows (step c r) rs) h
    obtain ⟨hanswers, hend⟩ := ih (keeps c r hc hstep) h
    have hentry := moves c r hc hstep k
    simp only [transcript, encounters, List.map_cons, List.foldl_cons] at hanswers hend ⊢
    by_cases hk : key r = k
    · rw [if_pos hk] at hentry
      have hreply := replies c r hc hstep
      rw [hk] at hreply
      simp only [List.filter_cons, hk, decide_true, if_true, List.foldl_cons, encounters,
        List.map_cons, hanswers, hend, hentry, hreply, and_self]
    · rw [if_neg hk] at hentry
      simp only [List.filter_cons, hk, decide_false, Bool.false_eq_true, if_false, hanswers, hend,
        hentry, and_self]

end Bounded

end MembershipCache
