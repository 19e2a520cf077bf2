import MembershipCache.Cache.UserEntry
import MembershipCache.Proofs.Cache.Replay

/-! Refused calls. A foreign symbol is found before anything of the word is entered, a conflict
means that the word has its node already, and a cache that takes no user assertions is not touched
by one: so a call that is refused leaves the cache as it was, and a run may as well do without
it. -/
namespace MembershipCache
universe u v

def Answer.isRefused {σ : Type u} {α : Type v} : Answer σ α → Bool
  | inserted (.error _) => true
  | inserted (.ok _) | grew _ | retired _ => false

theorem Answer.isRefused_inserted {σ : Type u} {α : Type v} {result : Except (Refusal σ) α} :
    (inserted result).isRefused = true ↔ ∃ e, result = .error e := by
  cases result <;> simp [isRefused]

variable {σ : Type u} [DecidableEq σ] [Hashable σ]

namespace WriteOnce

/-- The calls of a run that were not refused, each with its answer. -/
def granted (c : WriteOnce σ) (rs : List (Request σ)) : List (Request σ × Answer σ Unit) :=
  (c.calls rs).filter (!·.2.isRefused)

theorem insert_refused {c : WriteOnce σ} (hc : c.tree.WellFormed) {w : Word σ} {b : Bool}
    (hroom : (c.insert w b).state.tree.size ≤ UInt32.size) {e : Refusal σ}
    (h : (c.insert w b).answer = .error e) : (c.insert w b).state = c := by
  cases hw : c.tree.enter w with
  | error s => rw [insert_of_error hw]
  | ok d =>
    rw [size_insert hw] at hroom
    rcases insert_of_ok (b := b) hw (hc.enter hw hroom) with ⟨_, heq⟩ | ⟨_, heq⟩ | ⟨hknown, heq⟩
    · rw [heq] at h
      cases h
    · rw [heq] at h
      cases h
    · -- the way to a verdict is complete, so entering it has created nothing
      rw [heq, Tree.tree_enter_of_committed (Option.isSome_of_eq_some hknown) hw]

theorem step_refused {c : WriteOnce σ} (hc : c.tree.WellFormed) {r : Request σ}
    (hroom : (c.step r).tree.size ≤ UInt32.size) (h : (c.answer r).isRefused = true) :
    c.step r = c := by
  cases r with
  | addSymbol s => cases h
  | insert w b =>
    obtain ⟨e, he⟩ := Answer.isRefused_inserted.1 h
    exact insert_refused hc hroom he

end WriteOnce

namespace Revisable

def granted (c : Revisable σ) (rs : List (Request σ)) : List (Request σ × Answer σ Bool) :=
  (c.calls rs).filter (!·.2.isRefused)

theorem exists_ok_of_enter {c : Revisable σ} {w : Word σ} {d : Descent σ Provenance}
    (h : c.tree.enter w = .ok d) (b : Bool) (o : Provenance) :
    ∃ replaced, (c.insertAs w b o).answer = .ok replaced := by
  rw [insertAs, h]
  simp only
  split
  · exact ⟨_, rfl⟩
  · split
    · exact ⟨_, rfl⟩
    · split <;> exact ⟨_, rfl⟩

theorem insertAs_refused {c : Revisable σ} {w : Word σ} {b : Bool} {o : Provenance} {e : Refusal σ}
    (h : (c.insertAs w b o).answer = .error e) : (c.insertAs w b o).state = c := by
  cases hw : c.tree.enter w with
  | error s => rw [insertAs_of_error hw]
  | ok d =>
    obtain ⟨replaced, hok⟩ := exists_ok_of_enter hw b o
    rw [hok] at h
    cases h

theorem step_refused {c : Revisable σ} {r : Request σ} (h : (c.answer r).isRefused = true) :
    c.step r = c := by
  cases r with
  | addSymbol s => cases h
  | retire id => cases h
  | insertAs w b o =>
    obtain ⟨e, he⟩ := Answer.isRefused_inserted.1 h
    exact insertAs_refused he

end Revisable

theorem assertFromUser_unsupported {κ : Type v} {τ : Type u} [RevisingCache κ τ] {c : κ}
    (h : RevisingCache.userEntry? c = none) (w : Word τ) (b : Bool) :
    assertFromUser c w b = ⟨.error (.unsupported .userInsertion), c, []⟩ := by
  rw [assertFromUser, h]

namespace OracleOnly

inductive Request (σ : Type u) where
  | insert (w : Word σ) (accepted : Bool)
  | assertFromUser (w : Word σ) (accepted : Bool)
  | addSymbol (s : σ)
  deriving DecidableEq

def step (c : OracleOnly σ) : Request σ → OracleOnly σ
  | .insert w accepted => (RevisingCache.insert c w accepted).state
  | .assertFromUser w accepted => (MembershipCache.assertFromUser c w accepted).state
  | .addSymbol s => (c.addSymbol s).state

def run (c : OracleOnly σ) (rs : List (Request σ)) : OracleOnly σ := rs.foldl step c

def answer (c : OracleOnly σ) : Request σ → Answer σ Bool
  | .insert w accepted => .inserted (RevisingCache.insert c w accepted).answer
  | .assertFromUser w accepted => .inserted (MembershipCache.assertFromUser c w accepted).answer
  | .addSymbol s => .grew (c.addSymbol s).answer

def calls (c : OracleOnly σ) (rs : List (Request σ)) : List (Request σ × Answer σ Bool) :=
  transcript step answer c rs

def granted (c : OracleOnly σ) (rs : List (Request σ)) : List (Request σ × Answer σ Bool) :=
  (c.calls rs).filter (!·.2.isRefused)

theorem step_refused {c : OracleOnly σ} {r : Request σ} (h : (c.answer r).isRefused = true) :
    c.step r = c := by
  cases r with
  | addSymbol s => cases h
  | insert w b =>
    obtain ⟨e, he⟩ := Answer.isRefused_inserted.1 h
    exact congrArg mk (Revisable.insertAs_refused he)
  | assertFromUser w b => exact congrArg (·.state) (assertFromUser_unsupported (c := c) rfl w b)

end OracleOnly

/-- A refused call leaves no trace in the cache, so without the refused calls of a run all others
are answered as before, and the run ends in the same state. -/
theorem refused_calls_leave_no_trace :
    (∀ (a : Alphabet σ) (settings : Settings) (rs : List (WriteOnce.Request σ)),
      let start := WriteOnce.new a settings
      (start.run rs).tree.size ≤ UInt32.size →
      let granted := start.granted rs
      (∀ before r after, rs = before ++ r :: after →
        let met := start.run before
        (met.answer r).isRefused = true → met.step r = met) ∧
      start.calls (granted.map Prod.fst) = granted ∧
      start.run (granted.map Prod.fst) = start.run rs) ∧
    (∀ (c : Revisable σ) (rs : List (Revisable.Request σ)),
      let granted := c.granted rs
      (∀ r, (c.answer r).isRefused = true → c.step r = c) ∧
      c.calls (granted.map Prod.fst) = granted ∧ c.run (granted.map Prod.fst) = c.run rs) ∧
    (∀ (c : OracleOnly σ) (rs : List (OracleOnly.Request σ)),
      let granted := c.granted rs
      (∀ r, (c.answer r).isRefused = true → c.step r = c) ∧
      c.calls (granted.map Prod.fst) = granted ∧ c.run (granted.map Prod.fst) = c.run rs) ∧
    (∀ {κ : Type v} [RevisingCache κ σ] (c : κ), RevisingCache.userEntry? c = none →
      ∀ w b, (assertFromUser c w b).answer = .error (.unsupported .userInsertion) ∧
        (assertFromUser c w b).state = c) := by
  refine ⟨?_, ?_, ?_, ?_⟩
  · intro a settings rs start hroom granted
    have hidle : ∀ before r after, rs = before ++ r :: after →
        ((start.run before).answer r).isRefused = true →
        (start.run before).step r = start.run before := by
      intro before r after hrs
      obtain ⟨hwf, hafter⟩ := WriteOnce.wellFormed_before hrs hroom
      exact WriteOnce.step_refused hwf hafter
    refine ⟨hidle, transcript_without WriteOnce.step WriteOnce.answer Answer.isRefused ?_⟩
    intro d r hd
    obtain ⟨before, after, hrs, rfl⟩ := exists_of_mem_encounters hd
    exact hidle before r after hrs
  · intro c rs granted
    exact ⟨fun _ => Revisable.step_refused,
      transcript_without Revisable.step Revisable.answer Answer.isRefused
        fun _ _ _ => Revisable.step_refused⟩
  · intro c rs granted
    exact ⟨fun _ => OracleOnly.step_refused,
      transcript_without OracleOnly.step OracleOnly.answer Answer.isRefused
        fun _ _ _ => OracleOnly.step_refused⟩
  · intro κ _ c hnone w b
    rw [assertFromUser_unsupported hnone]
    exact ⟨rfl, rfl⟩

theorem refused_calls_leave_no_trace_over_conflict :
    let start₁ : WriteOnce Nat := .new .empty {}
    let rs₁ : List (WriteOnce.Request Nat) := [.insert [] true, .insert [] false, .insert [7] true,
      .addSymbol 7, .insert [7] false]
    let met₁ := start₁.run (rs₁.take 1)
    let start₂ : Revisable Nat := .new (.ofList [1]) {}
    let rs₂ : List (Revisable.Request Nat) := [.insertAs [1, 7] true .oracle,
      .insertAs [1] true .user, .addSymbol 7, .insertAs [1, 7] true .oracle]
    let start₃ : OracleOnly Nat := ⟨.new .empty {}⟩
    let rs₃ : List (OracleOnly.Request Nat) := [.assertFromUser [] true, .insert [] false,
      .insert [7] true, .assertFromUser [] true]
    (start₁.run rs₁).tree.size ≤ UInt32.size ∧
      (met₁.answer (.insert [] false)).isRefused = true ∧ met₁.step (.insert [] false) = met₁ ∧
      start₁.run ((start₁.granted rs₁).map Prod.fst) = start₁.run rs₁ ∧
      start₂.calls ((start₂.granted rs₂).map Prod.fst) = start₂.granted rs₂ ∧
      start₃.run ((start₃.granted rs₃).map Prod.fst) = start₃.run rs₃ ∧
      RevisingCache.userEntry? start₃ = none ∧ (assertFromUser start₃ [] true).state = start₃ := by
  intro start₁ rs₁ met₁ start₂ rs₂ start₃ rs₃
  have hroom : (start₁.run rs₁).tree.size ≤ UInt32.size :=
    Nat.le_trans (WriteOnce.size_run_le .empty {} rs₁) (by decide)
  obtain ⟨hwriteOnce, hrevisable, horacle, hunsupported⟩ := @refused_calls_leave_no_trace Nat _ _
  obtain ⟨hidle, _, hend₁⟩ := hwriteOnce .empty {} rs₁ hroom
  obtain ⟨_, hcalls₂, _⟩ := hrevisable start₂ rs₂
  obtain ⟨_, _, hend₃⟩ := horacle start₃ rs₃
  have hconflict : (met₁.answer (.insert [] false)).isRefused = true := rfl
  exact ⟨hroom, hconflict, hidle (rs₁.take 1) (.insert [] false) (rs₁.drop 2) rfl hconflict, hend₁,
    hcalls₂, hend₃, rfl, (hunsupported start₃ rfl [] true).2⟩

end MembershipCache
