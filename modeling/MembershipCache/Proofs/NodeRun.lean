import MembershipCache.Proofs.Node
import MembershipCache.Proofs.Run

/-! Nodes request by request. The row of a node is a map from indices to children that forgets
nothing: it holds under every index what was hung there last, however wide the row was then, and it
is as wide as the widest request asked. Verdict and tag live beside it. -/
namespace MembershipCache
universe u

namespace Node
variable {P : Type u}

inductive Request (P : Type u) where
  | setChild (i size : Nat) (child : NodeId)
  | widen (size : Nat)
  | setVerdict (v : Verdict)
  | setTag (tag : P)
  deriving DecidableEq

def step (n : Node P) : Request P → Node P
  | .setChild i size child => n.setChild i size child
  | .widen size => n.widen size
  | .setVerdict v => n.setVerdict v
  | .setTag tag => n.setTag tag

def run (n : Node P) (rs : List (Request P)) : Node P := rs.foldl step n

namespace Request

def hung? (j : Nat) : Request P → Option NodeId
  | .setChild i _ child => if i = j then some child else none
  | .widen _ | .setVerdict _ | .setTag _ => none

def widths : Request P → List Nat
  | .setChild i size _ => [size, i + 1]
  | .widen size => [size]
  | .setVerdict _ | .setTag _ => []

def verdict? : Request P → Option Verdict
  | .setVerdict v => some v
  | .setChild .. | .widen _ | .setTag _ => none

def tag? : Request P → Option P
  | .setTag tag => some tag
  | .setChild .. | .widen _ | .setVerdict _ => none

end Request

section Step
variable (n : Node P) (r : Request P)

theorem child?_step (j : Nat) : (n.step r).child? j = ((r.hung? j).map some).getD (n.child? j) := by
  cases r with
  | setChild i size child =>
    rw [step, child?_setChild, Request.hung?]
    by_cases h : i = j
    · rw [if_pos h, if_pos h.symm]
      rfl
    · rw [if_neg h, if_neg (Ne.symm h)]
      rfl
  | widen size => exact n.child?_widen size j
  | setVerdict v => rfl
  | setTag tag => rfl

theorem width_step : (n.step r).width = r.widths.foldl max n.width := by
  cases r with
  | setChild i size child => exact (n.width_setChild i size child).trans (Nat.max_assoc ..).symm
  | widen size => exact n.width_widen size
  | setVerdict v => rfl
  | setTag tag => rfl

theorem verdict_step : (n.step r).verdict = r.verdict?.getD n.verdict := by
  cases r <;> rfl

theorem tag_step : (n.step r).tag = r.tag?.getD n.tag := by
  cases r <;> rfl

end Step

section Run
variable (n : Node P) (rs : List (Request P))

theorem width_run : (n.run rs).width = (rs.flatMap Request.widths).foldl max n.width := by
  induction rs generalizing n with
  | nil => rfl
  | cons r rs ih =>
    rw [List.flatMap_cons, List.foldl_append, ← width_step]
    exact ih (n.step r)

theorem child?_run (j : Nat) : (n.run rs).child? j =
    ((rs.filterMap (Request.hung? j)).getLast?.map some).getD (n.child? j) := by
  rw [← List.getLast?_map, List.map_filterMap]
  exact foldl_last_request step (·.child? j) (fun n r => n.child?_step r j) n rs

theorem verdict_run :
    (n.run rs).verdict = (rs.filterMap Request.verdict?).getLast?.getD n.verdict :=
  foldl_last_request step (·.verdict) verdict_step n rs

theorem tag_run : (n.run rs).tag = (rs.filterMap Request.tag?).getLast?.getD n.tag :=
  foldl_last_request step (·.tag) tag_step n rs

end Run

/-- After any requests to a blank node: which child is read under an index, inside the row or beyond
it, how wide the row is, which children are listed, and which verdict and tag there are. -/
theorem run_keeps_last_children [Inhabited P] (width : Nat) (rs : List (Request P)) :
    let n := (blank width : Node P).run rs
    let last (j : Nat) : Option NodeId := (rs.filterMap (Request.hung? j)).getLast?
    (∀ j, n.child? j = last j) ∧
    (width :: rs.flatMap Request.widths).max? = some n.width ∧
    (∀ j child, (j, child) ∈ n.edges ↔ last j = some child) ∧
    n.edges.Pairwise (fun e f => e.1 < f.1) ∧
    n.verdict = (rs.filterMap Request.verdict?).getLast?.getD .unknown ∧
    n.tag = (rs.filterMap Request.tag?).getLast?.getD default := by
  intro n last
  have hchild : ∀ j, n.child? j = last j := by
    intro j
    rw [child?_run, child?_blank]
    change ((last j).map some).getD none = last j
    cases last j <;> rfl
  refine ⟨hchild, ?_, ?_, n.pairwise_edges, verdict_run _ rs, tag_run _ rs⟩
  · rw [List.max?_cons', width_run, width_blank]
  · intro j child
    rw [mem_edges, hchild]

end Node
end MembershipCache
