import MembershipCache.Proofs.Recency

/-! Runs of refreshes and removals. They stand for a list of nodes with their words: a refresh moves
its node to the end, a removal takes it out. Whatever is asked of the chain is answered from that
list, and following neighbours lists all of it, in either direction, and comes to an end. -/
namespace MembershipCache
universe u

namespace Recency
variable {σ : Type u}

inductive Request (σ : Type u) where
  | touch (id : NodeId) (w : Word σ)
  | remove (id : NodeId)
  deriving DecidableEq

def step (r : Recency σ) : Request σ → Recency σ
  | .touch id w => r.touch id w
  | .remove id => (r.remove id).1

def run (r : Recency σ) (rs : List (Request σ)) : Recency σ := rs.foldl step r

def rearrange (l : List (NodeId × Word σ)) : Request σ → List (NodeId × Word σ)
  | .touch id w => l.filter (·.1 ≠ id) ++ [(id, w)]
  | .remove id => l.filter (·.1 ≠ id)

def arranged (rs : List (Request σ)) : List (NodeId × Word σ) := rs.foldl rearrange []

/-- Going from neighbour to neighbour meets these entries, and then there is no further one. -/
inductive Leads (r : Recency σ) (neighbour? : Entry σ → Option NodeId) :
    Option NodeId → List (NodeId × Word σ) → Prop
  | stop {id? : Option NodeId} (absent : id?.bind (r.entries[·]?) = none) :
      Leads r neighbour? id? []
  | next {id : NodeId} {e : Entry σ} {l : List (NodeId × Word σ)}
      (present : r.entries[id]? = some e) (rest : Leads r neighbour? (neighbour? e) l) :
      Leads r neighbour? (some id) ((id, e.word) :: l)

theorem Leads.chain_eq {r : Recency σ} {id? : Option NodeId} {l : List (NodeId × Word σ)}
    (h : Leads r Entry.newer? id? l) {steps : Nat} (hsteps : l.length ≤ steps) :
    r.chain steps id? = l := by
  induction h generalizing steps with
  | @stop id? absent =>
    cases steps with
    | zero => rfl
    | succ steps =>
      cases id? with
      | none => rfl
      | some id =>
        rw [Option.bind_some] at absent
        simp only [chain, absent]
  | @next id e l present _ ih =>
    cases steps with
    | zero => simp at hsteps
    | succ steps =>
      simp only [chain, present]
      rw [ih (by simpa using hsteps)]

section Linked
variable {r : Recency σ} {l : List (NodeId × Word σ)}

theorem leads_newer {older? : Option NodeId} (h : Linked (r.entries[·]?) older? l none) :
    Leads r Entry.newer? (ids l).head? l := by
  induction l generalizing older? with
  | nil => exact .stop rfl
  | cons e l ih =>
    obtain ⟨he, hl⟩ := h
    rw [Option.or_none] at he
    exact .next he (ih hl)

theorem leads_older {newer? : Option NodeId} (h : Linked (r.entries[·]?) none l newer?) :
    Leads r Entry.older? (ids l).getLast? l.reverse := by
  induction l using List.reverseRecOn generalizing newer? with
  | nil => exact .stop rfl
  | append_singleton l e ih =>
    obtain ⟨hl, he, _⟩ := linked_append.1 h
    rw [Option.or_none] at he
    have hlast : (ids (l ++ [e])).getLast? = some e.1 := by simp
    rw [hlast, List.reverse_concat]
    exact .next he (ih hl)

end Linked

theorem remove_snd (r : Recency σ) (id : NodeId) : (r.remove id).2 = r.wordOf? id := by
  rw [remove, wordOf?]
  cases r.entries[id]? <;> rfl

theorem lookup_eq_none_iff {l : List (NodeId × Word σ)} {id : NodeId} :
    l.lookup id = none ↔ id ∉ ids l := by
  rw [List.lookup_eq_none_iff, ids, List.mem_map]
  constructor
  · intro h hmem
    obtain ⟨e, he, heq⟩ := hmem
    simpa [heq] using h e he
  · intro h e he
    rw [bne_iff_ne]
    exact fun heq => h ⟨e, he, heq.symm⟩

namespace Represents
variable {r : Recency σ} {l : List (NodeId × Word σ)} (h : Represents r l)
include h

theorem wordOf?_eq (id : NodeId) : r.wordOf? id = l.lookup id := by
  rw [wordOf?]
  by_cases hid : id ∈ ids l
  · obtain ⟨older, w, newer, rfl, _⟩ := exists_split h.nodup hid
    obtain ⟨_, he, _⟩ := linked_append.1 h.linked
    have hfirst : id ∉ ids older := fun hold =>
      (nodup_ids_middle.1 h.nodup).1 (by simp [hold])
    rw [List.lookup_append, lookup_eq_none_iff.2 hfirst, List.lookup_cons_self]
    exact congrArg _ he
  · rw [lookup_eq_none_iff.2 hid]
    rw [← h.mem_iff] at hid
    rw [Std.HashMap.getElem?_eq_none hid]
    rfl

theorem contains_eq (id : NodeId) : r.contains id = (ids l).contains id := by
  rw [Bool.eq_iff_iff, contains, Std.HashMap.contains_iff_mem, List.contains_iff_mem, h.mem_iff]

theorem isEmpty_eq : r.isEmpty = l.isEmpty := by
  have hsize := h.size_eq
  rw [isEmpty, Std.HashMap.isEmpty_eq_size_eq_zero]
  rw [size] at hsize
  rw [hsize]
  cases l <;> rfl

end Represents

theorem represents_step {r : Recency σ} {l : List (NodeId × Word σ)} (h : Represents r l)
    (q : Request σ) : Represents (r.step q) (rearrange l q) := by
  cases q with
  | touch id w => exact h.touch id w
  | remove id => exact (h.remove id).1

theorem represents_run (rs : List (Request σ)) :
    Represents ((empty : Recency σ).run rs) (arranged rs) := by
  induction rs using List.reverseRecOn with
  | nil => exact represents_empty
  | append_singleton rs q ih =>
    rw [run, arranged, List.foldl_append, List.foldl_append]
    exact represents_step ih q

/-- After any refreshes and removals, the chain is the list that stands behind them. It can be
followed from the oldest to the newest and back, and ends there, and what it is asked is answered
from the list. -/
theorem run_arranges (rs : List (Request σ)) :
    let r := (empty : Recency σ).run rs
    let l := arranged rs
    r.toList = l ∧
    Leads r Entry.newer? r.oldest? l ∧
    (∀ steps, l.length ≤ steps → r.chain steps r.oldest? = l) ∧
    Leads r Entry.older? r.newest? l.reverse ∧
    (∀ id, (r.remove id).2 = l.lookup id) ∧
    r.size = l.length ∧
    r.isEmpty = l.isEmpty ∧
    (∀ id, r.contains id = (l.map Prod.fst).contains id) ∧
    (∀ id, r.wordOf? id = l.lookup id) ∧
    r.oldestWord? = l.head?.map Prod.snd ∧
    r.oldest? = l.head?.map Prod.fst ∧
    r.newest? = l.getLast?.map Prod.fst ∧
    (r.oldest? = none ↔ l = []) ∧
    (r.newest? = none ↔ l = []) := by
  intro r l
  have h : Represents r l := represents_run rs
  have hnewer : Leads r Entry.newer? r.oldest? l := h.oldest?_eq ▸ leads_newer h.linked
  have hchain : ∀ steps, l.length ≤ steps → r.chain steps r.oldest? = l :=
    fun _ hsteps => hnewer.chain_eq hsteps
  have holder : Leads r Entry.older? r.newest? l.reverse := h.newest?_eq ▸ leads_older h.linked
  have hremoved : ∀ id, (r.remove id).2 = l.lookup id := fun id =>
    (r.remove_snd id).trans (h.wordOf?_eq id)
  have holdest : r.oldest? = l.head?.map Prod.fst := h.oldest?_eq.trans (List.head?_map ..)
  have hnewest : r.newest? = l.getLast?.map Prod.fst := h.newest?_eq.trans (List.getLast?_map ..)
  refine ⟨h.toList_eq, hnewer, hchain, holder, hremoved, h.size_eq, h.isEmpty_eq, h.contains_eq,
    h.wordOf?_eq, h.oldestWord?_eq, holdest, hnewest, ?_, ?_⟩
  · rw [holdest, Option.map_eq_none_iff, List.head?_eq_none_iff]
  · rw [hnewest, Option.map_eq_none_iff, List.getLast?_eq_none_iff]

end Recency
end MembershipCache
