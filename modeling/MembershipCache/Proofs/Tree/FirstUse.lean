import Mathlib.Data.List.Nodup
import MembershipCache.Proofs.Tree.Growth

/-! Nodes in the order of their creation. A node is created where a beginning of a word is first
used, so the nodes stand in the arena as the beginnings of all words entered stand behind one
another, each counted once. -/
namespace MembershipCache
universe u v

namespace Word
variable {σ : Type u}

theorem prefixes_concat (w : Word σ) (s : σ) : prefixes (w ++ [s]) = prefixes w ++ [w ++ [s]] := by
  induction w with
  | nil => rfl
  | cons r w ih => simp [prefixes, ih]

theorem concat_notMem_prefixes (w : Word σ) (s : σ) : w ++ [s] ∉ prefixes w := by
  intro h
  have hle := (mem_prefixes.1 h).length_le
  rw [List.length_append] at hle
  exact Nat.not_succ_le_self _ hle

theorem nodup_prefixes (w : Word σ) : (prefixes w).Nodup := by
  induction w using List.reverseRecOn with
  | nil => simp [prefixes]
  | append_singleton w s ih =>
    rw [prefixes_concat, List.nodup_append]
    refine ⟨ih, List.nodup_singleton _, ?_⟩
    intro p hp q hq
    rw [List.mem_singleton.1 hq]
    intro heq
    exact concat_notMem_prefixes w s (heq ▸ hp)

theorem eraseDups_of_nodup {α : Type u} [BEq α] [LawfulBEq α] {l : List α} (h : l.Nodup) :
    l.eraseDups = l := by
  induction l with
  | nil => rfl
  | cons a l ih =>
    obtain ⟨ha, hl⟩ := List.nodup_cons.1 h
    have hrest : l.filter (fun b => !b == a) = l := by
      rw [List.filter_eq_self]
      intro b hb
      have hne : b ≠ a := fun heq => ha (heq ▸ hb)
      simpa using hne
    rw [List.eraseDups_cons, hrest, ih hl]

section FirstUses
variable [DecidableEq σ]

/-- The beginnings of the words where they are first used. The empty word is used before all. -/
def firstUses (ws : List (Word σ)) : List (Word σ) := distinct ([] :: ws.flatMap prefixes)

theorem mem_firstUses {ws : List (Word σ)} {p : Word σ} :
    p ∈ firstUses ws ↔ p = [] ∨ ∃ w ∈ ws, p <+: w := by
  simp [firstUses, distinct, List.mem_eraseDups, mem_prefixes]

theorem firstUses_concat (ws : List (Word σ)) (w : Word σ) :
    firstUses (ws ++ [w]) = firstUses ws ++ w.prefixes.filter (· ∉ firstUses ws) := by
  have hnew : w.prefixes.removeAll ([] :: ws.flatMap prefixes) =
      w.prefixes.filter (· ∉ firstUses ws) := by
    apply List.filter_congr
    intro p _
    rw [firstUses, distinct, List.elem_eq_mem, decide_not]
    simp only [List.mem_eraseDups]
  have hnodup : (w.prefixes.filter (· ∉ firstUses ws)).Nodup := (nodup_prefixes w).filter _
  rw [firstUses, distinct, List.flatMap_append, ← List.cons_append, List.eraseDups_append,
    List.flatMap_singleton, hnew, eraseDups_of_nodup hnodup]
  rfl

example : firstUses [[1, 2], [2], [1, 2], [1, 3]] = [[], [1], [1, 2], [2], [1, 3]] := by decide

end FirstUses

end Word

namespace Tree
variable {σ : Type u} {P : Type v} [DecidableEq σ] [Hashable σ]

/-- The words are those of the nodes, in the order of the arena. -/
def Numbers (t : Tree σ P) (ws : List (Word σ)) : Prop :=
  ws.map (fun w => (t.nodeOf? w).map NodeId.position) = (List.range t.size).map some

namespace Numbers
variable {t t' : Tree σ P} {ws : List (Word σ)} (h : t.Numbers ws)
include h

theorem length_eq : ws.length = t.size := by
  have hlength := congrArg List.length h
  simpa using hlength

theorem nodeOf?_of_getElem? {w : Word σ} {i : Nat} (hi : ws[i]? = some w) :
    t.nodeOf? w = some (.ofPosition i) := by
  have hlt : i < t.size := h.length_eq ▸ (List.getElem?_eq_some_iff.1 hi).1
  have hat := congrArg (·[i]?) h
  simp only [List.getElem?_map, hi, List.getElem?_range hlt, Option.map_some,
    Option.some.injEq] at hat
  obtain ⟨id, hid, rfl⟩ := Option.map_eq_some_iff.1 hat
  rw [hid, NodeId.ofPosition_position]

theorem congr (hs : t'.size = t.size) (hw : ∀ w, t'.nodeOf? w = t.nodeOf? w) : t'.Numbers ws := by
  simp only [Numbers, hs, hw]
  exact h

theorem isSome_of_mem {w : Word σ} (hw : w ∈ ws) : (t.nodeOf? w).isSome := by
  have hmem : (t.nodeOf? w).map NodeId.position ∈ (List.range t.size).map some := by
    rw [← h]
    exact List.mem_map_of_mem hw
  obtain ⟨n, _, hn⟩ := List.mem_map.1 hmem
  rw [← Option.isSome_map, ← hn]
  rfl

theorem mem_iff (ht : t.WellFormed) {w : Word σ} : w ∈ ws ↔ (t.nodeOf? w).isSome := by
  refine ⟨h.isSome_of_mem, ?_⟩
  intro hw
  obtain ⟨id, hid⟩ := Option.isSome_iff_exists.1 hw
  -- the word that stands at the position of the node ends there too
  have hmem : some id.position ∈ ws.map fun w => (t.nodeOf? w).map NodeId.position := by
    rw [h]
    exact List.mem_map_of_mem (List.mem_range.2 (ht.nodeOf?_lt hid))
  obtain ⟨v, hv, hpos⟩ := List.mem_map.1 hmem
  obtain ⟨id', hid', heq⟩ := Option.map_eq_some_iff.1 hpos
  rw [NodeId.position_inj.1 heq] at hid'
  rwa [ht.nodeOf?_inj hid hid']

theorem concat (hs : t'.size = t.size + 1)
    (hkept : ∀ {w : Word σ} {id : NodeId}, t.nodeOf? w = some id → t'.nodeOf? w = some id)
    {w : Word σ} (hw : (t'.nodeOf? w).map NodeId.position = some t.size) :
    t'.Numbers (ws ++ [w]) := by
  have hold : ws.map (fun w => (t'.nodeOf? w).map NodeId.position) =
      ws.map (fun w => (t.nodeOf? w).map NodeId.position) := by
    apply List.map_congr_left
    intro v hv
    obtain ⟨id, hid⟩ := Option.isSome_iff_exists.1 (h.isSome_of_mem hv)
    rw [hid, hkept hid]
  rw [Numbers, List.map_append, hold, h, hs, List.range_succ, List.map_append, List.map_singleton,
    hw, List.map_singleton]

end Numbers

section Downwards
variable [Inhabited P]

theorem numbers_new (a : Alphabet σ) (settings : Settings) :
    (new a settings : Tree σ P).Numbers [[]] := by
  rw [Numbers, size_new]
  rfl

theorem enter_concat {t : Tree σ P} {w : Word σ} {s : σ} {d : Descent σ P}
    (h : t.enter (w ++ [s]) = .ok d) : ∃ upper i, t.enter w = .ok upper ∧
      t.alphabet.index? s = some i ∧
      let lower := upper.tree.descend upper.node [i]
      d = ⟨lower.tree, lower.node, upper.events ++ lower.events⟩ := by
  obtain ⟨path, hpath, rfl⟩ := descend_of_enter h
  obtain ⟨rest, i, hw, hs, rfl⟩ := Alphabet.indices_concat_ok hpath
  refine ⟨t.descend .root rest, i, by simp [enter, hw, Except.map], hs, ?_⟩
  rw [descend_append]

/-- Once the beginning of a word is entered, the last step is there or grows one node. -/
theorem WellFormed.enter_concat_cases {t : Tree σ P} (ht : t.WellFormed) {w : Word σ} {s : σ}
    {d : Descent σ P} (hd : t.enter (w ++ [s]) = .ok d) (hroom : d.tree.size ≤ UInt32.size) :
    ∃ upper i, t.enter w = .ok upper ∧ upper.tree.size ≤ UInt32.size ∧ Entered t w upper ∧
      t.alphabet.index? s = some i ∧
      ((∃ c, upper.tree.child? upper.node i = some c ∧ d = ⟨upper.tree, c, upper.events⟩) ∨
        upper.tree.child? upper.node i = none ∧ upper.tree.size < UInt32.size ∧
          d = ⟨upper.tree.grow upper.node i, upper.tree.nextId,
            upper.events ++ [.created upper.node upper.tree.nextId i]⟩) := by
  obtain ⟨upper, i, hupper, hs, rfl⟩ := enter_concat hd
  have hfits : upper.tree.size ≤ UInt32.size :=
    Nat.le_trans (size_le_descend upper.tree upper.node [i]) hroom
  refine ⟨upper, i, hupper, hfits, ht.enter hupper hfits, hs, ?_⟩
  cases hc : upper.tree.child? upper.node i with
  | some c => exact Or.inl ⟨c, rfl, by simp [Tree.descend, hc]⟩
  | none =>
    simp only [Tree.descend, hc, size_grow] at hroom
    exact Or.inr ⟨rfl, hroom, by simp [Tree.descend, hc]⟩

theorem WellFormed.nodeOf?_grow {t : Tree σ P} (ht : t.WellFormed) {w : Word σ} {id : NodeId} {s : σ}
    {i : Nat} (hw : t.nodeOf? w = some id) (hs : t.alphabet.index? s = some i)
    (hfree : t.child? id i = none) (hroom : t.size < UInt32.size) :
    (t.grow id i).nodeOf? (w ++ [s]) = some t.nextId := by
  have hid := ht.nodeOf?_lt hw
  have hgrow := extends_grow hid hfree hroom
  rw [nodeOf?_concat, hgrow.nodeOf?_kept hw, Option.bind_some, successor?, hgrow.alphabet_eq, hs,
    Option.bind_some, child?_grow hid, if_pos ⟨rfl, rfl⟩]

theorem Numbers.concat_mem_iff {t u : Tree σ P} {ws : List (Word σ)} {w : Word σ} {s : σ}
    {id : NodeId} {i : Nat} (h : u.Numbers (ws ++ w.prefixes.filter (· ∉ ws))) (hu : u.WellFormed)
    (hext : Extends t u) (hw : u.nodeOf? w = some id) (hs : t.alphabet.index? s = some i) :
    w ++ [s] ∈ ws ↔ (u.child? id i).isSome := by
  have hnode : u.nodeOf? (w ++ [s]) = u.child? id i := by
    rw [nodeOf?_concat, hw, Option.bind_some, successor?, hext.alphabet_eq, hs]
    rfl
  rw [← hnode, ← h.mem_iff hu, List.mem_append]
  simp [Word.concat_notMem_prefixes]

theorem Numbers.enter {t : Tree σ P} {ws : List (Word σ)} (h : t.Numbers ws) (ht : t.WellFormed)
    {w : Word σ} {d : Descent σ P} (hd : t.enter w = .ok d) (hroom : d.tree.size ≤ UInt32.size) :
    d.tree.Numbers (ws ++ w.prefixes.filter (· ∉ ws)) := by
  induction w using List.reverseRecOn generalizing d with
  | nil =>
    have hroot : [] ∈ ws := (h.mem_iff ht).2 rfl
    cases hd
    simpa [Word.prefixes, hroot, descend] using h
  | append_singleton w s ih =>
    obtain ⟨upper, i, hupper, hfits, hentered, hs, hlast⟩ := ht.enter_concat_cases hd hroom
    have hwf := hentered.wellFormed
    have hnumbers := ih hupper hfits
    have hmem := hnumbers.concat_mem_iff hwf hentered.extension hentered.reached hs
    rw [Word.prefixes_concat, List.filter_append, ← List.append_assoc]
    rcases hlast with ⟨c, hc, rfl⟩ | ⟨hc, hnext, rfl⟩
    · rw [hc] at hmem
      simpa [hmem] using hnumbers
    · rw [hc] at hmem
      have hgrow := extends_grow (hwf.nodeOf?_lt hentered.reached) hc hnext
      have hword : [w ++ [s]].filter (· ∉ ws) = [w ++ [s]] := by simp [hmem]
      rw [← hentered.extension.alphabet_eq] at hs
      rw [hword]
      refine hnumbers.concat (size_grow ..) hgrow.nodeOf?_kept ?_
      rw [hwf.nodeOf?_grow hentered.reached hs hc hnext, Option.map_some, position_nextId hnext]

end Downwards

end Tree
end MembershipCache
