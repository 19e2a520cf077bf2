import MembershipCache.Proofs.Node
import MembershipCache.Proofs.Tree.Shape
import MembershipCache.Tree.Growth

/-! What growth keeps. A tree that a word was entered into extends the tree before: every child
stays in its slot, and what was known is known still, at the same nodes. A symbol that joins the
alphabet moves nothing at all. -/
namespace MembershipCache
universe u v w

namespace Tree
variable {σ : Type u} {P : Type v} [DecidableEq σ] [Hashable σ]

def stored? [Inhabited P] (t : Tree σ P) (w : Word σ) : Option (Bool × P) :=
  (t.nodeOf? w).bind fun id => (t.verdictAt id).committed?.map (·, t.tagAt id)

theorem child?_eq_elim (t : Tree σ P) (id : NodeId) (i : Nat) :
    t.child? id i = (t.node? id).elim none (·.child? i) := by
  rw [child?]
  cases t.node? id <;> rfl

theorem verdictAt_eq_elim (t : Tree σ P) (id : NodeId) :
    t.verdictAt id = (t.node? id).elim .unknown (·.verdict) := by
  rw [verdictAt]
  cases t.node? id <;> rfl

theorem tagAt_eq_elim [Inhabited P] (t : Tree σ P) (id : NodeId) :
    t.tagAt id = (t.node? id).elim default (·.tag) := by
  rw [tagAt]
  cases t.node? id <;> rfl

section Downwards
variable [Inhabited P]

theorem committed?_eq_map_stored? (t : Tree σ P) (w : Word σ) :
    t.committed? w = (t.stored? w).map (·.1) := by
  rw [committed?, stored?, Option.map_bind]
  congr 1
  funext id
  simp only [Function.comp, Option.map_map]
  cases (t.verdictAt id).committed? <;> rfl

/-- A later tree with the same alphabet, in which the nodes that joined hold nothing yet. -/
structure Extends (t t' : Tree σ P) : Prop where
  size_le : t.size ≤ t'.size
  alphabet_eq : t'.alphabet = t.alphabet
  width_eq : t'.width = t.width
  child_kept : ∀ {id c : NodeId} {i : Nat}, t.child? id i = some c → t'.child? id i = some c
  child_new : ∀ {id c : NodeId} {i : Nat}, t'.child? id i = some c →
    t.child? id i = some c ∨ t.size ≤ c.position
  verdictAt_eq : t'.verdictAt = t.verdictAt
  tagAt_eq : t'.tagAt = t.tagAt

theorem Extends.refl (t : Tree σ P) : Extends t t :=
  ⟨Nat.le_refl _, rfl, rfl, id, Or.inl, rfl, rfl⟩

theorem Extends.trans {t u v : Tree σ P} (h : Extends t u) (k : Extends u v) : Extends t v := by
  refine ⟨Nat.le_trans h.size_le k.size_le, k.alphabet_eq.trans h.alphabet_eq,
    k.width_eq.trans h.width_eq, fun hc => k.child_kept (h.child_kept hc), ?_,
    k.verdictAt_eq.trans h.verdictAt_eq, k.tagAt_eq.trans h.tagAt_eq⟩
  intro id c i hc
  cases k.child_new hc with
  | inl hu => exact h.child_new hu
  | inr hle => exact Or.inr (Nat.le_trans h.size_le hle)

namespace Extends
variable {t t' : Tree σ P} (h : Extends t t')
include h

theorem successor_kept {id c : NodeId} {s : σ} (hc : t.successor? id s = some c) :
    t'.successor? id s = some c := by
  obtain ⟨i, hs, hi⟩ := Option.bind_eq_some_iff.1 hc
  rw [successor?, h.alphabet_eq, hs]
  exact h.child_kept hi

theorem successor_new {id c : NodeId} {s : σ} (hc : t'.successor? id s = some c) :
    t.successor? id s = some c ∨ t.size ≤ c.position := by
  obtain ⟨i, hs, hi⟩ := Option.bind_eq_some_iff.1 hc
  cases h.child_new hi with
  | inl hold =>
    rw [h.alphabet_eq] at hs
    left
    rw [successor?, hs]
    exact hold
  | inr hle => exact Or.inr hle

theorem nodeOf?_kept {w : Word σ} {id : NodeId} (hw : t.nodeOf? w = some id) :
    t'.nodeOf? w = some id := nodeOf?_mono h.successor_kept hw

theorem nodeOf?_old (ht' : t'.WellFormed) {w : Word σ} {id : NodeId}
    (hw : t'.nodeOf? w = some id) (hid : id.position < t.size) : t.nodeOf? w = some id := by
  induction w using List.reverseRecOn generalizing id with
  | nil => exact hw
  | append_singleton w s ih =>
    rw [nodeOf?_concat] at hw ⊢
    obtain ⟨p, hp, hps⟩ := Option.bind_eq_some_iff.1 hw
    -- the way to an old node leads through older nodes only
    have hlater := ht'.successor_later hps
    rw [ih hp (by omega)]
    cases h.successor_new hps with
    | inl hold => exact hold
    | inr hle => omega

theorem stored?_eq (ht' : t'.WellFormed) (w : Word σ) :
    t'.stored? w = t.stored? w := by
  cases hw : t.nodeOf? w with
  | some id => rw [stored?, stored?, h.nodeOf?_kept hw, hw, h.verdictAt_eq, h.tagAt_eq]
  | none =>
    cases hw' : t'.nodeOf? w with
    | none => rw [stored?, stored?, hw, hw']; rfl
    | some id =>
      have hnew : t.size ≤ id.position := by
        by_contra hlt
        rw [h.nodeOf?_old ht' hw' (by omega)] at hw
        cases hw
      have hv : t.verdictAt id = .unknown := by
        rw [verdictAt, node?_eq_none_iff.2 hnew]
      rw [stored?, stored?, hw, hw', h.verdictAt_eq]
      simp [hv, Verdict.committed?]

end Extends

@[simp] theorem size_grow (t : Tree σ P) (parent : NodeId) (i : Nat) :
    (t.grow parent i).size = t.size + 1 := by
  simp [size, grow]

omit [Inhabited P] in
theorem position_nextId {t : Tree σ P} (h : t.size < UInt32.size) : t.nextId.position = t.size := by
  rw [nextId, NodeId.position_ofPosition, Nat.mod_eq_of_lt h]

/-- The next name is never out of range, not even where names start over. -/
theorem position_nextId_lt (t : Tree σ P) (parent : NodeId) (i : Nat) :
    t.nextId.position < (t.grow parent i).size := by
  rw [nextId, NodeId.position_ofPosition, size_grow]
  exact Nat.lt_succ_of_le (Nat.mod_le _ _)

/-- What a growing tree holds at an id: the old node, with one slot taken if it is the parent, or a
blank one at the end. -/
theorem node?_grow (t : Tree σ P) {parent : NodeId} (i : Nat) (hp : parent.position < t.size)
    (id : NodeId) : (t.grow parent i).node? id =
      if id = parent then (t.node? id).map (·.setChild i t.width t.nextId)
      else if id.position = t.size then some (.blank t.width) else t.node? id := by
  simp only [node?, grow, Array.getElem?_modify, Array.getElem?_push]
  by_cases hid : id = parent
  · subst hid
    have hold : id.position ≠ t.nodes.size := Nat.ne_of_lt hp
    rw [if_pos rfl, if_pos rfl, if_neg hold]
  · have hne : parent.position ≠ id.position := fun h => hid (NodeId.position_inj.1 h.symm)
    rw [if_neg hne, if_neg hid]
    rfl

theorem child?_grow {t : Tree σ P} {parent : NodeId} {i : Nat} (hp : parent.position < t.size)
    (id : NodeId) (j : Nat) : (t.grow parent i).child? id j =
      if id = parent ∧ j = i then some t.nextId else t.child? id j := by
  rw [child?, node?_grow t i hp, child?]
  by_cases hid : id = parent
  · subst hid
    obtain ⟨n, hn⟩ := Option.isSome_iff_exists.1 (node?_isSome_iff.2 hp)
    simp [hn, Node.child?_setChild]
  · by_cases hend : id.position = t.size
    · simp [hid, hend, node?_eq_none_iff.2 (Nat.le_of_eq hend.symm)]
    · simp [hid, hend]

theorem elim_node?_grow {α : Type w} (f : Node P → α) {t : Tree σ P} {parent : NodeId} (i : Nat)
    (hp : parent.position < t.size) (hf : ∀ n j size c, f (n.setChild j size c) = f n)
    (id : NodeId) : ((t.grow parent i).node? id).elim (f (.blank t.width)) f =
      (t.node? id).elim (f (.blank t.width)) f := by
  rw [node?_grow t i hp]
  by_cases hid : id = parent
  · cases hn : t.node? id <;> simp [hid, hf]
  · by_cases hend : id.position = t.size
    · simp [hid, hend, node?_eq_none_iff.2 (Nat.le_of_eq hend.symm)]
    · simp [hid, hend]

theorem verdictAt_grow {t : Tree σ P} {parent : NodeId} (i : Nat) (hp : parent.position < t.size) :
    (t.grow parent i).verdictAt = t.verdictAt := by
  funext id
  rw [verdictAt_eq_elim, verdictAt_eq_elim]
  exact elim_node?_grow Node.verdict i hp (fun _ _ _ _ => rfl) id

theorem tagAt_grow {t : Tree σ P} {parent : NodeId} (i : Nat) (hp : parent.position < t.size) :
    (t.grow parent i).tagAt = t.tagAt := by
  funext id
  rw [tagAt_eq_elim, tagAt_eq_elim]
  exact elim_node?_grow Node.tag i hp (fun _ _ _ _ => rfl) id

theorem extends_grow {t : Tree σ P} {parent : NodeId} {i : Nat} (hp : parent.position < t.size)
    (hfree : t.child? parent i = none) (hroom : t.size < UInt32.size) :
    Extends t (t.grow parent i) := by
  refine ⟨by simp, rfl, rfl, ?_, ?_, verdictAt_grow i hp, tagAt_grow i hp⟩
  · intro id c j hc
    rw [child?_grow hp, if_neg]
    · exact hc
    · intro h
      obtain ⟨rfl, rfl⟩ := h
      rw [hfree] at hc
      cases hc
  · intro id c j hc
    rw [child?_grow hp] at hc
    split at hc
    · cases hc
      exact Or.inr (Nat.le_of_eq (position_nextId hroom).symm)
    · exact Or.inl hc

theorem WellFormed.grow {t : Tree σ P} (ht : t.WellFormed) {parent : NodeId} {i : Nat}
    (hp : parent.position < t.size) (hi : i < t.alphabet.size) (hfree : t.child? parent i = none)
    (hroom : t.size < UInt32.size) : (t.grow parent i).WellFormed := by
  have hnext := position_nextId hroom
  -- no slot of the old tree leads to the new node
  have hfresh : ∀ {id : NodeId} {j : Nat}, t.child? id j ≠ some t.nextId := by
    intro id j hc
    have := ht.child_exists hc
    omega
  refine ⟨by simp, by rw [size_grow]; exact hroom, ?_, ?_, ?_, ?_, ?_⟩
  · intro id c j hc
    rw [child?_grow hp] at hc
    split at hc
    · next h =>
      cases hc
      rw [h.1, hnext]
      exact hp
    · exact ht.child_later hc
  · intro id c j hc
    rw [child?_grow hp] at hc
    rw [size_grow]
    split at hc
    · cases hc
      omega
    · exact Nat.lt_succ_of_lt (ht.child_exists hc)
  · intro id c j hc
    rw [child?_grow hp] at hc
    split at hc
    · next h =>
      rw [h.2]
      exact hi
    · exact ht.child_indexed hc
  · intro id id' c j j' hc hc'
    rw [child?_grow hp] at hc hc'
    split at hc
    · next h =>
      split at hc'
      · next h' => exact ⟨h.1.trans h'.1.symm, h.2.trans h'.2.symm⟩
      · cases hc
        exact absurd hc' hfresh
    · split at hc'
      · cases hc'
        exact absurd hc hfresh
      · exact ht.parent_unique hc hc'
  · intro c hpos hlt
    rw [size_grow] at hlt
    by_cases hend : c.position = t.size
    · refine ⟨parent, i, ?_⟩
      rw [child?_grow hp, if_pos ⟨rfl, rfl⟩, ← NodeId.position_inj.1 (hnext.trans hend.symm)]
    · obtain ⟨p, j, hc⟩ := ht.parent_exists hpos (by omega)
      exact ⟨p, j, (extends_grow hp hfree hroom).child_kept hc⟩

theorem size_le_descend (t : Tree σ P) (start : NodeId) (path : List Nat) :
    t.size ≤ (t.descend start path).tree.size := by
  induction path generalizing t start with
  | nil => exact Nat.le_refl _
  | cons i path ih =>
    cases hc : t.child? start i with
    | some c => simpa only [descend, hc] using ih t c
    | none =>
      have h := ih (t.grow start i) t.nextId
      rw [size_grow] at h
      simp only [descend, hc]
      omega

theorem alphabet_descend (t : Tree σ P) (start : NodeId) (path : List Nat) :
    (t.descend start path).tree.alphabet = t.alphabet := by
  induction path generalizing t start with
  | nil => rfl
  | cons i path ih =>
    rw [descend]
    split
    · next c _ => exact ih t c
    · exact ih (t.grow start i) t.nextId

theorem size_descend_le (t : Tree σ P) (start : NodeId) (path : List Nat) :
    (t.descend start path).tree.size ≤ t.size + path.length := by
  induction path generalizing t start with
  | nil => exact Nat.le_refl _
  | cons i path ih =>
    rw [List.length_cons]
    cases hc : t.child? start i with
    | some c =>
      have h := ih t c
      simp only [descend, hc]
      omega
    | none =>
      have h := ih (t.grow start i) t.nextId
      rw [size_grow] at h
      simp only [descend, hc]
      omega

theorem WellFormed.descend {t : Tree σ P} (ht : t.WellFormed) {start : NodeId} {path : List Nat}
    (hstart : start.position < t.size) (hpath : ∀ i ∈ path, i < t.alphabet.size)
    (hroom : (t.descend start path).tree.size ≤ UInt32.size) :
    let d := t.descend start path
    d.tree.WellFormed ∧ Extends t d.tree ∧ d.tree.follow? start path = some d.node := by
  induction path generalizing t start with
  | nil => exact ⟨ht, Extends.refl t, rfl⟩
  | cons i path ih =>
    have hi : i < t.alphabet.size := hpath i (by simp)
    have hrest : ∀ j ∈ path, j < t.alphabet.size := fun j hj => hpath j (by simp [hj])
    cases hc : t.child? start i with
    | some c =>
      simp only [Tree.descend, hc] at hroom ⊢
      obtain ⟨hwf, hext, hreached⟩ := ih ht (ht.child_exists hc) hrest hroom
      refine ⟨hwf, hext, ?_⟩
      rw [follow?_cons, hext.child_kept hc]
      exact hreached
    | none =>
      simp only [Tree.descend, hc] at hroom ⊢
      have hlarger := size_le_descend (t.grow start i) t.nextId path
      rw [size_grow] at hlarger
      have hfits : t.size < UInt32.size := by omega
      have hgrow := extends_grow hstart hc hfits
      obtain ⟨hwf, hext, hreached⟩ :=
        ih (ht.grow hstart hi hc hfits) (position_nextId_lt t start i) hrest hroom
      refine ⟨hwf, hgrow.trans hext, ?_⟩
      have hchild : (t.grow start i).child? start i = some t.nextId := by
        rw [child?_grow hstart, if_pos ⟨rfl, rfl⟩]
      rw [follow?_cons, hext.child_kept hchild]
      exact hreached

structure Entered (t : Tree σ P) (w : Word σ) (d : Descent σ P) : Prop where
  wellFormed : d.tree.WellFormed
  extension : Extends t d.tree
  reached : d.tree.nodeOf? w = some d.node

theorem descend_of_enter {t : Tree σ P} {w : Word σ} {d : Descent σ P} (h : t.enter w = .ok d) :
    ∃ path, t.alphabet.indices w = .ok path ∧ d = t.descend .root path := by
  cases hw : t.alphabet.indices w with
  | error s => simp [enter, hw, Except.map] at h
  | ok path =>
    rw [enter, hw, Except.map] at h
    cases h
    exact ⟨path, rfl, rfl⟩

theorem alphabet_enter {t : Tree σ P} {w : Word σ} {d : Descent σ P} (h : t.enter w = .ok d) :
    d.tree.alphabet = t.alphabet := by
  obtain ⟨path, _, rfl⟩ := descend_of_enter h
  exact alphabet_descend t .root path

theorem size_le_enter {t : Tree σ P} {w : Word σ} {d : Descent σ P} (h : t.enter w = .ok d) :
    t.size ≤ d.tree.size := by
  obtain ⟨path, _, rfl⟩ := descend_of_enter h
  exact size_le_descend t .root path

theorem size_enter_le {t : Tree σ P} {w : Word σ} {d : Descent σ P} (h : t.enter w = .ok d) :
    d.tree.size ≤ t.size + w.length := by
  obtain ⟨path, hw, rfl⟩ := descend_of_enter h
  rw [← Alphabet.length_indices hw]
  exact size_descend_le t .root path

theorem WellFormed.enter {t : Tree σ P} (ht : t.WellFormed) {w : Word σ} {d : Descent σ P}
    (h : t.enter w = .ok d) (hroom : d.tree.size ≤ UInt32.size) : Entered t w d := by
  obtain ⟨path, hw, rfl⟩ := descend_of_enter h
  obtain ⟨hwf, hext, hreached⟩ := ht.descend ht.root_lt (Alphabet.lt_size_of_indices hw) hroom
  refine ⟨hwf, hext, ?_⟩
  rw [← hext.alphabet_eq] at hw
  rw [nodeOf?_eq_follow? hw]
  exact hreached

theorem enter_eq_error_iff {t : Tree σ P} {w : Word σ} {s : σ} :
    t.enter w = .error s ↔ w.find? (· ∉ t.alphabet.toList) = some s := by
  rw [← Alphabet.indices_eq_error_iff, enter]
  cases t.alphabet.indices w <;> simp [Except.map]

theorem exists_enter {t : Tree σ P} {w : Word σ}
    (h : ∀ s ∈ w, s ∈ t.alphabet.toList) : ∃ d, t.enter w = .ok d := by
  cases hd : t.enter w with
  | ok d => exact ⟨d, rfl⟩
  | error s =>
    rw [enter_eq_error_iff] at hd
    have hforeign : s ∉ t.alphabet.toList := by simpa using List.find?_some hd
    exact absurd (h s (List.mem_of_find?_eq_some hd)) hforeign

theorem find?_eq_none_of_enter {t : Tree σ P} {w : Word σ} {d : Descent σ P}
    (h : t.enter w = .ok d) : w.find? (· ∉ t.alphabet.toList) = none := by
  cases hf : w.find? (· ∉ t.alphabet.toList) with
  | none => rfl
  | some s =>
    rw [enter_eq_error_iff.2 hf] at h
    cases h

namespace Entered
variable {t : Tree σ P} {w : Word σ} {d : Descent σ P} (h : Entered t w d)
include h

theorem stored?_eq (u : Word σ) : d.tree.stored? u = t.stored? u :=
  h.extension.stored?_eq h.wellFormed u

theorem committed?_eq (u : Word σ) : d.tree.committed? u = t.committed? u := by
  rw [committed?_eq_map_stored?, h.stored?_eq, ← committed?_eq_map_stored?]

theorem stored?_node :
    (d.tree.verdictAt d.node).committed?.map (·, d.tree.tagAt d.node) = t.stored? w := by
  rw [← h.stored?_eq, stored?, h.reached]
  rfl

theorem committed?_node : (d.tree.verdictAt d.node).committed? = t.committed? w := by
  rw [← h.committed?_eq, committed?, h.reached]
  rfl

end Entered

end Downwards

section Writing

def write (t : Tree σ P) (id : NodeId) (v : Verdict) (p : P) : Tree σ P :=
  t.modify id fun n => (n.setVerdict v).setTag p

@[simp] theorem size_write (t : Tree σ P) (id : NodeId) (v : Verdict) (p : P) :
    (t.write id v p).size = t.size := size_modify ..

theorem child?_write (t : Tree σ P) (id : NodeId) (v : Verdict) (p : P) :
    (t.write id v p).child? = t.child? := by
  funext j i
  rw [child?, write, node?_modify, child?]
  split
  · cases t.node? j <;> rfl
  · rfl

theorem WellFormed.write {t : Tree σ P} (ht : t.WellFormed) (id : NodeId) (v : Verdict) (p : P) :
    (t.write id v p).WellFormed :=
  ht.congr (size_write ..) (child?_write ..) (Nat.le_refl _)

theorem nodeOf?_write (t : Tree σ P) (id : NodeId) (v : Verdict) (p : P) (w : Word σ) :
    (t.write id v p).nodeOf? w = t.nodeOf? w := by
  apply nodeOf?_congr
  funext j s
  rw [successor?, child?_write]
  rfl

theorem verdictAt_write {t : Tree σ P} {id : NodeId} (h : id.position < t.size) (v : Verdict)
    (p : P) (j : NodeId) :
    (t.write id v p).verdictAt j = if j = id then v else t.verdictAt j := by
  rw [verdictAt, write, node?_modify, verdictAt]
  by_cases hj : j = id
  · subst hj
    obtain ⟨n, hn⟩ := Option.isSome_iff_exists.1 (node?_isSome_iff.2 h)
    simp [hn, Node.setTag, Node.setVerdict]
  · simp [hj]

theorem tagAt_write [Inhabited P] {t : Tree σ P} {id : NodeId} (h : id.position < t.size)
    (v : Verdict) (p : P) (j : NodeId) :
    (t.write id v p).tagAt j = if j = id then p else t.tagAt j := by
  rw [tagAt, write, node?_modify, tagAt]
  by_cases hj : j = id
  · subst hj
    obtain ⟨n, hn⟩ := Option.isSome_iff_exists.1 (node?_isSome_iff.2 h)
    simp [hn, Node.setTag]
  · simp [hj]

/-- A verdict put down where a word ends is the entry of that word, and of no other. -/
theorem WellFormed.stored?_write [Inhabited P] {t : Tree σ P} (ht : t.WellFormed) {w : Word σ}
    {id : NodeId} (hw : t.nodeOf? w = some id) (b : Bool) (p : P) (u : Word σ) :
    (t.write id (.ofBool b) p).stored? u = if u = w then some (b, p) else t.stored? u := by
  have hid := ht.nodeOf?_lt hw
  rw [stored?, nodeOf?_write, stored?]
  by_cases hu : u = w
  · subst hu
    simp [hw, verdictAt_write hid, tagAt_write hid]
  · cases hj : t.nodeOf? u with
    | none => simp [hu]
    | some j =>
      have hne : j ≠ id := by
        intro heq
        subst heq
        exact hu (ht.nodeOf?_inj hj hw)
      simp [hu, hne, verdictAt_write hid, tagAt_write hid]

theorem WellFormed.committed?_write [Inhabited P] {t : Tree σ P} (ht : t.WellFormed) {w : Word σ}
    {id : NodeId} (hw : t.nodeOf? w = some id) (b : Bool) (p : P) (u : Word σ) :
    (t.write id (.ofBool b) p).committed? u = if u = w then some b else t.committed? u := by
  rw [committed?_eq_map_stored?, ht.stored?_write hw, committed?_eq_map_stored?]
  split <;> rfl

end Writing

section Sideways

theorem size_widenFrom (before after : Nat) (nodes : Array (Node P)) (visited : Nat)
    (pending : List NodeId) :
    (widenFrom before after nodes visited pending).1.size = nodes.size := by
  fun_induction widenFrom before after nodes visited pending with
  | case1 nodes visited => rfl
  | case2 nodes visited id pending children ih => rw [ih, Array.size_modify]

theorem getElem?_widenFrom (before after : Nat) (nodes : Array (Node P)) (visited : Nat)
    (pending : List NodeId) (j : Nat) :
    (widenFrom before after nodes visited pending).1[j]? = nodes[j]? ∨
      (widenFrom before after nodes visited pending).1[j]? =
        nodes[j]?.map (·.widen after) := by
  fun_induction widenFrom before after nodes visited pending with
  | case1 nodes visited => exact Or.inl rfl
  | case2 nodes visited id pending children ih =>
    rw [Array.getElem?_modify] at ih
    by_cases hj : id.position = j
    · rw [if_pos hj, Option.map_map] at ih
      -- the walk may come back to a node, but widening it twice adds nothing
      have htwice : (fun n : Node P => n.widen after) ∘ (fun n : Node P => n.widen after) =
          fun n : Node P => n.widen after :=
        funext fun n : Node P => n.widen_widen (Nat.le_refl after)
      rw [htwice, or_self] at ih
      exact Or.inr ih
    · rw [if_neg hj] at ih
      exact ih

theorem node?_addSymbol (t : Tree σ P) (s : σ) (id : NodeId) :
    (t.addSymbol s).state.node? id = t.node? id ∨
      (t.addSymbol s).state.node? id =
        (t.node? id).map (·.widen (t.alphabet.add s).1.size) := by
  rw [addSymbol]
  split
  · exact getElem?_widenFrom ..
  · exact Or.inl rfl

@[simp] theorem size_addSymbol (t : Tree σ P) (s : σ) : (t.addSymbol s).state.size = t.size := by
  rw [addSymbol]
  split
  · exact size_widenFrom ..
  · rfl

@[simp] theorem alphabet_addSymbol (t : Tree σ P) (s : σ) :
    (t.addSymbol s).state.alphabet = (t.alphabet.add s).1 := by
  rw [addSymbol]
  split <;> rfl

theorem elim_node?_addSymbol {α : Type w} (f : Node P → α) (hf : ∀ n size, f (n.widen size) = f n)
    (t : Tree σ P) (s : σ) (otherwise : α) (id : NodeId) :
    ((t.addSymbol s).state.node? id).elim otherwise f = (t.node? id).elim otherwise f := by
  cases node?_addSymbol t s id with
  | inl h => rw [h]
  | inr h => cases hn : t.node? id <;> simp [h, hn, hf]

theorem child?_addSymbol (t : Tree σ P) (s : σ) :
    (t.addSymbol s).state.child? = t.child? := by
  funext id i
  rw [child?_eq_elim, child?_eq_elim]
  exact elim_node?_addSymbol (·.child? i) (fun n size => n.child?_widen size i) t s none id

theorem verdictAt_addSymbol (t : Tree σ P) (s : σ) :
    (t.addSymbol s).state.verdictAt = t.verdictAt := by
  funext id
  rw [verdictAt_eq_elim, verdictAt_eq_elim]
  exact elim_node?_addSymbol Node.verdict (fun _ _ => rfl) t s .unknown id

theorem tagAt_addSymbol [Inhabited P] (t : Tree σ P) (s : σ) :
    (t.addSymbol s).state.tagAt = t.tagAt := by
  funext id
  rw [tagAt_eq_elim, tagAt_eq_elim]
  exact elim_node?_addSymbol Node.tag (fun _ _ => rfl) t s default id

theorem WellFormed.addSymbol {t : Tree σ P} (ht : t.WellFormed) (s : σ) :
    (t.addSymbol s).state.WellFormed := by
  apply ht.congr (size_addSymbol t s) (child?_addSymbol t s)
  rw [alphabet_addSymbol]
  exact t.alphabet.size_le_add s

theorem WellFormed.successor?_addSymbol {t : Tree σ P} (ht : t.WellFormed) (s : σ) :
    (t.addSymbol s).state.successor? = t.successor? := by
  funext id r
  rw [successor?, child?_addSymbol, alphabet_addSymbol, successor?]
  cases hr : t.alphabet.index? r with
  | some i => rw [Alphabet.index?_add_of_some s hr]
  | none =>
    cases hr' : (t.alphabet.add s).1.index? r with
    | none => rfl
    | some i =>
      have hi := Alphabet.size_le_of_index?_add hr hr'
      cases hc : t.child? id i with
      | none => exact hc
      | some c =>
        have := ht.child_indexed hc
        omega

theorem WellFormed.nodeOf?_addSymbol {t : Tree σ P} (ht : t.WellFormed) (s : σ) (w : Word σ) :
    (t.addSymbol s).state.nodeOf? w = t.nodeOf? w :=
  nodeOf?_congr (ht.successor?_addSymbol s) w

theorem WellFormed.stored?_addSymbol [Inhabited P] {t : Tree σ P} (ht : t.WellFormed) (s : σ)
    (w : Word σ) : (t.addSymbol s).state.stored? w = t.stored? w := by
  rw [stored?, ht.nodeOf?_addSymbol, verdictAt_addSymbol, tagAt_addSymbol, stored?]

theorem WellFormed.committed?_addSymbol {t : Tree σ P} (ht : t.WellFormed) (s : σ) (w : Word σ) :
    (t.addSymbol s).state.committed? w = t.committed? w :=
  committed?_congr (ht.nodeOf?_addSymbol s w) (verdictAt_addSymbol t s)

end Sideways

end Tree
end MembershipCache
