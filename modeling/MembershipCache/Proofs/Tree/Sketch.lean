import MembershipCache.Proofs.Tree.FirstUse

/-! A tree drawn from reports. The report of a new node names its parent, its slot and the node; drawn
one after the other from a lone root, such reports give every slot of the tree. Entering a word
reports the beginnings of the word that had no node. -/
namespace MembershipCache
universe u v

/-- What reports tell of a tree: how many nodes it has, and which of them stands in which slot. -/
structure Sketch where
  size : Nat
  child? : NodeId → Nat → Option NodeId

namespace Sketch

def root : Sketch := ⟨1, fun _ _ => none⟩

/-- Draws the node that a report tells of. It has to be the next one, in a free slot of a node that
is there. Reports of anything else are passed over. -/
def draw? (k : Sketch) : Event → Option Sketch
  | .created parent child i =>
    if parent.position < k.size ∧ k.child? parent i = none ∧ child.position = k.size then
      some ⟨k.size + 1, fun id j => if id = parent ∧ j = i then some child else k.child? id j⟩
    else none
  | _ => some k

theorem draw?_of_message {e : Event} (h : e.message ≠ "created node") (k : Sketch) :
    k.draw? e = some k := by
  cases e with
  | created => exact absurd rfl h
  | _ => rfl

theorem foldlM_draw?_of_message {es : List Event} (h : ∀ e ∈ es, e.message ≠ "created node")
    (k : Sketch) : es.foldlM draw? k = some k := by
  induction es with
  | nil => rfl
  | cons e es ih =>
    obtain ⟨he, hes⟩ := List.forall_mem_cons.1 h
    rw [List.foldlM_cons, draw?_of_message he]
    exact ih hes

end Sketch

namespace Tree
variable {σ : Type u} {P : Type v} [DecidableEq σ] [Hashable σ]

def sketch (t : Tree σ P) : Sketch := ⟨t.size, t.child?⟩

theorem sketch_eq (t : Tree σ P) : t.sketch = ⟨t.size, t.child?⟩ := rfl

def missing (t : Tree σ P) (w : Word σ) : List (Word σ) :=
  w.prefixes.filter (t.nodeOf? · = none)

/-- The report that a word has got its node, at this place in the arena: the node hangs below that
of the word without its last symbol, in the slot of this symbol. -/
def Announces (t : Tree σ P) (p : Word σ × Nat) (e : Event) : Prop :=
  ∃ u s parent child i, p.1 = u ++ [s] ∧ t.nodeOf? u = some parent ∧ t.nodeOf? p.1 = some child ∧
    child.position = p.2 ∧ t.alphabet.index? s = some i ∧ e = .created parent child i

theorem Announces.mono {t t' : Tree σ P} {p : Word σ × Nat} {e : Event} (h : t.Announces p e)
    (hkept : ∀ {w : Word σ} {id : NodeId}, t.nodeOf? w = some id → t'.nodeOf? w = some id)
    (halphabet : t'.alphabet = t.alphabet) : t'.Announces p e := by
  obtain ⟨u, s, parent, child, i, hp, hu, hchild, hposition, hs, he⟩ := h
  exact ⟨u, s, parent, child, i, hp, hkept hu, hkept hchild, hposition, halphabet.symm ▸ hs, he⟩

theorem sketch_congr {t t' : Tree σ P} (hsize : t'.size = t.size) (hchild : t'.child? = t.child?) :
    t'.sketch = t.sketch := by
  rw [sketch, sketch, hsize, hchild]

theorem sketch_addSymbol (t : Tree σ P) (s : σ) : (t.addSymbol s).state.sketch = t.sketch :=
  sketch_congr (size_addSymbol t s) (child?_addSymbol t s)

theorem message_addSymbol {t : Tree σ P} {s : σ} {e : Event} (h : e ∈ (t.addSymbol s).events) :
    e.message ≠ "created node" := by
  rw [addSymbol] at h
  split at h
  · rw [List.mem_singleton.1 h]
    simp [Event.message]
  · cases h

theorem draw_addSymbol (t : Tree σ P) (s : σ) :
    (t.addSymbol s).events.foldlM Sketch.draw? t.sketch = some (t.addSymbol s).state.sketch := by
  rw [sketch_addSymbol]
  exact Sketch.foldlM_draw?_of_message (fun _ he => message_addSymbol he) _

section Downwards
variable [Inhabited P]

theorem sketch_new (a : Alphabet σ) (settings : Settings) :
    (new a settings : Tree σ P).sketch = .root := by
  have hchild : (new a settings : Tree σ P).child? = fun _ _ => none := by
    funext id i
    exact child?_new a settings id i
  rw [sketch, size_new, hchild, Sketch.root]

theorem draw?_grow {t : Tree σ P} {parent : NodeId} {i : Nat} (hp : parent.position < t.size)
    (hfree : t.child? parent i = none) (hroom : t.size < UInt32.size) :
    t.sketch.draw? (.created parent t.nextId i) = some (t.grow parent i).sketch := by
  have hchild : (t.grow parent i).child? =
      fun id j => if id = parent ∧ j = i then some t.nextId else t.child? id j := by
    funext id j
    exact child?_grow hp id j
  rw [Sketch.draw?, if_pos ⟨hp, hfree, position_nextId hroom⟩, (t.grow parent i).sketch_eq, size_grow,
    hchild]
  rfl

theorem WellFormed.draw_descend {t : Tree σ P} (ht : t.WellFormed) {start : NodeId}
    {path : List Nat} (hstart : start.position < t.size) (hpath : ∀ i ∈ path, i < t.alphabet.size)
    (hroom : (t.descend start path).tree.size ≤ UInt32.size) :
    (t.descend start path).events.foldlM Sketch.draw? t.sketch =
      some (t.descend start path).tree.sketch := by
  induction path generalizing t start with
  | nil => rfl
  | cons i path ih =>
    obtain ⟨hi, hrest⟩ := List.forall_mem_cons.1 hpath
    cases hc : t.child? start i with
    | some c =>
      simp only [Tree.descend, hc] at hroom ⊢
      exact ih ht (ht.child_exists hc) hrest hroom
    | none =>
      simp only [Tree.descend, hc] at hroom ⊢
      have hlarger := size_le_descend (t.grow start i) t.nextId path
      rw [size_grow] at hlarger
      have hfits : t.size < UInt32.size := by omega
      rw [List.foldlM_cons, draw?_grow hstart hc hfits]
      exact ih (ht.grow hstart hi hc hfits) (position_nextId_lt t start i) hrest hroom

theorem WellFormed.draw_enter {t : Tree σ P} (ht : t.WellFormed) {w : Word σ} {d : Descent σ P}
    (hd : t.enter w = .ok d) (hroom : d.tree.size ≤ UInt32.size) :
    d.events.foldlM Sketch.draw? t.sketch = some d.tree.sketch := by
  obtain ⟨path, hpath, rfl⟩ := descend_of_enter hd
  exact ht.draw_descend ht.root_lt (Alphabet.lt_size_of_indices hpath) hroom

omit [Inhabited P] in
theorem Numbers.missing_eq {t : Tree σ P} {ws : List (Word σ)} (h : t.Numbers ws)
    (ht : t.WellFormed) (w : Word σ) : t.missing w = w.prefixes.filter (· ∉ ws) := by
  apply List.filter_congr
  intro p _
  rw [decide_eq_decide, h.mem_iff ht, Option.not_isSome_iff_eq_none]

/-- Entering a word reports the missing beginnings, in order, at the next places of the arena. -/
theorem Numbers.announced {t : Tree σ P} {ws : List (Word σ)} (h : t.Numbers ws)
    (ht : t.WellFormed) {w : Word σ} {d : Descent σ P} (hd : t.enter w = .ok d)
    (hroom : d.tree.size ≤ UInt32.size) :
    List.Forall₂ d.tree.Announces ((t.missing w).zipIdx t.size) d.events := by
  induction w using List.reverseRecOn generalizing d with
  | nil =>
    cases hd
    exact .nil
  | append_singleton w s ih =>
    obtain ⟨upper, i, hupper, hfits, hentered, hs, hlast⟩ := ht.enter_concat_cases hd hroom
    have hwf := hentered.wellFormed
    have hnumbers := h.enter ht hupper hfits
    have hmem := hnumbers.concat_mem_iff hwf hentered.extension hentered.reached hs
    have hplace : t.size + (t.missing w).length = upper.tree.size := by
      rw [h.missing_eq ht, ← h.length_eq, ← hnumbers.length_eq, List.length_append]
    have hmissing : t.missing (w ++ [s]) =
        t.missing w ++ if w ++ [s] ∈ ws then [] else [w ++ [s]] := by
      rw [h.missing_eq ht, h.missing_eq ht, Word.prefixes_concat, List.filter_append]
      by_cases hw : w ++ [s] ∈ ws <;> simp [hw]
    rw [hmissing, List.zipIdx_append, hplace]
    rcases hlast with ⟨c, hc, rfl⟩ | ⟨hc, hnext, rfl⟩
    · rw [hc] at hmem
      simpa [hmem] using ih hupper hfits
    · rw [hc] at hmem
      have hgrow := extends_grow (hwf.nodeOf?_lt hentered.reached) hc hnext
      rw [← hentered.extension.alphabet_eq] at hs
      have hnode := hwf.nodeOf?_grow hentered.reached hs hc hnext
      rw [if_neg (by simp [hmem])]
      refine List.rel_append ((ih hupper hfits).imp fun _ _ h => ?_) (.cons ?_ .nil)
      · exact h.mono hgrow.nodeOf?_kept hgrow.alphabet_eq
      · refine ⟨w, s, upper.node, upper.tree.nextId, i, rfl, hgrow.nodeOf?_kept hentered.reached,
          hnode, position_nextId hnext, ?_, rfl⟩
        rw [hgrow.alphabet_eq]
        exact hs

end Downwards

end Tree
end MembershipCache
