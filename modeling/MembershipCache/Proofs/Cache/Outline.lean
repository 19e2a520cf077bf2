import MembershipCache.Proofs.Cache.Effect

/-! A run of a cache can be followed on an outline of it: the symbols, the words put there and their
entries, in lists and a function instead of an arena and hash tables. The outline tells what is
looked up and which node a word has, and it can be computed where the cache cannot. -/
namespace MembershipCache
universe u v w x y

structure Outline (σ : Type u) (β : Type w) where
  letters : List σ
  words : List (Word σ)
  entries : Word σ → Option β

namespace Outline
variable {σ : Type u} {P : Type v} {β : Type w} [DecidableEq σ]

def new (letters : List σ) : Outline σ β := ⟨letters, [], fun _ => none⟩

def addSymbol (o : Outline σ β) (s : σ) : Outline σ β :=
  { o with letters := if s ∈ o.letters then o.letters else o.letters ++ [s] }

def put (o : Outline σ β) (v : Word σ) (x? : Option β) : Outline σ β :=
  { o with words := o.words ++ [v], entries := fun u => if u = v then x? else o.entries u }

/-- Nodes are numbered as the beginnings of the words are first used. -/
def nodeOf? (o : Outline σ β) (v : Word σ) : Option NodeId :=
  ((Word.firstUses o.words).idxOf? v).map .ofPosition

variable [Hashable σ]

/-- The outline is one of this tree, into which these words were put, with these entries. -/
structure Describes (o : Outline σ β) (t : Tree σ P) (ws : List (Word σ))
    (entry : Word σ → Option β) : Prop where
  holds : t.Holds ws
  letters_eq : t.alphabet.toList = o.letters
  words_eq : ws = o.words
  entry_eq : ∀ u, entry u = o.entries u
  entered : ∀ {u x}, o.entries u = some x → u ∈ o.words

namespace Describes
variable {o : Outline σ β} {t t' : Tree σ P} {ws : List (Word σ)} {entry entry' : Word σ → Option β}
  (h : o.Describes t ws entry)
include h

theorem size_eq : t.size = (Word.firstUses o.words).length := by
  rw [← h.words_eq, h.holds.numbers.length_eq]

theorem nodeOf?_eq (v : Word σ) : t.nodeOf? v = o.nodeOf? v := by
  rw [Outline.nodeOf?, ← h.words_eq]
  cases hv : (Word.firstUses ws).idxOf? v with
  | none =>
    rw [List.idxOf?_eq_none_iff, h.holds.numbers.mem_iff h.holds.wellFormed] at hv
    simpa using hv
  | some i =>
    obtain ⟨hi, heq, _⟩ := List.idxOf?_eq_some_iff.1 hv
    exact h.holds.numbers.nodeOf?_of_getElem? (List.getElem?_eq_some_iff.2 ⟨hi, heq⟩)

theorem index?_eq (s : σ) : t.alphabet.index? s = o.letters.idxOf? s := by
  rw [Alphabet.index?_eq_idxOf?, h.letters_eq]

theorem congr (ht : t'.Holds ws) (halphabet : t'.alphabet = t.alphabet)
    (hentry : ∀ u, entry' u = entry u) : o.Describes t' ws entry' :=
  ⟨ht, halphabet ▸ h.letters_eq, h.words_eq, fun u => (hentry u).trans (h.entry_eq u), h.entered⟩

theorem addSymbol (s : σ) (hentry : ∀ u, entry' u = entry u) :
    (o.addSymbol s).Describes (t.addSymbol s).state ws entry' := by
  refine ⟨h.holds.widen s, ?_, h.words_eq, fun u => (hentry u).trans (h.entry_eq u), h.entered⟩
  rw [Tree.alphabet_addSymbol, Alphabet.toList_add, Alphabet.contains_eq_contains_toList,
    h.letters_eq, Outline.addSymbol]
  simp only [List.contains_eq_mem, decide_eq_true_eq]

theorem put {v : Word σ} {x? : Option β} (ht : t'.Holds (ws ++ [v]))
    (halphabet : t'.alphabet = t.alphabet)
    (hentry : ∀ u, entry' u = if u = v then x? else entry u) :
    (o.put v x?).Describes t' (ws ++ [v]) entry' := by
  refine ⟨ht, halphabet ▸ h.letters_eq, congrArg (· ++ [v]) h.words_eq, ?_, ?_⟩
  · intro u
    rw [hentry, h.entry_eq, Outline.put]
  · intro u x hu
    simp only [Outline.put] at hu ⊢
    split at hu
    · next huv => exact List.mem_append_right _ (List.mem_singleton.2 huv)
    · exact List.mem_append_left _ (h.entered hu)

end Describes

end Outline

/-- An outline follows a run if it follows every step. -/
theorem Tree.Acts.describes_foldl {σ : Type u} {P : Type v} {β : Type w} {γ : Type x} {ρ : Type y}
    [DecidableEq σ] [Hashable σ] [Inhabited P] {step : γ → ρ → γ} {tree : γ → Tree σ P}
    {entered? : γ × ρ → Option (Word σ)} (h : Tree.Acts step tree entered?)
    (entry : Tree σ P → Word σ → Option β) {outline : Outline σ β → ρ → Outline σ β}
    (describes_step : ∀ {c o ws}, o.Describes (tree c) ws (entry (tree c)) → ∀ {r},
      (tree (step c r)).size ≤ UInt32.size →
      (outline o r).Describes (tree (step c r)) (ws ++ (entered? (c, r)).toList)
        (entry (tree (step c r))))
    {c : γ} {o : Outline σ β} (hc : o.Describes (tree c) [] (entry (tree c))) (rs : List ρ)
    (hroom : (tree (rs.foldl step c)).size ≤ UInt32.size) :
    (rs.foldl outline o).Describes (tree (rs.foldl step c))
      ((encounters step c rs).filterMap entered?) (entry (tree (rs.foldl step c))) := by
  induction rs using List.reverseRecOn with
  | nil => exact hc
  | append_singleton rs r ih =>
    rw [List.foldl_concat] at hroom
    rw [List.foldl_concat, List.foldl_concat, filterMap_encounters_concat]
    exact describes_step (ih (Nat.le_trans (h.grows _ r) hroom)) hroom

namespace WriteOnce
variable {σ : Type u} [DecidableEq σ] [Hashable σ]

def outline (o : Outline σ Bool) : Request σ → Outline σ Bool
  | .insert w b =>
    if (insertAnswer w b (w.find? (· ∉ o.letters)) (o.entries w)).isOk then o.put w (some b) else o
  | .addSymbol s => o.addSymbol s

theorem describes_step {c : WriteOnce σ} {o : Outline σ Bool} {ws : List (Word σ)}
    (h : o.Describes c.tree ws c.tree.committed?) {r : Request σ}
    (hroom : (c.step r).tree.size ≤ UInt32.size) :
    (outline o r).Describes (c.step r).tree (ws ++ (entered? (c, r)).toList)
      (c.step r).tree.committed? := by
  have hholds := acts.holds_step h.holds hroom
  cases r with
  | addSymbol s =>
    rw [entered?, Option.toList_none, List.append_nil]
    exact h.addSymbol s (h.holds.wellFormed.committed?_addSymbol s)
  | insert w b =>
    have hi : Inserted c w b (c.insert w b) := inserted h.holds.wellFormed hroom
    rw [step, entered?, hi.answer_eq] at hholds ⊢
    rw [outline, ← h.letters_eq, ← h.entry_eq]
    split
    · next hok =>
      rw [if_pos hok] at hholds
      obtain ⟨hfind, hw⟩ := isOk_insertAnswer.1 hok
      refine h.put hholds hi.alphabet_eq fun u => ?_
      rw [hi.committed?_eq]
      by_cases hu : u = w
      · subst hu
        rw [if_pos rfl]
        rcases hw with hw | hw
        · exact if_pos ⟨rfl, hfind, hw⟩
        · simp [hw]
      · simp [hu]
    · next hok =>
      rw [if_neg hok, Option.toList_none, List.append_nil] at hholds
      rw [Option.toList_none, List.append_nil]
      refine h.congr hholds hi.alphabet_eq fun u => ?_
      rw [hi.committed?_eq, if_neg]
      -- what is written at all was not refused
      exact fun hw => hok (isOk_insertAnswer.2 ⟨hw.2.1, .inl hw.2.2⟩)

theorem describes_run {a : Alphabet σ} {letters : List σ} (ha : a.toList = letters)
    (settings : Settings) (rs : List (Request σ))
    (hroom : ((new a settings).run rs).tree.size ≤ UInt32.size) :
    (rs.foldl outline (.new letters)).Describes ((new a settings).run rs).tree
      ((new a settings).entered rs) ((new a settings).run rs).tree.committed? := by
  have hnew : (Outline.new letters).Describes (new a settings).tree []
      (new a settings).tree.committed? :=
    ⟨.new a settings, ha, rfl, Tree.committed?_new a settings, nofun⟩
  exact acts.describes_foldl Tree.committed? describes_step hnew rs hroom

theorem lookup_run {a : Alphabet σ} {letters : List σ} (ha : a.toList = letters)
    (settings : Settings) (rs : List (Request σ))
    (hroom : ((new a settings).run rs).tree.size ≤ UInt32.size) (w : Word σ) :
    let x? := (rs.foldl outline (.new letters)).entries w
    ((new a settings).run rs).tree.lookup w = (x?.isSome, x?) := by
  intro x?
  rw [Tree.lookup, (describes_run ha settings rs hroom).entry_eq]

end WriteOnce

namespace Revisable
variable {σ : Type u} [DecidableEq σ] [Hashable σ]

def outline (o : Outline σ (Bool × Provenance)) : Request σ → Outline σ (Bool × Provenance)
  | .insertAs w b origin =>
    if w.find? (· ∉ o.letters) = none then o.put w (arbitrate (o.entries w) b origin) else o
  | .addSymbol s => o.addSymbol s
  | .retire _ => o

theorem describes_step {c : Revisable σ} {o : Outline σ (Bool × Provenance)} {ws : List (Word σ)}
    (h : o.Describes c.tree ws c.tree.stored?) {r : Request σ}
    (hroom : (c.step r).tree.size ≤ UInt32.size) :
    (outline o r).Describes (c.step r).tree (ws ++ (entered? (c, r)).toList)
      (c.step r).tree.stored? := by
  have hholds := acts.holds_step h.holds hroom
  cases r with
  | addSymbol s =>
    rw [entered?, Option.toList_none, List.append_nil]
    exact h.addSymbol s (h.holds.wellFormed.stored?_addSymbol s)
  | retire id =>
    rw [entered?, Option.toList_none, List.append_nil, step, tree_retire]
    exact h
  | insertAs w b origin =>
    rw [step, entered?] at hholds ⊢
    rw [outline, ← h.letters_eq, ← h.entry_eq]
    cases hfind : w.find? (· ∉ c.tree.alphabet.toList) with
    | some s =>
      rw [insertAs_of_foreign hfind, if_neg (by simp)]
      simpa [Except.isOk, Except.toBool] using h
    | none =>
      have hi := inserted h.holds.wellFormed hroom hfind
      rw [hi.answer_eq] at hholds ⊢
      rw [if_pos rfl]
      exact h.put hholds hi.alphabet_eq hi.stored?_eq

theorem describes_run {a : Alphabet σ} {letters : List σ} (ha : a.toList = letters)
    (settings : Settings) (rs : List (Request σ))
    (hroom : ((new a settings).run rs).tree.size ≤ UInt32.size) :
    (rs.foldl outline (.new letters)).Describes ((new a settings).run rs).tree
      ((new a settings).entered rs) ((new a settings).run rs).tree.stored? := by
  have hnew : (Outline.new letters).Describes (new a settings).tree []
      (new a settings).tree.stored? :=
    ⟨.new a settings, ha, rfl, stored?_new a settings, nofun⟩
  exact acts.describes_foldl Tree.stored? describes_step hnew rs hroom

theorem lookup_run {a : Alphabet σ} {letters : List σ} (ha : a.toList = letters)
    (settings : Settings) (rs : List (Request σ))
    (hroom : ((new a settings).run rs).tree.size ≤ UInt32.size) (w : Word σ) :
    let x? := (rs.foldl outline (.new letters)).entries w
    ((new a settings).run rs).tree.lookup w = (x?.isSome, x?.map (·.1)) ∧
      ((new a settings).run rs).originOf? w = x?.map (·.2) := by
  intro x?
  have hstored := (describes_run ha settings rs hroom).entry_eq w
  rw [Tree.lookup, Tree.committed?_eq_map_stored?, originOf?_eq_map_stored?, hstored,
    Option.isSome_map]
  exact ⟨rfl, rfl⟩

end Revisable
end MembershipCache
