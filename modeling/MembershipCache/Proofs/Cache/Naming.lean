import MembershipCache.Proofs.Cache.Reachable

/-! The names of new nodes. They are counted on in 32 bits, so entering a word gives every new node
a name of its own exactly if the arena holds no more than 2^32 nodes afterwards. The next node takes
the name of the root. -/
namespace MembershipCache
universe u v

def Event.created? : Event → Option NodeId
  | .created _ child _ => some child
  | _ => none

variable {σ : Type u} {P : Type v} [DecidableEq σ] [Hashable σ]

def Descent.created (d : Descent σ P) : List NodeId := d.events.filterMap Event.created?

namespace Tree

/-- Every node that entering a word created is named by its place in the arena, which no node was
before, and the last of them is where the word leads. -/
structure NamesFresh (t : Tree σ P) (w : Word σ) (d : Descent σ P) : Prop where
  placed : d.created.map NodeId.position = List.range' t.size d.created.length
  fresh : ∀ id ∈ d.created, t.node? id = none
  reached : d.tree.nodeOf? w = some d.node
  last : ∀ id, d.created.getLast? = some id → d.node = id

section Descend
variable [Inhabited P] {t : Tree σ P} {start : NodeId} {i : Nat} {path : List Nat}

theorem descend_of_child {c : NodeId} (h : t.child? start i = some c) :
    t.descend start (i :: path) = t.descend c path := by
  simp only [descend, h]

theorem descend_of_gap (h : t.child? start i = none) (path : List Nat) :
    (t.descend start (i :: path)).tree = ((t.grow start i).descend t.nextId path).tree ∧
      (t.descend start (i :: path)).node = ((t.grow start i).descend t.nextId path).node ∧
      (t.descend start (i :: path)).created =
        t.nextId :: ((t.grow start i).descend t.nextId path).created := by
  simp only [descend, h, true_and]
  rfl

/-- New nodes are named after their places in the arena, as far as 32 bits go. -/
theorem created_descend (t : Tree σ P) (start : NodeId) (path : List Nat) :
    let d := t.descend start path
    d.created = (List.range' t.size d.created.length).map NodeId.ofPosition ∧
      d.tree.size = t.size + d.created.length := by
  induction path generalizing t start with
  | nil => exact ⟨rfl, rfl⟩
  | cons i path ih =>
    cases h : t.child? start i with
    | some c =>
      rw [descend_of_child h]
      exact ih t c
    | none =>
      obtain ⟨htree, _, hcreated⟩ := descend_of_gap h path
      obtain ⟨hnames, hsize⟩ := ih (t.grow start i) t.nextId
      rw [size_grow] at hnames hsize
      simp only [htree, hcreated, List.length_cons, List.range'_succ, List.map_cons]
      refine ⟨?_, by omega⟩
      rw [← hnames, nextId]

theorem follow?_of_created_eq_nil (h : (t.descend start path).created = []) :
    (t.descend start path).tree = t ∧
      t.follow? start path = some (t.descend start path).node := by
  induction path generalizing start with
  | nil => exact ⟨rfl, rfl⟩
  | cons i path ih =>
    cases hi : t.child? start i with
    | some c =>
      rw [descend_of_child hi] at h ⊢
      rw [follow?_cons, hi]
      exact ih h
    | none =>
      rw [(descend_of_gap hi path).2.2] at h
      cases h

theorem nextId_leaf (hstart : start.position < t.size) (hroom : t.size < UInt32.size) (j : Nat) :
    (t.grow start i).child? t.nextId j = none := by
  have hposition := position_nextId hroom
  rw [child?_grow hstart, if_neg]
  · cases h : t.child? t.nextId j with
    | none => rfl
    | some c =>
      have hlt := lt_size_of_child? h
      omega
  · rintro ⟨hsame, _⟩
    rw [hsame] at hposition
    omega

theorem descend_leaf (hstart : start.position < t.size) (hleaf : ∀ j, t.child? start j = none)
    (hroom : (t.descend start path).tree.size ≤ UInt32.size) :
    let d := t.descend start path
    d.created.length = path.length ∧ d.created.getLast?.getD start = d.node ∧
      ∀ j, d.tree.child? d.node j = none := by
  induction path generalizing t start with
  | nil => exact ⟨rfl, rfl, hleaf⟩
  | cons i path ih =>
    obtain ⟨htree, hnode, hcreated⟩ := descend_of_gap (hleaf i) path
    rw [htree] at hroom
    have hgrown := size_le_descend (t.grow start i) t.nextId path
    rw [size_grow] at hgrown
    have hnext := position_nextId_lt t start i
    obtain ⟨hlength, hlast, hbottom⟩ := ih hnext (nextId_leaf hstart (by omega)) hroom
    simp only [htree, hnode, hcreated]
    refine ⟨by rw [List.length_cons, hlength, List.length_cons], ?_, hbottom⟩
    rw [List.getLast?_cons, Option.getD_some]
    exact hlast

theorem WellFormed.last_created (ht : t.WellFormed) (hstart : start.position < t.size)
    (hroom : (t.descend start path).tree.size ≤ UInt32.size) {id : NodeId}
    (hlast : (t.descend start path).created.getLast? = some id) :
    (t.descend start path).node = id := by
  induction path generalizing start with
  | nil => cases hlast
  | cons i path ih =>
    cases hi : t.child? start i with
    | some c =>
      rw [descend_of_child hi] at hroom hlast ⊢
      exact ih (ht.child_exists hi) hroom hlast
    | none =>
      -- below a gap nothing exists, so from here on every step creates a node
      obtain ⟨htree, hnode, hcreated⟩ := descend_of_gap hi path
      rw [htree] at hroom
      have hgrown := size_le_descend (t.grow start i) t.nextId path
      rw [size_grow] at hgrown
      have hnext := position_nextId_lt t start i
      obtain ⟨_, hend, _⟩ := descend_leaf hnext (nextId_leaf hstart (by omega)) hroom
      rw [hcreated, List.getLast?_cons] at hlast
      rw [hnode, ← hend]
      exact Option.some.inj hlast

end Descend

section Enter
variable [Inhabited P] {t : Tree σ P} {w : Word σ} {d : Descent σ P} (hd : t.enter w = .ok d)
include hd

theorem created_enter :
    d.created = (List.range' t.size d.created.length).map NodeId.ofPosition ∧
      d.tree.size = t.size + d.created.length := by
  obtain ⟨path, _, rfl⟩ := descend_of_enter hd
  exact created_descend t .root path

theorem namesFresh_of_created_eq_nil (hnil : d.created = []) : t.NamesFresh w d := by
  obtain ⟨path, hpath, rfl⟩ := descend_of_enter hd
  obtain ⟨htree, hfollow⟩ := follow?_of_created_eq_nil hnil
  refine ⟨?_, ?_, ?_, ?_⟩
  · rw [hnil]
    rfl
  · rw [hnil]
    exact fun _ h => absurd h List.not_mem_nil
  · rw [htree, nodeOf?_eq_follow? hpath]
    exact hfollow
  · rw [hnil]
    intro _ h
    cases h

theorem WellFormed.namesFresh (ht : t.WellFormed) (hroom : d.tree.size ≤ UInt32.size) :
    t.NamesFresh w d := by
  obtain ⟨hnames, hsize⟩ := created_enter hd
  have hreached := (ht.enter hd hroom).reached
  have hposition : ∀ p ∈ List.range' t.size d.created.length,
      (NodeId.ofPosition p).position = p := by
    intro p hp
    have hlt := (List.mem_range'_1.1 hp).2
    rw [NodeId.position_ofPosition, Nat.mod_eq_of_lt (by omega)]
  refine ⟨?_, ?_, hreached, ?_⟩
  · conv_lhs => rw [hnames]
    rw [List.map_map]
    exact (List.map_congr_left hposition).trans (List.map_id _)
  · intro id hid
    rw [hnames] at hid
    obtain ⟨p, hp, rfl⟩ := List.mem_map.1 hid
    rw [node?_eq_none_iff, hposition p hp]
    exact (List.mem_range'_1.1 hp).1
  · obtain ⟨path, _, rfl⟩ := descend_of_enter hd
    exact fun id hlast => ht.last_created ht.root_lt hroom hlast

theorem NamesFresh.size_le (h : t.NamesFresh w d) (hnew : d.created ≠ []) :
    d.tree.size ≤ UInt32.size := by
  have hsize := (created_enter hd).2
  have hpos := List.length_pos_iff.2 hnew
  have hlast : t.size + (d.created.length - 1) ∈ d.created.map NodeId.position := by
    rw [h.placed, List.mem_range'_1]
    omega
  obtain ⟨id, _, hid⟩ := List.mem_map.1 hlast
  have hlt := id.position_lt
  omega

end Enter

/-- Entering a word counts on the names of the nodes. They are new, and the word leads to the last
of them, as long as the arena holds no more than 2^32 nodes afterwards, and no longer. -/
theorem Reachable.names_fresh_iff {P : Type} [Inhabited P] {t : Tree σ P} (ht : t.Reachable)
    {w : Word σ} {d : Descent σ P} (hd : t.enter w = .ok d) :
    d.created = (List.range' t.size d.created.length).map NodeId.ofPosition ∧
    d.tree.size = t.size + d.created.length ∧
    (t.NamesFresh w d ↔ d.created = [] ∨ d.tree.size ≤ UInt32.size) := by
  obtain ⟨hnames, hsize⟩ := created_enter hd
  refine ⟨hnames, hsize, ?_, ?_⟩
  · intro h
    by_cases hnew : d.created = []
    · exact Or.inl hnew
    · exact Or.inr (h.size_le hd hnew)
  · intro h
    rcases h with hnil | hroom
    · exact namesFresh_of_created_eq_nil hd hnil
    · exact (ht.wellFormed (Nat.le_trans (size_le_enter hd) hroom)).namesFresh hd hroom

theorem Reachable.names_fresh_iff_of_letters :
    let t : Tree Nat Unit := new (.ofList [1]) {}
    t.Reachable ∧ ∃ d, t.enter [1, 1] = .ok d ∧ d.tree.size ≤ UInt32.size ∧
      t.NamesFresh [1, 1] d := by
  intro t
  have ht : t.Reachable := .writeOnce (.ofList [1]) {} []
  cases hd : t.enter [1, 1] with
  | error s =>
    rw [enter_eq_error_iff] at hd
    simp [t, new, Alphabet.toList_ofList] at hd
  | ok d =>
    have hroom : d.tree.size ≤ UInt32.size := Nat.le_trans (size_enter_le hd) (by decide)
    exact ⟨ht, d, rfl, hroom, (ht.names_fresh_iff hd).2.2.2 (Or.inr hroom)⟩

section Fresh
variable [Inhabited P] {a : Alphabet σ} {settings : Settings} {w : Word σ} {d : Descent σ P}
  (hd : (new a settings).enter w = .ok d)
include hd

theorem leaf_of_enter_new (hroom : d.tree.size ≤ UInt32.size) :
    d.created.length = w.length ∧ ∀ j, d.tree.child? d.node j = none := by
  obtain ⟨path, hpath, rfl⟩ := descend_of_enter hd
  have hroot : NodeId.root.position < (new a settings : Tree σ P).size := by
    rw [size_new]
    exact Nat.one_pos
  obtain ⟨hlength, _, hbottom⟩ := descend_leaf hroot (child?_new a settings .root) hroom
  exact ⟨hlength.trans (Alphabet.length_indices hpath), hbottom⟩

/-- A word of 2^32 symbols that is entered into a fresh tree leads back to the root. -/
theorem enter_new_of_length_eq (hw : w.length = UInt32.size) :
    d.created.getLast? = some .root ∧ d.node = .root ∧ d.tree.verdictAt .root = .unknown := by
  rcases List.eq_nil_or_concat' w with rfl | ⟨v, s, rfl⟩
  · cases hw
  obtain ⟨upper, i, hupper, _, rfl⟩ := enter_concat hd
  rw [List.length_append, List.length_singleton] at hw
  have hsize := (created_enter hupper).2
  have hroom : upper.tree.size ≤ UInt32.size := by
    have hle := size_enter_le hupper
    rw [size_new] at hle
    omega
  have hentered := (wellFormed_new a settings).enter hupper hroom
  obtain ⟨hlength, hleaf⟩ := leaf_of_enter_new hupper hroom
  obtain ⟨htree, hnode, hcreated⟩ := descend_of_gap (hleaf i) []
  -- the arena is full, and the name that comes next is the first one
  have hnext : upper.tree.nextId = .root := by
    rw [hlength, size_new, Nat.add_comm, hw] at hsize
    rw [nextId, hsize]
    rfl
  refine ⟨?_, ?_, ?_⟩
  · rw [Descent.created, List.filterMap_append]
    change (upper.created ++ (upper.tree.descend upper.node [i]).created).getLast? = _
    rw [hcreated, hnext]
    exact List.getLast?_concat
  · exact hnode.trans hnext
  · change (upper.tree.descend upper.node [i]).tree.verdictAt .root = _
    rw [htree, descend, verdictAt_grow i (hentered.wellFormed.nodeOf?_lt hentered.reached),
      hentered.extension.verdictAt_eq, verdictAt_new]

end Fresh

/-- One letter, 2^32 times: the last of the new nodes is named as the root, which was there before,
and the verdict on the long word becomes one on the empty word. -/
theorem names_wrap_around :
    let c : WriteOnce Nat := .new (.ofList [0]) {}
    let w : Word Nat := List.replicate UInt32.size 0
    c.tree.Reachable ∧ ∃ d, c.tree.enter w = .ok d ∧
      d.created.getLast? = some .root ∧ (c.tree.node? .root).isSome ∧ ¬c.tree.NamesFresh w d ∧
      c.tree.lookup [] = (false, none) ∧
      (c.insert w true).state.tree.lookup [] = (true, some true) := by
  intro c w
  have hreachable : c.tree.Reachable := .writeOnce (.ofList [0]) {} []
  have hlength : w.length = UInt32.size := List.length_replicate
  cases hd : c.tree.enter w with
  | error s =>
    rw [Tree.enter_eq_error_iff] at hd
    have hforeign : s ∉ c.tree.alphabet.toList := by simpa using List.find?_some hd
    change s ∉ (Alphabet.ofList [0]).toList at hforeign
    rw [Alphabet.toList_ofList, List.eq_of_mem_replicate (List.mem_of_find?_eq_some hd)] at hforeign
    exact absurd (by decide) hforeign
  | ok d =>
    obtain ⟨hlast, hnode, hunknown⟩ := enter_new_of_length_eq hd hlength
    refine ⟨hreachable, d, rfl, hlast, rfl, ?_, rfl, ?_⟩
    · intro h
      have hroot := h.fresh .root (List.mem_of_getLast? hlast)
      cases hroot
    · have hstate : (c.insert w true).state.tree = d.tree.write .root (.ofBool true) () := by
        rw [WriteOnce.insert, hd]
        simp only [hnode, hunknown, if_true]
        rfl
      have hroot : NodeId.root.position < d.tree.size :=
        Nat.lt_of_lt_of_le Nat.one_pos (size_le_enter hd)
      have hcommitted : (c.insert w true).state.tree.committed? [] = some true := by
        rw [hstate]
        change ((d.tree.write .root (.ofBool true) ()).verdictAt .root).committed? = some true
        rw [verdictAt_write hroot, if_pos rfl]
        rfl
      rw [lookup, hcommitted]
      rfl

end Tree
end MembershipCache
