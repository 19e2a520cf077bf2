import Mathlib.Data.List.Induction
import Mathlib.Data.List.Nodup
import Mathlib.Data.List.Perm.Subperm
import MembershipCache.Recency

/-! The chain of entries is a list of nodes with their words. Refreshing moves a node to the end of
that list, removing takes it out, and both leave the others in their order. -/
namespace MembershipCache
universe u

namespace Recency
variable {σ : Type u}

def ids (l : List (NodeId × Word σ)) : List NodeId := l.map (·.1)

@[simp] theorem ids_nil : ids ([] : List (NodeId × Word σ)) = [] := rfl

@[simp] theorem ids_cons (e : NodeId × Word σ) (l : List (NodeId × Word σ)) :
    ids (e :: l) = e.1 :: ids l := rfl

@[simp] theorem ids_append (l l' : List (NodeId × Word σ)) : ids (l ++ l') = ids l ++ ids l' :=
  List.map_append

theorem ids_filter (p : NodeId → Bool) (l : List (NodeId × Word σ)) :
    ids (l.filter fun e => p e.1) = (ids l).filter p := by
  rw [ids, ids, List.filter_map]
  rfl

theorem filter_ne_eq_self {l : List (NodeId × Word σ)} {id : NodeId} (h : id ∉ ids l) :
    l.filter (·.1 ≠ id) = l := by
  rw [List.filter_eq_self]
  intro e he
  have hne : e.1 ≠ id := by
    intro heq
    subst heq
    exact h (List.mem_map_of_mem he)
  simpa using hne

section Middle
variable {older newer : List (NodeId × Word σ)} {id : NodeId} {w : Word σ}

theorem mem_ids_middle {j : NodeId} :
    j ∈ ids (older ++ (id, w) :: newer) ↔ j = id ∨ j ∈ ids (older ++ newer) := by
  simp [or_left_comm]

theorem nodup_ids_middle : (ids (older ++ (id, w) :: newer)).Nodup ↔
    id ∉ ids (older ++ newer) ∧ (ids (older ++ newer)).Nodup := by
  rw [ids_append, ids_cons, List.nodup_middle, List.nodup_cons, ids_append]

end Middle

theorem exists_split {l : List (NodeId × Word σ)} (hnodup : (ids l).Nodup) {id : NodeId}
    (h : id ∈ ids l) : ∃ older w newer, l = older ++ (id, w) :: newer ∧
      l.filter (·.1 ≠ id) = older ++ newer := by
  obtain ⟨⟨id, w⟩, hw, rfl⟩ := List.mem_map.1 h
  obtain ⟨older, newer, rfl⟩ := List.append_of_mem hw
  have hrest := filter_ne_eq_self (nodup_ids_middle.1 hnodup).1
  refine ⟨older, w, newer, rfl, ?_⟩
  rw [List.filter_append] at hrest ⊢
  rw [List.filter_cons_of_neg (by simp), hrest]

/-- The entries of a list stand in its order between two neighbours. -/
def Linked (m : NodeId → Option (Entry σ)) :
    Option NodeId → List (NodeId × Word σ) → Option NodeId → Prop
  | _, [], _ => True
  | older?, (id, w) :: l, newer? =>
    m id = some ⟨w, older?, (ids l).head?.or newer?⟩ ∧ Linked m (some id) l newer?

section Linked
variable {m m' : NodeId → Option (Entry σ)} {older? newer? : Option NodeId}
  {l l' : List (NodeId × Word σ)}

theorem linked_append : Linked m older? (l ++ l') newer? ↔
    Linked m older? l ((ids l').head?.or newer?) ∧
      Linked m ((ids l).getLast?.or older?) l' newer? := by
  induction l generalizing older? with
  | nil => simp [Linked]
  | cons e l ih =>
    have hlast : (ids (e :: l)).getLast?.or older? = (ids l).getLast?.or (some e.1) := by
      cases h : (ids l).getLast? <;> simp [List.getLast?_cons, h]
    rw [hlast, List.cons_append, Linked, Linked, ih, ids_append, List.head?_append, Option.or_assoc,
      and_assoc]

theorem linked_congr (h : ∀ id ∈ ids l, m' id = m id)
    (hl : Linked m older? l newer?) : Linked m' older? l newer? := by
  induction l generalizing older? with
  | nil => trivial
  | cons e l ih =>
    obtain ⟨he, hl⟩ := hl
    refine ⟨?_, ih (fun id hid => h id (by simp [hid])) hl⟩
    rw [h e.1 (by simp)]
    exact he

theorem linked_relinkOlder {previous? : Option NodeId} (hnodup : (ids l).Nodup)
    (h : ∀ id ∈ ids l, m' id =
      if (ids l).head? = some id then (m id).map ({ · with older? := previous? })
      else m id)
    (hl : Linked m older? l newer?) : Linked m' previous? l newer? := by
  cases l with
  | nil => trivial
  | cons e l =>
    obtain ⟨he, hl⟩ := hl
    refine ⟨?_, linked_congr (fun id hid => ?_) hl⟩
    · rw [h e.1 (by simp), he]
      simp
    · have hne : e.1 ≠ id := by
        intro heq
        subst heq
        exact (List.nodup_cons.1 hnodup).1 hid
      rw [h id (by simp [hid]), ids_cons, List.head?_cons, if_neg (by simpa using hne)]

theorem linked_relinkNewer {next? : Option NodeId} (hnodup : (ids l).Nodup)
    (h : ∀ id ∈ ids l, m' id =
      if (ids l).getLast? = some id then (m id).map ({ · with newer? := next? })
      else m id)
    (hl : Linked m older? l newer?) : Linked m' older? l next? := by
  cases l using List.reverseRecOn with
  | nil => trivial
  | append_singleton l e =>
    rw [linked_append] at hl ⊢
    obtain ⟨hl, he, _⟩ := hl
    have hlast : (ids (l ++ [e])).getLast? = some e.1 := by simp
    refine ⟨linked_congr (fun id hid => ?_) hl, ?_, trivial⟩
    · have hne : e.1 ≠ id := by
        intro heq
        subst heq
        rw [ids_append, List.nodup_append] at hnodup
        exact hnodup.2.2 e.1 hid e.1 (by simp) rfl
      rw [h id (by simp [hid]), hlast, if_neg (by simpa using hne)]
    · rw [h e.1 (by simp), hlast, if_pos rfl, he]
      simp

end Linked

section Ends
variable {l : List NodeId} {g : NodeId → Option (Entry σ)} (h : ∀ id ∈ l, (g id).isSome)
include h

theorem isSome_getLast?_bind : (l.getLast?.bind g).isSome = !l.isEmpty := by
  cases hl : l.getLast? with
  | none => simp [List.getLast?_eq_none_iff.1 hl]
  | some id =>
    have hid := List.mem_of_getLast? hl
    simp [h id hid, List.ne_nil_of_mem hid]

theorem isSome_head?_bind : (l.head?.bind g).isSome = !l.isEmpty := by
  cases l with
  | nil => rfl
  | cons id l => simp [h id]

end Ends

section Links
variable (r : Recency σ) (id? other? : Option NodeId)

theorem getElem?_linkNewer (j : NodeId) : (r.linkNewer id? other?).entries[j]? =
    if id? = some j then r.entries[j]?.map ({ · with newer? := other? }) else r.entries[j]? := by
  cases id? with
  | none => simp [linkNewer]
  | some id =>
    by_cases hj : id = j
    · subst hj
      cases he : r.entries[id]? <;> simp [linkNewer, he]
    · cases he : r.entries[id]? <;> simp [linkNewer, he, hj, Std.HashMap.getElem?_insert]

theorem getElem?_linkOlder (j : NodeId) : (r.linkOlder id? other?).entries[j]? =
    if id? = some j then r.entries[j]?.map ({ · with older? := other? }) else r.entries[j]? := by
  cases id? with
  | none => simp [linkOlder]
  | some id =>
    by_cases hj : id = j
    · subst hj
      cases he : r.entries[id]? <;> simp [linkOlder, he]
    · cases he : r.entries[id]? <;> simp [linkOlder, he, hj, Std.HashMap.getElem?_insert]

@[simp] theorem newest?_linkNewer : (r.linkNewer id? other?).newest? = r.newest? := by
  unfold linkNewer
  split <;> rfl

@[simp] theorem oldest?_linkOlder : (r.linkOlder id? other?).oldest? = r.oldest? := by
  unfold linkOlder
  split <;> rfl

theorem oldest?_linkNewer : (r.linkNewer id? other?).oldest? =
    if (id?.bind (r.entries[·]?)).isSome then r.oldest? else other? := by
  cases id? with
  | none => rfl
  | some id => cases he : r.entries[id]? <;> simp [linkNewer, he]

theorem newest?_linkOlder : (r.linkOlder id? other?).newest? =
    if (id?.bind (r.entries[·]?)).isSome then r.newest? else other? := by
  cases id? with
  | none => rfl
  | some id => cases he : r.entries[id]? <;> simp [linkOlder, he]

end Links

/-- The chain is this list, oldest first, and nothing has an entry outside it. -/
structure Represents (r : Recency σ) (l : List (NodeId × Word σ)) : Prop where
  linked : Linked (r.entries[·]?) none l none
  nodup : (ids l).Nodup
  mem_iff : ∀ id, id ∈ r.entries ↔ id ∈ ids l
  oldest?_eq : r.oldest? = (ids l).head?
  newest?_eq : r.newest? = (ids l).getLast?

theorem represents_empty : Represents (empty : Recency σ) [] := by
  refine ⟨trivial, List.nodup_nil, ?_, rfl, rfl⟩
  intro id
  simp [empty]

section Remove
variable {r : Recency σ} {id : NodeId} {e : Entry σ} (he : r.entries[id]? = some e)
include he

theorem getElem?_remove (j : NodeId) : (r.remove id).1.entries[j]? =
    if id = j then none
    else
      let before? := if e.older? = some j then r.entries[j]?.map ({ · with newer? := e.newer? })
        else r.entries[j]?
      if e.newer? = some j then before?.map ({ · with older? := e.older? }) else before? := by
  rw [remove, he]
  simp only [getElem?_linkOlder, getElem?_linkNewer, Std.HashMap.getElem?_erase, beq_iff_eq]
  by_cases hj : id = j
  · simp [hj]
  · simp [hj]

theorem mem_remove (j : NodeId) : j ∈ (r.remove id).1.entries ↔ id ≠ j ∧ j ∈ r.entries := by
  rw [← Std.HashMap.isSome_getElem?_iff_mem, ← Std.HashMap.isSome_getElem?_iff_mem,
    getElem?_remove he]
  simp only
  split_ifs <;> simp [*]

theorem oldest?_remove : (r.remove id).1.oldest? =
    if (e.older?.bind fun a => (r.entries.erase id)[a]?).isSome then r.oldest? else e.newer? := by
  rw [remove, he]
  simp only [oldest?_linkOlder, oldest?_linkNewer]

theorem newest?_remove : (r.remove id).1.newest? =
    if (e.newer?.bind fun a => (r.entries.erase id)[a]?).isSome then r.newest? else e.older? := by
  rw [remove, he]
  simp only [newest?_linkOlder, newest?_linkNewer]
  cases hn : e.newer? with
  | none => rfl
  | some a =>
    simp only [Option.bind_some, getElem?_linkNewer]
    split_ifs <;> simp_all

end Remove

/-- Taking an entry out joins what stands before it to what stands behind it. -/
theorem represents_remove_middle {r : Recency σ} {older newer : List (NodeId × Word σ)}
    {id : NodeId} {w : Word σ} (h : Represents r (older ++ (id, w) :: newer)) :
    Represents (r.remove id).1 (older ++ newer) ∧ (r.remove id).2 = some w := by
  obtain ⟨hlinked, hnodup, hmem, holdest, hnewest⟩ := h
  obtain ⟨hbefore, he, hbehind⟩ := linked_append.1 hlinked
  simp only [Option.or_none] at he
  obtain ⟨hid, hrest⟩ := nodup_ids_middle.1 hnodup
  have hne : ∀ j ∈ ids (older ++ newer), id ≠ j := fun j hj heq => hid (heq ▸ hj)
  have hkept : ∀ j ∈ ids (older ++ newer), ((r.entries.erase id)[j]?).isSome := by
    intro j hj
    rw [Std.HashMap.isSome_getElem?_iff_mem, Std.HashMap.mem_erase, beq_eq_false_iff_ne, hmem]
    exact ⟨hne j hj, mem_ids_middle.2 (Or.inr hj)⟩
  have hget := getElem?_remove he
  obtain ⟨hnolder, hnnewer, hapart⟩ := List.nodup_append.1 (ids_append older newer ▸ hrest)
  -- only the neighbours on both sides are linked anew, each in one direction
  refine ⟨⟨linked_append.2 ⟨?_, ?_⟩, hrest, ?_, ?_, ?_⟩, by rw [remove, he]⟩
  · refine linked_relinkNewer hnolder (fun j hj => ?_) hbefore
    have hhead : (ids newer).head? ≠ some j := fun hh =>
      hapart j hj j (List.mem_of_head? hh) rfl
    simp only [hget, if_neg (hne j (by simp [hj])), if_neg hhead, Option.or_none]
  · refine linked_relinkOlder hnnewer (fun j hj => ?_) hbehind
    have hlast : (ids older).getLast? ≠ some j := fun hl =>
      hapart j (List.mem_of_getLast? hl) j hj rfl
    simp only [hget, if_neg (hne j (by simp [hj])), if_neg hlast, Option.or_none]
  · intro j
    rw [mem_remove he, hmem, mem_ids_middle]
    constructor
    · intro h
      exact h.2.resolve_left (Ne.symm h.1)
    · intro hj
      exact ⟨hne j hj, Or.inr hj⟩
  · rw [oldest?_remove he, holdest, isSome_getLast?_bind fun j hj => hkept j (by simp [hj])]
    cases older <;> simp
  · rw [newest?_remove he, hnewest, isSome_head?_bind fun j hj => hkept j (by simp [hj])]
    cases newer <;> simp [List.getLast?_cons]

theorem Represents.isSome_getElem? {r : Recency σ} {l : List (NodeId × Word σ)}
    (h : Represents r l) {id : NodeId} (hid : id ∈ ids l) : (r.entries[id]?).isSome := by
  rw [Std.HashMap.isSome_getElem?_iff_mem, h.mem_iff]
  exact hid

theorem Represents.remove_of_notMem {r : Recency σ} {l : List (NodeId × Word σ)}
    (h : Represents r l) {id : NodeId} (hid : id ∉ ids l) : r.remove id = (r, none) := by
  have hnone : r.entries[id]? = none := by
    rw [← h.mem_iff] at hid
    exact Std.HashMap.getElem?_eq_none hid
  rw [Recency.remove, hnone]

theorem represents_concat {r : Recency σ} {l : List (NodeId × Word σ)} (h : Represents r l)
    {id : NodeId} (hid : id ∉ ids l) (w : Word σ) :
    let linked := r.linkNewer r.newest? (some id)
    Represents { linked with
      entries := linked.entries.insert id ⟨w, r.newest?, none⟩, newest? := some id }
      (l ++ [(id, w)]) := by
  intro linked
  have hget : ∀ j, (linked.entries.insert id ⟨w, r.newest?, none⟩)[j]? =
      if id = j then some ⟨w, r.newest?, none⟩
      else if (ids l).getLast? = some j then
        (r.entries[j]?).map ({ · with newer? := some id })
      else r.entries[j]? := by
    intro j
    rw [Std.HashMap.getElem?_insert, getElem?_linkNewer, h.newest?_eq]
    simp
  refine ⟨linked_append.2 ⟨?_, ?_, trivial⟩, ?_, ?_, ?_, by simp⟩
  · refine linked_relinkNewer h.nodup (fun j hj => ?_) h.linked
    have hne : id ≠ j := by
      intro heq
      subst heq
      exact hid hj
    simp only [hget, if_neg hne]
    simp
  · simp [h.newest?_eq]
  · rw [ids_append, List.nodup_append]
    refine ⟨h.nodup, by simp, ?_⟩
    intro a ha b hb heq
    subst heq
    simp only [ids_cons, ids_nil, List.mem_singleton] at hb
    exact hid (hb ▸ ha)
  · intro j
    rw [← Std.HashMap.isSome_getElem?_iff_mem, hget]
    have hmem := h.mem_iff j
    rw [← Std.HashMap.isSome_getElem?_iff_mem] at hmem
    by_cases hj : id = j
    · simp [hj]
    · rw [if_neg hj, ids_append, List.mem_append, ← hmem]
      split_ifs <;> simp [Ne.symm hj]
  · simp only [linked, oldest?_linkNewer]
    rw [h.newest?_eq, h.oldest?_eq, isSome_getLast?_bind fun _ => h.isSome_getElem?]
    cases l <;> simp

namespace Represents
variable {r : Recency σ} {l : List (NodeId × Word σ)} (h : Represents r l)
include h

theorem remove (id : NodeId) :
    Represents (r.remove id).1 (l.filter (·.1 ≠ id)) ∧
      (l.filter (·.1 ≠ id)).length + (if (r.remove id).2.isSome then 1 else 0) = l.length := by
  by_cases hid : id ∈ ids l
  · obtain ⟨older, w, newer, rfl, hfilter⟩ := exists_split h.nodup hid
    obtain ⟨hrest, hword⟩ := represents_remove_middle h
    rw [hfilter, hword]
    exact ⟨hrest, by simp [Nat.add_assoc]⟩
  · rw [h.remove_of_notMem hid, filter_ne_eq_self hid]
    exact ⟨h, by simp⟩

theorem touch (id : NodeId) (w : Word σ) :
    Represents (r.touch id w) (l.filter (·.1 ≠ id) ++ [(id, w)]) := by
  refine represents_concat (h.remove id).1 ?_ w
  rw [ids_filter (fun i => decide (i ≠ id)), List.mem_filter]
  simp

theorem removeAll (gone : List NodeId) :
    Represents (r.removeAll gone).1 (l.filter (·.1 ∉ gone)) ∧
      (r.removeAll gone).2 + (l.filter (·.1 ∉ gone)).length = l.length := by
  induction gone generalizing r l with
  | nil =>
    have hall : l.filter (·.1 ∉ []) = l := by simp
    rw [hall]
    exact ⟨h, Nat.zero_add _⟩
  | cons id gone ih =>
    obtain ⟨hrest, hfound⟩ := h.remove id
    obtain ⟨hgone, hcount⟩ := ih hrest
    have hfilter : (l.filter (·.1 ≠ id)).filter (·.1 ∉ gone) = l.filter (·.1 ∉ id :: gone) := by
      rw [List.filter_filter]
      congr 1
      funext e
      simp [Bool.and_comm]
    rw [hfilter] at hgone hcount
    refine ⟨hgone, ?_⟩
    rw [Recency.removeAll]
    simp only
    split_ifs at hfound ⊢ <;> omega

theorem size_eq : r.size = l.length := by
  have hperm : r.entries.keys.Perm (ids l) := by
    rw [List.perm_ext_iff_of_nodup (Std.HashMap.nodup_keys) h.nodup]
    intro id
    rw [Std.HashMap.mem_keys, h.mem_iff]
  rw [size, ← Std.HashMap.length_keys, hperm.length_eq, ids, List.length_map]

theorem toList_eq : r.toList = l := by
  have hchain : ∀ {l' : List (NodeId × Word σ)} {older? : Option NodeId} {steps : Nat},
      l'.length ≤ steps → Linked (r.entries[·]?) older? l' none →
        r.chain steps (ids l').head? = l' := by
    intro l'
    induction l' with
    | nil =>
      intro older? steps _ _
      cases steps <;> rfl
    | cons e l' ih =>
      intro older? steps hsteps hl
      obtain ⟨he, hl⟩ := hl
      cases steps with
      | zero => simp at hsteps
      | succ steps =>
        rw [ids_cons, List.head?_cons, chain]
        simp only [he, Option.or_none]
        rw [ih (by simpa using hsteps) hl]
  rw [toList, h.size_eq, h.oldest?_eq]
  exact hchain (Nat.le_refl _) h.linked

theorem oldestWord?_eq : r.oldestWord? = l.head?.map (·.2) := by
  rw [oldestWord?, h.oldest?_eq]
  cases l with
  | nil => rfl
  | cons e l =>
    have he := h.linked.1
    simp [wordOf?, he]

end Represents

end Recency
end MembershipCache
