import Defing.Core.Patch
import Defing.Core.Project

/-!
# Maps of groups, item by item

What the edits of a two-level map do to its items, and which of them leave a
group without any.
-/

namespace Defing

open Std (ExtTreeMap)

variable {β : Type} {m : StrMap (StrMap β)} {g k g' k' : String}

def Full (m : StrMap (StrMap β)) : Prop := ∀ g, m[g]? ≠ none → ∃ k, item? m g k ≠ none

def HasItem (m : StrMap (StrMap β)) : Prop := ∃ g k, item? m g k ≠ none

theorem item?_empty : item? (∅ : StrMap (StrMap β)) g k = none := by
  rw [item?, ExtTreeMap.getElem?_empty]
  rfl

/-- A map has an item if one of its groups has, and so each of them in a full map. -/
theorem Full.ne_empty_iff (h : Full m) : m ≠ ∅ ↔ HasItem m := by
  constructor
  · intro hm
    obtain ⟨g, hg⟩ : ∃ g : String, m[g]? ≠ none := by
      by_contra hn
      refine hm (ExtTreeMap.ext_getElem? fun g => ?_)
      rw [not_not.mp (not_exists.mp hn g), ExtTreeMap.getElem?_empty]
    obtain ⟨k, hk⟩ := h g hg
    exact ⟨g, k, hk⟩
  · rintro ⟨g, k, hk⟩ rfl
    exact hk item?_empty

theorem full_empty : Full (∅ : StrMap (StrMap β)) := fun _ h => absurd ExtTreeMap.getElem?_empty h

/-! ## Items set and removed -/

theorem item?_removeItem (m : StrMap (StrMap β)) (group key g k : String) :
    item? (removeItem m group key) g k = if group = g ∧ key = k then none else item? m g k := by
  unfold removeItem
  cases h : m[group]? with
  | none =>
    by_cases e : group = g
    · subst e
      simp [item?, h]
    · simp [e]
  | some items =>
    rw [item?, KV.getElem?_insert]
    by_cases e : group = g
    · subst e
      simp [item?, h, KV.getElem?_erase]
    · simp [e, item?]

theorem group_removeItem (m : StrMap (StrMap β)) (group key g : String) :
    (removeItem m group key)[g]? ≠ none ↔ m[g]? ≠ none := by
  unfold removeItem
  cases h : m[group]? with
  | none => rfl
  | some items =>
    rw [KV.getElem?_insert]
    by_cases e : group = g
    · subst e
      simp [h]
    · rw [if_neg e]

theorem group_setItem (m : StrMap (StrMap β)) (group key : String) (v : β) (g : String) :
    (setItem m group key v)[g]? ≠ none ↔ group = g ∨ m[g]? ≠ none := by
  rw [setItem, KV.getElem?_insert]
  by_cases e : group = g
  · simp [e]
  · simp [e]

section
variable {α : Type} (f : α → String × String)

theorem item?_foldl_removeItem (l : List α) (m : StrMap (StrMap β)) :
    item? (l.foldl (fun m a => removeItem m (f a).1 (f a).2) m) g k =
      if (g, k) ∈ l.map f then none else item? m g k := by
  induction l generalizing m with
  | nil => simp
  | cons a l ih =>
    rw [List.foldl_cons, ih, item?_removeItem]
    simp only [List.map_cons, List.mem_cons]
    by_cases e : (f a).1 = g ∧ (f a).2 = k
    · have : (g, k) = f a := by rw [← e.1, ← e.2]
      rw [if_pos e, ite_self, if_pos (Or.inl this)]
    · have : (g, k) ≠ f a := fun h => e ⟨by rw [← h], by rw [← h]⟩
      simp [this, e]

theorem group_foldl_removeItem (l : List α) (m : StrMap (StrMap β)) :
    (l.foldl (fun m a => removeItem m (f a).1 (f a).2) m)[g]? ≠ none ↔ m[g]? ≠ none := by
  induction l generalizing m with
  | nil => rfl
  | cons a l ih => rw [List.foldl_cons, ih, group_removeItem]

variable (v : α → β)

theorem group_foldl_setItem (l : List α) (m : StrMap (StrMap β)) :
    (l.foldl (fun m a => setItem m (f a).1 (f a).2 (v a)) m)[g]? ≠ none ↔
      (∃ a ∈ l, (f a).1 = g) ∨ m[g]? ≠ none := by
  induction l generalizing m with
  | nil => simp
  | cons a l ih =>
    rw [List.foldl_cons, ih, group_setItem, ← or_assoc]
    simp only [List.exists_mem_cons_iff, or_comm]

theorem item_foldl_setItem (l : List α) (m : StrMap (StrMap β)) :
    item? (l.foldl (fun m a => setItem m (f a).1 (f a).2 (v a)) m) g k ≠ none ↔
      (∃ a ∈ l, f a = (g, k)) ∨ item? m g k ≠ none := by
  induction l generalizing m with
  | nil => simp
  | cons a l ih =>
    rw [List.foldl_cons, ih, item?_setItem]
    by_cases e : (f a).1 = g ∧ (f a).2 = k
    · have : f a = (g, k) := by rw [← e.1, ← e.2]
      simp [this]
    · have : f a ≠ (g, k) := fun h => e ⟨by rw [h], by rw [h]⟩
      simp [this, e]

/-- An item that is there after some are set is one of them, or was there before. -/
theorem of_item?_foldl_setItem {l : List α} {m : StrMap (StrMap β)} {w : β}
    (h : item? (l.foldl (fun m a => setItem m (f a).1 (f a).2 (v a)) m) g k = some w) :
    (∃ a ∈ l, f a = (g, k) ∧ v a = w) ∨ item? m g k = some w := by
  induction l generalizing m with
  | nil => exact .inr h
  | cons a l ih =>
    rw [List.foldl_cons] at h
    rcases ih h with ⟨a', ha', h'⟩ | h'
    · exact .inl ⟨a', List.mem_cons_of_mem _ ha', h'⟩
    · rw [item?_setItem] at h'
      split at h'
      · rename_i e
        exact .inl ⟨a, List.mem_cons_self, by rw [← e.1, ← e.2], Option.some.inj h'⟩
      · exact .inr h'

end

/-! ## Groups treated one by one -/

section
variable {α : Type} (F : String → StrMap α → StrMap β) (m : StrMap (StrMap α))

/-- The groups of a map, each treated by itself; those left without items go. -/
def mapGroups : StrMap (StrMap β) := m.filterMap fun g items => if (F g items).isEmpty then none else some (F g items)

theorem item?_mapGroups : item? (mapGroups F m) g k = (m[g]?).bind fun items => (F g items)[k]? := by
  rw [item?, mapGroups, ExtTreeMap.getElem?_filterMap']
  cases m[g]? with
  | none => rfl
  | some items =>
    rw [Option.bind_some, Option.bind_some]
    by_cases h : (F g items).isEmpty
    · rw [if_pos h, ExtTreeMap.isEmpty_iff.mp h, ExtTreeMap.getElem?_empty]
      rfl
    · rw [if_neg h]
      rfl

theorem full_mapGroups : Full (mapGroups F m) := by
  intro g hg
  rw [mapGroups, ExtTreeMap.getElem?_filterMap'] at hg
  cases hm : m[g]? with
  | none => rw [hm] at hg; exact absurd rfl hg
  | some items =>
    rw [hm, Option.bind_some] at hg
    have hne : ¬ (F g items).isEmpty := fun h => hg (if_pos h)
    by_contra hn
    refine hne (ExtTreeMap.isEmpty_iff.mpr (ExtTreeMap.ext_getElem? fun k => ?_))
    have := not_not.mp (not_exists.mp hn k)
    rwa [item?_mapGroups, hm, Option.bind_some] at this

end

theorem item?_retainItems (keep : String → String → Bool) (m : StrMap (StrMap β)) :
    item? (retainItems keep m) g k = if keep g k then item? m g k else none := by
  refine (item?_mapGroups (fun g items => items.filter fun k _ => keep g k) m).trans ?_
  rw [item?]
  cases m[g]? with
  | none => simp
  | some items =>
    simp only [Option.bind_some, ExtTreeMap.getElem?_filter']
    by_cases h : keep g k
    · cases hk : items[k]? <;> simp [h]
    · cases hk : items[k]? <;> simp [h]

theorem full_retainItems (keep : String → String → Bool) (m : StrMap (StrMap β)) : Full (retainItems keep m) :=
  full_mapGroups (fun g items => items.filter fun k _ => keep g k) m

/-! ## Drafts -/

def known (struct : Structure) (g k : String) : Bool := struct.allItems.any fun e => e.1 = g ∧ e.2.key = k

def sharedIn (struct : Structure) (g k : String) : Bool :=
  struct.allItems.any fun e => e.1 = g ∧ e.2.key = k ∧ e.2.shared

theorem item?_pruneDraft (struct : Structure) (draft : ValueDraft) :
    item? (pruneDraft struct draft) g k =
      if sharedIn struct g k then none else if known struct g k then item? draft g k else none := by
  have hmem : (g, k) ∈ (struct.allItems.filter fun e => e.2.shared).map (fun e => (e.1, e.2.key)) ↔
      sharedIn struct g k := by
    simp only [List.mem_map, List.mem_filter, Prod.mk.injEq, sharedIn, List.any_eq_true, decide_eq_true_eq]
    exact ⟨fun ⟨e, ⟨he, hs⟩, hg, hk⟩ => ⟨e, he, hg, hk, hs⟩, fun ⟨e, he, hg, hk, hs⟩ => ⟨e, ⟨he, hs⟩, hg, hk⟩⟩
  refine (item?_foldl_removeItem (fun e : String × ItemDef => (e.1, e.2.key)) _ _).trans ?_
  by_cases h : sharedIn struct g k
  · rw [if_pos (hmem.mpr h), if_pos h]
  · rw [if_neg (mt hmem.mp h), if_neg h, item?_retainItems]
    rfl

theorem group_pruneDraft {struct : Structure} {draft : ValueDraft} (h : (pruneDraft struct draft)[g]? ≠ none) :
    ∃ k, known struct g k ∧ item? draft g k ≠ none := by
  have hg := (group_foldl_removeItem (fun e : String × ItemDef => (e.1, e.2.key)) _ _).mp h
  obtain ⟨k, hk⟩ := full_retainItems _ _ g hg
  rw [item?_retainItems] at hk
  change (if known struct g k then item? draft g k else none) ≠ none at hk
  by_cases hn : known struct g k
  · exact ⟨k, hn, by rwa [if_pos hn] at hk⟩
  · exact absurd (if_neg hn) hk

theorem full_draftOf (struct : Structure) (now : Int) (snap : SnapshotMap) : Full (draftOf struct now snap) :=
  full_mapGroups (fun g items => (items.filter fun k _ => (item? (sharedItems struct) g k).isNone).map
    fun _ value => ({ value, updatedAt := now } : DraftValue)) snap

end Defing
