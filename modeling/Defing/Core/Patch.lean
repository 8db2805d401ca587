import Defing.Core.Diff

/-!
# Diffs lead from one snapshot to the other

`applyDiff old (computeDiff old new)` has the items of `new`. A group without
items is not seen by a diff, so snapshots are compared without such groups.
-/

namespace Defing

open Std (ExtTreeMap)

variable {snap old new : SnapshotMap} {g k : String} {e : DiffEntry}

/-! ## Groups without items -/

/-- A snapshot without its groups that have no items. -/
def dropEmpty (snap : SnapshotMap) : SnapshotMap := snap.filter fun _ items => !items.isEmpty

theorem getElem?_dropEmpty (snap : SnapshotMap) (g : String) :
    (dropEmpty snap)[g]? = (snap[g]?).filter fun items => !items.isEmpty := by
  rw [dropEmpty, ExtTreeMap.getElem?_filter']

theorem item?_dropEmpty (snap : SnapshotMap) (g k : String) : item? (dropEmpty snap) g k = item? snap g k := by
  rw [item?, getElem?_dropEmpty, item?]
  rcases snap[g]? with _ | items
  · rfl
  · by_cases h : items.isEmpty
    · rw [ExtTreeMap.isEmpty_iff] at h
      subst h
      simp
    · rw [Option.filter_some, if_pos (by simpa using h)]

/-- Two snapshots agree up to groups without items if they have the same items. -/
theorem dropEmpty_eq_iff : dropEmpty old = dropEmpty new ↔ ∀ g k, item? old g k = item? new g k := by
  constructor
  · intro h g k
    rw [← item?_dropEmpty, h, item?_dropEmpty]
  · intro h
    have hg : ∀ (a b : SnapshotMap), (∀ g k, item? a g k = item? b g k) → ∀ (g : String) items,
        a[g]? = some items → items.isEmpty = false → b[g]? = some items := by
      intro a b h g items hi he
      obtain ⟨k, hk⟩ : ∃ k : String, items[k]? ≠ none := by
        by_contra hn
        have : items = ∅ := ExtTreeMap.ext_getElem? fun k => by
          rw [not_not.mp (not_exists.mp hn k), ExtTreeMap.getElem?_empty]
        simp [this] at he
      have hb : item? b g k ≠ none := by
        rwa [← h, item?, hi]
      cases hbg : b[g]? with
      | none => simp [item?, hbg] at hb
      | some items' =>
        have : items = items' := ExtTreeMap.ext_getElem? fun k => by
          have := h g k
          rwa [item?, item?, hi, hbg] at this
        rw [this]
    apply ExtTreeMap.ext_getElem?
    intro g
    apply Option.ext
    intro items
    simp only [getElem?_dropEmpty, Option.filter_eq_some_iff, Bool.not_eq_true']
    exact ⟨fun ⟨hi, he⟩ => ⟨hg old new h g items hi he, he⟩,
      fun ⟨hi, he⟩ => ⟨hg new old (fun g k => (h g k).symm) g items hi he, he⟩⟩

/-! ## One entry -/

theorem item?_setItem {β : Type} (m : StrMap (StrMap β)) (group key : String) (v : β) (g k : String) :
    item? (setItem m group key v) g k = if group = g ∧ key = k then some v else item? m g k := by
  simp only [item?, setItem, KV.getElem?_insert]
  by_cases hg : group = g
  · subst hg
    simp only [if_true, Option.bind_some, KV.getElem?_insert, true_and]
    cases m[group]? <;> simp
  · simp [hg]

def DiffEntry.leaves (e : DiffEntry) : Option Value :=
  match e.kind with
  | .upsert => e.newValue
  | .delete => none

/-- An upsert without a value does nothing; every other entry sets or removes one item. -/
theorem item?_applyEntry (h : e.kind = .upsert → e.newValue ≠ none) (g k : String) :
    item? (applyEntry snap e) g k = if e.group = g ∧ e.key = k then e.leaves else item? snap g k := by
  unfold applyEntry DiffEntry.leaves
  cases hk : e.kind with
  | upsert =>
    cases hv : e.newValue with
    | none => exact absurd hv (h hk)
    | some v => exact item?_setItem snap e.group e.key v g k
  | delete =>
    cases hs : snap[e.group]? with
    | none =>
      by_cases hg : e.group = g
      · subst hg; simp [item?, hs]
      · simp [hg]
    | some items =>
      have hi : item? snap e.group k = items[k]? := by rw [item?, hs, Option.bind_some]
      simp only
      split
      · rename_i he
        rw [item?, KV.getElem?_erase]
        by_cases hg : e.group = g
        · subst hg
          have := congrArg (fun m : StrMap Value => m[k]?) (ExtTreeMap.isEmpty_iff.mp he)
          simp only [KV.getElem?_erase] at this
          by_cases hke : e.key = k
          · simp [hke]
          · simpa [hke, hi] using this.symm
        · simp [hg, item?]
      · rw [item?, KV.getElem?_insert]
        by_cases hg : e.group = g
        · subst hg
          simp only [if_true, Option.bind_some, KV.getElem?_erase, true_and, hi]
        · simp [hg, item?]

/-! ## All entries -/

/-- If every entry on an item leaves the same, the item ends up so as soon as one entry is on it. -/
theorem item?_applyDiff {diff : List DiffEntry} (hv : ∀ e ∈ diff, e.kind = .upsert → e.newValue ≠ none)
    {r : Option Value} (hr : ∀ e ∈ diff, e.group = g ∧ e.key = k → e.leaves = r)
    (h : item? snap g k = r ∨ ∃ e ∈ diff, e.group = g ∧ e.key = k) : item? (applyDiff snap diff) g k = r := by
  induction diff generalizing snap with
  | nil => simpa [applyDiff] using h
  | cons e diff ih =>
    refine @ih (applyEntry snap e) (fun e he => hv e (by simp [he])) (fun e he => hr e (by simp [he])) ?_
    rw [item?_applyEntry (hv e (by simp))]
    split
    · rename_i hat; exact .inl (hr e (by simp) hat)
    · rename_i hat
      refine h.imp_right ?_
      rintro ⟨e', he', hat'⟩
      rcases List.mem_cons.mp he' with rfl | he'
      · exact absurd hat' hat
      · exact ⟨e', he', hat'⟩

/-- The entries of a diff: an upsert for each new value, a delete for each item that is gone. -/
theorem mem_computeDiff :
    e ∈ computeDiff old new ↔
      (∃ v, item? new e.group e.key = some v ∧ item? old e.group e.key ≠ some v ∧
        e.kind = .upsert ∧ e.newValue = some v) ∨
      ((item? old e.group e.key).isSome ∧ item? new e.group e.key = none ∧ e.kind = .delete ∧ e.newValue = none) := by
  obtain ⟨group, key, kind, newValue⟩ := e
  simp only [computeDiff, List.mem_append, List.mem_flatMap, List.mem_filterMap, Prod.exists,
    ExtTreeMap.mem_toList_iff_getElem?_eq_some, Option.ite_none_right_eq_some, Option.some.injEq,
    DiffEntry.mk.injEq, Option.isNone_iff_eq_none]
  refine or_congr ?_ ?_
  · constructor
    · rintro ⟨g, items, hg, k, v, hk, ho, rfl, rfl, rfl, rfl⟩
      exact ⟨v, by simp [item?, hg, hk], ho, rfl, rfl⟩
    · rintro ⟨v, hn, ho, rfl, rfl⟩
      obtain ⟨items, hg, hk⟩ := Option.bind_eq_some_iff.mp hn
      exact ⟨group, items, hg, key, v, hk, ho, rfl, rfl, rfl, rfl⟩
  · constructor
    · rintro ⟨g, items, hg, k, v, hk, hn, rfl, rfl, rfl, rfl⟩
      exact ⟨by simp [item?, hg, hk], hn, rfl, rfl⟩
    · rintro ⟨ho, hn, rfl, rfl⟩
      obtain ⟨v, ho⟩ := Option.isSome_iff_exists.mp ho
      obtain ⟨items, hg, hk⟩ := Option.bind_eq_some_iff.mp ho
      exact ⟨group, items, hg, key, v, hk, hn, rfl, rfl, rfl, rfl⟩

theorem applyDiff_computeDiff (old new : SnapshotMap) :
    dropEmpty (applyDiff old (computeDiff old new)) = dropEmpty new := by
  refine dropEmpty_eq_iff.mpr fun g k => item?_applyDiff ?_ ?_ ?_
  · intro e he hu
    rcases mem_computeDiff.mp he with ⟨v, -, -, -, hv⟩ | ⟨-, -, hd, -⟩
    · simp [hv]
    · rw [hd] at hu; cases hu
  · rintro e he ⟨rfl, rfl⟩
    rcases mem_computeDiff.mp he with ⟨v, hn, -, hk, hv⟩ | ⟨-, hn, hk, -⟩
    · simp [DiffEntry.leaves, hk, hv, hn]
    · simp [DiffEntry.leaves, hk, hn]
  · by_cases h : item? old g k = item? new g k
    · exact .inl h
    · refine .inr ?_
      cases hn : item? new g k with
      | some v =>
        exact ⟨⟨g, k, .upsert, some v⟩, mem_computeDiff.mpr (.inl ⟨v, hn, by rwa [hn] at h, rfl, rfl⟩), rfl, rfl⟩
      | none =>
        have ho : (item? old g k).isSome := Option.isSome_iff_ne_none.mpr (by rwa [hn] at h)
        exact ⟨⟨g, k, .delete, none⟩, mem_computeDiff.mpr (.inr ⟨ho, hn, rfl, rfl⟩), rfl, rfl⟩

end Defing
