import Defing.Core.Items
import Defing.Core.Read

/-!
# Data read back from its text

Doubles aside, an entity is read as it was written, and each double is read by
itself. `readBack` is what a version is read as that was written as the change
from one snapshot to another: whole, or as its changes on top of the first.
-/

namespace Defing

open Std (ExtTreeMap)

variable [SerdeJson] {g k : String}

/-! ## Values -/

@[simp] theorem valueType_rereadValue (v : Value) : (rereadValue v).valueType = v.valueType := by
  cases v <;> rfl

@[simp] theorem rereadValue_secret (c : Ciphertext) : rereadValue (.secret c) = .secret c := rfl

def Steady (v : Value) : Prop := rereadValue v = v

instance (v : Value) : Decidable (Steady v) := inferInstanceAs (Decidable (rereadValue v = v))

/-! ## Maps of values -/

omit [SerdeJson] in
theorem item?_map {β γ : Type} (f : β → γ) (m : StrMap (StrMap β)) (g k : String) :
    item? (m.map fun _ items => items.map fun _ => f) g k = (item? m g k).map f := by
  simp only [item?, ExtTreeMap.getElem?_map]
  cases m[g]? with
  | none => rfl
  | some items => simp only [Option.map_some, Option.bind_some, ExtTreeMap.getElem?_map]

theorem item?_rereadSnapshot (snap : SnapshotMap) (g k : String) :
    item? (rereadSnapshot snap) g k = (item? snap g k).map rereadValue := item?_map rereadValue snap g k

@[simp] theorem rereadSnapshot_empty : rereadSnapshot ∅ = ∅ := by
  refine ExtTreeMap.ext_getElem? fun g => ?_
  rw [rereadSnapshot, ExtTreeMap.getElem?_map, ExtTreeMap.getElem?_empty, Option.map_none]

theorem item?_rereadDraft (draft : ValueDraft) (g k : String) :
    item? (rereadDraft draft) g k = (item? draft g k).map rereadDraftValue := item?_map rereadDraftValue draft g k

theorem item?_rereadDraft_iterate (n : Nat) (draft : ValueDraft) (g k : String) :
    item? (rereadDraft^[n] draft) g k = (item? draft g k).map rereadDraftValue^[n] := by
  induction n generalizing draft with
  | zero => rw [Function.iterate_zero, Function.iterate_zero, Option.map_id, id, id]
  | succ n ih => rw [Function.iterate_succ_apply, ih, item?_rereadDraft, Option.map_map]; rfl

@[simp] theorem rereadDraft_empty : rereadDraft ∅ = ∅ := by
  refine ExtTreeMap.ext_getElem? fun g => ?_
  rw [rereadDraft, ExtTreeMap.getElem?_map, ExtTreeMap.getElem?_empty, Option.map_none]

theorem full_rereadDraft {draft : ValueDraft} (h : Full draft) : Full (rereadDraft draft) := by
  intro g hg
  obtain ⟨k, hk⟩ := h g fun hn => hg (by rw [rereadDraft, ExtTreeMap.getElem?_map, hn, Option.map_none])
  refine ⟨k, ?_⟩
  rw [item?_rereadDraft]
  simpa using hk

section
variable (st : BranchState)

@[simp] theorem rereadState_valueDraft : (rereadState st).valueDraft = rereadDraft st.valueDraft := rfl

@[simp] theorem rereadState_activeVersion : (rereadState st).activeVersion = st.activeVersion := rfl

@[simp] theorem rereadState_structureVersion : (rereadState st).structureVersion = st.structureVersion := rfl

@[simp] theorem rereadState_lastRequestId : (rereadState st).lastRequestId = st.lastRequestId := rfl

@[simp] theorem rereadState_draftRev : (rereadState st).draftRev = st.draftRev := rfl

@[simp] theorem rereadState_graySeq : (rereadState st).graySeq = st.graySeq := rfl

@[simp] theorem rereadState_grayRule : (rereadState st).grayRule = st.grayRule := rfl

@[simp] theorem rereadState_sharedBindings : (rereadState st).sharedBindings = st.sharedBindings := rfl

@[simp] theorem rereadState_bindingsDirty : (rereadState st).bindingsDirty = st.bindingsDirty := rfl

end

/-! ## Versions -/

theorem leaves_rereadEntry (e : DiffEntry) : (rereadEntry e).leaves = e.leaves.map rereadValue := by
  rcases e with ⟨_, _, kind, _⟩
  cases kind <;> rfl

/-- What a version is read as that was written as the change from `old` to `new`. -/
def readBack (n : Nat) (old new : SnapshotMap) : SnapshotMap :=
  if isCheckpoint n then rereadSnapshot new else applyDiff old (rereadDiff (computeDiff old new))

theorem item?_applyDiff_reread (old new : SnapshotMap) (g k : String) :
    item? (applyDiff old (rereadDiff (computeDiff old new))) g k =
      if item? old g k = item? new g k then item? new g k else (item? new g k).map rereadValue := by
  refine item?_applyDiff ?_ ?_ ?_
  · intro e he hu
    obtain ⟨e', he', rfl⟩ := List.mem_map.mp he
    rcases mem_computeDiff.mp he' with ⟨v, -, -, -, hv⟩ | ⟨-, -, hd, -⟩
    · simp [rereadEntry, hv]
    · rw [show (rereadEntry e').kind = e'.kind from rfl, hd] at hu
      cases hu
  · rintro e he ⟨rfl, rfl⟩
    obtain ⟨e', he', rfl⟩ := List.mem_map.mp he
    change (rereadEntry e').leaves = if item? old e'.group e'.key = item? new e'.group e'.key
      then item? new e'.group e'.key else (item? new e'.group e'.key).map rereadValue
    rw [leaves_rereadEntry]
    rcases mem_computeDiff.mp he' with ⟨v, hn, ho, hk, hv⟩ | ⟨ho, hn, hk, -⟩
    · rw [if_neg (by rwa [hn]), hn]
      simp [DiffEntry.leaves, hk, hv]
    · rw [if_neg (by rw [hn]; exact Option.isSome_iff_ne_none.mp ho), hn]
      simp [DiffEntry.leaves, hk]
  · by_cases h : item? old g k = item? new g k
    · exact .inl (by rw [if_pos h, h])
    · refine .inr ?_
      cases hn : item? new g k with
      | some v =>
        have he : (⟨g, k, .upsert, some v⟩ : DiffEntry) ∈ computeDiff old new :=
          mem_computeDiff.mpr (.inl ⟨v, hn, by rwa [hn] at h, rfl, rfl⟩)
        exact ⟨_, List.mem_map.mpr ⟨_, he, rfl⟩, rfl, rfl⟩
      | none =>
        have ho : (item? old g k).isSome := Option.isSome_iff_ne_none.mpr (by rwa [hn] at h)
        have he : (⟨g, k, .delete, none⟩ : DiffEntry) ∈ computeDiff old new :=
          mem_computeDiff.mpr (.inr ⟨ho, hn, rfl, rfl⟩)
        exact ⟨_, List.mem_map.mpr ⟨_, he, rfl⟩, rfl, rfl⟩

/-- The writer of versions prints a value: in a checkpoint, or as a change. -/
def Printed (n : Nat) (old : SnapshotMap) (g k : String) (v : Value) : Prop := isCheckpoint n ∨ item? old g k ≠ some v

instance (n : Nat) (old : SnapshotMap) (g k : String) (v : Value) : Decidable (Printed n old g k v) :=
  inferInstanceAs (Decidable (isCheckpoint n ∨ item? old g k ≠ some v))

theorem item?_readBack (n : Nat) (old new : SnapshotMap) (g k : String) :
    item? (readBack n old new) g k = (item? new g k).map fun v => if Printed n old g k v then rereadValue v else v := by
  unfold readBack Printed
  by_cases hc : isCheckpoint n
  · simp only [hc, if_true, true_or, item?_rereadSnapshot]
  · simp only [hc, if_false, false_or, item?_applyDiff_reread]
    cases hn : item? new g k with
    | none => simp
    | some v =>
      by_cases ho : item? old g k = some v
      · simp [ho]
      · simp [ho]

/-- A snapshot that is read with some of its values reparsed is the same exactly if these are steady. -/
theorem reparsed_faithful_iff {snap snap' : SnapshotMap} {reparsed : String → String → Value → Prop}
    [∀ g k v, Decidable (reparsed g k v)]
    (h : ∀ g k, item? snap' g k = (item? snap g k).map fun v => if reparsed g k v then rereadValue v else v) :
    dropEmpty snap' = dropEmpty snap ↔ ∀ g k v, item? snap g k = some v → reparsed g k v → Steady v := by
  rw [dropEmpty_eq_iff]
  constructor
  · intro hsame g k v hv hp
    have := hsame g k
    rw [h, hv, Option.map_some, if_pos hp] at this
    exact Option.some.inj this
  · intro hsteady g k
    rw [h]
    cases hv : item? snap g k with
    | none => rfl
    | some v =>
      rw [Option.map_some]
      split
      · rename_i hp
        exact congrArg some (hsteady g k v hv hp)
      · rfl

/-- A snapshot printed whole is read as it was exactly if all its values are steady. -/
theorem rereadSnapshot_faithful_iff {snap : SnapshotMap} :
    dropEmpty (rereadSnapshot snap) = dropEmpty snap ↔ ∀ g k v, item? snap g k = some v → Steady v := by
  have hread : ∀ g k, item? (rereadSnapshot snap) g k =
      (item? snap g k).map fun v => if True then rereadValue v else v := fun g k => by simp [item?_rereadSnapshot]
  simpa using reparsed_faithful_iff hread

def PrintsSteady (n : Nat) (old new : SnapshotMap) : Prop :=
  ∀ g k v, item? new g k = some v → Printed n old g k v → Steady v

/-- A version is read as the snapshot it was written for exactly if what is printed of it is steady. -/
theorem readBack_faithful_iff {n : Nat} {old new : SnapshotMap} :
    dropEmpty (readBack n old new) = dropEmpty new ↔ PrintsSteady n old new :=
  reparsed_faithful_iff (item?_readBack n old new)

end Defing
