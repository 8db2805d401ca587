import Defing.Core.Rewrap
import Defing.State.Always

/-!
# The renewal reaches all secrets but some

Rows are told apart by their keys, and a name can make one of another kind of a
key. What is read as something else than it is does not parse, and is passed
over with the secrets it holds.
-/

namespace Defing

open KV (Prog Plain segments Rewrites)

/-! ## Values of rows -/

def Stored.Has (x : Value) : Stored → Prop
  | .snapshot snap => ∃ g k, item? snap g k = some x
  | .diff d => ∃ e ∈ d, e.newValue = some x
  | .branchState st => ∃ g k dv, item? st.valueDraft g k = some dv ∧ dv.value = x
  | .shared item => item.value = x
  | _ => False

def Stored.mapValues (w : Value → Value) : Stored → Stored
  | .snapshot snap => .snapshot (snap.map fun _ items => items.map fun _ => w)
  | .diff d => .diff (d.map fun e => { e with newValue := e.newValue.map w })
  | .branchState st => .branchState { st with
      valueDraft := st.valueDraft.map fun _ items => items.map fun _ dv => { dv with value := w dv.value } }
  | .shared item => .shared { item with value := w item.value }
  | v => v

abbrev Stored.Holds (ct : Ciphertext) : Stored → Prop := Stored.Has (.secret ct)

/-- Every secret of a row is of the newest generation. -/
def Stored.Renewed (newest : Ciphertext → Prop) (v : Stored) : Prop := ∀ ct, v.Holds ct → newest ct

def Value.rewrap (w : Ciphertext → Ciphertext) : Value → Value
  | .secret ct => .secret (w ct)
  | v => v

abbrev Stored.rewrap (w : Ciphertext → Ciphertext) : Stored → Stored := Stored.mapValues (Value.rewrap w)

/-! ## Renewals -/

/-- A renewal takes every ciphertext that is not of the newest generation to one that is, and no other one. -/
def Renews (f : Renewal) (newest : Ciphertext → Prop) : Prop :=
  ∀ ct, (newest ct → f ct = none) ∧ (¬ newest ct → ∃ ct', f ct = some (.ok ct') ∧ newest ct')

def renewed (f : Renewal) (ct : Ciphertext) : Ciphertext :=
  match f ct with
  | some (.ok ct') => ct'
  | _ => ct

/-- The keys whose rows are read as something else than they are: those of shared items named like the rows of
versions, and those of branches whose name or project is that of gray snapshots. -/
def PassedOver (k : String) : Prop :=
  (∃ key ∈ ["snap", "diff"], k = sharedKey key ∨ k = sharedDraftKey key) ∨
    ∃ id b, (id = "gray-snap" ∨ b = "gray-snap") ∧ k = branchStateKey id b

def Stored.Bare : Stored → Prop
  | .diff d => ∀ e ∈ d, e.kind = .delete → e.newValue = none
  | _ => True

section
variable {f : Renewal} {newest : Ciphertext → Prop} {v : Stored} {k : String} {w w' : Value → Value} {x : Value}

/-! ## Other values -/

theorem mapItems_eq_iff {α β : Type} {g g' : α → β} {m : StrMap (StrMap α)} :
    (m.map fun _ items => items.map fun _ => g) = (m.map fun _ items => items.map fun _ => g') ↔
      ∀ group key a, item? m group key = some a → g a = g' a := by
  constructor
  · intro h group key a ha
    have := congrArg (item? · group key) h
    simp only [item?_map, ha, Option.map_some, Option.some.injEq] at this
    exact this
  · intro h
    refine Std.ExtTreeMap.ext_getElem? fun group => ?_
    rw [Std.ExtTreeMap.getElem?_map, Std.ExtTreeMap.getElem?_map]
    cases hg : m[group]? with
    | none => rfl
    | some items =>
      refine congrArg some (Std.ExtTreeMap.ext_getElem? fun key => ?_)
      rw [Std.ExtTreeMap.getElem?_map, Std.ExtTreeMap.getElem?_map]
      cases hk : items[key]? with
      | none => rfl
      | some a => exact congrArg some (h group key a (by rw [item?, hg]; exact hk))

theorem mapItems_mapItems {α β γ : Type} (g : α → β) (g' : β → γ) (m : StrMap (StrMap α)) :
    ((m.map fun _ items => items.map fun _ => g).map fun _ items => items.map fun _ => g') =
      m.map fun _ items => items.map fun _ a => g' (g a) := by
  refine Std.ExtTreeMap.ext_getElem? fun group => ?_
  simp only [Std.ExtTreeMap.getElem?_map, Option.map_map]
  cases m[group]? with
  | none => rfl
  | some items =>
    refine congrArg some (Std.ExtTreeMap.ext_getElem? fun key => ?_)
    simp only [Function.comp_apply, Std.ExtTreeMap.getElem?_map, Option.map_map]
    rfl

theorem has_mapValues : (v.mapValues w).Has x ↔ ∃ y, v.Has y ∧ w y = x := by
  constructor
  · intro h
    cases v <;> try exact h.elim
    case snapshot snap =>
      obtain ⟨g, k, hitem⟩ := h
      rw [item?_map, Option.map_eq_some_iff] at hitem
      obtain ⟨y, hy, hw⟩ := hitem
      exact ⟨y, ⟨g, k, hy⟩, hw⟩
    case diff d =>
      obtain ⟨e, he, hx⟩ := h
      obtain ⟨e, hmem, rfl⟩ := List.mem_map.mp he
      obtain ⟨y, hy, hw⟩ := Option.map_eq_some_iff.mp hx
      exact ⟨y, ⟨e, hmem, hy⟩, hw⟩
    case branchState st =>
      obtain ⟨g, k, dv, hitem, hx⟩ := h
      rw [item?_map, Option.map_eq_some_iff] at hitem
      obtain ⟨dv, hdv, rfl⟩ := hitem
      exact ⟨dv.value, ⟨g, k, dv, hdv, rfl⟩, hx⟩
    case shared item => exact ⟨item.value, rfl, h⟩
  · rintro ⟨y, h, rfl⟩
    cases v <;> try exact h.elim
    case snapshot snap =>
      obtain ⟨g, k, hitem⟩ := h
      exact ⟨g, k, by rw [item?_map, hitem]; rfl⟩
    case diff d =>
      obtain ⟨e, he, hy⟩ := h
      refine ⟨_, List.mem_map_of_mem he, ?_⟩
      rw [hy]
      rfl
    case branchState st =>
      obtain ⟨g, k, dv, hitem, rfl⟩ := h
      exact ⟨g, k, { dv with value := w dv.value }, by rw [item?_map, hitem]; rfl, rfl⟩
    case shared item =>
      have hvalue : item.value = y := h
      exact congrArg w hvalue

theorem mapValues_eq_iff : v.mapValues w = v.mapValues w' ↔ ∀ y, v.Has y → w y = w' y := by
  cases v <;> try exact ⟨fun _ _ h => h.elim, fun _ => rfl⟩
  case snapshot snap =>
    simp only [Stored.mapValues, Stored.snapshot.injEq, mapItems_eq_iff, Stored.Has]
    exact ⟨fun h y ⟨g, k, hy⟩ => h g k y hy, fun h g k y hy => h y ⟨g, k, hy⟩⟩
  case diff d =>
    simp only [Stored.mapValues, Stored.diff.injEq, List.map_inj_left, DiffEntry.mk.injEq, true_and, Stored.Has]
    constructor
    · rintro h y ⟨e, he, hy⟩
      have := h e he
      rw [hy] at this
      exact Option.some.inj this
    · intro h e he
      cases hy : e.newValue with
      | none => rfl
      | some y => exact congrArg some (h y ⟨e, he, hy⟩)
  case branchState st =>
    simp only [Stored.mapValues, Stored.branchState.injEq, BranchState.mk.injEq, true_and, and_true, mapItems_eq_iff,
      DraftValue.mk.injEq, Stored.Has]
    exact ⟨fun h y ⟨g, k, dv, hdv, hy⟩ => hy ▸ h g k dv hdv, fun h g k dv hdv => h _ ⟨g, k, dv, hdv, rfl⟩⟩
  case shared item =>
    simp only [Stored.mapValues, Stored.shared.injEq, SharedItem.mk.injEq, true_and, and_true, Stored.Has]
    exact ⟨fun h y hy => hy ▸ h, fun h => h _ rfl⟩

theorem mapValues_id : v.mapValues (fun y => y) = v := by
  have hitems : ∀ {α : Type} (m : StrMap (StrMap α)), (m.map fun _ items => items.map fun _ a => a) = m := by
    intro α m
    refine Std.ExtTreeMap.ext_getElem? fun group => ?_
    rw [Std.ExtTreeMap.getElem?_map]
    cases m[group]? with
    | none => rfl
    | some items => exact congrArg some (Std.ExtTreeMap.ext_getElem? fun key => by simp)
  cases v <;> try rfl
  case snapshot snap => exact congrArg Stored.snapshot (hitems snap)
  case diff d => simp [Stored.mapValues]
  case branchState st => exact congrArg (fun d => Stored.branchState { st with valueDraft := d }) (hitems st.valueDraft)

theorem mapValues_mapValues (v : Stored) (w w' : Value → Value) :
    (v.mapValues w).mapValues w' = v.mapValues fun y => w' (w y) := by
  cases v <;> try rfl
  case snapshot snap => exact congrArg Stored.snapshot (mapItems_mapItems w w' snap)
  case diff d => simp [Stored.mapValues, Function.comp_def]
  case branchState st =>
    exact congrArg (fun d => Stored.branchState { st with valueDraft := d }) (mapItems_mapItems _ _ st.valueDraft)

theorem bare_mapValues (h : v.Bare) : (v.mapValues w).Bare := by
  cases v <;> try trivial
  case diff d =>
    intro e he hkind
    obtain ⟨e₀, he₀, rfl⟩ := List.mem_map.mp he
    rw [h e₀ he₀ hkind]
    rfl

theorem placed_mapValues : Placed k (v.mapValues w) ↔ Placed k v := by
  cases v <;> exact Iff.rfl

/-! ## Other ciphertexts -/

theorem renewed_of_newest (hf : Renews f newest) {ct : Ciphertext} (h : newest ct) : renewed f ct = ct := by
  rw [renewed, (hf ct).1 h]

theorem newest_renewed (hf : Renews f newest) (ct : Ciphertext) : newest (renewed f ct) := by
  by_cases h : newest ct
  · rwa [renewed_of_newest hf h]
  · obtain ⟨ct', hct, hnew⟩ := (hf ct).2 h
    rwa [renewed, hct]

/-! ## What each kind of row needs -/

def Value.Old (newest : Ciphertext → Prop) (v : Value) : Prop := ∃ ct, v = .secret ct ∧ ¬ newest ct

theorem rewrites_value (hf : Renews f newest) :
    Rewrites (rewrapValue f) (Value.Old newest) (Value.rewrap (renewed f)) where
  run v := by
    cases v with
    | secret ct =>
      by_cases h : newest ct
      · refine ⟨false, ?_, by simp [Value.Old, h]⟩
        rw [rewrapValue, (hf ct).1 h, Value.rewrap, renewed_of_newest hf h]
        rfl
      · obtain ⟨ct', hct, -⟩ := (hf ct).2 h
        refine ⟨true, ?_, by simp [Value.Old, h]⟩
        rw [rewrapValue, hct, Value.rewrap, renewed, hct]
        rfl
    | _ => exact ⟨false, rfl, by simp [Value.Old]⟩
  keeps v hn := by
    cases v with
    | secret ct =>
      have h : newest ct := by
        by_contra h
        exact hn ⟨ct, rfl, h⟩
      rw [Value.rewrap, renewed_of_newest hf h]
    | _ => rfl

theorem old_items {β : Type} {P : β → Prop} {m : StrMap (StrMap β)} :
    (∃ (g : String) (items : StrMap β), m[g]? = some items ∧ ∃ (k : String) (b : β), items[k]? = some b ∧ P b) ↔
      ∃ g k b, item? m g k = some b ∧ P b := by
  simp only [item?, Option.bind_eq_some_iff]
  constructor
  · intro h
    obtain ⟨g, items, hg, k, b, hk, hb⟩ := h
    exact ⟨g, k, b, ⟨items, hg, hk⟩, hb⟩
  · intro h
    obtain ⟨g, k, b, ⟨items, hg, hk⟩, hb⟩ := h
    exact ⟨g, items, hg, k, b, hk, hb⟩

theorem not_renewed_iff : ¬ v.Renewed newest ↔ ∃ ct, v.Holds ct ∧ ¬ newest ct := by
  simp [Stored.Renewed]

theorem rewrites_snapshot (hf : Renews f newest) :
    Rewrites (rewrapSnapshot f) (fun snap => ¬ (Stored.snapshot snap).Renewed newest)
      fun snap => snap.map fun _ items => items.map fun _ => Value.rewrap (renewed f) := by
  refine (rewrites_value hf).map.map.congr fun snap => ?_
  rw [old_items, not_renewed_iff]
  constructor
  · intro ⟨g, k, v, hitem, ct, hct, hold⟩
    exact ⟨ct, ⟨g, k, hct ▸ hitem⟩, hold⟩
  · intro ⟨ct, ⟨g, k, hitem⟩, hold⟩
    exact ⟨g, k, .secret ct, hitem, ct, rfl, hold⟩

theorem rewrites_shared (hf : Renews f newest) :
    Rewrites (rewrapShared f) (fun item => ¬ (Stored.shared item).Renewed newest)
      fun item => { item with value := item.value.rewrap (renewed f) } := by
  refine ((rewrites_value hf).part SharedItem.value (fun item v => { item with value := v })
    fun _ => rfl).congr fun item => ?_
  rw [not_renewed_iff]
  exact Iff.rfl

theorem rewrites_draft (hf : Renews f newest) :
    Rewrites (rewrapDraft f) (fun st => ¬ (Stored.branchState st).Renewed newest) fun st => { st with
      valueDraft := st.valueDraft.map fun _ items => items.map fun _ dv => { dv with value := dv.value.rewrap (renewed f) } } := by
  have hvalue := (rewrites_value hf).part DraftValue.value (fun dv v => { dv with value := v }) fun _ => rfl
  refine (hvalue.map.map.part BranchState.valueDraft (fun st d => { st with valueDraft := d }) fun _ => rfl).congr fun st => ?_
  rw [old_items, not_renewed_iff]
  constructor
  · intro ⟨g, k, dv, hitem, ct, hct, hold⟩
    exact ⟨ct, ⟨g, k, dv, hitem, hct⟩, hold⟩
  · intro ⟨ct, ⟨g, k, dv, hitem, hct⟩, hold⟩
    exact ⟨g, k, dv, hitem, ct, hct, hold⟩

def DiffEntry.rewrapUpsert (w : Ciphertext → Ciphertext) (e : DiffEntry) : DiffEntry :=
  match e.kind with
  | .upsert => { e with newValue := e.newValue.map (Value.rewrap w) }
  | .delete => e

theorem rewrites_entry (hf : Renews f newest) :
    Rewrites (rewrapEntry f) (fun e => e.kind = .upsert ∧ ∃ ct, e.newValue = some (.secret ct) ∧ ¬ newest ct)
      (DiffEntry.rewrapUpsert (renewed f)) where
  run e := by
    obtain ⟨group, key, kind, nv⟩ := e
    cases kind with
    | delete => exact ⟨false, by cases nv <;> rfl, by simp⟩
    | upsert =>
      cases nv with
      | none => exact ⟨false, rfl, by simp⟩
      | some v =>
        obtain ⟨c, hv, hc⟩ := (rewrites_value hf).run v
        refine ⟨c, ?_, ?_⟩
        · change (rewrapValue f v).map _ = _
          rw [hv]
          rfl
        · rw [hc]
          simp [Value.Old]
  keeps e hn := by
    obtain ⟨group, key, kind, nv⟩ := e
    cases kind with
    | delete => rfl
    | upsert =>
      cases nv with
      | none => rfl
      | some v =>
        have hv := (rewrites_value hf).keeps v fun ⟨ct, e, hold⟩ => hn ⟨rfl, ct, congrArg some e, hold⟩
        simp [DiffEntry.rewrapUpsert, hv]

theorem rewrites_diff (hf : Renews f newest) :
    Rewrites (rewrapDiff f) (fun d => ∃ e ∈ d, e.kind = .upsert ∧ ∃ ct, e.newValue = some (.secret ct) ∧ ¬ newest ct)
      (List.map (DiffEntry.rewrapUpsert (renewed f))) := (rewrites_entry hf).list

/-! ## Rows -/

theorem rewrap_eq_secret {w : Ciphertext → Ciphertext} {v : Value} {ct : Ciphertext} (h : v.rewrap w = .secret ct) :
    ∃ ct₀, v = .secret ct₀ ∧ w ct₀ = ct := by
  cases v with
  | secret ct₀ => exact ⟨ct₀, rfl, Value.secret.inj h⟩
  | _ => cases h

/-- The ciphertexts of a row whose secrets have been replaced. -/
theorem holds_rewrap {w : Ciphertext → Ciphertext} {ct : Ciphertext} :
    (v.rewrap w).Holds ct ↔ ∃ ct₀, v.Holds ct₀ ∧ w ct₀ = ct := by
  rw [Stored.Holds, Stored.rewrap, has_mapValues]
  constructor
  · rintro ⟨y, hy, he⟩
    obtain ⟨ct₀, rfl, hw⟩ := rewrap_eq_secret he
    exact ⟨ct₀, hy, hw⟩
  · rintro ⟨ct₀, h, hw⟩
    exact ⟨.secret ct₀, h, congrArg Value.secret hw⟩

theorem newest_rewrap (hf : Renews f newest) : (v.rewrap (renewed f)).Renewed newest := by
  intro ct h
  obtain ⟨ct₀, _, rfl⟩ := holds_rewrap.mp h
  exact newest_renewed hf ct₀

theorem rewrap_of_renewed (hf : Renews f newest) (h : v.Renewed newest) : v.rewrap (renewed f) = v := by
  refine (mapValues_eq_iff.mpr fun y hy => ?_).trans mapValues_id
  refine (rewrites_value hf).keeps _ ?_
  rintro ⟨ct, rfl, hold⟩
  exact hold (h ct hy)

section
variable [SerdeJson]

@[simp] theorem rereadValue_eq_secret {ct : Ciphertext} : rereadValue x = .secret ct ↔ x = .secret ct := by
  cases x <;> simp [rereadValue]

theorem holds_reread {ct : Ciphertext} : (v.mapValues rereadValue).Holds ct ↔ v.Holds ct := by
  rw [Stored.Holds, has_mapValues]
  simp

theorem renewed_reread : (v.mapValues rereadValue).Renewed newest ↔ v.Renewed newest :=
  forall_congr' fun _ => by rw [holds_reread]

/-- A row that is read, renewed and printed is the one with its secrets renewed exactly if its doubles are steady. -/
theorem rewrap_reread_eq_iff {w : Ciphertext → Ciphertext} :
    (v.mapValues rereadValue).rewrap w = v.rewrap w ↔ ∀ y, v.Has y → Steady y := by
  rw [Stored.rewrap, mapValues_mapValues, mapValues_eq_iff]
  refine forall_congr' fun y => imp_congr_right fun _ => ?_
  cases y <;> simp [rereadValue, Value.rewrap, Steady]

end

/-- On a diff whose deletions have no value the pass does what it does to any row. -/
theorem rewrapUpsert_of_bare {w : Ciphertext → Ciphertext} {d : List DiffEntry} (h : (Stored.diff d).Bare) :
    Stored.diff (d.map (DiffEntry.rewrapUpsert w)) = (Stored.diff d).rewrap w := by
  refine congrArg Stored.diff (List.map_congr_left fun e he => ?_)
  obtain ⟨group, key, kind, nv⟩ := e
  cases kind with
  | upsert => rfl
  | delete =>
    obtain rfl : nv = none := h _ he rfl
    rfl

theorem needs_of_bare {d : List DiffEntry} (h : (Stored.diff d).Bare) :
    (∃ e ∈ d, e.kind = .upsert ∧ ∃ ct, e.newValue = some (.secret ct) ∧ ¬ newest ct) ↔
      ¬ (Stored.diff d).Renewed newest := by
  rw [not_renewed_iff]
  constructor
  · intro ⟨e, he, _, ct, hct, hold⟩
    exact ⟨ct, ⟨e, he, hct⟩, hold⟩
  · intro ⟨ct, ⟨e, he, hct⟩, hold⟩
    refine ⟨e, he, ?_, ct, hct, hold⟩
    cases hk : e.kind with
    | upsert => rfl
    | delete =>
      rw [h e he hk] at hct
      cases hct

end

end Defing
