import Defing.State.References

/-!
# Types of shared items

A binding is made, and kept under a new structure, only if the shared item is of
the type of the item. A shared item that is published again may change its type,
and its value is not held against its type: `KeepsTypes` says when a publication
of shared items leaves the bindings well typed.
-/

namespace Defing

open KV (Prog Plain)

section
variable [SerdeJson] {id : ProjectId} {b : BranchName} {t : Store} {cmd : Command} {now : Int} {g k rk : String}

/-- The shared items that a publication takes up have a value of their type, and those that are bound
keep their type. -/
def KeepsTypes (t : Store) : Command → Prop
  | .sharedPublish .. => ∀ item : SharedItem, t[sharedDraftKey item.key]? = some (Codec.encode item) →
      item.value.valueType = item.ty ∧ ∀ published, sharedOf t item.key = some published →
        (∃ id g k, Binds t id g k item.key) → item.ty = published.ty
  | _ => True

def SharesTyped (t : Store) : Command → Prop
  | .sharedPublish .. => ∀ item : SharedItem, t[sharedDraftKey item.key]? = some (Codec.encode item) →
      item.value.valueType = item.ty
  | _ => True

theorem KeepsTypes.sharesTyped (h : KeepsTypes t cmd) : SharesTyped t cmd := by
  cases cmd <;> try exact trivial
  exact fun item hitem => (h item hitem).1

def TypedBinding (t : Store) (id : ProjectId) (g k rk : String) : Prop :=
  ∃ struct, structOf t id = some struct ∧ Fits t struct g k rk

def TypedValues (t : Store) : Prop := ∀ rk item, sharedOf t rk = some item → item.value.valueType = item.ty

section

/-! ## Bindings -/

theorem Bindable.fits {struct : Structure} (hs : Sound struct.groups) (h : Bindable t (itemIndex struct) g k rk) :
    Fits t struct g k rk := by
  obtain ⟨d, item, hd, hshared, hitem, hty⟩ := h
  obtain ⟨hm, rfl⟩ := mem_of_itemIndex hd
  exact ⟨d.ty, item, hs.sharedItems hm hshared, hitem, hty⟩

theorem Fits.congr {t' : Store} {struct : Structure} (h : sharedOf t' rk = sharedOf t rk) (hf : Fits t struct g k rk) :
    Fits t' struct g k rk := by
  obtain ⟨ty, item, hty, hitem, e⟩ := hf
  exact ⟨ty, item, hty, h.trans hitem, e⟩

theorem typedBinding_apply (ht : WellPlaced t) (hr : Rooted t) (hsound : SoundStructures t) (hkeep : KeepsTypes t cmd)
    (now : Int) (h : ∀ id g k rk, Binds t id g k rk → TypedBinding t id g k rk) :
    ∀ id g k rk, Binds (apply cmd now t).store id g k rk → TypedBinding (apply cmd now t).store id g k rk := by
  intro id g k rk hb
  rcases binds_apply ht hr cmd now hb with ⟨hold, hstruct⟩ | ⟨hshared, struct, hs, hstruct, hbind⟩ |
    ⟨hshared, -, struct, hstruct, hfits⟩
  · obtain ⟨struct, hs, hfits⟩ := h id g k rk hold
    refine ⟨struct, hstruct.trans hs, ?_⟩
    have hafter := sharedOf_apply ht cmd now rk
    generalize hnew : sharedOf (apply cmd now t).store rk = o at hafter
    cases hafter with
    | kept => exact hfits.congr hnew
    | published hcmd hkey hdraft =>
      -- the item is published anew, and keeps its type
      subst hcmd hkey
      obtain ⟨ty, item, hty, hitem, e⟩ := hfits
      obtain ⟨x, hrow, rfl⟩ := row_of_entity hdraft
      exact ⟨ty, _, hty, hnew, ((hkeep x hrow).2 item hitem ⟨id, g, k, hold⟩).trans e⟩
    | deleted hcmd hfree =>
      obtain ⟨b, hbound⟩ := (hold.project hr ht).2
      exact absurd hbound (hfree id b)
  · exact ⟨struct, hstruct, (hbind.fits (hsound.1 id struct hs)).congr hshared⟩
  · exact ⟨struct, hstruct, hfits.congr hshared⟩

theorem typedValues_apply (ht : WellPlaced t) (hshares : SharesTyped t cmd) (now : Int) (h : TypedValues t) :
    TypedValues (apply cmd now t).store := by
  intro rk item hitem
  have hafter := sharedOf_apply ht cmd now rk
  generalize hnew : sharedOf (apply cmd now t).store rk = o at hafter
  cases hafter with
  | kept => exact h rk item (hnew.symm.trans hitem)
  | published hcmd hkey hdraft =>
    subst hcmd hkey
    obtain rfl := Option.some.inj (hnew.symm.trans hitem)
    obtain ⟨x, hrow, rfl⟩ := row_of_entity hdraft
    simpa [rereadShared] using hshares x hrow
  | deleted => cases hnew.symm.trans hitem

theorem typed_reach (h : Reach (fun t cmd _ => KeepsTypes t cmd) t) :
    (∀ id g k rk, Binds t id g k rk → TypedBinding t id g k rk) ∧ TypedValues t := by
  induction h with
  | empty => exact ⟨fun _ _ _ _ hb => absurd hb not_binds_empty, fun _ _ h => by simp [sharedOf, entity] at h⟩
  | step cmd now hreach hkeep ih =>
    have ht := wellPlaced_of_reach hreach
    exact ⟨typedBinding_apply ht (rooted_reach hreach) (soundStructures_reach hreach) hkeep now ih.1,
      typedValues_apply ht hkeep.sharesTyped now ih.2⟩

/-! ## Cascades -/

/-- What an event sets is of the type that the structure of its project declares. -/
def TypedEvent (t : Store) (event : PublishEvent) : Prop :=
  ∀ e ∈ event.changes, ∀ v, e.newValue = some v → ∃ struct d, structOf t event.project = some struct ∧
    (e.group, d) ∈ struct.allItems ∧ d.key = e.key ∧ v.valueType = d.ty

omit [SerdeJson] in
theorem changes_setItem {old : SnapshotMap} {group key : String} {value v : Value} {e : DiffEntry}
    (h : e ∈ computeDiff old (setItem old group key value)) (hv : e.newValue = some v) :
    e.group = group ∧ e.key = key ∧ v = value := by
  rcases mem_computeDiff.mp h with ⟨w, hnew, hold, -, hw⟩ | ⟨-, -, -, hw⟩
  · obtain rfl := Option.some.inj (hv.symm.trans hw)
    rw [item?_setItem] at hnew
    split at hnew
    · rename_i e'
      exact ⟨e'.1.symm, e'.2.symm, (Option.some.inj hnew).symm⟩
    · exact absurd hnew hold
  · cases hv.symm.trans hw

theorem typedEvents_apply (ht : WellPlaced t) (hr : Rooted t) (hb : ∀ id g k rk, Binds t id g k rk → TypedBinding t id g k rk)
    {c r o : String} {ts : Int} {mode : SharedCascadeMode} {policy : PublishPolicy}
    (hkeep : KeepsTypes t (.sharedPublish c r o ts mode policy)) (now : Int) :
    ∀ event ∈ (apply (.sharedPublish c r o ts mode policy) now t).emitted, TypedEvent t event := by
  have hc : ¬ removesBranches (.sharedPublish c r o ts mode policy) := not_false
  refine ((apply_course ht hr hc now).invariant_events
    (I := fun id _ br => BindingsFrom t (.sharedPublish c r o ts mode policy) id br) (fun hn hi hm => ?_)
    fun id b _ st hst g k rk hk => .inl ⟨b, st, hst, hk⟩).2
  refine ⟨hm.bindingsFrom hi, ?_⟩
  cases hm with
  | create => exact fun _ h => absurd h List.not_mem_nil
  | edit _ _ h => cases h
  | release record hs ho h =>
    cases h with
    | @cascade _ _ _ _ _ _ item g k hitem hbound =>
      intro event hevent
      obtain rfl := List.mem_singleton.mp hevent
      intro e he v hv
      obtain ⟨hg, hk, rfl⟩ := changes_setItem he hv
      -- the branch is bound to the item that cascades, so the item was of its type before
      rcases hi _ hs g k _ hbound with hold | ⟨⟨_, _, _, _, _, _, _, hcmd⟩, -⟩
      · obtain ⟨struct, hstruct, ty, published, hty, hpub, e'⟩ := hb _ g k _ hold
        obtain ⟨d, hd, hdk, -, hdty⟩ := mem_of_sharedItems hty
        obtain ⟨x, hrow, rfl⟩ := row_of_entity hitem
        obtain ⟨hvalue, hsame⟩ := hkeep x hrow
        refine ⟨struct, d, hstruct, hg ▸ hd, hdk.trans hk.symm, ?_⟩
        rw [reread_shared, rereadShared, valueType_rereadValue, hvalue, hsame published hpub ⟨_, g, k, hold⟩, e', hdty]
      · cases hcmd

/-- In a run whose publications of shared items keep the types of those that are bound, and take up values
of the declared types only, bindings are to items of the declared type, published values are of their
type, and what a cascade sets is of the declared type. -/
theorem cascade_types (h : Reach (fun t cmd _ => KeepsTypes t cmd) t) :
    (∀ id b st g k rk, stateOf t id b = some st → item? st.sharedBindings g k = some rk →
      ∃ struct item, structOf t id = some struct ∧ sharedOf t rk = some item ∧
        (∃ d, (g, d) ∈ struct.allItems ∧ d.key = k) ∧ ∀ d, (g, d) ∈ struct.allItems → d.key = k → item.ty = d.ty) ∧
      (∀ rk item, sharedOf t rk = some item → item.value.valueType = item.ty) ∧
      ∀ c r o ts mode policy now, KeepsTypes t (.sharedPublish c r o ts mode policy) →
        ∀ event ∈ (apply (.sharedPublish c r o ts mode policy) now t).emitted, TypedEvent t event := by
  obtain ⟨hb, hv⟩ := typed_reach h
  have ht := wellPlaced_of_reach h
  refine ⟨?_, hv, fun c r o ts mode policy now hkeep => typedEvents_apply ht (rooted_reach h) hb hkeep now⟩
  intro id b st g k rk hst hk
  obtain ⟨struct, hstruct, ty, item, hty, hitem, e⟩ := hb id g k rk ⟨b, st, hst, hk⟩
  obtain ⟨d, hd, hdk, -, hdty⟩ := mem_of_sharedItems hty
  refine ⟨struct, item, hstruct, hitem, ⟨d, hd, hdk⟩, fun d' hd' hdk' => ?_⟩
  rw [e, ← hdty, (soundStructures_reach h).1 id struct hstruct |>.unique hd hd' (hdk.trans hdk'.symm)]

end

end

section
attribute [local instance] sampleJson

theorem cascade_types_sample :
    ∃ struct item, structOf (runLog boundLog) "p" = some struct ∧ sharedOf (runLog boundLog) "s" = some item ∧
      (∃ d, ("g", d) ∈ struct.allItems ∧ d.key = "k") ∧
        ∀ d, ("g", d) ∈ struct.allItems → d.key = "k" → item.ty = d.ty := by
  have hdrafts : ∀ item ∈ draftsOf (runLog (boundLog.take 4)),
      item.value.valueType = item.ty ∧ sharedOf (runLog (boundLog.take 4)) item.key = none := by decide +kernel
  have hkeep : KeepsTypes (runLog (boundLog.take 4)) (.sharedPublish "" "r1" "" 0 .auto .block) := by
    intro item hitem
    obtain ⟨hty, hnone⟩ := hdrafts _ ((mem_draftsOf (wellPlaced_of_reach (reachable_runLog _))).mpr (entity_of_row hitem))
    exact ⟨by simpa [rereadShared] using hty, fun published h => by cases hnone.symm.trans h⟩
  have hreach : Reach (fun t cmd _ => KeepsTypes t cmd) (runLog boundLog) :=
    .step _ 6 (.step _ 5 (.step _ 4 (.step _ 3 (.step _ 2 (.step _ 1 .empty trivial) trivial) trivial) trivial) hkeep) trivial
  have hbound : (stateOf (runLog boundLog) "p" "dev").map (fun st => item? st.sharedBindings "g" "k") = some (some "s") := by
    decide +kernel
  obtain ⟨st, hst, hk⟩ := Option.map_eq_some_iff.mp hbound
  exact (cascade_types hreach).1 "p" "dev" st "g" "k" "s" hst hk

/-- The shared item becomes an integer, and is published again. -/
def retypedLog : List (Command × Int) := boundLog ++ [
  (.sharedDraftUpdate { key := "s", ty := .int, value := .int 1, version := 0 } "", 7),
  (.sharedPublish "" "r2" "" 0 .auto .block, 8)]

/-- The binding stays, and the cascade sets a text item to a number. -/
theorem cascade_types_fails :
    (apply (.sharedPublish "" "r2" "" 0 .auto .block) 8 (runLog (retypedLog.take 7))).emitted.map (·.changes) =
        [[⟨"g", "k", .upsert, some (.int 1)⟩]] ∧
      ¬ ∀ t, Reachable t → ∀ id b st g k rk, stateOf t id b = some st → item? st.sharedBindings g k = some rk →
        ∃ struct item, structOf t id = some struct ∧ sharedOf t rk = some item ∧
          ∀ d, (g, d) ∈ struct.allItems → d.key = k → item.ty = d.ty := by
  have hfacts : (apply (.sharedPublish "" "r2" "" 0 .auto .block) 8 (runLog (retypedLog.take 7))).emitted.map (·.changes) =
        [[⟨"g", "k", .upsert, some (.int 1)⟩]] ∧
      (stateOf (runLog retypedLog) "p" "dev").map (fun st => item? st.sharedBindings "g" "k") = some (some "s") ∧
      (sharedOf (runLog retypedLog) "s").map (·.ty) = some .int ∧
      (structOf (runLog retypedLog) "p").map (·.allItems) =
        some [("g", { key := "k", ty := .string, shared := true })] := by decide +kernel
  obtain ⟨hevents, hbound, hitem, hstruct⟩ := hfacts
  refine ⟨hevents, fun h => ?_⟩
  obtain ⟨st, hst, hk⟩ := Option.map_eq_some_iff.mp hbound
  obtain ⟨struct, item, hs, hi, hd⟩ := h _ (reachable_runLog retypedLog) "p" "dev" st "g" "k" "s" hst hk
  rw [hs, Option.map_some, Option.some.injEq] at hstruct
  rw [hi, Option.map_some, Option.some.injEq] at hitem
  have := hd { key := "k", ty := .string, shared := true } (by rw [hstruct]; exact List.mem_cons_self) rfl
  rw [hitem] at this
  cases this

end

end Defing
