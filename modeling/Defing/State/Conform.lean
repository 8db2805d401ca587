import Defing.State.Types

/-!
# What publications store

A publication with the policy `block` checks the draft against the structure of
the project, item by item of the structure. A value in the draft that the
structure does not have is not seen by these checks, nor is the value of a
shared item.
-/

namespace Defing

open KV (Prog Plain)

variable {id : ProjectId} {b : BranchName} {t : Store} {cmd : Command} {br br' : Branch} {struct : Structure} {old new : SnapshotMap} {g k rk : String}
  {d : ItemDef} {bindings : Bindings} {draft : ValueDraft}

/-! ## Drafts with their secrets -/

def keepSecret (old : SnapshotMap) (m : ValueDraft) (e : String × ItemDef) : ValueDraft :=
  if e.2.shared ∨ e.2.ty ≠ .secret then m
  else if (item? m e.1 e.2.key).isSome then m
  else
    match item? old e.1 e.2.key with
    | some v => setItem m e.1 e.2.key { value := v, updatedAt := 0 }
    | none => m

theorem item?_keepSecret (old : SnapshotMap) (m : ValueDraft) (e : String × ItemDef) (g k : String) :
    item? (keepSecret old m e) g k = item? m g k ∨ item? m g k = none ∧ e.1 = g ∧ e.2.key = k := by
  unfold keepSecret
  split
  · exact .inl rfl
  · split
    · exact .inl rfl
    · rename_i hnone
      cases item? old e.1 e.2.key with
      | none => exact .inl rfl
      | some v =>
        dsimp only
        rw [item?_setItem]
        by_cases h : e.1 = g ∧ e.2.key = k
        · obtain ⟨rfl, rfl⟩ := h
          exact .inr ⟨by simpa using hnone, rfl, rfl⟩
        · exact .inl (if_neg h)

/-- Secrets that are kept are items of the structure, and all else is the draft. -/
theorem item?_foldl_keepSecret (old : SnapshotMap) (l : List (String × ItemDef)) (m : ValueDraft) (g k : String) :
    item? (l.foldl (keepSecret old) m) g k = item? m g k ∨ item? m g k = none ∧ ∃ d, (g, d) ∈ l ∧ d.key = k := by
  induction l generalizing m with
  | nil => exact .inl rfl
  | cons e l ih =>
    rw [List.foldl_cons]
    rcases ih (keepSecret old m e) with h | ⟨h, d, hm, hk⟩
    · rcases item?_keepSecret old m e g k with h' | ⟨h', rfl, rfl⟩
      · exact .inl (h.trans h')
      · exact .inr ⟨h', e.2, List.mem_cons_self, rfl⟩
    · rcases item?_keepSecret old m e g k with h' | ⟨h', -, -⟩
      · exact .inr ⟨h' ▸ h, d, List.mem_cons_of_mem _ hm, hk⟩
      · exact .inr ⟨h', d, List.mem_cons_of_mem _ hm, hk⟩

theorem item?_keepSecrets_of_some (h : item? draft g k ≠ none) : item? (keepSecrets struct old draft) g k = item? draft g k :=
  (item?_foldl_keepSecret old struct.allItems draft g k).resolve_right fun h' => h h'.1

theorem known_of_keepSecrets (h : item? (keepSecrets struct old draft) g k ≠ none) :
    item? draft g k ≠ none ∨ ∃ d, (g, d) ∈ struct.allItems ∧ d.key = k := by
  rcases item?_foldl_keepSecret old struct.allItems draft g k with h' | ⟨-, h'⟩
  · exact .inl (by rwa [← h'])
  · exact .inr h'

theorem item?_values (draft : ValueDraft) (g k : String) :
    item? (draft.map fun _ items => items.map fun _ (dv : DraftValue) => dv.value) g k =
      (item? draft g k).map (·.value) := by
  rw [item?, item?, Std.ExtTreeMap.getElem?_map]
  cases draft[g]? with
  | none => rfl
  | some items => exact Std.ExtTreeMap.getElem?_map

section
variable [SerdeJson]

/-! ## The checks of a publication -/

theorem valueType_of_validateValue {v : Value} (h : validateValue d v = []) : v.valueType = d.ty := by
  unfold validateValue at h
  split at h
  all_goals first
    | (rename_i hty; exact hty.symm)
    | cases h

/-- A draft without errors has what is required, and values of the declared types. -/
theorem validatePublish_nil (h : validatePublish draft struct = []) (hd : (g, d) ∈ struct.allItems)
    (hs : d.shared = false) :
    (d.required = true → item? draft g d.key ≠ none) ∧ ∀ dv, item? draft g d.key = some dv → dv.value.valueType = d.ty := by
  have hitem := List.flatMap_eq_nil_iff.mp h (g, d) hd
  dsimp only at hitem
  rw [if_neg (by simp [hs])] at hitem
  cases hv : item? draft g d.key with
  | none =>
    rw [hv] at hitem
    refine ⟨fun hr => ?_, fun _ h => by cases h⟩
    simp [hr] at hitem
  | some dv =>
    rw [hv] at hitem
    refine ⟨fun _ => by simp, fun dv' h => ?_⟩
    obtain rfl := Option.some.inj h
    exact valueType_of_validateValue hitem

/-- A shared item is given the value of a published item of its type, or an error is noted. -/
theorem resolveShared_ok (ht : WellPlaced t) {acc acc' : SnapshotMap × List String} {e : String × ItemDef}
    (h : (resolveShared bindings acc e).eval t = .ok acc') :
    e.2.shared = false ∧ acc' = acc ∨ e.2.shared = true ∧ ((∃ err, acc'.2 = acc.2 ++ [err]) ∨
      ∃ rk item, item? bindings e.1 e.2.key = some rk ∧ sharedOf t rk = some item ∧ item.ty = e.2.ty ∧
        acc' = (setItem acc.1 e.1 e.2.key item.value, acc.2)) := by
  obtain ⟨g, d⟩ := e
  by_cases hs : d.shared
  · refine .inr ⟨hs, ?_⟩
    rw [resolveShared, if_pos hs] at h
    cases hk : item? bindings g d.key with
    | none =>
      rw [hk] at h
      cases h
      exact .inl ⟨_, rfl⟩
    | some rk =>
      rw [hk] at h
      dsimp only at h
      have hro : (getShared rk).ReadOnly := loadMerged_readOnly _
      rw [hro.eval_bind_ok (getShared_eval ht rk)] at h
      cases hitem : sharedOf t rk with
      | none =>
        rw [hitem] at h
        cases h
        exact .inl ⟨_, rfl⟩
      | some item =>
        rw [hitem] at h
        dsimp only at h
        split at h
        · cases h
          exact .inl ⟨_, rfl⟩
        · rename_i hty
          cases h
          exact .inr ⟨rk, item, rfl, hitem, not_not.mp hty, rfl⟩
  · rw [resolveShared, if_neg hs] at h
    cases h
    exact .inl ⟨by simpa using hs, rfl⟩

/-- Without errors every shared item has the value of what it is bound to, and other items are left alone. -/
theorem foldlM_resolveShared (ht : WellPlaced t) (l : List (String × ItemDef)) {acc acc' : SnapshotMap × List String}
    (h : (l.foldlM (resolveShared bindings) acc).eval t = .ok acc') (hnil : acc'.2 = []) :
    acc.2 = [] ∧
      (∀ g k, (∀ d, (g, d) ∈ l → d.key = k → d.shared = false) → item? acc'.1 g k = item? acc.1 g k) ∧
      ∀ g d, (g, d) ∈ l → d.shared = true → ∃ rk item, item? bindings g d.key = some rk ∧ sharedOf t rk = some item ∧
        item.ty = d.ty ∧ item? acc'.1 g d.key = some item.value := by
  induction l generalizing acc with
  | nil =>
    cases h
    exact ⟨hnil, fun _ _ _ => rfl, fun _ _ h => absurd h List.not_mem_nil⟩
  | cons e l ih =>
    rw [List.foldlM_cons, (resolveShared_readOnly bindings acc e).eval_bind] at h
    cases he : (resolveShared bindings acc e).eval t with
    | error err => rw [he] at h; cases h
    | ok acc₁ =>
      rw [he] at h
      obtain ⟨hnil₁, hlocal, hshared⟩ := ih h
      rcases resolveShared_ok ht he with ⟨hs, rfl⟩ | ⟨hs, ⟨err, herr⟩ | ⟨rk, item, hk, hitem, hty, rfl⟩⟩
      · refine ⟨hnil₁, fun g k hd => hlocal g k fun d hm => hd d (List.mem_cons_of_mem _ hm), fun g d hm hds => ?_⟩
        rcases List.mem_cons.mp hm with rfl | hm
        · rw [hs] at hds
          cases hds
        · exact hshared g d hm hds
      · rw [herr] at hnil₁
        simp at hnil₁
      · refine ⟨hnil₁, fun g k hd => ?_, fun g d hm hds => ?_⟩
        · rw [hlocal g k fun d hm => hd d (List.mem_cons_of_mem _ hm)]
          refine (item?_setItem _ _ _ _ _ _).trans (if_neg ?_)
          rintro ⟨rfl, rfl⟩
          have := hd e.2 List.mem_cons_self rfl
          rw [hs] at this
          cases this
        · rcases List.mem_cons.mp hm with rfl | hm
          · refine ⟨rk, item, hk, hitem, hty, ?_⟩
            -- a later item of the same group and key is bound to the same
            by_cases hdup : ∃ d', (g, d') ∈ l ∧ d'.key = d.key ∧ d'.shared = true
            · obtain ⟨d', hm', hk', hs'⟩ := hdup
              obtain ⟨rk', item', hrk', hitem', -, hnew⟩ := hshared g d' hm' hs'
              rw [hk', hk] at hrk'
              obtain rfl := Option.some.inj hrk'
              obtain rfl := Option.some.inj (hitem.symm.trans hitem')
              rw [← hk', hnew]
            · rw [hlocal g d.key fun d' hm' hk' => ?_]
              · exact (item?_setItem _ _ _ _ _ _).trans (if_pos ⟨rfl, rfl⟩)
              · by_contra hs'
                exact hdup ⟨d', hm', hk', by simpa using hs'⟩
          · exact hshared g d hm hds

/-! ## Snapshots that conform -/

/-- The snapshot is one of the structure: known items only, none missing that has to be there, the shared
ones as they are published, and all values of the declared types. -/
structure Conforms (t : Store) (struct : Structure) (bindings : Bindings) (snap : SnapshotMap) : Prop where
  known : ∀ g k, item? snap g k ≠ none → ∃ d, (g, d) ∈ struct.allItems ∧ d.key = k
  required : ∀ g d, (g, d) ∈ struct.allItems → d.shared = false → d.required = true → item? snap g d.key ≠ none
  shared : ∀ g d, (g, d) ∈ struct.allItems → d.shared = true → ∃ rk item, item? bindings g d.key = some rk ∧
    sharedOf t rk = some item ∧ item? snap g d.key = some item.value
  typed : ∀ g d v, (g, d) ∈ struct.allItems → item? snap g d.key = some v → v.valueType = d.ty

/-- The draft has only items of the structure, and what the shared items of the structure are bound to has
a value of its type, which is steady if it is `printed`. -/
structure Publishes (t : Store) (struct : Structure) (st : BranchState) (printed : String → String → Value → Prop) : Prop where
  known : ∀ g k, item? st.valueDraft g k ≠ none → ∃ d, (g, d) ∈ struct.allItems ∧ d.key = k
  typed : ∀ g d rk item, (g, d) ∈ struct.allItems → d.shared = true → item? st.sharedBindings g d.key = some rk →
    sharedOf t rk = some item → item.value.valueType = item.ty
  steady : ∀ g d rk item, (g, d) ∈ struct.allItems → d.shared = true → item? st.sharedBindings g d.key = some rk →
    sharedOf t rk = some item → printed g d.key item.value → Steady item.value

theorem materialize_block (ht : WellPlaced t) {st : BranchState} {errs : List String}
    (h : (materializeResolved st struct old .block).eval t = .ok (new, errs)) :
    validatePublish (keepSecrets struct old st.valueDraft) struct = [] ∧
      (∀ g k, (∀ d, (g, d) ∈ struct.allItems → d.key = k → d.shared = false) →
        item? new g k = (item? (keepSecrets struct old st.valueDraft) g k).map (·.value)) ∧
      ∀ g d, (g, d) ∈ struct.allItems → d.shared = true → ∃ rk item, item? st.sharedBindings g d.key = some rk ∧
        sharedOf t rk = some item ∧ item.ty = d.ty ∧ item? new g d.key = some item.value := by
  have hs : (materializeResolved st struct old .block).exec ⟨t, []⟩ = (.ok (new, errs), ⟨t, []⟩) :=
    (materializeResolved_readOnly _ _ _ _).exec_ok.mpr ⟨h, rfl⟩
  obtain ⟨acc, hacc, hs⟩ := (foldlM_readOnly (resolveShared_readOnly _) _ _).exec_bind_ok.mp hs
  obtain ⟨hblock, hs⟩ := ensure_bind.mp hs
  obtain ⟨he, -⟩ := pure_ok.mp hs
  obtain rfl : acc = (new, errs) := he
  have hnil : errs = [] := by simpa using hblock
  obtain ⟨hvalid, hlocal, hshared⟩ := foldlM_resolveShared ht _ hacc hnil
  exact ⟨hvalid, fun g k hd => (hlocal g k hd).trans (item?_values _ g k), hshared⟩

section
variable {st : BranchState} {errs : List String} {snap : SnapshotMap} {printed : String → String → Value → Prop}
  [∀ g k v, Decidable (printed g k v)]

theorem valueType_printed (g k : String) (v : Value) :
    (if printed g k v then rereadValue v else v).valueType = v.valueType := by
  split
  · exact valueType_rereadValue v
  · rfl

theorem isSome_printed (hsnap : ∀ g k, item? snap g k = (item? new g k).map fun v => if printed g k v then rereadValue v else v)
    (g k : String) : item? snap g k ≠ none ↔ item? new g k ≠ none := by
  rw [hsnap]
  simp

theorem publishes_of_conforms (ht : WellPlaced t)
    (h : (materializeResolved st struct old .block).eval t = .ok (new, errs))
    (hsnap : ∀ g k, item? snap g k = (item? new g k).map fun v => if printed g k v then rereadValue v else v)
    (hc : Conforms t struct st.sharedBindings snap) : Publishes t struct st printed := by
  obtain ⟨-, hlocal, hshared⟩ := materialize_block ht h
  have hvalue : ∀ g d rk item, (g, d) ∈ struct.allItems → d.shared = true → item? st.sharedBindings g d.key = some rk →
      sharedOf t rk = some item → item.ty = d.ty ∧
        item? snap g d.key = some (if printed g d.key item.value then rereadValue item.value else item.value) := by
    intro g d rk item hd hs hrk hitem
    obtain ⟨rk', item', hrk', hitem', hty, hnew⟩ := hshared g d hd hs
    obtain rfl := Option.some.inj (hrk.symm.trans hrk')
    obtain rfl := Option.some.inj (hitem.symm.trans hitem')
    exact ⟨hty, by rw [hsnap, hnew]; rfl⟩
  refine ⟨fun g k hk => ?_, fun g d rk item hd hs hrk hitem => ?_, fun g d rk item hd hs hrk hitem hp => ?_⟩
  · by_contra hnot
    have hnew := hlocal g k fun d hd hdk => absurd ⟨d, hd, hdk⟩ hnot
    rw [item?_keepSecrets_of_some hk] at hnew
    refine hnot (hc.known g k ((isSome_printed hsnap g k).mpr ?_))
    rw [hnew]
    simpa using hk
  · obtain ⟨hty, hread⟩ := hvalue g d rk item hd hs hrk hitem
    rw [hty, ← hc.typed g d _ hd hread, valueType_printed]
  · obtain ⟨-, hread⟩ := hvalue g d rk item hd hs hrk hitem
    obtain ⟨rk', item', hrk', hitem', hsame⟩ := hc.shared g d hd hs
    obtain rfl := Option.some.inj (hrk.symm.trans hrk')
    obtain rfl := Option.some.inj (hitem.symm.trans hitem')
    rw [if_pos hp] at hread
    exact Option.some.inj (hread.symm.trans hsame)

theorem conforms_of_publishes (ht : WellPlaced t) (hsound : Sound struct.groups)
    (h : (materializeResolved st struct old .block).eval t = .ok (new, errs))
    (hsnap : ∀ g k, item? snap g k = (item? new g k).map fun v => if printed g k v then rereadValue v else v)
    (hp : Publishes t struct st printed) : Conforms t struct st.sharedBindings snap := by
  obtain ⟨hvalid, hlocal, hshared⟩ := materialize_block ht h
  have hown : ∀ g d, (g, d) ∈ struct.allItems → d.shared = false →
      item? new g d.key = (item? (keepSecrets struct old st.valueDraft) g d.key).map (·.value) := by
    intro g d hd hs
    exact hlocal g d.key fun d' hd' hk => hsound.unique hd' hd hk ▸ hs
  refine ⟨fun g k hk => ?_, fun g d hd hs hr => ?_, fun g d hd hs => ?_, fun g d v hd hv => ?_⟩
  · by_contra hnot
    rw [isSome_printed hsnap, hlocal g k fun d hd hdk => absurd ⟨d, hd, hdk⟩ hnot] at hk
    have hdraft : item? (keepSecrets struct old st.valueDraft) g k ≠ none := fun h => hk (by rw [h]; rfl)
    rcases known_of_keepSecrets hdraft with hk | hk
    · exact hnot (hp.known g k hk)
    · exact hnot hk
  · rw [isSome_printed hsnap, hown g d hd hs]
    simpa using (validatePublish_nil hvalid hd hs).1 hr
  · obtain ⟨rk, item, hrk, hitem, -, hnew⟩ := hshared g d hd hs
    refine ⟨rk, item, hrk, hitem, ?_⟩
    rw [hsnap, hnew, Option.map_some]
    split
    · rename_i hprint
      exact congrArg some (hp.steady g d rk item hd hs hrk hitem hprint)
    · rfl
  · rw [hsnap] at hv
    obtain ⟨v', hv', rfl⟩ := Option.map_eq_some_iff.mp hv
    rw [valueType_printed]
    cases hs : d.shared with
    | false =>
      rw [hown g d hd hs] at hv'
      obtain ⟨dv, hdv, rfl⟩ := Option.map_eq_some_iff.mp hv'
      exact (validatePublish_nil hvalid hd hs).2 dv hdv
    | true =>
      obtain ⟨rk, item, hrk, hitem, hty, hnew⟩ := hshared g d hd hs
      obtain rfl := Option.some.inj (hnew.symm.trans hv')
      rw [hp.typed g d rk item hd hs hrk hitem, hty]

/-- What a publication that blocks stores conforms exactly if the draft has no items but those of the
structure, and the shared items it takes up are of their types and are read as they are printed. -/
theorem conforms_iff (ht : WellPlaced t) (hsound : Sound struct.groups)
    (h : (materializeResolved st struct old .block).eval t = .ok (new, errs))
    (hsnap : ∀ g k, item? snap g k = (item? new g k).map fun v => if printed g k v then rereadValue v else v) :
    Conforms t struct st.sharedBindings snap ↔ Publishes t struct st printed :=
  ⟨publishes_of_conforms ht h hsnap, conforms_of_publishes ht hsound h hsnap⟩

end

/-! ## Drafts of known items -/

/-- The shared items that a publication puts in their place are read there with values that are steady. -/
def SharesSteady (t : Store) : Command → Prop
  | .sharedPublish .. => ∀ item : SharedItem, sharedDraftOf t item.key = some item → Steady (rereadValue item.value)
  | _ => True

/-- A new branch takes over items of the structure only, and shared items are published with a value of
their type, one that stays as it is. -/
def KeepsForm (t : Store) : Command → Prop
  | .branchCreate id _ (some src) _ _ => ∀ st snap struct, stateOf t id src = some st →
      contents t id src st.activeVersion = some snap → structOf t id = some struct →
        ∀ g k, item? snap g k ≠ none → known struct g k
  | cmd => SharesTyped t cmd ∧ SharesSteady t cmd

/-- The draft of a branch has only items of the structure of its project, which is there. -/
def KnownDraft (t : Store) (id : ProjectId) (br : Branch) : Prop :=
  ∀ st, br.state = some st → ∀ g k, item? st.valueDraft g k ≠ none →
    (entity Project t (projectKey id)).isSome ∧ ∀ struct, structOf t id = some struct → known struct g k

omit [SerdeJson] in
theorem item?_draftOf {now : Int} {snap : SnapshotMap} (h : item? (draftOf struct now snap) g k ≠ none) :
    item? snap g k ≠ none := by
  intro hnone
  refine h ((item?_mapGroups (fun g items => (items.filter fun k _ => (item? (sharedItems struct) g k).isNone).map
    fun _ value => ({ value, updatedAt := now } : DraftValue)) snap).trans ?_)
  rw [item?] at hnone
  cases hg : snap[g]? with
  | none => rfl
  | some items =>
    rw [hg, Option.bind_some] at hnone
    rw [Option.bind_some, Std.ExtTreeMap.getElem?_map, Std.ExtTreeMap.getElem?_filter', hnone]
    rfl

theorem updates_ok {index : StrMap (StrMap ItemDef)} (us : List DraftUpdateItem) {n m : Nat}
    (h : (us.foldlM (checkUpdate index draft) n).eval t = .ok m) :
    ∀ u ∈ us, ∃ d, item? index u.group u.key = some d := by
  induction us generalizing n with
  | nil => exact fun _ h => absurd h List.not_mem_nil
  | cons u us ih =>
    rw [List.foldlM_cons, (checkUpdate_readOnly index draft n u).eval_bind] at h
    cases hc : (checkUpdate index draft n u).eval t with
    | error e => rw [hc] at h; cases h
    | ok n₁ =>
      rw [hc] at h
      refine List.forall_mem_cons.mpr ⟨?_, ih h⟩
      have hs : (checkUpdate index draft n u).exec ⟨t, []⟩ = (.ok n₁, ⟨t, []⟩) :=
        (checkUpdate_readOnly index draft n u).exec_ok.mpr ⟨hc, rfl⟩
      obtain ⟨d, hd, -⟩ := okOr_bind.mp hs
      exact ⟨d, hd⟩

theorem Move.knownDraft (ht : WellPlaced t) (hr : Rooted t) (hk : KeepsForm t cmd) {events : List PublishEvent}
    {ws : List VersionWrite} (h : Move t id b cmd br events ws br') (hd : KnownDraft t id br) : KnownDraft t id br' := by
  have hproject : ∀ {b st}, stateOf t id b = some st → (entity Project t (projectKey id)).isSome := fun hst =>
    hr id _ (named_of_stateOf ht hst) (by rw [hst]; rfl)
  have hread : ∀ {draft : ValueDraft} {g k : String}, item? (rereadDraft draft) g k ≠ none → item? draft g k ≠ none := by
    intro draft g k h hnone
    rw [item?_rereadDraft, hnone] at h
    exact h rfl
  intro st' hst' g k hitem
  cases h with
  | create hs h =>
    cases hst'
    replace hitem := hread hitem
    cases h with
    | bare v => exact absurd item?_empty hitem
    | copy at_ hsrc hsnap =>
      refine ⟨hproject hsrc, fun struct hstruct => hk _ _ _ hsrc hsnap hstruct g k ?_⟩
      exact item?_draftOf hitem
  | edit hat hs h =>
    cases hst'
    replace hitem := hread hitem
    cases h with
    | @draft us ds bs o ts rev struct bindings changed n at_ hrev hstruct hus hbind =>
      rcases (item_foldl_setItem (fun u : DraftUpdateItem => (u.group, u.key))
        (fun u => ({ value := u.value, updatedAt := at_ } : DraftValue)) us _).mp hitem with ⟨u, hu, e⟩ | hold
      · obtain ⟨rfl, rfl⟩ := Prod.mk.inj e
        subst hat
        obtain ⟨d, hd⟩ := updates_ok us hus u hu
        refine ⟨hproject hs, fun struct' hstruct' => ?_⟩
        obtain rfl := Option.some.inj (hstruct.symm.trans hstruct')
        exact known_iff.mpr ⟨d, mem_of_itemIndex hd⟩
      · refine hd _ hs g k fun hnone => hold ?_
        exact (item?_foldl_removeItem (fun e : String × String => e) ds _).trans (by rw [hnone, ite_self])
    | grayPublish => exact absurd item?_empty hitem
    | grayAbort => exact hd _ hs g k hitem
  | release record hs ho h =>
    cases hst'
    replace hitem := hread hitem
    cases h with
    | publish => exact absurd item?_empty hitem
    | rollback => exact hd _ hs g k hitem
    | grayPromote => exact hd _ hs g k hitem
    | restructure hat hpub hstruct hdraft hbind =>
      refine hd _ hs g k fun hnone => hitem ?_
      rw [item?_pruneDraft, hnone]
      simp
    | cascade => exact hd _ hs g k hitem

/-- Drafts of known items stay such, under the structure the project then has. -/
theorem knownDrafts_apply (ht : WellPlaced t) (hr : Rooted t) (hk : KeepsForm t cmd) (now : Int)
    (hd : ∀ id b, Named id b → KnownDraft t id (branchAt t id b)) :
    ∀ id b, Named id b → KnownDraft (apply cmd now t).store id (branchAt (apply cmd now t).store id b) := by
  intro id b hn st' hst' g k hitem
  have hi := hn.plain.1
  rw [state_branchAt] at hst'
  refine ⟨rooted_apply ht hr cmd now id b hn (by rw [hst']; rfl), fun struct hstruct => ?_⟩
  by_cases hc : removesBranches cmd
  · rcases apply_removes ht hc now hn with ⟨hb, hp⟩ | hb
    · rw [← state_branchAt, hb] at hst'
      exact (hd id b hn st' hst' g k hitem).2 struct ((structOf_same hi hp).symm.trans hstruct)
    · rw [← state_branchAt, hb] at hst'
      cases hst'
  by_cases hpub : ∃ c r o ts policy, cmd = .publishStructure id c r o ts policy
  · obtain ⟨c, r, o, ts, policy, rfl⟩ := hpub
    cases hres : (apply (.publishStructure id c r o ts policy) now t).result with
    | error e =>
      rw [← state_branchAt, branchAt_of_error ht hres hn] at hst'
      exact (hd id b hn st' hst' g k hitem).2 struct ((structOf_of_error ht hi hres).symm.trans hstruct)
    | ok events =>
      -- the draft has been pruned to the new structure
      obtain ⟨st, struct', -, hnew, hprune, -⟩ := apply_restructured ht hres hn hst'
      obtain rfl := Option.some.inj (hstruct.symm.trans hnew)
      by_contra hunknown
      refine hitem ?_
      rw [hprune, item?_rereadDraft, item?_pruneDraft, if_neg hunknown, ite_self]
      rfl
  · have hafter := (apply_course ht hr hc now).invariant (I := fun id _ br => KnownDraft t id br)
      (fun _ hb hm => hm.knownDraft ht hr hk hb) hd id b hn
    obtain ⟨hproject, hknown⟩ := hafter st' hst' g k hitem
    exact hknown struct ((structOf_kept ht hi hproject hc hpub now).symm.trans hstruct)

theorem KeepsForm.shares (h : KeepsForm t cmd) : SharesTyped t cmd ∧ SharesSteady t cmd := by
  cases cmd <;> first | exact ⟨trivial, trivial⟩ | exact h

def SteadyValues (t : Store) : Prop := ∀ rk item, sharedOf t rk = some item → Steady item.value

theorem steadyValues_apply (ht : WellPlaced t) (hshares : SharesSteady t cmd) (now : Int) (h : SteadyValues t) :
    SteadyValues (apply cmd now t).store := by
  intro rk item hitem
  have hafter := sharedOf_apply ht cmd now rk
  generalize hnew : sharedOf (apply cmd now t).store rk = o at hafter
  cases hafter with
  | kept => exact h rk item (hnew.symm.trans hitem)
  | published hcmd hkey hdraft =>
    subst hcmd hkey
    obtain rfl := Option.some.inj (hnew.symm.trans hitem)
    have hsteady := hshares _ hdraft
    exact hsteady
  | deleted => cases hnew.symm.trans hitem

theorem publishes_reach (h : Reach (fun t cmd _ => KeepsForm t cmd) t) :
    (∀ id b, Named id b → KnownDraft t id (branchAt t id b)) ∧ TypedValues t ∧ SteadyValues t := by
  induction h with
  | empty =>
    refine ⟨fun id b _ st hst => ?_, fun rk item hitem => ?_, fun rk item hitem => ?_⟩
    · simp [branchAt, Branch.state] at hst
    · simp [sharedOf, entity] at hitem
    · simp [sharedOf, entity] at hitem
  | step cmd now hreach hkeep ih =>
    have ht := wellPlaced_of_reach hreach
    exact ⟨knownDrafts_apply ht (rooted_reach hreach) hkeep now ih.1, typedValues_apply ht hkeep.shares.1 now ih.2.1,
      steadyValues_apply ht hkeep.shares.2 now ih.2.2⟩

/-! ## Publications -/

section
variable {st : BranchState} {c r o : String} {ts now : Int} {events : List PublishEvent}

theorem publish_stores (ht : WellPlaced t) (hst : stateOf t id b = some st) (hstruct : structOf t id = some struct)
    (hr : st.lastRequestId ≠ some r) (hok : (apply (.publish id b c r o ts .block) now t).result = .ok events) :
    ∃ old new errs, (activeSnapshot id b st).eval t = .ok old ∧
      (materializeResolved st struct old .block).eval t = .ok (new, errs) ∧
      (snapshotOf id b (st.activeVersion + 1)).eval (apply (.publish id b c r o ts .block) now t).store =
        .ok (readBack (st.activeVersion + 1) old new) := by
  have hn := named_of_stateOf ht hst
  have ht' := wellPlaced_apply ht (.publish id b c r o ts .block) now
  obtain ⟨s, hs, hstore, -⟩ := apply_ok hok
  rw [hstore] at ht' ⊢
  rcases applyPublish_moves (o := o) ht ts hs with ⟨st', hst', hr', -⟩ | hmoves
  · obtain rfl := Option.some.inj (hst.symm.trans hst')
    exact absurd hr' hr
  · obtain ⟨ws, hmove, -⟩ := hmoves.move
    generalize hbr : branchAt s.kv id b = br' at hmove
    cases hmove with
    | create hnone _ => cases hst.symm.trans hnone
    | edit _ _ h => cases h
    | @release st' _ old new _ _ record hs' ho h =>
      obtain rfl := Option.some.inj (hst.symm.trans hs')
      cases h with
      | publish hat hr hp hstruct' hm =>
        obtain rfl := Option.some.inj (hstruct.symm.trans hstruct')
        refine ⟨old, new, _, (activeSnapshot_eval ht hn).mpr ho, hm, (snapshotOf_eval ht' hn.plain.1 hn.plain.2 _ _).mpr ?_⟩
        rw [← contents_branchAt, hbr]
        exact Branch.contents_write ho new record

theorem grayPublish_stores {rule : GrayRule} (ht : WellPlaced t) (hst : stateOf t id b = some st) (hstruct : structOf t id = some struct)
    (hr : st.lastRequestId ≠ some r) (hok : (apply (.grayPublish id b rule c r o ts .block) now t).result = .ok events) :
    ∃ old new errs, (materializeResolved st struct old .block).eval t = .ok (new, errs) ∧
      (graySnapshotOf id b (st.graySeq + 1)).eval (apply (.grayPublish id b rule c r o ts .block) now t).store =
        .ok (rereadSnapshot new) := by
  have hn := named_of_stateOf ht hst
  have ht' := wellPlaced_apply ht (.grayPublish id b rule c r o ts .block) now
  obtain ⟨s, hs, hstore, -⟩ := apply_ok hok
  rw [hstore] at ht' ⊢
  change (applyGrayPublish id b rule c r (effTs ts now) o .block).exec _ = _ at hs
  rcases applyGrayPublish_moves (o := o) ht ts hs with ⟨st', hst', hr', -⟩ | hmoves
  · obtain rfl := Option.some.inj (hst.symm.trans hst')
    exact absurd hr' hr
  · obtain ⟨ws, hmove, -⟩ := hmoves.move
    generalize hbr : branchAt s.kv id b = br' at hmove
    cases hmove with
    | create hnone _ => cases hst.symm.trans hnone
    | release _ _ _ h => cases h
    | @edit st' _ _ _ hat hs' h =>
      obtain rfl := Option.some.inj (hst.symm.trans hs')
      cases h with
      | @grayPublish _ _ _ _ _ _ _ old new errs hrule hr hp hstruct' ho hm =>
        obtain rfl := Option.some.inj (hstruct.symm.trans hstruct')
        refine ⟨old, new, errs, hm, (graySnapshotOf_ok ht' hn).mpr ?_⟩
        have hrow : (branchAt s.kv id b).gray (st.graySeq + 1) = some (Codec.encode new) := by
          rw [hbr, Branch.gray_become]
          split
          · rw [Function.update_of_ne (Nat.succ_ne_self _), Function.update_self]
          · exact Function.update_self _ _ _
        rw [hrow]
        exact decodes_encode new

end

/-- In every reachable store, what a publication that blocks stores conforms to the structure exactly if the
draft has items of the structure only, and what its shared items are bound to has a value of its type, and
one that is read as it is printed if it is printed. In a run whose new branches take over known items only,
and whose shared items have values of their types that stay as they are, that is always so. -/
theorem publication_conforms {allowed : Store → Command → Int → Prop} (h : Reach allowed t) {st : BranchState}
    (hst : stateOf t id b = some st) (hstruct : structOf t id = some struct) {r : String}
    (hr : st.lastRequestId ≠ some r) :
    (∀ c o ts now events, (apply (.publish id b c r o ts .block) now t).result = .ok events →
      ∃ old snap, (activeSnapshot id b st).eval t = .ok old ∧
        (snapshotOf id b (st.activeVersion + 1)).eval (apply (.publish id b c r o ts .block) now t).store = .ok snap ∧
        (Conforms t struct st.sharedBindings snap ↔ Publishes t struct st (Printed (st.activeVersion + 1) old))) ∧
      (∀ rule c o ts now events, (apply (.grayPublish id b rule c r o ts .block) now t).result = .ok events →
        ∃ snap, (graySnapshotOf id b (st.graySeq + 1)).eval
            (apply (.grayPublish id b rule c r o ts .block) now t).store = .ok snap ∧
          (Conforms t struct st.sharedBindings snap ↔ Publishes t struct st fun _ _ _ => True)) ∧
      (Reach (fun t cmd _ => KeepsForm t cmd) t → ∀ printed, Publishes t struct st printed) := by
  have ht := wellPlaced_of_reach h
  have hsound : Sound struct.groups := (soundStructures_reach h).1 id struct hstruct
  refine ⟨fun c o ts now events hok => ?_, fun rule c o ts now events hok => ?_, fun hform printed => ?_⟩
  · obtain ⟨old, new, errs, hold, hm, hread⟩ := publish_stores ht hst hstruct hr hok
    exact ⟨old, _, hold, hread, conforms_iff ht hsound hm (item?_readBack _ old new)⟩
  · obtain ⟨old, new, errs, hm, hread⟩ := grayPublish_stores ht hst hstruct hr hok
    exact ⟨_, hread, conforms_iff ht hsound hm fun g k => by simp [item?_rereadSnapshot]⟩
  · obtain ⟨hknown, htyped, hsteady⟩ := publishes_reach hform
    have hn := named_of_stateOf ht hst
    exact ⟨fun g k hk => known_iff.mp ((hknown id b hn st hst g k hk).2 struct hstruct),
      fun _ _ rk item _ _ _ hitem => htyped rk item hitem, fun _ _ rk item _ _ _ hitem _ => hsteady rk item hitem⟩

end

section
attribute [local instance] sampleJson

def draftedLog : List (Command × Int) := structureLog ++ [
  (.draftUpdate "p" "x" [⟨"g", "k", .string "v"⟩] [] [] "" 0 none, 5)]

theorem publication_conforms_sample :
    ∃ st struct snap, stateOf (runLog draftedLog) "p" "x" = some st ∧ structOf (runLog draftedLog) "p" = some struct ∧
      (snapshotOf "p" "x" (st.activeVersion + 1)).eval (apply (.publish "p" "x" "" "r1" "" 0 .block) 6 (runLog draftedLog)).store = .ok snap ∧
      Conforms (runLog draftedLog) struct st.sharedBindings snap := by
  have hfacts : (stateOf (runLog draftedLog) "p" "x").map (·.lastRequestId) = some none ∧
      (structOf (runLog draftedLog) "p").isSome ∧
      (apply (.publish "p" "x" "" "r1" "" 0 .block) 6 (runLog draftedLog)).result.toOption.isSome := by decide +kernel
  obtain ⟨hlast, hstruct, hok⟩ := hfacts
  obtain ⟨st, hst, hr⟩ := Option.map_eq_some_iff.mp hlast
  obtain ⟨struct, hstruct⟩ := Option.isSome_iff_exists.mp hstruct
  have hform : Reach (fun t cmd _ => KeepsForm t cmd) (runLog draftedLog) :=
    .step _ 5 (.step _ 4 (.step _ 3 (.step _ 2 (.step _ 1 .empty ⟨trivial, trivial⟩) ⟨trivial, trivial⟩) ⟨trivial, trivial⟩)
      ⟨trivial, trivial⟩) ⟨trivial, trivial⟩
  obtain ⟨hpublish, -, hpublishes⟩ := publication_conforms hform hst hstruct (r := "r1") (by rw [hr]; decide)
  cases hres : (apply (.publish "p" "x" "" "r1" "" 0 .block) 6 (runLog draftedLog)).result with
  | error e => rw [hres] at hok; cases hok
  | ok events =>
    obtain ⟨old, snap, -, hsnap, hiff⟩ := hpublish "" "" 0 6 events hres
    exact ⟨st, struct, snap, hst, hstruct, hsnap, hiff.mpr (hpublishes hform _)⟩

/-- A value published; then the structure has another item instead, and a branch is made from the published one. -/
def copiedLog : List (Command × Int) := draftedLog ++ [
  (.publish "p" "x" "" "r1" "" 0 .block, 6),
  (.structureDraftSet "p" 2 [{ name := "g", items := [{ key := "j", ty := .string }] }] "", 7),
  (.publishStructure "p" "" "r2" "" 0 .block, 8),
  (.branchCreate "p" "y" (some "x") "" 0, 9)]

/-- The new branch is published with a value of no item. -/
theorem publication_conforms_fails :
    ¬ ∀ t, Reachable t → ∀ id b st struct, stateOf t id b = some st → structOf t id = some struct →
      ∀ c r o ts now events, st.lastRequestId ≠ some r →
        (apply (.publish id b c r o ts .block) now t).result = .ok events →
          ∃ snap, (snapshotOf id b (st.activeVersion + 1)).eval (apply (.publish id b c r o ts .block) now t).store = .ok snap ∧
            Conforms t struct st.sharedBindings snap := by
  intro h
  have hfacts : (stateOf (runLog copiedLog) "p" "y").map (fun st => (st.activeVersion, st.lastRequestId)) = some (0, none) ∧
      (structOf (runLog copiedLog) "p").map (·.allItems) = some [("g", { key := "j", ty := .string })] ∧
      (apply (.publish "p" "y" "" "r3" "" 0 .block) 10 (runLog copiedLog)).result.toOption.isSome ∧
      ((snapshotOf "p" "y" 1).eval (apply (.publish "p" "y" "" "r3" "" 0 .block) 10 (runLog copiedLog)).store).toOption.map
        (fun snap => item? snap "g" "k") = some (some (.string "v")) := by decide +kernel
  obtain ⟨hlast, hitems, hok, hkept⟩ := hfacts
  obtain ⟨st, hst, e⟩ := Option.map_eq_some_iff.mp hlast
  obtain ⟨hactive, hr⟩ := Prod.mk.inj e
  obtain ⟨struct, hstruct, hitems⟩ := Option.map_eq_some_iff.mp hitems
  cases hres : (apply (.publish "p" "y" "" "r3" "" 0 .block) 10 (runLog copiedLog)).result with
  | error e => rw [hres] at hok; cases hok
  | ok events =>
    obtain ⟨snap, hsnap, hconforms⟩ := h _ (reachable_runLog copiedLog) "p" "y" st struct hst hstruct "" "r3" "" 0 10
      events (by rw [hr]; decide) hres
    rw [hactive, Nat.zero_add] at hsnap
    rw [hsnap] at hkept
    have hk : item? snap "g" "k" = some (.string "v") := Option.some.inj hkept
    obtain ⟨d, hd, hdk⟩ := hconforms.known "g" "k" (by rw [hk]; exact Option.some_ne_none _)
    rw [hitems, List.mem_singleton] at hd
    obtain ⟨-, rfl⟩ := Prod.mk.inj hd
    exact absurd hdk (by decide)

end

end Defing
