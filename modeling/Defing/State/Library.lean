import Defing.Core.Structures
import Defing.State.Always

/-!
# Structures and the library of shared items

What a command makes of the structure of a project, of its draft, and of a
published shared item.
-/

namespace Defing

open KV (Prog Plain segments)

variable {id : ProjectId} {b : BranchName} {t : Store} {s : State} {cmd : Command} {now : Int} {rk : String}
  {events : List PublishEvent}

/-! ## Keys -/

theorem not_account_sharedKey (key : String) : ¬ AccountKey (sharedKey key) := by
  simp [AccountKey, segments_sharedKey]

theorem not_startsWith_sharedKey (id key : String) : ¬ startsWith (projectKey id) (sharedKey key) := by
  intro h
  obtain ⟨c, hc⟩ := startsWith_iff.mp h
  simp [projectKey, sharedKey, kProject, kShared] at hc

theorem head_sharedKey (key : String) : (sharedKey key).toList.head? = some 's' := by
  simp [sharedKey, kShared]

theorem ne_sharedKey {k : String} (h : k.toList.head? = some 'p') (key : String) : sharedKey key ≠ k := by
  rintro rfl
  rw [head_sharedKey] at h
  cases h

theorem count_structKey (hi : Plain id) :
    (structKey id).toList.count '/' = 2 ∧ (structDraftKey id).toList.count '/' = 2 := by
  have h : id.toList.count '/' = 0 := List.count_eq_zero_of_not_mem hi
  constructor
  · simp [structKey, kProject, kStruct, h]
  · simp [structDraftKey, kProject, kStructDraft, h]

theorem count_branchPrefix (id : ProjectId) (b : BranchName) : 3 ≤ (branchPrefix id b).toList.count '/' := by
  simp [branchPrefix, kProject, kBranch]
  omega

theorem not_startsWith_branchPrefix {k : String} (hk : k.toList.count '/' ≤ 2) {p : ProjectId} :
    ¬ startsWith (branchPrefix p b) k := by
  intro h
  obtain ⟨c, hc⟩ := startsWith_iff.mp h
  have := count_branchPrefix p b
  rw [← hc, List.count_append] at hk
  omega

theorem startsWith_branchStateKey (id : ProjectId) (b : BranchName) :
    startsWith (branchPrefix id b) (branchStateKey id b) :=
  startsWith_iff.mpr ⟨kState.toList, by simp [branchPrefix, branchStateKey]⟩

theorem structKey_ne_structDraftKey {p : ProjectId} : structKey id ≠ structDraftKey p := by
  intro e
  have := congrArg (fun s : String => (s.toList.reverse.take 2)) e
  simp [structKey, structDraftKey, kStruct, kStructDraft] at this

theorem projectKey_ne_struct (p : ProjectId) (hi : Plain id) :
    projectKey id ≠ structKey p ∧ projectKey id ≠ structDraftKey p := by
  have hcount : (projectKey id).toList.count '/' = 1 := by
    simp [projectKey, kProject, List.count_eq_zero_of_not_mem hi]
  constructor
  · intro e
    rw [e] at hcount
    simp [structKey, kProject, kStruct] at hcount
  · intro e
    rw [e] at hcount
    simp [structDraftKey, kProject, kStructDraft] at hcount

theorem keyOfProject_structKey (id : ProjectId) : KeyOfProject id (structKey id) := by
  refine .inr (startsWith_iff.mpr ⟨"struct".toList, ?_⟩)
  simp [structKey, projectKey, kProject, kStruct]

def writesStructure (id : ProjectId) : Command → Prop
  | .projectCreate name .. => ¬ Plain name ∨ name = id
  | .projectDelete .. => True
  | .publishStructure p .. => p = id
  | _ => False

def writesProjectRow (k : String) : Command → Prop
  | .projectCreate name .. => k = projectKey name ∨ k = structKey name
  | .projectDelete .. => True
  | .structureDraftSet p .. => k = structDraftKey p
  | .publishStructure p .. => k = structKey p ∨ k = structDraftKey p
  | _ => False

theorem not_touches_projectRow {k : String} {tail : List String} (hseg : segments k = "p" :: id :: tail)
    (htail : tail.head? ≠ some "b") (hcount : k.toList.count '/' ≤ 2) (hc : ¬ writesProjectRow k cmd) : ¬ touches cmd k := by
  have hbranch : ∀ p b, ¬ UnderBranch p b k := by
    intro p b ⟨tail', h⟩
    rw [hseg] at h
    simp only [List.cons.injEq, true_and] at h
    exact htail (by rw [h.2]; rfl)
  have hout : ¬ OutsideProjects k := by simp [OutsideProjects, hseg]
  intro h
  cases cmd <;> try exact hout h
  case projectCreate name o ts src =>
    rcases h with h | h | h | ⟨b, -, h⟩
    · exact hc (.inl h)
    · rw [h, segments_idxPname] at hseg
      simp at hseg
    · exact hc (.inr h)
    · exact not_startsWith_branchPrefix hcount (h ▸ startsWith_branchStateKey name b)
  case projectDelete => exact hc trivial
  case branchCreate p b src o ts => exact not_startsWith_branchPrefix hcount (h ▸ startsWith_branchStateKey p b)
  case branchDelete p b o => exact not_startsWith_branchPrefix hcount h
  case structureDraftSet => exact hc h
  case publishStructure p c r o ts policy =>
    rcases h with h | h | ⟨b, h⟩
    · exact hc (.inl h)
    · exact hc (.inr h)
    · exact hbranch _ _ h
  case draftUpdate | publish | rollback | grayPublish | grayPromote | grayAbort => exact hbranch _ _ h
  case sharedPublish =>
    rcases h with h | ⟨p, b, h⟩
    · exact hout h
    · exact hbranch _ _ h

theorem not_touches_structKey (hi : Plain id) (hc : ¬ writesStructure id cmd) : ¬ touches cmd (structKey id) := by
  have hseg := segments_structKey hi
  refine not_touches_projectRow hseg (by simp) (count_structKey hi).1.le fun h => hc ?_
  cases cmd <;> try exact h.elim
  case projectCreate name o ts src =>
    rcases h with h | h
    · refine .inl fun hname => ?_
      rw [h, segments_projectKey hname] at hseg
      simp at hseg
    · exact .inr (structKey_inj.mp h).symm
  case projectDelete => exact trivial
  case structureDraftSet => exact (structKey_ne_structDraftKey h).elim
  case publishStructure =>
    rcases h with h | h
    · exact (structKey_inj.mp h).symm
    · exact (structKey_ne_structDraftKey h).elim

def writesStructureDraft (id : ProjectId) : Command → Prop
  | .projectCreate name .. => ¬ Plain name
  | .projectDelete .. => True
  | .structureDraftSet p .. => p = id
  | .publishStructure p .. => p = id
  | _ => False

theorem not_touches_structDraftKey (hi : Plain id) (hc : ¬ writesStructureDraft id cmd) :
    ¬ touches cmd (structDraftKey id) := by
  have hseg := segments_structDraftKey hi
  refine not_touches_projectRow hseg (by simp) (count_structKey hi).2.le fun h => hc ?_
  cases cmd <;> try exact h.elim
  case projectCreate name o ts src =>
    rcases h with h | h
    · intro hname
      rw [h, segments_projectKey hname] at hseg
      simp at hseg
    · exact (structKey_ne_structDraftKey h.symm).elim
  case projectDelete => exact trivial
  case structureDraftSet => exact (structDraftKey_inj.mp h).symm
  case publishStructure =>
    rcases h with h | h
    · exact (structKey_ne_structDraftKey h.symm).elim
    · exact (structDraftKey_inj.mp h).symm

theorem not_touches_projectKey (hi : Plain id) (hc : ¬ writesProjectRow (projectKey id) cmd) :
    ¬ touches cmd (projectKey id) := by
  refine not_touches_projectRow (segments_projectKey hi) (by simp) ?_ hc
  simp [projectKey, kProject, List.count_eq_zero_of_not_mem hi]

section
variable [SerdeJson]

/-! ## Structures -/

def structDraftOf (t : Store) (id : ProjectId) : Option StructureDraft := entity StructureDraft t (structDraftKey id)

inductive StructAfter (t : Store) (cmd : Command) (id : ProjectId) : Option Structure → Prop
  | kept : StructAfter t cmd id (structOf t id)
  | deleted {p : ProjectId} {o : String} (hcmd : cmd = .projectDelete p o) : StructAfter t cmd id none
  | created {o : String} {ts : Int} {src : Option String} {groups : List GroupDef}
      (hcmd : cmd = .projectCreate id o ts src) (hnone : entity Project t (projectKey id) = none) (hsound : Sound groups) :
      StructAfter t cmd id (some { version := 1, groups })
  | published {c r o : String} {ts : Int} {policy : PublishPolicy} {struct : Structure} {draft : StructureDraft}
      (hcmd : cmd = .publishStructure id c r o ts policy) (hstruct : structOf t id = some struct)
      (hdraft : structDraftOf t id = some draft) :
      StructAfter t cmd id (some { version := struct.version + 1, groups := draft.groups })

/-- A failed command leaves all rows of projects as they are. -/
theorem row_of_error (ht : WellPlaced t) {e : Error} (h : (apply cmd now t).result = .error e) {k : String}
    (hk : ∀ key, k ≠ sharedDraftKey key) : (apply cmd now t).store[k]? = t[k]? := by
  rcases apply_cases ht cmd now with ⟨events, s, -, he⟩ | ⟨-, -, -, -, hrow⟩
  · rw [he] at h; cases h
  · refine (hrow k).resolve_right fun h => ?_
    cases cmd <;> try exact h.1.elim
    obtain ⟨key, e⟩ := h.1
    exact hk key e

theorem cloneGroups_sound {name : String} {src : Option String} {groups : List GroupDef}
    (h : (cloneGroups name src).eval t = .ok groups) : Sound groups := by
  have hs : (cloneGroups name src).exec ⟨t, []⟩ = (.ok groups, ⟨t, []⟩) :=
    (cloneGroups_readOnly _ _).exec_ok.mpr ⟨h, rfl⟩
  cases src with
  | none =>
    obtain ⟨rfl, -⟩ := pure_ok.mp hs
    exact fun v => rfl
  | some src =>
    obtain ⟨-, hs⟩ := ensure_bind.mp hs
    obtain ⟨-, hs⟩ := ensure_bind.mp hs
    obtain ⟨struct, -, hs⟩ := getStructure_bind hs
    obtain ⟨herrs, hs⟩ := ensure_bind.mp hs
    obtain ⟨rfl, -⟩ := pure_ok.mp hs
    exact sound_iff.mpr herrs

omit [SerdeJson] in
theorem structKey_ne_branchStateKey (hi : Plain id) (p : ProjectId) (b : BranchName) : structKey id ≠ branchStateKey p b :=
  fun e => not_startsWith_branchPrefix (count_structKey hi).1.le (e ▸ startsWith_branchStateKey p b)

theorem applyProjectCreate_struct {name : String} {now : Int} {o : String} {src : Option String}
    (h : (applyProjectCreate name now o src).exec ⟨t, []⟩ = (.ok events, s)) :
    Plain name ∧ entity Project t (projectKey name) = none ∧
      ∃ groups, Sound groups ∧ structOf s.kv name = some { version := 1, groups } := by
  obtain ⟨hv, h⟩ := ensure_bind.mp h
  have hi := plain_of_validName hv
  obtain ⟨projects, -, h⟩ := listProjects_readOnly.exec_bind_ok.mp h
  obtain ⟨_, -, h⟩ := (ensure_readOnly _ _).exec_bind_ok.mp h
  obtain ⟨_, hp, h⟩ := loadMerged_bind.mp h
  obtain ⟨rfl, h⟩ := ensure_bind.mp h
  obtain ⟨groups, hgroups, h⟩ := (cloneGroups_readOnly _ _).exec_bind_ok.mp h
  rw [savePending_bind, savePending_bind, savePending_bind] at h
  obtain ⟨he, rfl⟩ := Prod.mk.inj h.symm
  have hnone : entity Project t (projectKey name) = none := by rw [entity, decodes_none.mp hp]; rfl
  refine ⟨hi, hnone, groups, cloneGroups_sound hgroups, ?_⟩
  -- the states of the branches come after the structure
  have hne := fun b => (structKey_ne_branchStateKey hi name b).symm
  exact (entity_congr ((KV.getElem?_insert_ne _ (hne _) _).trans ((KV.getElem?_insert_ne _ (hne _) _).trans
    (KV.getElem?_insert_ne _ (hne _) _)))).trans (entity_insert _ _ _)

theorem structOf_apply (ht : WellPlaced t) (hi : Plain id) (cmd : Command) (now : Int) :
    StructAfter t cmd id (structOf (apply cmd now t).store id) := by
  have hkept : (apply cmd now t).store[structKey id]? = t[structKey id]? →
      StructAfter t cmd id (structOf (apply cmd now t).store id) := by
    intro h
    rw [structOf, entity_congr h]
    exact .kept
  by_cases hc : writesStructure id cmd
  · cases hr : (apply cmd now t).result with
    | error e =>
      refine hkept (row_of_error ht hr fun key e => ?_)
      have := congrArg segments e
      simp [segments_structKey hi, segments_sharedDraftKey] at this
    | ok events =>
      obtain ⟨s, hs, hstore, -⟩ := apply_ok hr
      rw [hstore] at hkept ⊢
      cases cmd <;> try exact hc.elim
      case projectCreate name o ts src =>
        obtain ⟨hname, hnone, groups, hsound, hstruct⟩ := applyProjectCreate_struct (o := o) hs
        obtain rfl := hc.resolve_left (not_not.mpr hname)
        rw [hstruct]
        exact .created rfl hnone hsound
      case projectDelete p o =>
        have hrow := projectDelete_keys ht hs (k := structKey id) fun h => by
          have := h.outside
          simp [OutsideProjects, segments_structKey hi] at this
        by_cases hpre : startsWith (projectKey p) (structKey id)
        · rw [if_pos hpre] at hrow
          rw [structOf, entity, hrow]
          exact .deleted rfl
        · exact hkept (hrow.trans (if_neg hpre))
      case publishStructure p c r o ts policy =>
        obtain rfl := hc
        obtain ⟨struct, draft, hstruct, hdraft, -, hnew, -⟩ := applyPublishStructure_moves (o := o) ht ts hs
        rw [hnew]
        exact .published rfl hstruct hdraft
  · exact hkept (apply_frame ht cmd now (not_touches_structKey hi hc))

def Structured (t : Store) : Prop :=
  ∀ id, Plain id → (entity Project t (projectKey id)).isSome → (structOf t id).isSome

theorem structured_apply (ht : WellPlaced t) (h : Structured t) (cmd : Command) (now : Int) :
    Structured (apply cmd now t).store := by
  intro id hi hproject
  have hsame : (apply cmd now t).store[projectKey id]? = t[projectKey id]? →
      (structOf (apply cmd now t).store id).isSome ∨ ∃ p o, cmd = .projectDelete p o := by
    intro hrow
    rw [entity_congr hrow] at hproject
    have hafter := structOf_apply ht hi cmd now
    generalize structOf (apply cmd now t).store id = o at hafter
    cases hafter with
    | kept => exact .inl (h id hi hproject)
    | deleted hcmd => exact .inr ⟨_, _, hcmd⟩
    | created => exact .inl rfl
    | published => exact .inl rfl
  have herror : ∀ {e}, (apply cmd now t).result = .error e → (structOf (apply cmd now t).store id).isSome := by
    intro e hr
    have hrow : ∀ k, (k = projectKey id ∨ k = structKey id) → (apply cmd now t).store[k]? = t[k]? := by
      intro k hk
      refine row_of_error ht hr fun key e => ?_
      have := congrArg segments e
      rcases hk with rfl | rfl
      · simp [segments_projectKey hi, segments_sharedDraftKey] at this
      · simp [segments_structKey hi, segments_sharedDraftKey] at this
    rw [structOf, entity_congr (hrow _ (.inr rfl))]
    rw [entity_congr (hrow _ (.inl rfl))] at hproject
    exact h id hi hproject
  by_cases hc : writesProjectRow (projectKey id) cmd
  · cases hr : (apply cmd now t).result with
    | error e => exact herror hr
    | ok events =>
      obtain ⟨s, hs, hstore, -⟩ := apply_ok hr
      rw [hstore] at hproject ⊢
      cases cmd <;> try exact hc.elim
      case projectCreate name o ts src =>
        obtain ⟨hname, -, groups, -, hstruct⟩ := applyProjectCreate_struct (o := o) hs
        rcases hc with hc | hc
        · obtain rfl := projectKey_inj.mp hc
          rw [hstruct]
          rfl
        · exact ((projectKey_ne_struct name hi).1 hc).elim
      case projectDelete p o =>
        -- the project and its structure go together
        have hrow : ∀ k, KeyOfProject id k → s.kv[k]? = if p.toList <+: id.toList then none else t[k]? := by
          intro k hk
          rw [projectDelete_keys ht hs fun h => hk.not_outside hi h.outside]
          simp only [startsWith_projectKey (plain_of_projectDelete ht hs) hk]
        by_cases hpre : p.toList <+: id.toList
        · rw [entity, hrow _ (.inl rfl), if_pos hpre] at hproject
          cases hproject
        · rw [entity_congr ((hrow _ (.inl rfl)).trans (if_neg hpre))] at hproject
          rw [structOf, entity_congr ((hrow _ (keyOfProject_structKey id)).trans (if_neg hpre))]
          exact h id hi hproject
      case structureDraftSet p v groups o => exact (projectKey_ne_struct p hi).2 hc |>.elim
      case publishStructure p c r o ts policy =>
        rcases hc with hc | hc
        · exact ((projectKey_ne_struct p hi).1 hc).elim
        · exact ((projectKey_ne_struct p hi).2 hc).elim
  · refine (hsame (apply_frame ht cmd now (not_touches_projectKey hi hc))).resolve_right ?_
    intro hdelete
    obtain ⟨p, o, rfl⟩ := hdelete
    exact hc trivial

theorem structured_reach {allowed : Store → Command → Int → Prop} (h : Reach allowed t) : Structured t := by
  induction h with
  | empty => exact fun id _ h => by simp [entity] at h
  | step cmd now hreach _ ih => exact structured_apply (wellPlaced_of_reach hreach) ih cmd now

/-- What a command leaves of the draft of a structure was there before, or passes the checks. -/
theorem structDraftOf_apply (ht : WellPlaced t) (hi : Plain id) (cmd : Command) (now : Int) :
    structDraftOf (apply cmd now t).store id = structDraftOf t id ∨
      ∀ draft, structDraftOf (apply cmd now t).store id = some draft → Sound draft.groups := by
  have hkept : (apply cmd now t).store[structDraftKey id]? = t[structDraftKey id]? →
      structDraftOf (apply cmd now t).store id = structDraftOf t id := entity_congr
  by_cases hc : writesStructureDraft id cmd
  · cases hr : (apply cmd now t).result with
    | error e =>
      refine .inl (hkept (row_of_error ht hr fun key e => ?_))
      have := congrArg segments e
      simp [segments_structDraftKey hi, segments_sharedDraftKey] at this
    | ok events =>
      obtain ⟨s, hs, hstore, -⟩ := apply_ok hr
      rw [hstore] at hkept ⊢
      cases cmd <;> try exact hc.elim
      case projectCreate name o ts src => exact absurd (applyProjectCreate_struct (o := o) hs).1 hc
      case projectDelete p o =>
        have hrow := projectDelete_keys ht hs (k := structDraftKey id) fun h => by
          have := h.outside
          simp [OutsideProjects, segments_structDraftKey hi] at this
        by_cases hpre : startsWith (projectKey p) (structDraftKey id)
        · rw [if_pos hpre] at hrow
          refine .inr fun draft h => ?_
          rw [structDraftOf, entity, hrow] at h
          cases h
        · exact .inl (hkept (hrow.trans (if_neg hpre)))
      case structureDraftSet p v groups o =>
        obtain rfl := hc
        obtain ⟨struct, hstruct, h⟩ := getStructure_bind hs
        obtain ⟨_, -, h⟩ := (ensure_readOnly _ _).exec_bind_ok.mp h
        obtain ⟨herrs, h⟩ := ensure_bind.mp h
        rw [savePending_bind] at h
        obtain ⟨-, rfl⟩ := pure_ok.mp h
        refine .inr fun draft h => ?_
        rw [structDraftOf, KV.Flat.insert_kv, entity_insert, Option.some.injEq] at h
        subst h
        exact sound_iff.mpr herrs
      case publishStructure p c r o ts policy =>
        obtain rfl := hc
        refine .inr fun draft h => ?_
        obtain ⟨_, _, -, -, -, -, hnone, -⟩ := applyPublishStructure_moves (o := o) ht ts hs
        cases hnone.symm.trans h
  · exact .inl (hkept (apply_frame ht cmd now (not_touches_structDraftKey hi hc)))

def SoundStructures (t : Store) : Prop :=
  (∀ id struct, structOf t id = some struct → Sound struct.groups) ∧
    ∀ id draft, structDraftOf t id = some draft → Sound draft.groups

theorem soundStructures_apply (ht : WellPlaced t) (h : SoundStructures t) (cmd : Command) (now : Int) :
    SoundStructures (apply cmd now t).store := by
  have ht' := wellPlaced_apply ht cmd now
  constructor
  · intro id struct hstruct
    have hi := plain_of_validName (validName_of_structure struct (ht' _ _ (entity_exact.mp hstruct)))
    have hafter := structOf_apply ht hi cmd now
    rw [hstruct] at hafter
    generalize hsome : some struct = o at hafter
    cases hafter with
    | kept => exact h.1 id struct hsome.symm
    | deleted => cases hsome
    | created _ _ hsound => cases hsome; exact hsound
    | published _ _ hdraft => cases hsome; exact h.2 id _ hdraft
  · intro id draft hdraft
    have hi : Plain id := by
      obtain ⟨id', hn, e⟩ := ht' _ _ (entity_exact.mp hdraft)
      exact structDraftKey_inj.mp e ▸ plain_of_validName hn
    rcases structDraftOf_apply ht hi cmd now with hkept | hsound
    · exact h.2 id draft (hkept ▸ hdraft)
    · exact hsound draft hdraft

theorem soundStructures_reach {allowed : Store → Command → Int → Prop} (h : Reach allowed t) : SoundStructures t := by
  induction h with
  | empty => exact ⟨fun id s h => by simp [structOf, entity] at h, fun id d h => by simp [structDraftOf, entity] at h⟩
  | step cmd now hreach _ ih => exact soundStructures_apply (wellPlaced_of_reach hreach) ih cmd now

/-! ## Shared items -/

inductive SharedAfter (t : Store) (cmd : Command) (rk : String) : Option SharedItem → Prop
  | kept : SharedAfter t cmd rk (sharedOf t rk)
  | published {c r o : String} {ts : Int} {mode : SharedCascadeMode} {policy : PublishPolicy} {item : SharedItem} {v : Nat}
      (hcmd : cmd = .sharedPublish c r o ts mode policy) (hkey : item.key = rk)
      (hdraft : sharedDraftOf t rk = some item) : SharedAfter t cmd rk (some (rereadShared { item with version := v }))
  | deleted {o : String} (hcmd : cmd = .sharedDelete rk o) (hfree : ∀ id b, ¬ Bound t rk id b) :
      SharedAfter t cmd rk none

def writesShared : Command → Prop
  | .sharedPublish .. | .sharedDelete .. => True
  | _ => False

theorem SharedAfter.eq_of {o : Option SharedItem} (h : SharedAfter t cmd rk o) (hc : ¬ writesShared cmd) :
    o = sharedOf t rk := by
  cases h with
  | kept => rfl
  | published hcmd => subst hcmd; exact absurd trivial hc
  | deleted hcmd => subst hcmd; exact absurd trivial hc

theorem applySharedDelete_shared (ht : WellPlaced t) {key o : String} (rk : String)
    (h : (applySharedDelete key o).exec ⟨t, []⟩ = (.ok events, s)) :
    sharedOf s.kv rk = sharedOf t rk ∨ rk = key ∧ sharedOf s.kv rk = none ∧ ∀ id b, ¬ Bound t key id b := by
  obtain ⟨-, h⟩ := ensure_bind.mp h
  obtain ⟨published, hp, h⟩ := loadMerged_bind.mp h
  have hdraft : ∀ s : State, sharedOf (s.erase (sharedDraftKey key)).kv rk = sharedOf s.kv rk := fun s =>
    entity_congr (KV.getElem?_erase_ne _ (fun e => sharedKey_ne_sharedDraftKey e.symm))
  cases published with
  | none =>
    rw [if_neg (by simp)] at h
    change (deletePending (sharedDraftKey key) >>= fun _ => pure []).exec _ = _ at h
    rw [deletePending_bind] at h
    obtain ⟨-, rfl⟩ := pure_ok.mp h
    exact .inl (hdraft _)
  | some item =>
    rw [if_pos (by simp)] at h
    obtain ⟨refs, hrefs, h⟩ := (sharedUsage_readOnly key).exec_bind_ok.mp h
    obtain ⟨hnil, h'⟩ := ensure_bind.mp h
    rw [deletePending_bind] at h'
    change (deletePending (sharedDraftKey key) >>= fun _ => pure []).exec _ = _ at h'
    rw [deletePending_bind] at h'
    subst hnil
    obtain ⟨-, rfl⟩ := pure_ok.mp h'
    rw [hdraft]
    by_cases e : rk = key
    · subst e
      refine .inr ⟨rfl, ?_, fun id b hb => ?_⟩
      · rw [sharedOf, entity, KV.Flat.erase_kv, KV.getElem?_erase, if_pos rfl]
        rfl
      · obtain ⟨g, k, hm⟩ := (mem_sharedUsage ht hrefs).mpr hb
        cases hm
    · exact .inl (entity_congr (KV.getElem?_erase_ne _ fun h => e (sharedKey_inj.mp h).symm))

theorem sharedOf_apply (ht : WellPlaced t) (cmd : Command) (now : Int) (rk : String) :
    SharedAfter t cmd rk (sharedOf (apply cmd now t).store rk) := by
  have hkept : (apply cmd now t).store[sharedKey rk]? = t[sharedKey rk]? →
      SharedAfter t cmd rk (sharedOf (apply cmd now t).store rk) := by
    intro h
    rw [sharedOf, entity_congr h]
    exact .kept
  cases hr : (apply cmd now t).result with
  | error e => exact hkept (row_of_error ht hr fun key e => sharedKey_ne_sharedDraftKey e)
  | ok events =>
    obtain ⟨s, hs, hstore, -⟩ := apply_ok hr
    rw [hstore] at hkept ⊢
    by_cases hc : isConfig cmd
    · have hout : OutsideProjects (sharedKey rk) := outside_sharedKey rk
      have hbranch : ∀ p b, ¬ UnderBranch p b (sharedKey rk) := fun _ _ => not_under_of_outside hout
      have hframe : ¬ touches cmd (sharedKey rk) → s.kv[sharedKey rk]? = t[sharedKey rk]? :=
        fun h => by rw [← hstore]; exact apply_frame ht cmd now h
      cases cmd <;> try exact absurd hc id
      case projectCreate =>
        refine hkept (hframe ?_)
        rintro (h | h | h | ⟨b, -, h⟩)
        · exact ne_sharedKey (by simp [projectKey, kProject]) rk h
        · have := congrArg segments h
          simp [segments_sharedKey, segments_idxPname] at this
        · exact ne_sharedKey (by simp [structKey, kProject]) rk h
        · exact ne_sharedKey (by simp [branchStateKey, kProject]) rk h
      case projectDelete p o =>
        exact hkept ((projectDelete_keys ht hs (not_account_sharedKey rk)).trans (if_neg (not_startsWith_sharedKey p rk)))
      case branchDelete p b o =>
        refine hkept ((branchDelete_keys hs _).trans (if_neg fun h => ?_))
        obtain ⟨c, hc⟩ := startsWith_iff.mp h
        simp [branchPrefix, kProject, sharedKey, kShared] at hc
      case publishStructure p c r o ts policy =>
        refine hkept (hframe ?_)
        rintro (h | h | ⟨b, h⟩)
        · exact ne_sharedKey (by simp [structKey, kProject]) rk h
        · exact ne_sharedKey (by simp [structDraftKey, kProject]) rk h
        · exact hbranch _ _ h
      case branchCreate => exact hkept (hframe fun h => ne_sharedKey (by simp [branchStateKey, kProject]) rk h)
      case structureDraftSet => exact hkept (hframe fun h => ne_sharedKey (by simp [structDraftKey, kProject]) rk h)
      case draftUpdate | publish | rollback | grayPublish | grayPromote | grayAbort => exact hkept (hframe (hbranch _ _))
      case sharedDraftUpdate item o =>
        obtain ⟨_, -, h⟩ := (ensure_readOnly _ _).exec_bind_ok.mp hs
        obtain ⟨_, -, h⟩ := (ensure_readOnly _ _).exec_bind_ok.mp h
        obtain ⟨_, -, h⟩ := (ensure_readOnly _ _).exec_bind_ok.mp h
        obtain ⟨_, -, h⟩ := (ensure_readOnly _ _).exec_bind_ok.mp h
        rw [savePending_bind] at h
        obtain ⟨-, rfl⟩ := pure_ok.mp h
        exact hkept (KV.getElem?_insert_ne _ (fun e => sharedKey_ne_sharedDraftKey e.symm) _)
      case sharedPublish c r o ts mode policy =>
        change (applySharedPublish c r (effTs ts now) o mode policy).exec _ = _ at hs
        rcases (applySharedPublish_course ht ts hs).2 rk with h | ⟨item, hkey, hdraft, v, h⟩
        · rw [h]
          exact .kept
        · rw [h]
          exact .published rfl hkey hdraft
      case sharedDelete key o =>
        rcases applySharedDelete_shared (o := o) ht rk hs with h | ⟨e, h, hfree⟩
        · rw [h]
          exact .kept
        · subst e
          rw [h]
          exact .deleted rfl hfree
    · have := rows_of_obeys (account_obeys (D := fun _ => False) hc now) (s := ⟨t, []⟩) ht (not_account_sharedKey rk)
      rw [show (applyInner cmd now).exec ⟨t, []⟩ = _ from hs] at this
      exact hkept this

end

end Defing
