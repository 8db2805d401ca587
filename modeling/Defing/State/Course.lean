import Defing.State.Move

/-!
# Commands are courses of moves

The commands that make branches, and the cascade of shared items. With them
every command that goes through, deletions apart, is a `Course`.
-/

namespace Defing

open KV (Prog Plain segments)

variable [SerdeJson]
variable {id id' : ProjectId} {b b' : BranchName} {t : Store} {s s' s'' : State} {cmd : Command} {events : List PublishEvent}

/-! ## Rows of no branch -/

theorem Course.rest (h : ∀ k, (∃ id b, UnderBranch id b k) → s'.kv[k]? = s.kv[k]?) (hm : s'.notes = s.notes) :
    Course t cmd s [] s' :=
  .quiet (fun id b hn => branchAt_congr (fun k hk => h k ⟨id, b, hk⟩) hn) hm (.refl _)

theorem Course.insert_else {k : String} (hk : ∀ id b, ¬ UnderBranch id b k) (v : Stored) :
    Course t cmd s [] (s.insert k v) :=
  .quiet (fun id b hn => branchAt_insert_else hn (hk id b) v) (by rfl) (.refl _)

theorem Course.erase_else {k : String} (hk : ∀ id b, ¬ UnderBranch id b k) : Course t cmd s [] (s.erase k) :=
  .quiet (fun id b hn => branchAt_erase_else hn (hk id b)) (by rfl) (.refl _)

/-! ## Shared items -/

def Uses (t : Store) (key : String) (usage : List (ProjectId × BranchName × String × String)) : Prop :=
  ∀ u ∈ usage, ∃ st, stateOf t u.1 u.2.1 = some st ∧ item? st.sharedBindings u.2.2.1 u.2.2.2 = some key

theorem cascadeToBranch_course (hs : WellPlaced s.kv) {item : SharedItem}
    (hitem : sharedDraftOf t item.key = some item) {g k : String} {c r : String} {now : Int}
    (o : String) (ts : Int) (mode : SharedCascadeMode) (policy : PublishPolicy) {event : PublishEvent}
    (hbound : ∀ st, stateOf s.kv id b = some st → item? st.sharedBindings g k = some item.key)
    (h : (cascadeToBranch id b g k item.value c r now).exec s = (.ok event, s')) :
    Course t (.sharedPublish c r o ts mode policy) s [event] s' ∧ WellPlaced s'.kv ∧
      (∀ k, ¬ UnderBranch id b k → s'.kv[k]? = s.kv[k]?) ∧ ∃ st st', stateOf s.kv id b = some st ∧
        stateOf s'.kv id b = some st' ∧ st'.sharedBindings = st.sharedBindings := by
  have hob := cascadeToBranch_obeys (T := UnderBranch id b) (D := fun _ => False) (fun _ hk => hk) g k item.value c r now
  have hw := frame_of_obeys h hob hs
  have hp : WellPlaced s'.kv := by simpa only [h] using wellPlaced_of_obeys hob hs
  obtain ⟨st, hst, h⟩ := getBranchState_bind h
  have hn := named_of_stateOf hs hst
  obtain ⟨old, ho, h⟩ := (activeSnapshot_readOnly _ _ _).exec_bind_ok.mp h
  replace ho := (activeSnapshot_eval hs hn).mp ho
  obtain ⟨_, s₁, h₁, h⟩ := Prog.exec_bind_ok.mp h
  rw [savePending_bind] at h
  obtain ⟨rfl, rfl⟩ := pure_ok.mp h
  refine ⟨(release_moves hn hst ho (.cascade hitem (hbound st hst)) h₁ rfl ?_ rfl hw).course, hp, hw, st, _, hst,
    stateOf_insert _ _, rfl⟩
  rw [branchAt_gray_of_write hn h₁]

/-- The passes of a cascade leave the bindings of all branches as they are. -/
theorem cascade_course {item : SharedItem} (hitem : sharedDraftOf t item.key = some item)
    {c r : String} {now : Int} (o : String) (ts : Int) (mode : SharedCascadeMode) (policy : PublishPolicy)
    (usage : List (ProjectId × BranchName × String × String)) :
    ∀ {s s' : State} {events : List PublishEvent}, WellPlaced s.kv → Uses s.kv item.key usage →
      (usage.mapM fun (p, b, g, k) => cascadeToBranch p b g k item.value c r now).exec s = (.ok events, s') →
      Course t (.sharedPublish c r o ts mode policy) s events s' ∧ WellPlaced s'.kv ∧
        ∀ rk, sharedOf s'.kv rk = sharedOf s.kv rk := by
  induction usage with
  | nil =>
    intro s s' events hs _ h
    rw [List.mapM_nil] at h
    obtain ⟨rfl, rfl⟩ := pure_ok.mp h
    exact ⟨.refl _, hs, fun _ => rfl⟩
  | cons u usage ih =>
    intro s s' events hs hu h
    obtain ⟨p, b, g, k⟩ := u
    rw [List.mapM_cons] at h
    obtain ⟨event, s₁, h₁, h⟩ := Prog.exec_bind_ok.mp h
    obtain ⟨events', s₂, h₂, h⟩ := Prog.exec_bind_ok.mp h
    obtain ⟨rfl, rfl⟩ := pure_ok.mp h
    obtain ⟨st₀, hst₀, hb₀⟩ := hu _ List.mem_cons_self
    obtain ⟨hcourse, hs₁, hw₁, st, st', hst, hst', hbind⟩ := cascadeToBranch_course hs hitem o ts mode policy
      (fun st hst => Option.some.inj (hst.symm.trans hst₀) ▸ hb₀) h₁
    have hu₁ : Uses s₁.kv item.key usage := by
      intro u hm
      obtain ⟨stu, hstu, hbu⟩ := hu u (List.mem_cons_of_mem _ hm)
      by_cases e : u.1 = p ∧ u.2.1 = b
      · rw [e.1, e.2] at hstu ⊢
        rw [hst] at hstu
        exact ⟨st', hst', by rw [hbind, Option.some.inj hstu]; exact hbu⟩
      · refine ⟨stu, ?_, hbu⟩
        rw [← hstu, ← state_branchAt, ← state_branchAt, branchAt_elsewhere hw₁ (named_of_stateOf hs hstu) e]
    obtain ⟨hcourse', hs₂, hshared⟩ := ih hs₁ hu₁ h₂
    refine ⟨hcourse.trans hcourse', hs₂, fun rk => (hshared rk).trans ?_⟩
    exact entity_congr (hw₁ _ (not_under_of_outside (outside_sharedKey rk)))

theorem usage_uses {key : String} {usage : List (ProjectId × BranchName × String × String)}
    (h : (projectsOf t).flatMap (fun p => (branchesOf t p.id).flatMap fun b => usageOf t key p.id b) = usage) :
    Uses t key usage := by
  subst h
  rintro ⟨id, b, g, k⟩ hu
  simp only [List.mem_flatMap] at hu
  obtain ⟨p, hp, b', -, hu⟩ := hu
  obtain ⟨st, g', k', hst, hgk, he⟩ := mem_usageOf.mp hu
  cases he
  exact ⟨st, hst, hgk⟩

/-- The published items after one pass: `item` is one of them, in some version. -/
def PublishedOver (s s' : State) (item : SharedItem) : Prop :=
  (∃ v, sharedOf s'.kv item.key = some (rereadShared { item with version := v })) ∧
    ∀ rk, rk ≠ item.key → sharedOf s'.kv rk = sharedOf s.kv rk

theorem publishShared_course (hs : WellPlaced s.kv) {item : SharedItem}
    (hitem : sharedDraftOf t item.key = some item) (hk : validKeyName item.key)
    {c r : String} {now : Int} (o : String) (ts : Int) {mode : SharedCascadeMode} (policy : PublishPolicy)
    (h : (publishShared c r now mode item).exec s = (.ok events, s')) :
    Course t (.sharedPublish c r o ts mode policy) s events s' ∧ WellPlaced s'.kv ∧ PublishedOver s s' item := by
  obtain ⟨v, s₁, h₁, hs₁, h⟩ := publishShared_ok hs hk h
  have hcourse : Course t (.sharedPublish c r o ts mode policy) s [] s₁ := by
    rw [h₁]
    exact (Course.insert_else (fun _ _ => not_under_of_outside (outside_sharedKey _)) _).trans
      (Course.erase_else fun _ _ => not_under_of_outside (outside_sharedDraftKey _))
  have hover : PublishedOver s s₁ item := by
    rw [h₁]
    refine ⟨⟨v, ?_⟩, fun rk hrk => ?_⟩
    · rw [KV.Flat.erase_kv, sharedOf, entity_congr (KV.getElem?_erase_ne _ fun e => ?_)]
      · exact entity_insert _ _ _
      · exact sharedKey_ne_sharedDraftKey e.symm
    · rw [KV.Flat.erase_kv, sharedOf, entity_congr (KV.getElem?_erase_ne _ fun e => ?_), KV.Flat.insert_kv]
      · exact entity_congr (KV.getElem?_insert_ne _ (fun e => hrk (sharedKey_inj.mp e).symm) _)
      · exact sharedKey_ne_sharedDraftKey e.symm
  unfold cascadeShared at h
  split at h
  · obtain ⟨rfl, rfl⟩ := pure_ok.mp h
    exact ⟨hcourse, hs₁, hover⟩
  · obtain ⟨usage, hu, h⟩ := (sharedUsage_readOnly _).exec_bind_ok.mp h
    rw [sharedUsage_eval hs₁, Except.ok.injEq] at hu
    obtain ⟨hcourse', hs', hshared⟩ := cascade_course hitem o ts mode policy usage hs₁ (usage_uses hu) h
    refine ⟨hcourse.trans hcourse', hs', ⟨?_, fun rk hrk => (hshared rk).trans (hover.2 rk hrk)⟩⟩
    rw [hshared]
    exact hover.1

theorem publishDrafts_course {c r o : String} {now ts : Int} {mode : SharedCascadeMode} {policy : PublishPolicy}
    (drafts : List SharedItem) :
    ∀ {s s' : State} {events : List PublishEvent}, WellPlaced s.kv →
      (∀ item ∈ drafts, validKeyName item.key ∧ sharedDraftOf t item.key = some item) →
      (collect (publishShared c r now mode) drafts).exec s = (.ok events, s') →
      Course t (.sharedPublish c r o ts mode policy) s events s' ∧
        ∀ rk, sharedOf s'.kv rk = sharedOf s.kv rk ∨
          ∃ item ∈ drafts, item.key = rk ∧ ∃ v, sharedOf s'.kv rk = some (rereadShared { item with version := v }) := by
  induction drafts with
  | nil =>
    intro s s' events _ _ h
    obtain ⟨rfl, rfl⟩ := pure_ok.mp h
    exact ⟨.refl _, fun _ => .inl rfl⟩
  | cons item drafts ih =>
    intro s s' events hs hd h
    obtain ⟨hd₀, hd⟩ := List.forall_mem_cons.mp hd
    obtain ⟨events₁, s₁, h₁, h⟩ := Prog.exec_bind_ok.mp h
    obtain ⟨events₂, s₂, h₂, h⟩ := Prog.exec_bind_ok.mp h
    obtain ⟨rfl, rfl⟩ := pure_ok.mp h
    obtain ⟨hcourse, hs₁, hpub, hrest⟩ := publishShared_course hs hd₀.2 hd₀.1 o ts policy h₁
    obtain ⟨hcourse', hshared⟩ := ih hs₁ hd h₂
    refine ⟨hcourse.trans hcourse', fun rk => ?_⟩
    rcases hshared rk with h | ⟨item', hm, h⟩
    · rw [h]
      by_cases e : rk = item.key
      · subst e
        exact .inr ⟨item, List.mem_cons_self, rfl, hpub⟩
      · exact .inl (hrest rk e)
    · exact .inr ⟨item', List.mem_cons_of_mem _ hm, h⟩

theorem applySharedPublish_course (ht : WellPlaced t) {c r o : String} {now : Int} (ts : Int) {mode : SharedCascadeMode}
    {policy : PublishPolicy} (h : (applySharedPublish c r now o mode policy).exec ⟨t, []⟩ = (.ok events, s)) :
    Course t (.sharedPublish c r o ts mode policy) ⟨t, []⟩ events s ∧
      ∀ rk, sharedOf s.kv rk = sharedOf t rk ∨ ∃ item : SharedItem, item.key = rk ∧
        sharedDraftOf t rk = some item ∧ ∃ v, sharedOf s.kv rk = some (rereadShared { item with version := v }) := by
  obtain ⟨drafts, hd, h⟩ := listSharedDrafts_readOnly.exec_bind_ok.mp h
  obtain ⟨_, -, h⟩ := (ensure_readOnly _ _).exec_bind_ok.mp h
  have hkeys := listSharedDrafts_eval ht hd
  obtain rfl := Except.ok.inj ((listSharedDrafts_eq t).symm.trans hd)
  obtain ⟨hcourse, hshared⟩ := publishDrafts_course _ ht (fun item hm => ⟨hkeys item hm, (mem_draftsOf ht).mp hm⟩) h
  refine ⟨hcourse, fun rk => (hshared rk).imp_right ?_⟩
  rintro ⟨item, hm, rfl, hv⟩
  exact ⟨item, rfl, (mem_draftsOf ht).mp hm, hv⟩

/-! ## New branches -/

theorem create_course (hn : Named id b) (hs : stateOf s.kv id b = none) {st : BranchState} (hst : Fresh t id b cmd st) :
    Course t cmd s [] (s.insert (branchStateKey id b) (Codec.encode st)) := by
  have hmove : Move t id b cmd (branchAt s.kv id b) [] [] (branchAt (s.insert (branchStateKey id b) (Codec.encode st)).kv id b) := by
    rw [KV.Flat.insert_kv, branchAt_insert_state hn]
    exact .create hs hst
  refine .single hn hmove (fun k hk => KV.getElem?_insert_ne _ (fun e => hk ?_) _) (List.append_nil _).symm
  exact e ▸ under_branchStateKey hn

theorem applyBranchCreate_course (ht : WellPlaced t) {src : Option BranchName} {now ts : Int} {o : String}
    (h : (applyBranchCreate id b src now o).exec ⟨t, []⟩ = (.ok events, s)) :
    Course t (.branchCreate id b src o ts) ⟨t, []⟩ events s := by
  obtain ⟨hb, h⟩ := ensure_bind.mp h
  obtain ⟨_, hp, h⟩ := loadMerged_bind.mp h
  obtain ⟨p, rfl, h⟩ := okOr_bind.mp h
  have hn : Named id b := ⟨(validName_of_project p (ht _ _ (decodes_exact.mp hp))).1, hb⟩
  obtain ⟨_, hst, h⟩ := loadMerged_bind.mp h
  obtain ⟨rfl, h⟩ := ensure_bind.mp h
  have hnone : stateOf t id b = none := by rw [stateOf, entity, decodes_none.mp hst]; rfl
  obtain ⟨branches, -, h⟩ := (listBranches_readOnly _).exec_bind_ok.mp h
  obtain ⟨_, -, h⟩ := (ensure_readOnly _ _).exec_bind_ok.mp h
  obtain ⟨struct?, hstruct, h⟩ := loadMerged_bind.mp h
  replace hstruct : structOf t id = struct? := by
    rw [structOf, entity, decodes_exact.mp hstruct]
    cases struct? with
    | none => rfl
    | some struct => exact decode_encode_exact struct
  cases src with
  | none =>
    obtain ⟨rfl, rfl⟩ := pure_ok.mp h
    exact create_course hn hnone (.bare _)
  | some src =>
    obtain ⟨srcState, hsrc, h⟩ := getBranchState_bind h
    obtain ⟨_, -, h⟩ := (ensure_readOnly _ _).exec_bind_ok.mp h
    obtain ⟨snap, hsnap, h⟩ := (snapshotOf_readOnly _ _ _).exec_bind_ok.mp h
    have hn' := named_of_stateOf ht hsrc
    replace hsnap := (snapshotOf_eval ht hn'.plain.1 hn'.plain.2 _ _).mp hsnap
    obtain ⟨rfl, rfl⟩ := pure_ok.mp h
    subst hstruct
    exact create_course hn hnone (.copy now hsrc hsnap)

theorem creates_course (bs : List BranchName) {st : BranchState} (hst : ∀ b, Fresh t id b cmd st) :
    ∀ {s : State}, bs.Nodup → (∀ b ∈ bs, Named id b ∧ stateOf s.kv id b = none) →
      Course t cmd s [] (bs.foldl (fun s b => s.insert (branchStateKey id b) (Codec.encode st)) s) := by
  induction bs with
  | nil => exact fun _ _ => .refl _
  | cons b bs ih =>
    intro s hd hb
    obtain ⟨⟨hn, hs⟩, hb⟩ := List.forall_mem_cons.mp hb
    refine (create_course hn hs (hst b)).trans (ih (List.nodup_cons.mp hd).2 fun b' hb' => ⟨(hb b' hb').1, ?_⟩)
    rw [← (hb b' hb').2]
    refine stateOf_insert_ne _ _ fun e => (List.nodup_cons.mp hd).1 ?_
    rw [(branchStateKey_inj (hb b' hb').1.plain.1 (hb b' hb').1.plain.2 e).2]
    exact hb'

theorem applyProjectCreate_course (hr : Rooted t) {name : String} {now : Int} {o : String} {src : Option String}
    (h : (applyProjectCreate name now o src).exec ⟨t, []⟩ = (.ok events, s)) : Course t cmd ⟨t, []⟩ events s := by
  obtain ⟨hv, h⟩ := ensure_bind.mp h
  have hi := plain_of_validName hv
  obtain ⟨projects, -, h⟩ := listProjects_readOnly.exec_bind_ok.mp h
  obtain ⟨_, -, h⟩ := (ensure_readOnly _ _).exec_bind_ok.mp h
  obtain ⟨_, hp, h⟩ := loadMerged_bind.mp h
  obtain ⟨rfl, h⟩ := ensure_bind.mp h
  obtain ⟨groups, -, h⟩ := (cloneGroups_readOnly _ _).exec_bind_ok.mp h
  rw [savePending_bind, savePending_bind, savePending_bind] at h
  obtain ⟨he, rfl⟩ := Prod.mk.inj h.symm
  cases he
  have hnone : ∀ b, Named name b → stateOf t name b = none := by
    intro b hn
    by_contra hst
    have := hr name b hn (Option.isSome_iff_ne_none.mpr hst)
    simp [entity, decodes_none.mp hp] at this
  have hproj : ∀ id b, ¬ UnderBranch id b (projectKey name) := fun _ _ => not_underBranch_projectKey hi
  have hidx : ∀ id b, ¬ UnderBranch id b (idxPname name) := fun _ _ => not_under_of_outside (account_idxPname name).outside
  have hstruct : ∀ id b, ¬ UnderBranch id b (structKey name) := fun _ _ => not_under_structKey hi
  refine (((Course.insert_else hproj _).trans (.insert_else hidx _)).trans (.insert_else hstruct _)).trans
    (creates_course [BranchName.DEV, BranchName.TEST, BranchName.PROD] (fun _ => .bare 1) (by decide) fun b hb => ?_)
  have hn := named_initial hv b hb
  refine ⟨hn, ?_⟩
  rw [← hnone b hn]
  change (branchAt _ name b).state = (branchAt t name b).state
  rw [KV.Flat.insert_kv, branchAt_insert_else hn (hstruct _ _), KV.Flat.insert_kv, branchAt_insert_else hn (hidx _ _),
    KV.Flat.insert_kv, branchAt_insert_else hn (hproj _ _)]

theorem applyStructureDraftSet_course (ht : WellPlaced t) {v : Nat} {groups : List GroupDef} {o : String}
    (h : (applyStructureDraftSet id v groups o).exec ⟨t, []⟩ = (.ok events, s)) : Course t cmd ⟨t, []⟩ events s := by
  obtain ⟨struct, hstruct, h⟩ := getStructure_bind h
  obtain ⟨_, -, h⟩ := (ensure_readOnly _ _).exec_bind_ok.mp h
  obtain ⟨_, -, h⟩ := (ensure_readOnly _ _).exec_bind_ok.mp h
  rw [savePending_bind] at h
  obtain ⟨rfl, rfl⟩ := pure_ok.mp h
  have hi := plain_of_validName (validName_of_structure struct (ht _ _ (entity_exact.mp hstruct)))
  exact .insert_else (fun _ _ => not_under_structDraftKey hi) _

/-! ## All commands -/

theorem outside_course (ht : WellPlaced t) {now : Int}
    (ho : (applyInner cmd now).Obeys (outside fun _ => False) (· = [])) (h : execute cmd now t = (.ok events, s)) :
    Course t cmd ⟨t, []⟩ events s := by
  have he : (applyInner cmd now).exec ⟨t, []⟩ = (.ok events, s) := h
  have hrow : ∀ k, (∃ id b, UnderBranch id b k) → s.kv[k]? = t[k]? := by
    rintro k ⟨id, b, hk⟩
    have := rows_of_obeys ho (s := ⟨t, []⟩) ht fun hk' => not_under_of_outside hk' hk
    rwa [he] at this
  have hnil : events = [] :=
    (Prog.rows_exec (C := outside fun _ => False) (fun _ _ h => h.1) ho (s := ⟨t, []⟩) ht).2 events (congrArg (·.1) he)
  obtain ⟨l, hl, hg⟩ := Prog.notes_exec (C := outside fun _ => False) (fun _ _ h => h.1) ho (s := ⟨t, []⟩) ht
  rw [he] at hl
  subst hnil
  cases l with
  | nil => exact .rest hrow hl
  | cons w l =>
    have hw := hg w List.mem_cons_self
    exact absurd (under_branchStateKey hw.1) (not_under_of_outside hw.2)

theorem course_of_moves {r : String} (h : Retried t id b r events s ∨ Moves t cmd id b ⟨t, []⟩ events s) :
    Course t cmd ⟨t, []⟩ events s := by
  rcases h with ⟨st, -, -, rfl, rfl⟩ | h
  · exact .refl _
  · exact h.course

theorem execute_course (ht : WellPlaced t) (hr : Rooted t) (hc : ¬ removesBranches cmd) {now : Int}
    (h : execute cmd now t = (.ok events, s)) : Course t cmd ⟨t, []⟩ events s := by
  by_cases hconf : isConfig cmd
  · cases cmd <;> try exact hconf.elim
    case projectDelete | branchDelete => exact absurd trivial hc
    case projectCreate name o ts src => exact applyProjectCreate_course (o := o) hr h
    case branchCreate id b src o ts => exact applyBranchCreate_course (o := o) ht h
    case structureDraftSet id v groups o => exact applyStructureDraftSet_course (o := o) ht h
    case publishStructure =>
      obtain ⟨-, -, -, -, -, -, -, hcourse, -⟩ := applyPublishStructure_moves ht _ h
      exact hcourse
    case draftUpdate id b us ds bs o ts rev => exact (applyDraftUpdate_moves (o := o) ht _ h).course
    case publish => exact course_of_moves (applyPublish_moves ht _ h)
    case rollback => exact course_of_moves (applyRollback_moves ht _ h)
    case sharedPublish c r o ts mode policy =>
      change (applySharedPublish c r (effTs ts now) o mode policy).exec _ = _ at h
      exact (applySharedPublish_course ht _ h).1
    case grayPublish id b rule c r o ts policy =>
      change (applyGrayPublish id b rule c r (effTs ts now) o policy).exec _ = _ at h
      exact course_of_moves (applyGrayPublish_moves ht _ h)
    case grayPromote => exact course_of_moves (applyGrayPromote_moves ht _ h)
    case grayAbort id b c r o ts =>
      change (applyGrayAbort id b c r (effTs ts now) o).exec _ = _ at h
      exact course_of_moves (applyGrayAbort_moves ht _ h)
    case sharedDraftUpdate item o => exact outside_course ht (obeys_rules_mono (applySharedDraftUpdate_obeys item o) (fun _ h => h.outside) fun _ h => h) h
    case sharedDelete key o => exact outside_course ht (obeys_rules_mono (applySharedDelete_obeys key o) (fun _ h => h.outside) fun _ h => h) h
  · exact outside_course ht (obeys_rules_mono (account_obeys hconf now) (fun _ h => h.outside) fun _ h => h) h

end Defing
