import Defing.State.Readable
import Defing.State.Usage

/-!
# Commands that fail

All writes of a command wait in the buffer, except the deletion of the shared
drafts that `applySharedPublish` consumes. So a failing command leaves the
store alone unless a cascade breaks off, and a cascade breaks off exactly at a
bound branch whose active version cannot be read.
-/

namespace Defing

open KV (Prog Plain)

section
variable [SerdeJson] {id : ProjectId} {b : BranchName} {s s' s'' : State} {t : Store}

/-! ## Cascades -/

def Ready (t : Store) (id : ProjectId) (b : BranchName) : Prop :=
  ∃ st, stateOf t id b = some st ∧ (activeContents t id b st).isSome

/-- What a cascade leaves as it was: the projects, the bindings, and which branches are ready. -/
structure Cascaded (s s' : State) : Prop where
  projects : ∀ id, Plain id → entity Project s'.kv (projectKey id) = entity Project s.kv (projectKey id)
  bindings : ∀ id b, Named id b →
    (stateOf s'.kv id b).map (·.sharedBindings) = (stateOf s.kv id b).map (·.sharedBindings)
  ready : ∀ id b, Named id b → (Ready s'.kv id b ↔ Ready s.kv id b)

theorem Cascaded.refl (s : State) : Cascaded s s := ⟨fun _ _ => rfl, fun _ _ _ => rfl, fun _ _ _ => Iff.rfl⟩

theorem Cascaded.trans (h : Cascaded s s') (h' : Cascaded s' s'') : Cascaded s s'' where
  projects id hi := (h'.projects id hi).trans (h.projects id hi)
  bindings id b hn := (h'.bindings id b hn).trans (h.bindings id b hn)
  ready id b hn := (h'.ready id b hn).trans (h.ready id b hn)

theorem Same.ready (h : Same s s' id b) : Ready s'.kv id b ↔ Ready s.kv id b := by
  simp only [Ready, activeContents, h.state, h.contents]

theorem bound_named (ht : WellPlaced t) {key : String} (h : Bound t key id b) : Named id b := by
  obtain ⟨-, st, -, -, hst, -⟩ := h
  exact named_of_stateOf ht hst

/-- Bindings, in terms of the bindings of the state alone. -/
theorem bound_iff {key : String} : Bound t key id b ↔ (entity Project t (projectKey id)).isSome ∧
    ∃ bindings g k, (stateOf t id b).map (·.sharedBindings) = some bindings ∧ item? bindings g k = some key := by
  rw [Bound]
  refine and_congr_right fun _ => ?_
  constructor
  · rintro ⟨st, g, k, hst, h⟩
    exact ⟨_, g, k, by rw [hst]; rfl, h⟩
  · rintro ⟨bindings, g, k, hb, h⟩
    obtain ⟨st, hst, rfl⟩ := Option.map_eq_some_iff.mp hb
    exact ⟨st, g, k, hst, h⟩

theorem Cascaded.bound (h : Cascaded s s') (hn : Named id b) {key : String} :
    Bound s'.kv key id b ↔ Bound s.kv key id b := by
  rw [bound_iff, bound_iff, h.projects id hn.plain.1, h.bindings id b hn]

theorem Cascaded.bound_ready (h : Cascaded s s') (hs : WellPlaced s.kv) (hs' : WellPlaced s'.kv) (key : String) :
    (∀ id b, Bound s'.kv key id b → Ready s'.kv id b) ↔ ∀ id b, Bound s.kv key id b → Ready s.kv id b := by
  refine ⟨fun hr id b hb => ?_, fun hr id b hb => ?_⟩
  · have hn := bound_named hs hb
    exact (h.ready id b hn).mp (hr id b ((h.bound hn).mpr hb))
  · have hn := bound_named hs' hb
    exact (h.ready id b hn).mpr (hr id b ((h.bound hn).mp hb))

/-- A run that either goes through under `R`, cascading, or fails without `R`. -/
def Runs {α : Type} (p : M α) (s : State) (R : Prop) : Prop :=
  (R ∧ ∃ a s', p.exec s = (.ok a, s') ∧ Cascaded s s' ∧ WellPlaced s'.kv) ∨
    (¬ R ∧ ∃ e s', p.exec s = (.error e, s'))

section

theorem cascadeToBranch_exec (hn : Named id b) {st : BranchState} (hst : stateOf s.kv id b = some st)
    {old : SnapshotMap} (ho : (activeSnapshot id b st).eval s.kv = .ok old) (g k : String) (value : Value)
    (c r : String) (now : Int) :
    ∃ event s', (cascadeToBranch id b g k value c r now).exec s = (.ok event, s') ∧
      stateOf s'.kv id b = some (rereadState { st with activeVersion := st.activeVersion + 1 }) ∧
      ∃ new d, logOf s'.kv id b = (logOf s.kv id b).write checkpointInterval (st.activeVersion + 1) new d := by
  have hstate := getBranchState_exec hst
  have hactive := (activeSnapshot_readOnly id b st).exec_ok.mpr ⟨ho, rfl⟩
  rw [cascadeToBranch, Prog.exec_bind_of_ok hstate, Prog.exec_bind_of_ok (okOr_some st _),
    Prog.exec_bind_of_ok hactive]
  obtain ⟨s₁, hw, -, -, hl⟩ := writeVersionSnapshot_exec (s := s) hn (st.activeVersion + 1) old (setItem old g k value)
    { no := st.activeVersion + 1, structureVersion := st.structureVersion, createdAt := now, operator := "shared",
      comment := c, rollbackOf := none, kind := .full, snapshotRef := none, diffRef := none,
      eventTy := some .sharedCascade, gray := false }
  have hput : stateOf (s₁.insert (branchStateKey id b) (Codec.encode
      { st with activeVersion := st.activeVersion + 1 })).kv id b =
      some (rereadState { st with activeVersion := st.activeVersion + 1 }) := stateOf_insert _ _
  exact ⟨_, _, (Prog.exec_bind_of_ok hw _).trans rfl, hput, _, _,
    (logOf_insert_ne _ _ (offLog_branchStateKey hn.plain.1 hn.plain.2)).trans hl⟩

/-- One branch is given its next version if its active one can be read. -/
theorem cascadeToBranch_runs (hs : WellPlaced s.kv) {st : BranchState} (hst : stateOf s.kv id b = some st)
    (g k : String) (value : Value) (c r : String) (now : Int) :
    Runs (cascadeToBranch id b g k value c r now) s (Ready s.kv id b) := by
  have hn := named_of_stateOf hs hst
  have hob := cascadeToBranch_obeys (T := UnderBranch id b) (D := fun _ => False) (fun _ hk => hk) g k value c r now
  cases he : (activeSnapshot id b st).eval s.kv with
  | error e =>
    refine .inr ⟨?_, e, s, ?_⟩
    · rintro ⟨st', hst', hready⟩
      obtain rfl := Option.some.inj (hst.symm.trans hst')
      obtain ⟨old, ho⟩ := Option.isSome_iff_exists.mp hready
      rw [(activeSnapshot_eval hs hn).mpr ho] at he
      cases he
    · have hstate := getBranchState_exec hst
      have hactive := (activeSnapshot_readOnly id b st).exec_eq s
      rw [he] at hactive
      rw [cascadeToBranch, Prog.exec_bind_of_ok hstate, Prog.exec_bind_of_ok (okOr_some st _),
        Prog.exec_bind_of_error hactive]
  | ok old =>
    have ho := (activeSnapshot_eval hs hn).mp he
    obtain ⟨event, s', hexec, hst', new, d, hl⟩ := cascadeToBranch_exec hn hst he g k value c r now
    have hready : Ready s.kv id b := ⟨st, hst, by rw [ho]; rfl⟩
    have hready' : Ready s'.kv id b := by
      refine ⟨_, hst', ?_⟩
      rw [activeContents, rereadState_activeVersion, if_neg (Nat.succ_ne_zero _), contents, hl]
      refine DeltaLog.isSome_read_write (Nat.succ_pos _) ?_
      change _ ∨ (contents s.kv id b st.activeVersion).isSome
      by_cases h0 : st.activeVersion = 0
      · exact .inl (.inl (by rw [h0]))
      · rw [activeContents, if_neg h0] at ho
        exact .inr (by rw [ho]; rfl)
    have hw := elsewhere_of_obeys hexec hob hs
    have hs' : WellPlaced s'.kv := by simpa only [hexec] using wellPlaced_of_obeys hob hs
    refine .inl ⟨hready, event, s', hexec, ⟨fun id' hi => ?_, fun id' b' hn' => ?_, fun id' b' hn' => ?_⟩, hs'⟩
    · have := rows_of_obeys hob hs (not_underBranch_projectKey hi)
      rw [hexec] at this
      exact entity_congr this
    · by_cases e : id' = id ∧ b' = b
      · obtain ⟨rfl, rfl⟩ := e
        rw [hst', hst]; rfl
      · rw [hw.state hn' e]
    · by_cases e : id' = id ∧ b' = b
      · obtain ⟨rfl, rfl⟩ := e
        exact iff_of_true hready' hready
      · exact (hw.branches id' b' hn'.plain.1 hn'.plain.2 e).ready

theorem cascade_runs (value : Value) (c r : String) (now : Int)
    (usage : List (ProjectId × BranchName × String × String)) :
    ∀ {s : State}, WellPlaced s.kv → (∀ u ∈ usage, (stateOf s.kv u.1 u.2.1).isSome) →
      Runs (usage.mapM fun (p, b, g, k) => cascadeToBranch p b g k value c r now) s
        (∀ u ∈ usage, Ready s.kv u.1 u.2.1) := by
  induction usage with
  | nil =>
    intro s hs _
    exact .inl ⟨by simp, [], s, by rw [List.mapM_nil]; rfl, .refl s, hs⟩
  | cons u usage ih =>
    intro s hs hu
    obtain ⟨hu₀, hrest⟩ := List.forall_mem_cons.mp hu
    obtain ⟨st, hst⟩ := Option.isSome_iff_exists.mp hu₀
    obtain ⟨id, b, g, k⟩ := u
    rw [List.mapM_cons]
    rcases cascadeToBranch_runs hs hst g k value c r now with ⟨hr, event, s₁, h₁, hc, hs₁⟩ | ⟨hr, e, s₁, h₁⟩
    · have hst₁ : ∀ u ∈ usage, (stateOf s₁.kv u.1 u.2.1).isSome := by
        intro u hm
        obtain ⟨st', hst'⟩ := Option.isSome_iff_exists.mp (hrest u hm)
        have := hc.bindings _ _ (named_of_stateOf hs hst')
        rw [hst', Option.map_some] at this
        obtain ⟨st₁, h, -⟩ := Option.map_eq_some_iff.mp this
        rw [h]; rfl
      have hiff : (∀ u ∈ usage, Ready s₁.kv u.1 u.2.1) ↔ ∀ u ∈ usage, Ready s.kv u.1 u.2.1 := by
        refine forall₂_congr fun u hm => ?_
        obtain ⟨st', hst'⟩ := Option.isSome_iff_exists.mp (hrest u hm)
        exact hc.ready _ _ (named_of_stateOf hs hst')
      rcases ih hs₁ hst₁ with ⟨hrs, events, s₂, h₂, hc', hs₂⟩ | ⟨hrs, e, s₂, h₂⟩
      · refine .inl ⟨List.forall_mem_cons.mpr ⟨hr, hiff.mp hrs⟩, event :: events, s₂, ?_, hc.trans hc', hs₂⟩
        rw [Prog.exec_bind_of_ok h₁, Prog.exec_bind_of_ok h₂]; rfl
      · refine .inr ⟨fun h => hrs (hiff.mpr (List.forall_mem_cons.mp h).2), e, s₂, ?_⟩
        rw [Prog.exec_bind_of_ok h₁, Prog.exec_bind_of_error h₂]
    · refine .inr ⟨fun h => hr (List.forall_mem_cons.mp h).1, e, s₁, ?_⟩
      rw [Prog.exec_bind_of_error h₁]

theorem cascaded_of_rows (h : ∀ k, ¬ OutsideProjects k → s'.kv[k]? = s.kv[k]?) : Cascaded s s' := by
  have hsame : ∀ id b, Named id b → Same s s' id b := fun id b hn =>
    same_of_rows fun k hk => h k (not_outside_of_tracked hn.plain.1 hn.plain.2 hk)
  exact ⟨fun id hi => entity_congr (h _ (not_outside_projectKey hi)), fun id b hn => by rw [(hsame id b hn).state],
    fun id b hn => (hsame id b hn).ready⟩

theorem cascadeShared_runs (hs : WellPlaced s.kv) (c r : String) (now : Int) (mode : SharedCascadeMode)
    (item : SharedItem) : Runs (cascadeShared c r now mode item) s
      (mode = .auto → ∀ id b, Bound s.kv item.key id b → Ready s.kv id b) := by
  unfold cascadeShared
  cases mode with
  | manual => exact .inl ⟨nofun, [], s, rfl, .refl s, hs⟩
  | auto =>
    obtain ⟨usage, husage⟩ : ∃ usage, (sharedUsage item.key).eval s.kv = .ok usage := ⟨_, sharedUsage_eval hs _⟩
    have hread := (sharedUsage_readOnly item.key).exec_ok.mpr ⟨husage, rfl⟩
    have hbound : ∀ u ∈ usage, Bound s.kv item.key u.1 u.2.1 := fun u hu =>
      (mem_sharedUsage hs husage).mp ⟨u.2.2.1, u.2.2.2, hu⟩
    have hiff : (∀ u ∈ usage, Ready s.kv u.1 u.2.1) ↔
        (SharedCascadeMode.auto = .auto → ∀ id b, Bound s.kv item.key id b → Ready s.kv id b) := by
      refine ⟨fun h _ id b hb => ?_, fun h u hu => h rfl _ _ (hbound u hu)⟩
      obtain ⟨g, k, hm⟩ := (mem_sharedUsage hs husage).mpr hb
      exact h (id, b, g, k) hm
    have hruns := cascade_runs item.value c r now usage hs fun u hu => by
      obtain ⟨-, st, -, -, hst, -⟩ := hbound u hu
      rw [hst]; rfl
    rw [if_neg (by decide : ¬ SharedCascadeMode.auto = .manual)]
    rcases hruns with ⟨hr, events, s', h', hc, hs'⟩ | ⟨hr, e, s', h'⟩
    · exact .inl ⟨hiff.mp hr, events, s', (Prog.exec_bind_of_ok hread _).trans h', hc, hs'⟩
    · exact .inr ⟨fun h => hr (hiff.mpr h), e, s', (Prog.exec_bind_of_ok hread _).trans h'⟩

theorem getShared_exec (hs : WellPlaced s.kv) (key : String) :
    ∃ prev, (getShared key).exec s = (.ok prev, s) := by
  cases h : s.kv[sharedKey key]? with
  | none => exact ⟨none, loadMerged_none h⟩
  | some v =>
    obtain ⟨prev, rfl⟩ := placed_at_sharedKey (hs _ _ h)
    exact ⟨_, loadMerged_some h⟩

theorem publishShared_runs (hs : WellPlaced s.kv) (c r : String) (now : Int) (mode : SharedCascadeMode)
    {item : SharedItem} (hk : validKeyName item.key) : Runs (publishShared c r now mode item) s
      (mode = .auto → ∀ id b, Bound s.kv item.key id b → Ready s.kv id b) := by
  obtain ⟨prev, hprev⟩ := getShared_exec hs item.key
  rw [publishShared, Runs, Prog.exec_bind_of_ok hprev, savePending_bind, Prog.exec_bind_of_ok (storeDelete_exec _)]
  generalize hs₁ : (KV.Flat.insert s (sharedKey item.key) _).erase (sharedDraftKey item.key) = s₁
  have hc : Cascaded s s₁ := by
    refine cascaded_of_rows fun k hk => ?_
    rw [← hs₁, KV.Flat.erase_kv, KV.getElem?_erase_ne, KV.Flat.insert_kv, KV.getElem?_insert_ne]
    · rintro rfl; exact hk (outside_sharedKey _)
    · rintro rfl; exact hk (outside_sharedDraftKey _)
  have hw : WellPlaced s₁.kv := by
    rw [← hs₁]
    refine (hs.insert ?_).erase _
    exact (placed_shared _).mpr ⟨hk, .inl rfl⟩
  have hiff : (mode = .auto → ∀ id b, Bound s₁.kv item.key id b → Ready s₁.kv id b) ↔
      (mode = .auto → ∀ id b, Bound s.kv item.key id b → Ready s.kv id b) := by
    exact imp_congr_right fun _ => hc.bound_ready hs hw item.key
  rw [← hiff]
  rcases cascadeShared_runs hw c r now mode item with ⟨hr, events, s', h', hc', hs'⟩ | hr
  · exact .inl ⟨hr, events, s', h', hc.trans hc', hs'⟩
  · exact .inr hr

theorem publishDrafts_runs (c r : String) (now : Int) (mode : SharedCascadeMode) (drafts : List SharedItem) :
    ∀ {s : State}, WellPlaced s.kv → (∀ item ∈ drafts, validKeyName item.key) →
      Runs (collect (publishShared c r now mode) drafts) s
        (∀ item ∈ drafts, mode = .auto → ∀ id b, Bound s.kv item.key id b → Ready s.kv id b) := by
  induction drafts with
  | nil =>
    intro s hs _
    exact .inl ⟨by simp, [], s, rfl, .refl s, hs⟩
  | cons item drafts ih =>
    intro s hs hk
    obtain ⟨hk₀, hrest⟩ := List.forall_mem_cons.mp hk
    rw [collect]
    rcases publishShared_runs hs c r now mode hk₀ with ⟨hr, events, s₁, h₁, hc, hs₁⟩ | ⟨hr, e, s₁, h₁⟩
    · have hiff : (∀ item ∈ drafts, mode = .auto → ∀ id b, Bound s₁.kv item.key id b → Ready s₁.kv id b) ↔
          ∀ item ∈ drafts, mode = .auto → ∀ id b, Bound s.kv item.key id b → Ready s.kv id b := by
        exact forall₂_congr fun item _ => imp_congr_right fun _ => hc.bound_ready hs hs₁ item.key
      rcases ih hs₁ hrest with ⟨hrs, events', s₂, h₂, hc', hs₂⟩ | ⟨hrs, e, s₂, h₂⟩
      · refine .inl ⟨List.forall_mem_cons.mpr ⟨hr, hiff.mp hrs⟩, events ++ events', s₂, ?_, hc.trans hc', hs₂⟩
        rw [Prog.exec_bind_of_ok h₁, Prog.exec_bind_of_ok h₂]
        rfl
      · refine .inr ⟨fun h => hrs (hiff.mpr (List.forall_mem_cons.mp h).2), e, s₂, ?_⟩
        rw [Prog.exec_bind_of_ok h₁, Prog.exec_bind_of_error h₂]
    · refine .inr ⟨fun h => hr (List.forall_mem_cons.mp h).1, e, s₁, ?_⟩
      rw [Prog.exec_bind_of_error h₁]

/-! ## The store after a failure -/

/-- A failing command leaves the store alone if what it would delete directly is not there. -/
theorem store_of_error (ht : WellPlaced t) {cmd : Command} {now : Int} {e : Error}
    (h : (apply cmd now t).result = .error e) (hd : ∀ k : String, touchesDirectly cmd k → t[k]? = none) :
    (apply cmd now t).store = t := by
  rcases apply_cases ht cmd now with ⟨events, s, -, he⟩ | ⟨-, -, -, -, hk⟩
  · rw [he] at h; cases h
  · refine Std.ExtTreeMap.ext_getElem? fun k => ?_
    rcases hk k with hk | ⟨hdir, hk⟩
    · exact hk
    · rw [hk, hd k hdir]

/-- Whatever becomes of a publication of shared items, its first draft is gone. -/
theorem first_draft_deleted (ht : WellPlaced t) (c r : String) (now : Int) (mode : SharedCascadeMode)
    {item : SharedItem} {drafts : List SharedItem} (hk : ∀ i ∈ item :: drafts, validKeyName i.key) :
    ((collect (publishShared c r now mode) (item :: drafts)).run { store := t }).2.store[sharedDraftKey item.key]? =
      none := by
  obtain ⟨hk₀, hrest⟩ := List.forall_mem_cons.mp hk
  obtain ⟨prev, hprev⟩ := getShared_exec (s := ⟨t, []⟩) ht item.key
  have hread : (getShared item.key).run { store := t } = (.ok prev, { store := t }) := by
    have hro : (getShared item.key).ReadOnly := loadMerged_readOnly _
    rw [hro.run_eq]
    exact congrArg (·, _) (hro.exec_ok.mp hprev).1
  -- the first pass up to its direct delete
  let saved : SharedItem := { item with version := ((prev.map (·.version)).getD 0) + 1 }
  let b₁ : KV.Buf String Stored VersionWrite :=
    { store := t.erase (sharedDraftKey item.key), pending := [.put (sharedKey item.key) (Codec.encode saved)] }
  have hpass : (publishShared c r now mode item).run { store := t } = (cascadeShared c r now mode item).run b₁ := by
    rw [publishShared, Prog.run_bind_of_ok hread]
    rfl
  have hstore : WellPlaced b₁.store := ht.erase _
  have hview : WellPlaced b₁.view := hstore.insert (v := Codec.encode saved) ((placed_shared _).mpr ⟨hk₀, .inl rfl⟩)
  have hnone : b₁.store[sharedDraftKey item.key]? = none := by
    rw [KV.getElem?_erase, if_pos rfl]
  obtain ⟨h₂, -, hview₂, hstore₂⟩ := Prog.store_run (C := rules SharedRows fun k => ∃ key, k = sharedDraftKey key)
    (fun _ _ h => h.1) (cascadeShared_obeys c r now mode item) hview hstore
  have hnone₂ := (h₂ (sharedDraftKey item.key)).elim (fun h => h.trans hnone) (·.2)
  -- the passes after it delete drafts only
  rw [collect, Prog.run_bind, hpass]
  rcases hrun : (cascadeShared c r now mode item).run b₁ with ⟨_ | events, b₂⟩
  · rw [hrun] at hnone₂
    exact hnone₂
  · rw [hrun] at hnone₂ hview₂ hstore₂
    have hob : (collect (publishShared c r now mode) drafts >>= fun events' => pure (events ++ events')).Obeys
        (rules SharedRows fun k => ∃ key, k = sharedDraftKey key) fun _ => True := by
      rw [Prog.obeys_bind]
      refine (obeys_collect (fun _ => True) fun i hi => ?_).mono fun _ _ => trivial
      exact (publishShared_obeys (fun key => ⟨key, rfl⟩) c r now mode (hrest i hi)).mono fun _ _ _ _ => trivial
    have h₃ := (Prog.store_run (C := rules SharedRows fun k => ∃ key, k = sharedDraftKey key)
      (fun _ _ h => h.1) hob hview₂ hstore₂).1 (sharedDraftKey item.key)
    exact h₃.elim (fun h => h.trans hnone₂) (·.2)

theorem sharedPublish_drafts {drafts : List SharedItem} (hd : draftsOf t = drafts) (hne : drafts ≠ []) (c r o : String)
    (now : Int) (mode : SharedCascadeMode) (policy : PublishPolicy) :
    (applySharedPublish c r now o mode policy).run { store := t } =
        (collect (publishShared c r now mode) drafts).run { store := t } ∧
      (applySharedPublish c r now o mode policy).exec ⟨t, []⟩ =
        (collect (publishShared c r now mode) drafts).exec ⟨t, []⟩ := by
  have hlist : listSharedDrafts.eval t = .ok drafts := by rw [listSharedDrafts_eq, hd]
  constructor
  · have hrun : listSharedDrafts.run { store := t } = (.ok drafts, { store := t }) := by
      rw [listSharedDrafts_readOnly.run_eq]
      exact congrArg (·, _) hlist
    have hens : (ensure (drafts ≠ []) (Error.new .noDraft "no shared draft")).run { store := t } =
        (.ok (), ({ store := t } : KV.Buf String Stored VersionWrite)) := by
      rw [ensure, if_pos hne]
      rfl
    rw [applySharedPublish, Prog.run_bind_of_ok hrun, Prog.run_bind_of_ok hens]
  · have hrun : listSharedDrafts.exec ⟨t, []⟩ = (.ok drafts, ⟨t, []⟩) :=
      listSharedDrafts_readOnly.exec_ok.mpr ⟨hlist, rfl⟩
    rw [applySharedPublish, Prog.exec_bind_of_ok hrun, Prog.exec_bind_of_ok (ensure_true hne _)]

/-! ## Atomicity -/

/-- A publication of shared items finds the active version of every branch it cascades to. -/
def CascadeReadable (t : Store) : Command → Prop
  | .sharedPublish _ _ _ _ .auto _ => ∀ item : SharedItem, t[sharedDraftKey item.key]? = some (Codec.encode item) →
      ∀ id b, Bound t item.key id b → ∀ st, stateOf t id b = some st → st.activeVersion > 0 →
        ∃ snap, (snapshotOf id b st.activeVersion).eval t = .ok snap
  | _ => True

/-- Readiness of the branches bound to the drafts, as the reader of versions sees it. -/
theorem cascadeReadable_iff (ht : WellPlaced t) (c r o : String) (ts : Int) (mode : SharedCascadeMode)
    (policy : PublishPolicy) : CascadeReadable t (.sharedPublish c r o ts mode policy) ↔
      ∀ item ∈ draftsOf t, mode = .auto → ∀ id b, Bound t item.key id b → Ready t id b := by
  cases mode with
  | manual => exact iff_of_true trivial fun _ _ h => by cases h
  | auto =>
    refine (forall_draft_rows ht (P := fun key => ∀ id b, Bound t key id b → ∀ st, stateOf t id b = some st →
      st.activeVersion > 0 → ∃ snap, (snapshotOf id b st.activeVersion).eval t = .ok snap)).trans ?_
    refine forall₂_congr fun item _ => ?_
    rw [forall_prop_of_true rfl]
    refine forall₂_congr fun id b => forall_congr' fun hb => ?_
    have hn := bound_named ht hb
    obtain ⟨-, st, -, -, hst, -⟩ := hb
    constructor
    · intro h
      refine ⟨st, hst, ?_⟩
      unfold activeContents
      split
      · rfl
      · rename_i hv
        obtain ⟨snap, hsnap⟩ := h st hst (Nat.pos_of_ne_zero hv)
        rw [(snapshotOf_eval ht hn.plain.1 hn.plain.2 _ _).mp hsnap]
        rfl
    · rintro ⟨st', hst', h⟩ st'' hst'' hv
      obtain rfl := Option.some.inj (hst'.symm.trans hst'')
      rw [activeContents, if_neg (Nat.ne_of_gt hv)] at h
      obtain ⟨snap, hsnap⟩ := Option.isSome_iff_exists.mp h
      exact ⟨snap, (snapshotOf_eval ht hn.plain.1 hn.plain.2 _ _).mpr hsnap⟩

/-- A publication of shared items with drafts to publish fails exactly if one of its cascades does, and
then some draft is gone. -/
theorem sharedPublish_atomic_iff (ht : WellPlaced t) (c r o : String) (ts now : Int) (mode : SharedCascadeMode)
    (policy : PublishPolicy) :
    ((∃ e, (apply (.sharedPublish c r o ts mode policy) now t).result = .error e) →
        (apply (.sharedPublish c r o ts mode policy) now t).store = t) ↔
      CascadeReadable t (.sharedPublish c r o ts mode policy) := by
  rw [cascadeReadable_iff ht]
  rcases hd : draftsOf t with _ | ⟨item, drafts⟩
  · refine iff_of_true ?_ (by simp)
    rintro ⟨e, he⟩
    refine store_of_error ht he ?_
    rintro _ ⟨key, rfl⟩
    exact no_draft_row ht hd key
  · have hk : ∀ i ∈ item :: drafts, validKeyName i.key := by
      intro i hi
      refine listSharedDrafts_eval ht (listSharedDrafts_eq t) i ?_
      rwa [hd]
    obtain ⟨hrun, hexec⟩ := sharedPublish_drafts hd (List.cons_ne_nil _ _) c r o (effTs ts now) mode policy
    have hruns := publishDrafts_runs (s := ⟨t, []⟩) c r (effTs ts now) mode (item :: drafts) ht hk
    have hresult : (apply (.sharedPublish c r o ts mode policy) now t).result =
        ((collect (publishShared c r (effTs ts now) mode) (item :: drafts)).exec ⟨t, []⟩).1 := by
      rw [apply_result]
      exact congrArg Prod.fst hexec
    rcases hruns with ⟨hready, events, s', h, -⟩ | ⟨hready, e, s', h⟩
    · rw [h] at hresult
      refine iff_of_true ?_ hready
      rintro ⟨e, he⟩
      rw [hresult] at he
      cases he
    · rw [h] at hresult
      refine iff_of_false (fun hstore => ?_) hready
      -- the failing run had deleted the first draft already
      have hgone := first_draft_deleted ht c r (effTs ts now) mode hk
      obtain ⟨x, hrow, -⟩ : ∃ x : SharedItem, t[sharedDraftKey item.key]? = some (Codec.encode x) ∧ Codec.reread x = item := by
        refine row_of_entity ((mem_draftsOf ht).mp ?_)
        rw [hd]
        exact List.mem_cons_self
      have hsame := hstore ⟨e, hresult⟩
      have hrun' : (applyInner (.sharedPublish c r o ts mode policy) now).run { store := t } =
          (collect (publishShared c r (effTs ts now) mode) (item :: drafts)).run { store := t } := hrun
      unfold apply at hsame hresult
      rw [hrun'] at hsame hresult
      rcases hb : (collect (publishShared c r (effTs ts now) mode) (item :: drafts)).run { store := t } with ⟨_ | _, b⟩
      · rw [hb] at hsame hgone
        rw [← hsame, show (b.store)[sharedDraftKey item.key]? = none from hgone] at hrow
        cases hrow
      · rw [hb] at hresult
        cases hresult

/-- In every reachable state a command that fails leaves the store as it was, except exactly for
publications of shared items that cascade to a branch whose active version cannot be read. -/
theorem apply_atomic_iff (ht : Reachable t) (cmd : Command) (now : Int) :
    ((∃ e, (apply cmd now t).result = .error e) → (apply cmd now t).store = t) ↔ CascadeReadable t cmd := by
  have hwp := wellPlaced_of_reach ht
  by_cases hc : ∀ k, ¬ touchesDirectly cmd k
  · refine iff_of_true ?_ ?_
    · rintro ⟨e, he⟩
      exact store_of_error hwp he fun k hk => absurd hk (hc k)
    · cases cmd <;> try trivial
      exact absurd ⟨"", rfl⟩ (hc (sharedDraftKey ""))
  · obtain ⟨k, hk⟩ := not_forall_not.mp hc
    cases cmd <;> try exact hk.elim
    exact sharedPublish_atomic_iff hwp _ _ _ _ _ _ _

end

end

section
attribute [local instance] sampleJson

def boundItemLog : List (Command × Int) := [
  (.sharedDraftUpdate { key := "s", ty := .string, value := .string "a", version := 0 } "", 1),
  (.sharedPublish "" "r0" "" 0 .auto .block, 2),
  (.projectCreate "p" "" 0 none, 3),
  (.structureDraftSet "p" 1 [{ name := "g", items := [{ key := "s", ty := .string, shared := true }] }] "", 4),
  (.publishStructure "p" "" "r1" "" 0 .block, 5),
  (.branchCreate "p" "x" none "" 0, 6),
  (.draftUpdate "p" "x" [] [] [⟨"g", "s", "s"⟩] "" 0 none, 7)]

def readableLog : List (Command × Int) := boundItemLog ++ [
  (.publish "p" "x" "" "r2" "" 0 .block, 8),
  (.sharedDraftUpdate { key := "s", ty := .string, value := .string "b", version := 0 } "", 9)]

/-- The cascade makes the second version of the branch, and so has found the first one. -/
theorem apply_atomic_iff_sample :
    CascadeReadable (runLog readableLog) (.sharedPublish "" "r3" "" 0 .auto .block) ∧
      (apply (.sharedPublish "" "r3" "" 0 .auto .block) 10 (runLog readableLog)).result.toOption.map
        (fun events => events.map fun e => (e.branch, e.version)) = some [("x", 2)] := by
  have hok : (apply (.sharedPublish "" "r3" "" 0 .auto .block) 10 (runLog readableLog)).result.toOption.map
      (fun events => events.map fun e => (e.branch, e.version)) = some [("x", 2)] := by decide +kernel
  refine ⟨(apply_atomic_iff (reachable_runLog readableLog) _ 10).mp ?_, hok⟩
  rintro ⟨e, he⟩
  rw [he] at hok
  cases hok

/-- The active version of the branch is the promotion of its first gray release. -/
def cascadeLog : List (Command × Int) := boundItemLog ++ [
  (.grayPublish "p" "x" { percentage := some 50 } "" "r2" "" 0 .block, 8),
  (.grayPromote "p" "x" "" "r3" "" 0, 9),
  (.sharedDraftUpdate { key := "s", ty := .string, value := .string "b", version := 0 } "", 10)]

/-- The publication fails at the cascade, and its draft is lost. -/
theorem apply_not_atomic :
    ¬ ∀ t, Reachable t → ∀ cmd now, (∃ e, (apply cmd now t).result = .error e) → (apply cmd now t).store = t := by
  intro h
  have hfails : (apply (.sharedPublish "" "r4" "" 0 .auto .block) 11 (runLog cascadeLog)).result.toOption = none ∧
      (apply (.sharedPublish "" "r4" "" 0 .auto .block) 11 (runLog cascadeLog)).store[sharedDraftKey "s"]? ≠
        (runLog cascadeLog)[sharedDraftKey "s"]? := by decide +kernel
  obtain ⟨herr, hrow⟩ := hfails
  have := h _ (reachable_runLog cascadeLog) (.sharedPublish "" "r4" "" 0 .auto .block) 11
  cases hr : (apply (.sharedPublish "" "r4" "" 0 .auto .block) 11 (runLog cascadeLog)).result with
  | ok events =>
    rw [hr] at herr
    cases herr
  | error e => exact hrow (by rw [this ⟨e, hr⟩])

end

end Defing
