import Defing.State.Effects

/-!
# Commands evolve the versions of branches

Every command that goes through, deletions of projects and branches apart, is
a sequence of effects, whose numbers are those `allocates` gives the command.
-/

namespace Defing

open KV (Prog Plain segments)

variable [SerdeJson]
variable {id : ProjectId} {b : BranchName} {s s' : State}
variable {A : ProjectId → BranchName → BranchState → Nat → Prop} {G : Prop}

/-! ## Runs that go through, step by step -/

section
variable {α β : Type} {p : M α} {f : α → M β} {r : β}

omit [SerdeJson] in
theorem ensure_bind {c : Prop} [Decidable c] {e : Error} {f : Unit → M β} :
    (ensure c e >>= f).exec s = (.ok r, s') ↔ c ∧ (f ()).exec s = (.ok r, s') := by
  rw [Prog.exec_bind_ok]
  simp only [ensure_ok]
  constructor
  · rintro ⟨_, _, ⟨hc, rfl⟩, h⟩
    exact ⟨hc, h⟩
  · intro h
    exact ⟨(), s, ⟨h.1, rfl⟩, h.2⟩

omit [SerdeJson] in
theorem okOr_bind {γ : Type} {o : Option γ} {e : Error} {f : γ → M β} :
    (okOr o e >>= f).exec s = (.ok r, s') ↔ ∃ a, o = some a ∧ (f a).exec s = (.ok r, s') := by
  rw [Prog.exec_bind_ok]
  simp only [okOr_ok]
  constructor
  · rintro ⟨a, _, ⟨ha, rfl⟩, h⟩
    exact ⟨a, ha, h⟩
  · intro h
    obtain ⟨a, ha, h⟩ := h
    exact ⟨a, s, ⟨ha, rfl⟩, h⟩

theorem loadMerged_bind {γ : Type} [Codec γ] {k : String} {f : Option γ → M β} :
    (loadMerged k >>= f).exec s = (.ok r, s') ↔
      ∃ o : Option γ, Decodes s.kv[k]? o ∧ (f o).exec s = (.ok r, s') := by
  rw [Prog.exec_bind_ok]
  simp only [loadMerged_ok]
  constructor
  · rintro ⟨o, _, ⟨ho, rfl⟩, h⟩
    exact ⟨o, ho, h⟩
  · intro h
    obtain ⟨o, ho, h⟩ := h
    exact ⟨o, s, ⟨ho, rfl⟩, h⟩

omit [SerdeJson] in
theorem savePending_bind [Codec α] (k : String) (a : α) (f : Unit → M β) :
    (savePending k a >>= f).exec s = (f ()).exec (s.insert k (Codec.encode a)) := rfl

omit [SerdeJson] in
theorem deletePending_bind (k : String) (f : Unit → M β) :
    (deletePending k >>= f).exec s = (f ()).exec (s.erase k) := rfl

theorem named_of_stateOf {t : Store} (ht : WellPlaced t) {st : BranchState} (h : stateOf t id b = some st) :
    Named id b := by
  obtain ⟨x, hx, -⟩ := row_of_entity h
  exact named_of_placed x (ht _ _ hx)

theorem getBranchState_exec {st : BranchState} (h : stateOf s.kv id b = some st) :
    (getBranchState id b).exec s = (.ok (some st), s) := loadMerged_ok.mpr ⟨entity_eq_some.mp h, rfl⟩

theorem getBranchState_bind {e : Error} {f : BranchState → M β}
    (h : (getBranchState id b >>= fun o => okOr o e >>= f).exec s = (.ok r, s')) :
    ∃ st, stateOf s.kv id b = some st ∧ (f st).exec s = (.ok r, s') := by
  obtain ⟨_, ho, h⟩ := loadMerged_bind.mp h
  obtain ⟨st, rfl, h⟩ := okOr_bind.mp h
  exact ⟨st, entity_eq_some.mpr ho, h⟩

theorem activeSnapshot_eval {t : Store} (ht : WellPlaced t) (hn : Named id b) {st : BranchState}
    {old : SnapshotMap} : (activeSnapshot id b st).eval t = .ok old ↔ activeContents t id b st = some old := by
  unfold activeSnapshot activeContents
  split
  · rw [Prog.eval_pure, Except.ok.injEq, Option.some.injEq]
  · exact snapshotOf_eval ht hn.plain.1 hn.plain.2 _ _

end

/-! ## Commands on one branch -/

/-- A state put in the place of another one, of the same version. -/
theorem edit_effect (hs : WellPlaced s.kv) {st st' : BranchState} (hst : stateOf s.kv id b = some st)
    (he : Elsewhere id b s s') {s₁ : State} (hs' : s' = s₁.insert (branchStateKey id b) (Codec.encode st'))
    (hl : logOf s₁.kv id b = logOf s.kv id b) (hm : s₁.notes = s.notes) (ha : st'.activeVersion = st.activeVersion)
    (hg : st.graySeq = 0 → G ∨ st'.graySeq = 0) : Effect A G s s' := by
  have hn := named_of_stateOf hs hst
  subst hs'
  refine .edit id b st _ hn he hst (stateOf_insert _ st') ha hg ?_ hm
  exact (logOf_insert_ne _ _ (offLog_branchStateKey hn.plain.1 hn.plain.2)).trans hl

/-- A version written, and after it a state that is at this version. -/
theorem release_effect (hs : WellPlaced s.kv) {st st' : BranchState} (hst : stateOf s.kv id b = some st)
    (he : Elsewhere id b s s') {n : Nat} {old new : SnapshotMap} (ho : activeContents s.kv id b st = some old)
    (hA : A id b st n) {r : VersionRecord} {u : Unit} {s₁ s₂ : State}
    (hw : (writeVersionSnapshot id b n old new r).exec s = (.ok u, s₁))
    (hs' : s' = s₂.insert (branchStateKey id b) (Codec.encode st')) (hl : logOf s₂.kv id b = logOf s₁.kv id b)
    (hm : s₂.notes = s₁.notes) (hv : st'.activeVersion = n)
    (hg : st.graySeq = 0 → st'.graySeq = 0) : Effect A G s s' := by
  have hn := named_of_stateOf hs hst
  obtain ⟨s₁', hw', hm', -, hl'⟩ := writeVersionSnapshot_exec (s := s) hn n old new r
  obtain ⟨-, rfl⟩ := Prod.mk.inj (hw.symm.trans hw')
  subst hs' hv
  refine .release id b st _ old new hn he hst (stateOf_insert _ st') hA ho hg ?_ (hm.trans hm')
  exact (logOf_insert_ne _ _ (offLog_branchStateKey hn.plain.1 hn.plain.2)).trans (hl.trans hl')

theorem applyDraftUpdate_effect (hs : WellPlaced s.kv) {us : List DraftUpdateItem} {ds : List (String × String)}
    {bs : List SharedBinding} {now : Int} {o : String} {rev : Option Nat} {events : List PublishEvent}
    (h : (applyDraftUpdate id b us ds bs now o rev).exec s = (.ok events, s')) : Effect A G s s' := by
  have he := elsewhere_of_obeys h (applyDraftUpdate_obeys us ds bs now o rev) hs
  obtain ⟨st, hst, h⟩ := getBranchState_bind h
  obtain ⟨_, -, h⟩ := (checkDraftRev_readOnly _ _).exec_bind_ok.mp h
  obtain ⟨struct?, -, h⟩ := (loadMerged_readOnly _).exec_bind_ok.mp h
  obtain ⟨struct, -, h⟩ := (okOr_readOnly _ _).exec_bind_ok.mp h
  obtain ⟨_, -, h⟩ := (foldlM_readOnly (checkUpdate_readOnly _ _) _ _).exec_bind_ok.mp h
  obtain ⟨r, -, h⟩ := (foldlM_readOnly (bindOne_readOnly _) _ _).exec_bind_ok.mp h
  rw [savePending_bind] at h
  obtain ⟨-, rfl⟩ := pure_ok.mp h
  exact edit_effect hs hst he rfl rfl rfl rfl .inr

theorem applyPublish_effect (hs : WellPlaced s.kv)
    (hA : ∀ st, stateOf s.kv id b = some st → A id b st (st.activeVersion + 1)) {c r : String} {now : Int}
    {o : String} {policy : PublishPolicy} {events : List PublishEvent}
    (h : (applyPublish id b c r now o policy).exec s = (.ok events, s')) : Effect A G s s' := by
  have he := elsewhere_of_obeys h (applyPublish_obeys c r now o policy) hs
  obtain ⟨st, hst, h⟩ := getBranchState_bind h
  obtain ⟨struct?, -, h⟩ := (loadMerged_readOnly _).exec_bind_ok.mp h
  obtain ⟨struct, -, h⟩ := (okOr_readOnly _ _).exec_bind_ok.mp h
  split at h
  · exact .quiet ((pure_ok.mp h).2 ▸ .refl _)
  · obtain ⟨_, -, h⟩ := (ensure_readOnly _ _).exec_bind_ok.mp h
    obtain ⟨old, ho, h⟩ := (activeSnapshot_readOnly _ _ _).exec_bind_ok.mp h
    replace ho := (activeSnapshot_eval hs (named_of_stateOf hs hst)).mp ho
    obtain ⟨new, -, h⟩ := (materializeResolved_readOnly _ _ _ _).exec_bind_ok.mp h
    obtain ⟨_, s₈, h₈, h⟩ := Prog.exec_bind_ok.mp h
    rw [savePending_bind] at h
    obtain ⟨-, rfl⟩ := pure_ok.mp h
    exact release_effect hs hst he ho (hA st hst) h₈ rfl rfl rfl rfl fun h => h

theorem applyRollback_effect (hs : WellPlaced s.kv)
    (hA : ∀ st, stateOf s.kv id b = some st → A id b st (st.activeVersion + 1)) {v : Nat} {c r : String}
    {now : Int} {o : String} {events : List PublishEvent}
    (h : (applyRollback id b v c r now o).exec s = (.ok events, s')) : Effect A G s s' := by
  have he := elsewhere_of_obeys h (applyRollback_obeys v c r now o) hs
  obtain ⟨st, hst, h⟩ := getBranchState_bind h
  split at h
  · exact .quiet ((pure_ok.mp h).2 ▸ .refl _)
  · obtain ⟨_, -, h⟩ := (ensure_readOnly _ _).exec_bind_ok.mp h
    obtain ⟨snap, -, h⟩ := (snapshotOf_readOnly _ _ _).exec_bind_ok.mp h
    obtain ⟨old, ho, h⟩ := (activeSnapshot_readOnly _ _ _).exec_bind_ok.mp h
    replace ho := (activeSnapshot_eval hs (named_of_stateOf hs hst)).mp ho
    obtain ⟨_, s₆, h₆, h⟩ := Prog.exec_bind_ok.mp h
    rw [savePending_bind] at h
    obtain ⟨-, rfl⟩ := pure_ok.mp h
    exact release_effect hs hst he ho (hA st hst) h₆ rfl rfl rfl rfl fun h => h

theorem applyGrayPublish_effect (hs : WellPlaced s.kv) (hG : G) {rule : GrayRule} {c r : String} {now : Int}
    {o : String} {policy : PublishPolicy} {events : List PublishEvent}
    (h : (applyGrayPublish id b rule c r now o policy).exec s = (.ok events, s')) : Effect A G s s' := by
  have he := elsewhere_of_obeys h (applyGrayPublish_obeys rule c r now o policy) hs
  obtain ⟨_, -, h⟩ := (validateGrayRule_readOnly _).exec_bind_ok.mp h
  obtain ⟨st, hst, h⟩ := getBranchState_bind h
  have hn := named_of_stateOf hs hst
  obtain ⟨struct?, -, h⟩ := (loadMerged_readOnly _).exec_bind_ok.mp h
  obtain ⟨struct, -, h⟩ := (okOr_readOnly _ _).exec_bind_ok.mp h
  split at h
  · exact .quiet ((pure_ok.mp h).2 ▸ .refl _)
  · obtain ⟨_, -, h⟩ := (ensure_readOnly _ _).exec_bind_ok.mp h
    obtain ⟨old, -, h⟩ := (activeSnapshot_readOnly _ _ _).exec_bind_ok.mp h
    obtain ⟨new, -, h⟩ := (materializeResolved_readOnly _ _ _ _).exec_bind_ok.mp h
    rw [savePending_bind] at h
    have hoff := offLog_graySnapKey hn.plain.1 hn.plain.2
    dsimp only at h
    split at h
    · rw [deletePending_bind] at h
      rw [savePending_bind] at h
      obtain ⟨-, rfl⟩ := pure_ok.mp h
      refine edit_effect hs hst he rfl ?_ rfl rfl fun _ => .inl hG
      exact (logOf_erase_ne _ (hoff _)).trans (logOf_insert_ne _ _ (hoff _))
    · rw [savePending_bind] at h
      obtain ⟨-, rfl⟩ := pure_ok.mp h
      exact edit_effect hs hst he rfl (logOf_insert_ne _ _ (hoff _)) rfl rfl fun _ => .inl hG

theorem applyGrayPromote_effect (hs : WellPlaced s.kv) {c r : String}
    (hA : ∀ st, stateOf s.kv id b = some st → st.lastRequestId ≠ some r → st.graySeq ≠ 0 → st.grayRule ≠ none →
      A id b st (nextMonotonic st.activeVersion st.graySeq)) {now : Int} {o : String} {events : List PublishEvent}
    (h : (applyGrayPromote id b c r now o).exec s = (.ok events, s')) : Effect A G s s' := by
  have he := elsewhere_of_obeys h (applyGrayPromote_obeys c r now o) hs
  obtain ⟨st, hst, h⟩ := getBranchState_bind h
  have hn := named_of_stateOf hs hst
  split at h
  · exact .quiet ((pure_ok.mp h).2 ▸ .refl _)
  · rename_i hr
    obtain ⟨hgray, h⟩ := ensure_bind.mp h
    rw [not_or] at hgray
    obtain ⟨gray, -, h⟩ := (graySnapshotOf_readOnly _ _ _).exec_bind_ok.mp h
    obtain ⟨old, ho, h⟩ := (activeSnapshot_readOnly _ _ _).exec_bind_ok.mp h
    replace ho := (activeSnapshot_eval hs hn).mp ho
    obtain ⟨_, s₆, h₆, h⟩ := Prog.exec_bind_ok.mp h
    rw [deletePending_bind, savePending_bind] at h
    obtain ⟨-, rfl⟩ := pure_ok.mp h
    refine release_effect hs hst he ho (hA st hst hr hgray.1 hgray.2) h₆ rfl ?_ rfl rfl fun _ => rfl
    exact logOf_erase_ne _ (offLog_graySnapKey hn.plain.1 hn.plain.2 _)

theorem applyGrayAbort_effect (hs : WellPlaced s.kv) {c r : String} {now : Int} {o : String}
    {events : List PublishEvent} (h : (applyGrayAbort id b c r now o).exec s = (.ok events, s')) :
    Effect A G s s' := by
  have he := elsewhere_of_obeys h (applyGrayAbort_obeys c r now o) hs
  obtain ⟨st, hst, h⟩ := getBranchState_bind h
  have hn := named_of_stateOf hs hst
  split at h
  · exact .quiet ((pure_ok.mp h).2 ▸ .refl _)
  · obtain ⟨_, -, h⟩ := (ensure_readOnly _ _).exec_bind_ok.mp h
    rw [deletePending_bind, savePending_bind] at h
    obtain ⟨-, rfl⟩ := pure_ok.mp h
    refine edit_effect hs hst he rfl ?_ rfl rfl fun _ => .inr rfl
    exact logOf_erase_ne _ (offLog_graySnapKey hn.plain.1 hn.plain.2 _)

/-! ## Passes over branches -/

/-- The copy of a gray snapshot touches neither the log of the branch nor the history. -/
theorem bumpGray_ok (hn : Named id b) {seq next seq' : Nat} (h : (bumpGray id b seq next).exec s = (.ok seq', s')) :
    logOf s'.kv id b = logOf s.kv id b ∧ s'.notes = s.notes ∧ (seq = 0 → seq' = 0) := by
  have hoff := offLog_graySnapKey hn.plain.1 hn.plain.2
  unfold bumpGray at h
  split at h
  · obtain ⟨gray, -, h⟩ := (graySnapshotOf_readOnly _ _ _).exec_bind_ok.mp h
    rw [savePending_bind, deletePending_bind] at h
    obtain ⟨rfl, rfl⟩ := pure_ok.mp h
    exact ⟨(logOf_erase_ne _ (hoff _)).trans (logOf_insert_ne _ _ (hoff _)), rfl, fun h0 => by omega⟩
  · obtain ⟨rfl, rfl⟩ := pure_ok.mp h
    exact ⟨rfl, rfl, fun h => h⟩

theorem publishStructureOn_effect (hs : WellPlaced s.kv)
    (hA : ∀ st, stateOf s.kv id b = some st → A id b st (nextMonotonic st.activeVersion st.graySeq))
    {struct : Structure} {c r : String} {now : Int} {o : String} {event : PublishEvent}
    (h : (publishStructureOn id struct c r now o b).exec s = (.ok event, s')) :
    Effect A G s s' ∧ WellPlaced s'.kv ∧ Elsewhere id b s s' := by
  have hob := publishStructureOn_obeys (T := UnderBranch id b) (D := fun _ => False) (fun _ hk => hk) struct c r now o
  have he := elsewhere_of_obeys h hob hs
  refine ⟨?_, by simpa only [h] using wellPlaced_of_obeys hob hs, he⟩
  obtain ⟨st, hst, h⟩ := getBranchState_bind h
  have hn := named_of_stateOf hs hst
  obtain ⟨old, ho, h⟩ := (activeSnapshot_readOnly _ _ _).exec_bind_ok.mp h
  replace ho := (activeSnapshot_eval hs hn).mp ho
  obtain ⟨_, s₄, h₄, h⟩ := Prog.exec_bind_ok.mp h
  obtain ⟨graySeq, s₅, h₅, h⟩ := Prog.exec_bind_ok.mp h
  obtain ⟨bindings, -, h⟩ := (retainBindings_readOnly _ _).exec_bind_ok.mp h
  obtain ⟨_, s₇, h₇, h⟩ := Prog.exec_bind_ok.mp h
  obtain ⟨-, rfl⟩ := pure_ok.mp h
  obtain ⟨hl, hm, hg⟩ := bumpGray_ok hn h₅
  exact release_effect hs hst he ho (hA st hst) h₄ (savePending_ok.mp h₇) hl hm rfl hg

theorem cascadeToBranch_effect (hs : WellPlaced s.kv)
    (hA : ∀ st, stateOf s.kv id b = some st → A id b st (st.activeVersion + 1)) {g k : String} {value : Value}
    {c r : String} {now : Int} {event : PublishEvent}
    (h : (cascadeToBranch id b g k value c r now).exec s = (.ok event, s')) :
    Effect A G s s' ∧ WellPlaced s'.kv := by
  have hob := cascadeToBranch_obeys (T := UnderBranch id b) (D := fun _ => False) (fun _ hk => hk) g k value c r now
  have he := elsewhere_of_obeys h hob hs
  refine ⟨?_, by simpa only [h] using wellPlaced_of_obeys hob hs⟩
  obtain ⟨st, hst, h⟩ := getBranchState_bind h
  obtain ⟨old, ho, h⟩ := (activeSnapshot_readOnly _ _ _).exec_bind_ok.mp h
  replace ho := (activeSnapshot_eval hs (named_of_stateOf hs hst)).mp ho
  obtain ⟨_, s₄, h₄, h⟩ := Prog.exec_bind_ok.mp h
  rw [savePending_bind] at h
  obtain ⟨-, rfl⟩ := pure_ok.mp h
  exact release_effect hs hst he ho (hA st hst) h₄ rfl rfl rfl rfl fun h => h

omit [SerdeJson] in
theorem listBranches_eval {t : Store} {branches : List BranchName} (h : (listBranches id).eval t = .ok branches) :
    branches.Nodup ∧ ∀ b ∈ branches, Plain b := by
  change Except.ok (List.dedup _) = _ at h
  rw [Except.ok.injEq] at h
  subst h
  refine ⟨List.nodup_dedup _, fun b hb => ?_⟩
  rw [List.mem_dedup, List.mem_insertionSort] at hb
  obtain ⟨row, -, hrow⟩ := List.mem_filterMap.mp hb
  exact branchOfKey_plain hrow

theorem publishBranches_evolves (hi : Plain id) {t : Store}
    (hA : ∀ b st, stateOf t id b = some st → A id b st (nextMonotonic st.activeVersion st.graySeq))
    {struct : Structure} {c r : String} {now : Int} {o : String} (branches : List BranchName) :
    ∀ {s s' : State} {events : List PublishEvent}, WellPlaced s.kv → branches.Nodup →
      (∀ b ∈ branches, Plain b ∧ stateOf s.kv id b = stateOf t id b) →
      (branches.mapM (publishStructureOn id struct c r now o)).exec s = (.ok events, s') → Evolves A G s s' := by
  induction branches with
  | nil =>
    intro s s' events _ _ _ h
    rw [List.mapM_nil] at h
    rw [(pure_ok.mp h).2]
  | cons b branches ih =>
    intro s s' events hs hd hb h
    rw [List.mapM_cons] at h
    obtain ⟨event, s₁, h₁, h⟩ := Prog.exec_bind_ok.mp h
    obtain ⟨events', s₂, h₂, h⟩ := Prog.exec_bind_ok.mp h
    rw [(pure_ok.mp h).2]
    obtain ⟨hb₀, hb⟩ := List.forall_mem_cons.mp hb
    obtain ⟨he, hs₁, hw⟩ := publishStructureOn_effect (A := A) (G := G) hs (fun st hst => hA b st (hb₀.2 ▸ hst)) h₁
    refine .head he (ih hs₁ (List.nodup_cons.mp hd).2 (fun b' hb' => ⟨(hb b' hb').1, ?_⟩) h₂)
    have hne : ¬ (id = id ∧ b' = b) := by
      rintro ⟨-, rfl⟩
      exact (List.nodup_cons.mp hd).1 hb'
    rw [(hw.branches id b' hi (hb b' hb').1 hne).state, (hb b' hb').2]

theorem cascade_evolves (hA : ∀ t id b st, stateOf t id b = some st → A id b st (st.activeVersion + 1))
    {value : Value} {c r : String} {now : Int} (usage : List (ProjectId × BranchName × String × String)) :
    ∀ {s s' : State} {events : List PublishEvent}, WellPlaced s.kv →
      (usage.mapM fun (p, b, g, k) => cascadeToBranch p b g k value c r now).exec s = (.ok events, s') →
      Evolves A G s s' ∧ WellPlaced s'.kv := by
  induction usage with
  | nil =>
    intro s s' events hs h
    rw [List.mapM_nil] at h
    rw [(pure_ok.mp h).2]
    exact ⟨.refl, hs⟩
  | cons u usage ih =>
    intro s s' events hs h
    rw [List.mapM_cons] at h
    obtain ⟨event, s₁, h₁, h⟩ := Prog.exec_bind_ok.mp h
    obtain ⟨events', s₂, h₂, h⟩ := Prog.exec_bind_ok.mp h
    rw [(pure_ok.mp h).2]
    obtain ⟨he, hs₁⟩ := cascadeToBranch_effect (A := A) (G := G) hs (fun st hst => hA _ _ _ st hst) h₁
    obtain ⟨hev, hs₂⟩ := ih hs₁ h₂
    exact ⟨.head he hev, hs₂⟩

/-! ## Keys outside the branches -/

omit [SerdeJson] in
theorem not_outside_of_tracked {k : String} (hi : Plain id) (hb : Plain b) (h : Tracked id b k) :
    ¬ OutsideProjects k := by
  obtain ⟨tail, ht⟩ := segments_of_tracked hi hb h
  simp [OutsideProjects, ht]

omit [SerdeJson] in
theorem not_outside_projectKey (hi : Plain id) : ¬ OutsideProjects (projectKey id) := by
  simp [OutsideProjects, segments_projectKey hi]

theorem quiet_insert {k : String} (v : Stored) (hk : ∀ id b, Plain id → Plain b → ¬ Tracked id b k)
    (hp : ∀ id, Plain id → k ≠ projectKey id) : Quiet s (s.insert k v) where
  branches id b hi hb := same_of_rows fun k' hk' => KV.getElem?_insert_ne _ (by rintro rfl; exact hk id b hi hb hk') v
  projects id hi h := by rwa [KV.Flat.insert_kv, entity_congr (KV.getElem?_insert_ne _ (hp id hi) v)]
  notes := rfl

theorem quiet_erase {k : String} (hk : ∀ id b, Plain id → Plain b → ¬ Tracked id b k)
    (hp : ∀ id, Plain id → k ≠ projectKey id) : Quiet s (s.erase k) where
  branches id b hi hb := same_of_rows fun k' hk' => KV.getElem?_erase_ne _ (by rintro rfl; exact hk id b hi hb hk')
  projects id hi h := by rwa [KV.Flat.erase_kv, entity_congr (KV.getElem?_erase_ne _ (hp id hi))]
  notes := rfl

theorem quiet_insert_outside {k : String} (v : Stored) (hk : OutsideProjects k) : Quiet s (s.insert k v) :=
  quiet_insert v (fun _ _ hi hb h => not_outside_of_tracked hi hb h hk)
    fun _ hi h => not_outside_projectKey hi (h ▸ hk)

theorem quiet_erase_outside {k : String} (hk : OutsideProjects k) : Quiet s (s.erase k) :=
  quiet_erase (fun _ _ hi hb h => not_outside_of_tracked hi hb h hk) fun _ hi h => not_outside_projectKey hi (h ▸ hk)

omit [SerdeJson] in
theorem structKey_untracked (hi : Plain id) :
    (∀ id' b, Plain id' → Plain b → ¬ Tracked id' b (structKey id)) ∧ ∀ id', Plain id' → structKey id ≠ projectKey id' := by
  refine ⟨fun id' b hi' hb h => ?_, fun id' hi' h => ?_⟩
  · obtain ⟨tail, ht⟩ := segments_of_tracked hi' hb h
    simp [segments_structKey hi] at ht
  · have := congrArg segments h
    simp [segments_structKey hi, segments_projectKey hi'] at this

omit [SerdeJson] in
theorem structDraftKey_untracked (hi : Plain id) :
    (∀ id' b, Plain id' → Plain b → ¬ Tracked id' b (structDraftKey id)) ∧
      ∀ id', Plain id' → structDraftKey id ≠ projectKey id' := by
  refine ⟨fun id' b hi' hb h => ?_, fun id' hi' h => ?_⟩
  · obtain ⟨tail, ht⟩ := segments_of_tracked hi' hb h
    simp [segments_structDraftKey hi] at ht
  · have := congrArg segments h
    simp [segments_structDraftKey hi, segments_projectKey hi'] at this

/-! ## Commands on projects -/

theorem create_effect {st : BranchState} (hn : Named id b) (hp : (entity Project s.kv (projectKey id)).isSome)
    (hs : stateOf s.kv id b = none) (ha : st.activeVersion = 0) (hg : st.graySeq = 0) :
    Effect A G s (s.insert (branchStateKey id b) (Codec.encode st)) := by
  have hne : ∀ k, k = branchStateKey id b → UnderBranch id b k := fun k h => h ▸ under_branchStateKey hn
  refine .create id b _ hn ⟨fun id' b' hi hb h => ?_, fun id' hi h => ?_⟩ hp hs (stateOf_insert _ st) ha hg ?_ rfl
  · refine same_of_rows fun k hk => KV.getElem?_insert_ne _ (fun e => ?_) _
    exact not_underBranch_of_tracked hi hb h hk (hne k e.symm)
  · rw [KV.Flat.insert_kv, entity_congr (KV.getElem?_insert_ne _ (fun e => ?_) _)]
    · exact h
    · exact not_underBranch_projectKey hi (hne _ e.symm)
  · exact logOf_insert_ne _ _ (offLog_branchStateKey hn.plain.1 hn.plain.2)

def Rooted (t : Store) : Prop :=
  ∀ id b, Named id b → (stateOf t id b).isSome → (entity Project t (projectKey id)).isSome

theorem applyBranchCreate_effect (hs : WellPlaced s.kv) {src : Option BranchName} {now : Int} {o : String}
    {events : List PublishEvent} (h : (applyBranchCreate id b src now o).exec s = (.ok events, s')) :
    Effect A G s s' := by
  obtain ⟨hb, h⟩ := ensure_bind.mp h
  obtain ⟨_, hp, h⟩ := loadMerged_bind.mp h
  obtain ⟨p, rfl, h⟩ := okOr_bind.mp h
  have hn : Named id b := ⟨(validName_of_project p (hs _ _ (decodes_exact.mp hp))).1, hb⟩
  have hsome : (entity Project s.kv (projectKey id)).isSome := by rw [entity_eq_some.mpr hp]; rfl
  obtain ⟨_, hst, h⟩ := loadMerged_bind.mp h
  obtain ⟨rfl, h⟩ := ensure_bind.mp h
  have hnone : stateOf s.kv id b = none := by rw [stateOf, entity, decodes_none.mp hst]; rfl
  obtain ⟨branches, -, h⟩ := (listBranches_readOnly _).exec_bind_ok.mp h
  obtain ⟨_, -, h⟩ := (ensure_readOnly _ _).exec_bind_ok.mp h
  obtain ⟨struct?, -, h⟩ := (loadMerged_readOnly _).exec_bind_ok.mp h
  cases src with
  | none =>
    obtain ⟨-, rfl⟩ := pure_ok.mp h
    exact create_effect hn hsome hnone rfl rfl
  | some src =>
    obtain ⟨srcState, -, h⟩ := getBranchState_bind h
    obtain ⟨_, -, h⟩ := (ensure_readOnly _ _).exec_bind_ok.mp h
    obtain ⟨snap, -, h⟩ := (snapshotOf_readOnly _ _ _).exec_bind_ok.mp h
    obtain ⟨-, rfl⟩ := pure_ok.mp h
    exact create_effect hn hsome hnone rfl rfl

theorem create_evolves (bs : List BranchName) {st : BranchState} (ha : st.activeVersion = 0) (hg : st.graySeq = 0) :
    ∀ {s : State}, bs.Nodup → (entity Project s.kv (projectKey id)).isSome →
      (∀ b ∈ bs, Named id b ∧ stateOf s.kv id b = none) →
      Evolves A G s (bs.foldl (fun s b => s.insert (branchStateKey id b) (Codec.encode st)) s) := by
  induction bs with
  | nil => exact fun _ _ _ => .refl
  | cons b bs ih =>
    intro s hd hp hb
    obtain ⟨⟨hn, hs⟩, hb⟩ := List.forall_mem_cons.mp hb
    have he := create_effect (A := A) (G := G) hn hp hs ha hg
    refine .head he (ih (List.nodup_cons.mp hd).2 (he.keeps id hn.plain.1 hp) fun b' hb' => ⟨(hb b' hb').1, ?_⟩)
    rw [← (hb b' hb').2]
    refine stateOf_insert_ne _ _ fun e => (List.nodup_cons.mp hd).1 ?_
    rw [(branchStateKey_inj (hb b' hb').1.plain.1 (hb b' hb').1.plain.2 e).2]
    exact hb'

omit [SerdeJson] in
theorem named_initial {name : String} (hv : validName name) :
    ∀ b ∈ [BranchName.DEV, BranchName.TEST, BranchName.PROD], Named name b := by
  have : ∀ b ∈ [BranchName.DEV, BranchName.TEST, BranchName.PROD], validBranch b := by decide +kernel
  exact fun b hb => ⟨hv, this b hb⟩

theorem quiet_insert_project {name : String} (hi : Plain name) (p : Project) :
    Quiet s (s.insert (projectKey name) (Codec.encode p)) := by
  refine ⟨fun id b hi' hb => same_of_rows fun k hk => KV.getElem?_insert_ne _ ?_ _, fun id hi' hid => ?_, rfl⟩
  · rintro rfl
    obtain ⟨tail, ht⟩ := segments_of_tracked hi' hb hk
    simp [segments_projectKey hi] at ht
  · by_cases e : projectKey name = projectKey id
    · rw [← e, KV.Flat.insert_kv, entity_insert]; rfl
    · rwa [KV.Flat.insert_kv, entity_congr (KV.getElem?_insert_ne _ e _)]

theorem applyProjectCreate_evolves (hr : Rooted s.kv) {name : String} {now : Int} {o : String}
    {src : Option String} {events : List PublishEvent}
    (h : (applyProjectCreate name now o src).exec s = (.ok events, s')) : Evolves A G s s' := by
  obtain ⟨hv, h⟩ := ensure_bind.mp h
  have hi := plain_of_validName hv
  obtain ⟨projects, -, h⟩ := listProjects_readOnly.exec_bind_ok.mp h
  obtain ⟨_, -, h⟩ := (ensure_readOnly _ _).exec_bind_ok.mp h
  obtain ⟨_, hp, h⟩ := loadMerged_bind.mp h
  obtain ⟨rfl, h⟩ := ensure_bind.mp h
  obtain ⟨groups, -, h⟩ := (cloneGroups_readOnly _ _).exec_bind_ok.mp h
  rw [savePending_bind, savePending_bind, savePending_bind] at h
  obtain ⟨-, rfl⟩ := Prod.mk.inj h.symm
  have hnone : ∀ b, Named name b → stateOf s.kv name b = none := by
    intro b hn
    by_contra hst
    have := hr name b hn (Option.isSome_iff_ne_none.mpr hst)
    simp [entity, decodes_none.mp hp] at this
  -- the rows of the project itself, then one branch after the other
  have hproj := quiet_insert_project (s := s) hi ({ id := name, name, createdAt := now } : Project)
  have hquiet := (hproj.trans (quiet_insert_outside (Codec.encode "1") (account_idxPname name).outside)).trans
    (quiet_insert (Codec.encode ({ version := 1, groups } : Structure)) (structKey_untracked hi).1
      (structKey_untracked hi).2)
  refine .head (.quiet hquiet) (create_evolves [BranchName.DEV, BranchName.TEST, BranchName.PROD] rfl rfl
    (by decide) ?_ fun b hb => ⟨named_initial hv b hb, ?_⟩)
  · have hsome : (entity Project (s.insert (projectKey name)
        (Codec.encode ({ id := name, name, createdAt := now } : Project))).kv (projectKey name)).isSome := by
      rw [KV.Flat.insert_kv, entity_insert]; rfl
    refine (quiet_insert _ (structKey_untracked hi).1 (structKey_untracked hi).2).projects name hi ?_
    exact (quiet_insert_outside (Codec.encode "1") (account_idxPname name).outside).projects name hi hsome
  · have hn := named_initial hv b hb
    rw [(hquiet.branches name b hn.plain.1 hn.plain.2).state]
    exact hnone b hn

def Publishable (t : Store) (id : ProjectId) (policy : PublishPolicy) : Prop :=
  ∃ struct draft, entity Structure t (structKey id) = some struct ∧
    entity StructureDraft t (structDraftKey id) = some draft ∧ draft.baseVersion = struct.version ∧
    ¬ (validateStructure { version := struct.version, groups := draft.groups } ≠ [] ∧ policy = .block)

theorem applyPublishStructure_evolves (hs : WellPlaced s.kv) {policy : PublishPolicy}
    (hA : Publishable s.kv id policy → ∀ b st, stateOf s.kv id b = some st →
      A id b st (nextMonotonic st.activeVersion st.graySeq)) {c r : String} {now : Int} {o : String}
    {events : List PublishEvent} (h : (applyPublishStructure id c r now o policy).exec s = (.ok events, s')) :
    Evolves A G s s' := by
  obtain ⟨_, hstruct, h⟩ := loadMerged_bind.mp h
  obtain ⟨struct, rfl, h⟩ := okOr_bind.mp h
  obtain ⟨_, hdraft, h⟩ := loadMerged_bind.mp h
  obtain ⟨draft, rfl, h⟩ := okOr_bind.mp h
  obtain ⟨hbase, h⟩ := ensure_bind.mp h
  obtain ⟨herrs, h⟩ := ensure_bind.mp h
  have hi := plain_of_validName (validName_of_structure struct (hs _ _ (decodes_exact.mp hstruct)))
  have hpub : Publishable s.kv id policy :=
    ⟨struct, draft, entity_eq_some.mpr hstruct, entity_eq_some.mpr hdraft, hbase, herrs⟩
  obtain ⟨branches, hb, h⟩ := (listBranches_readOnly _).exec_bind_ok.mp h
  obtain ⟨hd, hb⟩ := listBranches_eval hb
  obtain ⟨events', s₁, h₁, h⟩ := Prog.exec_bind_ok.mp h
  rw [savePending_bind, deletePending_bind] at h
  rw [(pure_ok.mp h).2]
  refine (publishBranches_evolves hi (hA hpub) branches hs hd (fun b hm => ⟨hb b hm, rfl⟩) h₁).tail ?_
  exact .quiet ((quiet_insert _ (structKey_untracked hi).1 (structKey_untracked hi).2).trans
    (quiet_erase (structDraftKey_untracked hi).1 (structDraftKey_untracked hi).2))

theorem applyStructureDraftSet_quiet (hs : WellPlaced s.kv) {v : Nat} {groups : List GroupDef} {o : String}
    {events : List PublishEvent} (h : (applyStructureDraftSet id v groups o).exec s = (.ok events, s')) :
    Quiet s s' := by
  obtain ⟨_, hstruct, h⟩ := loadMerged_bind.mp h
  obtain ⟨struct, rfl, h⟩ := okOr_bind.mp h
  obtain ⟨_, -, h⟩ := (ensure_readOnly _ _).exec_bind_ok.mp h
  obtain ⟨_, -, h⟩ := (ensure_readOnly _ _).exec_bind_ok.mp h
  rw [savePending_bind] at h
  rw [(pure_ok.mp h).2]
  have hi := plain_of_validName (validName_of_structure struct (hs _ _ (decodes_exact.mp hstruct)))
  exact quiet_insert _ (structDraftKey_untracked hi).1 (structDraftKey_untracked hi).2

theorem cascadeShared_evolves (hs : WellPlaced s.kv) (hA : ∀ id b st, A id b st (st.activeVersion + 1))
    {item : SharedItem} {c r : String} {now : Int} {mode : SharedCascadeMode} {events : List PublishEvent}
    (h : (cascadeShared c r now mode item).exec s = (.ok events, s')) : Evolves A G s s' ∧ WellPlaced s'.kv := by
  unfold cascadeShared at h
  split at h
  · rw [(pure_ok.mp h).2]
    exact ⟨.refl, hs⟩
  · obtain ⟨usage, -, h⟩ := (sharedUsage_readOnly _).exec_bind_ok.mp h
    exact cascade_evolves (fun _ id b st _ => hA id b st) usage hs h

/-- The row of a shared item is not a branch's, and neither is that of its draft. -/
theorem quiet_takeUp (key : String) (v : Stored) : Quiet s ((s.insert (sharedKey key) v).erase (sharedDraftKey key)) :=
  (quiet_insert_outside v (outside_sharedKey key)).trans (quiet_erase_outside (outside_sharedDraftKey key))

/-- The draft takes the place of the published item, and the branches follow. -/
theorem publishShared_ok (hs : WellPlaced s.kv) {item : SharedItem} (hk : validKeyName item.key)
    {c r : String} {now : Int} {mode : SharedCascadeMode} {events : List PublishEvent}
    (h : (publishShared c r now mode item).exec s = (.ok events, s')) :
    ∃ v s₁, s₁ = (s.insert (sharedKey item.key) (Codec.encode { item with version := v })).erase (sharedDraftKey item.key) ∧
      WellPlaced s₁.kv ∧ (cascadeShared c r now mode item).exec s₁ = (.ok events, s') := by
  obtain ⟨prev, -, h⟩ := (loadMerged_readOnly _).exec_bind_ok.mp h
  rw [savePending_bind] at h
  obtain ⟨_, s₁, h₁, h⟩ := Prog.exec_bind_ok.mp h
  rw [storeDelete_ok] at h₁
  refine ⟨_, s₁, h₁, ?_, h⟩
  rw [h₁]
  refine (hs.insert ?_).erase _
  exact (placed_shared _).mpr ⟨hk, .inl rfl⟩

theorem publishShared_evolves (hs : WellPlaced s.kv) (hA : ∀ id b st, A id b st (st.activeVersion + 1))
    {item : SharedItem} (hk : validKeyName item.key) {c r : String} {now : Int} {mode : SharedCascadeMode}
    {events : List PublishEvent} (h : (publishShared c r now mode item).exec s = (.ok events, s')) :
    Evolves A G s s' ∧ WellPlaced s'.kv := by
  obtain ⟨v, s₁, h₁, hs₁, h⟩ := publishShared_ok hs hk h
  have hq : Quiet s s₁ := h₁ ▸ quiet_takeUp _ _
  obtain ⟨he, hs'⟩ := cascadeShared_evolves (A := A) (G := G) hs₁ hA h
  exact ⟨.head (.quiet hq) he, hs'⟩

theorem publishDrafts_evolves (hA : ∀ id b st, A id b st (st.activeVersion + 1)) {c r : String} {now : Int}
    {mode : SharedCascadeMode} (drafts : List SharedItem) :
    ∀ {s s' : State} {events : List PublishEvent}, WellPlaced s.kv → (∀ item ∈ drafts, validKeyName item.key) →
      (collect (publishShared c r now mode) drafts).exec s = (.ok events, s') → Evolves A G s s' := by
  induction drafts with
  | nil =>
    intro s s' events _ _ h
    rw [(pure_ok.mp h).2]
  | cons item drafts ih =>
    intro s s' events hs hk h
    obtain ⟨hk₀, hk⟩ := List.forall_mem_cons.mp hk
    obtain ⟨events₁, s₁, h₁, h⟩ := Prog.exec_bind_ok.mp h
    obtain ⟨events₂, s₂, h₂, h⟩ := Prog.exec_bind_ok.mp h
    rw [(pure_ok.mp h).2]
    obtain ⟨he, hs₁⟩ := publishShared_evolves (A := A) (G := G) hs hA hk₀ h₁
    exact he.trans (ih hs₁ hk h₂)

theorem listSharedDrafts_eval {t : Store} (ht : WellPlaced t) {drafts : List SharedItem}
    (h : listSharedDrafts.eval t = .ok drafts) : ∀ item ∈ drafts, validKeyName item.key :=
  (Prog.rows_exec (C := rules (fun _ => False) fun _ => False) (fun _ _ h => h.1)
    (listSharedDrafts_obeys fun _ h => h) (s := ⟨t, []⟩) ht).2 drafts h

theorem applySharedPublish_evolves (hs : WellPlaced s.kv) (hA : ∀ id b st, A id b st (st.activeVersion + 1))
    {c r : String} {now : Int} {o : String} {mode : SharedCascadeMode} {policy : PublishPolicy}
    {events : List PublishEvent} (h : (applySharedPublish c r now o mode policy).exec s = (.ok events, s')) :
    Evolves A G s s' := by
  obtain ⟨drafts, hd, h⟩ := listSharedDrafts_readOnly.exec_bind_ok.mp h
  obtain ⟨_, -, h⟩ := (ensure_readOnly _ _).exec_bind_ok.mp h
  exact publishDrafts_evolves hA drafts hs (listSharedDrafts_eval hs hd) h

/-! ## All commands -/

def removesBranches : Command → Prop
  | .projectDelete .. | .branchDelete .. => True
  | _ => False

def isGray : Command → Prop
  | .grayPublish .. | .grayPromote .. | .grayAbort .. => True
  | _ => False

/-- The numbers a command may give the branches of a store: the next one, except that the promotion of
a gray release and the publication of a structure also go past the gray numbers. -/
def allocates (t : Store) : Command → ProjectId → BranchName → BranchState → Nat → Prop
  | .publish .., _, _, st, n | .rollback .., _, _, st, n | .sharedPublish .., _, _, st, n => n = st.activeVersion + 1
  | .grayPromote id b _ r .., id', b', st, n =>
    id' = id ∧ b' = b ∧ stateOf t id b = some st ∧ st.lastRequestId ≠ some r ∧ st.graySeq ≠ 0 ∧
      st.grayRule ≠ none ∧ n = nextMonotonic st.activeVersion st.graySeq
  | .publishStructure id _ _ _ _ policy, id', b, st, n =>
    id' = id ∧ Publishable t id policy ∧ stateOf t id b = some st ∧ n = nextMonotonic st.activeVersion st.graySeq
  | _, _, _, _, _ => False

theorem execute_evolves {t : Store} (ht : WellPlaced t) (hr : Rooted t) {cmd : Command} (hc : ¬ removesBranches cmd)
    {now : Int} {events : List PublishEvent} {s : State} (h : execute cmd now t = (.ok events, s)) :
    Evolves (allocates t cmd) (isGray cmd) ⟨t, []⟩ s := by
  have houtside : (∀ k, touches cmd k → OutsideProjects k) → Quiet ⟨t, []⟩ s := by
    intro hT
    have := quiet_of_obeys (applyInner_obeys cmd now) (s := ⟨t, []⟩) ht
      (fun _ _ k hi hb hk h => not_outside_of_tracked hi hb hk (hT k h))
      fun _ hi h => not_outside_projectKey hi (hT _ h)
    rwa [show (applyInner cmd now).exec ⟨t, []⟩ = (.ok events, s) from h] at this
  cases cmd
  case projectDelete | branchDelete => exact absurd trivial hc
  case projectCreate name o ts src => exact applyProjectCreate_evolves (o := o) hr h
  case branchCreate id b src o ts => exact .single (applyBranchCreate_effect (o := o) ht h)
  case structureDraftSet id v groups o => exact (applyStructureDraftSet_quiet (o := o) ht h).evolves
  case publishStructure =>
    exact applyPublishStructure_evolves ht (fun hp b st hst => ⟨rfl, hp, hst, rfl⟩) h
  case draftUpdate id b us ds bs o ts rev => exact .single (applyDraftUpdate_effect (o := o) ht h)
  case publish => exact .single (applyPublish_effect ht (fun _ _ => rfl) h)
  case rollback => exact .single (applyRollback_effect ht (fun _ _ => rfl) h)
  case sharedPublish c r o ts mode policy =>
    change (applySharedPublish c r (effTs ts now) o mode policy).exec _ = _ at h
    exact applySharedPublish_evolves ht (fun _ _ _ => rfl) h
  case grayPublish id b rule c r o ts policy =>
    change (applyGrayPublish id b rule c r (effTs ts now) o policy).exec _ = _ at h
    exact .single (applyGrayPublish_effect ht trivial h)
  case grayPromote =>
    exact .single (applyGrayPromote_effect ht (fun st hst hr hg hrule => ⟨rfl, rfl, hst, hr, hg, hrule, rfl⟩) h)
  case grayAbort id b c r o ts =>
    change (applyGrayAbort id b c r (effTs ts now) o).exec _ = _ at h
    exact .single (applyGrayAbort_effect ht h)
  all_goals exact (houtside fun _ h => h).evolves

end Defing
