import Defing.Core.Items
import Defing.State.Always

/-!
# Pending drafts

Publications and deletions of branches ask whether a draft is empty. A draft
whose groups all have items is empty exactly if it has no value. Draft updates
that delete the last value of a group, and structures that share the last
value of one, leave a group without items.
-/

namespace Defing

open KV (Prog Plain)

section
variable [SerdeJson]

section
variable {id : ProjectId} {b : BranchName} {t : Store} {s : State} {br br' : Branch} {cmd : Command} {now : Int}

/-! ## What keeps groups full -/

def AcceptsDraft (t : Store) (id : ProjectId) (st : BranchState) (us : List DraftUpdateItem) (bs : List SharedBinding)
    (rev : Option Nat) : Prop :=
  (∀ exp, rev = some exp → exp = st.draftRev) ∧ ∃ struct n bound, structOf t id = some struct ∧
    (us.foldlM (checkUpdate (itemIndex struct) st.valueDraft)
      (st.valueDraft.toList.map fun e => e.2.size).sum).eval t = .ok n ∧
    (bs.foldlM (bindOne (itemIndex struct)) (st.sharedBindings, false)).eval t = .ok bound

/-- A command leaves a value in each group of a draft that it takes values from: a draft update that
is accepted keeps one or sets one, a structure that is published keeps one that is not shared. -/
def KeepsGroups (t : Store) : Command → Prop
  | .draftUpdate id b us ds bs _ _ rev => ∀ st, stateOf t id b = some st → AcceptsDraft t id st us bs rev →
      ∀ g, st.valueDraft[g]? ≠ none →
        (∃ k, item? st.valueDraft g k ≠ none ∧ (g, k) ∉ ds) ∨ ∃ u ∈ us, u.group = g
  | .publishStructure id _ _ _ _ policy => Publishable t id policy →
      ∀ struct draft, structOf t id = some struct → entity StructureDraft t (structDraftKey id) = some draft →
        ∀ b st, stateOf t id b = some st → ∀ g,
          (∃ k, known { version := struct.version + 1, groups := draft.groups } g k ∧ item? st.valueDraft g k ≠ none) →
            ∃ k, known { version := struct.version + 1, groups := draft.groups } g k ∧
              ¬ sharedIn { version := struct.version + 1, groups := draft.groups } g k ∧ item? st.valueDraft g k ≠ none
  | _ => True

def FullDraft (br : Branch) : Prop := ∀ st, br.state = some st → Full st.valueDraft

omit [SerdeJson] in
theorem full_update {d : ValueDraft} {us : List DraftUpdateItem} {ds : List (String × String)} {at_ : Int}
    (h : ∀ g, d[g]? ≠ none → (∃ k, item? d g k ≠ none ∧ (g, k) ∉ ds) ∨ ∃ u ∈ us, u.group = g) :
    Full (us.foldl (fun m u => setItem m u.group u.key ({ value := u.value, updatedAt := at_ } : DraftValue))
      (ds.foldl (fun m (g, key) => removeItem m g key) d)) := by
  have hitem := fun g k => item_foldl_setItem (g := g) (k := k) (fun u : DraftUpdateItem => (u.group, u.key))
    (fun u => ({ value := u.value, updatedAt := at_ } : DraftValue)) us
    (ds.foldl (fun m (g, key) => removeItem m g key) d)
  have hgone := fun g k => item?_foldl_removeItem (g := g) (k := k) (fun e : String × String => e) ds d
  intro g hg
  -- a group that is there was set by an update, or was there before
  have hset : ∀ u ∈ us, u.group = g → ∃ k, item? (us.foldl (fun m u => setItem m u.group u.key
      ({ value := u.value, updatedAt := at_ } : DraftValue)) (ds.foldl (fun m (g, key) => removeItem m g key) d)) g k ≠
        none :=
    fun u hu e => ⟨u.key, (hitem g u.key).mpr (.inl ⟨u, hu, by rw [e]⟩)⟩
  rcases (group_foldl_setItem (fun u : DraftUpdateItem => (u.group, u.key))
    (fun u => ({ value := u.value, updatedAt := at_ } : DraftValue)) us _).mp hg with ⟨u, hu, e⟩ | hg
  · exact hset u hu e
  · rcases h g ((group_foldl_removeItem (fun e : String × String => e) ds d).mp hg) with ⟨k, hk, hnd⟩ | ⟨u, hu, e⟩
    · refine ⟨k, (hitem g k).mpr (.inr ?_)⟩
      rwa [hgone, if_neg (by rwa [List.map_id'])]
    · exact hset u hu e

omit [SerdeJson] in
theorem full_prune {struct : Structure} {d : ValueDraft}
    (h : ∀ g, (∃ k, known struct g k ∧ item? d g k ≠ none) →
      ∃ k, known struct g k ∧ ¬ sharedIn struct g k ∧ item? d g k ≠ none) : Full (pruneDraft struct d) := by
  intro g hg
  obtain ⟨k, hk, hs, hd⟩ := h g (group_pruneDraft hg)
  exact ⟨k, by rwa [item?_pruneDraft, if_neg hs, if_pos hk]⟩

theorem Move.fullDraft (hk : KeepsGroups t cmd) {events : List PublishEvent} {ws : List VersionWrite}
    (h : Move t id b cmd br events ws br') (hf : FullDraft br) : FullDraft br' := by
  intro st' hst'
  cases h with
  | create hs h =>
    cases hst'
    refine full_rereadDraft ?_
    cases h with
    | bare v => exact full_empty
    | copy at_ hs hsnap => exact full_draftOf _ _ _
  | edit hat hs h =>
    cases hst'
    have hd := hf _ hs
    subst hat
    refine full_rereadDraft ?_
    cases h with
    | draft at_ hrev hstruct hus hbind => exact full_update (hk _ hs ⟨hrev, _, _, _, hstruct, hus, hbind⟩)
    | grayPublish => exact full_empty
    | grayAbort => exact hd
  | release record hs ho h =>
    cases hst'
    have hd := hf _ hs
    refine full_rereadDraft ?_
    cases h with
    | publish => exact full_empty
    | rollback => exact hd
    | grayPromote => exact hd
    | restructure hat hpub hstruct hdraft =>
      subst hat
      exact full_prune (hk hpub _ _ hstruct hdraft b _ hs)
    | cascade => exact hd

/-! ## The guards -/

theorem fullDraft_of_reach (h : Reach (fun t cmd _ => KeepsGroups t cmd) t) (hn : Named id b) :
    FullDraft (branchAt t id b) :=
  reach_invariant (I := fun _ _ br => FullDraft br) (fun _ _ _ hs => by cases hs)
    (fun _ hk _ _ hf hm => hm.fullDraft hk hf) h id b hn

/-- A publication that goes through, and is no repetition, has a draft or bindings to publish. -/
theorem publish_pending {c r o : String} {ts : Int} {policy : PublishPolicy} {events : List PublishEvent}
    (h : (apply (.publish id b c r o ts policy) now t).result = .ok events) {st : BranchState}
    (hst : stateOf t id b = some st) (hr : st.lastRequestId ≠ some r) : st.valueDraft ≠ ∅ ∨ st.bindingsDirty := by
  obtain ⟨s, hs, -⟩ := apply_ok h
  obtain ⟨st', hst', hs⟩ := getBranchState_bind hs
  obtain rfl := Option.some.inj (hst.symm.trans hst')
  obtain ⟨struct, -, hs⟩ := getStructure_bind hs
  rw [if_neg hr] at hs
  obtain ⟨hp, -⟩ := ensure_bind.mp hs
  simpa only [not_and_or, Bool.not_eq_false] using hp

theorem grayPublish_pending {rule : GrayRule} {c r o : String} {ts : Int} {policy : PublishPolicy}
    {events : List PublishEvent} (h : (apply (.grayPublish id b rule c r o ts policy) now t).result = .ok events)
    {st : BranchState} (hst : stateOf t id b = some st) (hr : st.lastRequestId ≠ some r) :
    st.valueDraft ≠ ∅ ∨ st.bindingsDirty := by
  obtain ⟨s, hs, -⟩ := apply_ok h
  obtain ⟨_, -, hs⟩ := (validateGrayRule_readOnly _).exec_bind_ok.mp hs
  obtain ⟨st', hst', hs⟩ := getBranchState_bind hs
  obtain rfl := Option.some.inj (hst.symm.trans hst')
  obtain ⟨struct, -, hs⟩ := getStructure_bind hs
  rw [if_neg hr] at hs
  obtain ⟨hp, -⟩ := ensure_bind.mp hs
  simpa only [not_and_or, Bool.not_eq_false] using hp

theorem branchDelete_refused {o : String} {e : Error} (h : (apply (.branchDelete id b o) now t).result = .error e)
    {st : BranchState} (hst : stateOf t id b = some st) : st.activeVersion > 0 ∨ st.valueDraft ≠ ∅ := by
  by_contra hg
  have hload : (getBranchState id b).exec ⟨t, []⟩ = (.ok (some st), ⟨t, []⟩) :=
    loadMerged_ok.mpr ⟨entity_eq_some.mp hst, rfl⟩
  rw [apply_result] at h
  have hrun : (execute (.branchDelete id b o) now t).1 = .ok [] := by
    have hguard : ¬ (st.activeVersion > 0 ∨ st.valueDraft ≠ ∅) := hg
    rw [execute, applyInner, applyBranchDelete, Prog.exec_bind, hload]
    simp only [Prog.exec_bind, okOr_some, ensure_true hguard, getPrefixMerged_exec, deleteRows_exec]
    rfl
  rw [hrun] at h
  cases h

/-- In a run whose draft updates and structures leave a value in each group they take values from, a draft
is empty exactly if it has no value: publications that go through have a value or a binding to publish,
and a branch is refused its deletion for a version or a value only. -/
theorem draft_guard (h : Reach (fun t cmd _ => KeepsGroups t cmd) t) {st : BranchState}
    (hst : stateOf t id b = some st) :
    Full st.valueDraft ∧ (st.valueDraft ≠ ∅ ↔ HasItem st.valueDraft) ∧
      (∀ c r o ts policy now events, (apply (.publish id b c r o ts policy) now t).result = .ok events →
        st.lastRequestId ≠ some r → HasItem st.valueDraft ∨ st.bindingsDirty) ∧
      (∀ rule c r o ts policy now events, (apply (.grayPublish id b rule c r o ts policy) now t).result = .ok events →
        st.lastRequestId ≠ some r → HasItem st.valueDraft ∨ st.bindingsDirty) ∧
      ∀ o now e, (apply (.branchDelete id b o) now t).result = .error e →
        st.activeVersion > 0 ∨ HasItem st.valueDraft := by
  have hn := named_of_stateOf (wellPlaced_of_reach h) hst
  have hf : Full st.valueDraft := fullDraft_of_reach h hn st hst
  refine ⟨hf, hf.ne_empty_iff, ?_, ?_, ?_⟩
  · intro c r o ts policy now events hok hr
    exact (publish_pending hok hst hr).imp_left hf.ne_empty_iff.mp
  · intro rule c r o ts policy now events hok hr
    exact (grayPublish_pending hok hst hr).imp_left hf.ne_empty_iff.mp
  · intro o now e herr
    exact (branchDelete_refused herr hst).imp_right hf.ne_empty_iff.mp

end

end

section
attribute [local instance] sampleJson

/-- A value drafted, published, drafted again and deleted. -/
def emptiedLog : List (Command × Int) := structureLog ++ [
  (.draftUpdate "p" "x" [⟨"g", "k", .string "v"⟩] [] [] "" 0 none, 5),
  (.publish "p" "x" "" "r1" "" 0 .block, 6),
  (.draftUpdate "p" "x" [⟨"g", "k", .string "w"⟩] [] [] "" 0 none, 7),
  (.draftUpdate "p" "x" [] [("g", "k")] [] "" 0 none, 8)]

theorem draft_guard_sample :
    ∃ st, stateOf (runLog (emptiedLog.take 5)) "p" "x" = some st ∧ (st.valueDraft ≠ ∅ ↔ HasItem st.valueDraft) := by
  have hnone : ((runLog (emptiedLog.take 2)).toList.all fun row =>
      (Codec.decode row.2 : Option BranchState).all fun st => st.valueDraft = ∅) = true := by decide +kernel
  have hstruct : KeepsGroups (runLog (emptiedLog.take 2)) (.publishStructure "p" "" "r0" "" 0 .block) := by
    rintro - struct draft - - b st hst g ⟨k, -, hk⟩
    have hd : st.valueDraft = ∅ := of_all_entities (P := fun st : BranchState => st.valueDraft = ∅) hnone hst
    rw [hd, item?_empty] at hk
    exact absurd rfl hk
  have hdraft : KeepsGroups (runLog (emptiedLog.take 4)) (.draftUpdate "p" "x" [⟨"g", "k", .string "v"⟩] [] [] "" 0 none) := by
    intro st hst _ g hg
    obtain rfl := Option.some.inj (hst.symm.trans (show stateOf (runLog (emptiedLog.take 4)) "p" "x" =
      some (BranchState.new 2) by decide +kernel))
    exact absurd Std.ExtTreeMap.getElem?_empty hg
  have hreach : Reach (fun t cmd _ => KeepsGroups t cmd) (runLog (emptiedLog.take 5)) :=
    .step _ 5 (.step _ 4 (.step _ 3 (.step _ 2 (.step _ 1 .empty trivial) trivial) hstruct) trivial) hdraft
  obtain ⟨st, hst⟩ := Option.isSome_iff_exists.mp
    (show (stateOf (runLog (emptiedLog.take 5)) "p" "x").isSome by decide +kernel)
  exact ⟨st, hst, (draft_guard hreach hst).2.1⟩

/-- The draft is left with a group without items: the branch is published without a value or a binding
to publish, and the item of its configuration is gone. -/
theorem draft_guard_fails :
    ((apply (.publish "p" "x" "" "r2" "" 0 .block) 9 (runLog emptiedLog)).emitted.map (·.changes) =
      [[⟨"g", "k", .delete, none⟩]]) ∧ ¬ ∀ t, Reachable t → ∀ id b st, stateOf t id b = some st →
      Full st.valueDraft ∧ ∀ c r o ts policy now events, (apply (.publish id b c r o ts policy) now t).result = .ok events →
        st.lastRequestId ≠ some r → HasItem st.valueDraft ∨ st.bindingsDirty := by
  have hgone : (apply (.publish "p" "x" "" "r2" "" 0 .block) 9 (runLog emptiedLog)).emitted.map (·.changes) =
      [[⟨"g", "k", .delete, none⟩]] := by decide +kernel
  refine ⟨hgone, fun h => ?_⟩
  have hst : stateOf (runLog emptiedLog) "p" "x" = some
      { activeVersion := 1, structureVersion := 2, lastRequestId := some "r1", draftRev := 3,
        valueDraft := (∅ : ValueDraft).insert "g" ∅ } := by decide +kernel
  cases hok : (apply (.publish "p" "x" "" "r2" "" 0 .block) 9 (runLog emptiedLog)).result with
  | error e =>
    rw [Outcome.emitted, hok] at hgone
    cases hgone
  | ok events =>
    obtain ⟨-, hpub⟩ := h _ (reachable_runLog emptiedLog) "p" "x" _ hst
    rcases hpub _ _ _ _ _ _ _ hok (by decide) with ⟨g, k, hk⟩ | hd
    · refine hk ?_
      rw [item?, KV.getElem?_insert]
      split <;> simp
    · cases hd

end

end Defing
