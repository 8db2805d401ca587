import Defing.State.Branch
import Defing.State.Bindings

/-!
# The moves of a branch

`Edit` and `Release` list what commands make of the state of a branch, `Move`
what becomes of its rows. Every command that goes through, deletions apart, is
a `Course` of such moves, and its events are those of the moves in order.
-/

namespace Defing

open KV (Prog Plain segments)

variable [SerdeJson] {id id' : ProjectId} {b b' : BranchName} {t : Store} {s s' s'' : State} {br br' : Branch}

def Branch.gray (br : Branch) (n : Nat) : Option Stored := br (.gray n)

def Branch.become (br : Branch) (st : BranchState) (gray : Nat → Option Stored) : Branch
  | .state => some (Codec.encode st)
  | .gray n => gray n
  | x => br x

section

/-- The state of a new branch: a bare one, or one with the values and bindings of a published one. -/
inductive Fresh (t : Store) (id : ProjectId) (b : BranchName) : Command → BranchState → Prop
  | bare {cmd : Command} (v : Nat) : Fresh t id b cmd (BranchState.new v)
  | copy (at_ : Int) {o : String} {ts : Int} {src : BranchName} {srcState : BranchState} {snap : SnapshotMap}
      (hs : stateOf t id src = some srcState) (hsnap : contents t id src srcState.activeVersion = some snap) :
      Fresh t id b (.branchCreate id b (some src) o ts) { BranchState.new ((structOf t id).getD { version := 1, groups := [] }).version with
        valueDraft := draftOf ((structOf t id).getD { version := 1, groups := [] }) at_ snap,
        sharedBindings := srcState.sharedBindings, bindingsDirty := false }

/-- A command gives a branch in state `st` another state and other gray snapshots, and no version. -/
inductive Edit (t : Store) (id : ProjectId) (b : BranchName) (br : Branch) (st : BranchState) :
    Command → BranchState → (Nat → Option Stored) → List PublishEvent → Prop
  | draft {us : List DraftUpdateItem} {ds : List (String × String)} {bs : List SharedBinding} {o : String} {ts : Int}
      {rev : Option Nat} {struct : Structure} {bindings : Bindings} {changed : Bool} {n : Nat} (at_ : Int)
      (hrev : ∀ exp, rev = some exp → exp = st.draftRev) (hstruct : structOf t id = some struct)
      (hus : (us.foldlM (checkUpdate (itemIndex struct) st.valueDraft)
        (st.valueDraft.toList.map fun e => e.2.size).sum).eval t = .ok n)
      (hbind : (bs.foldlM (bindOne (itemIndex struct)) (st.sharedBindings, false)).eval t = .ok (bindings, changed)) :
      Edit t id b br st (.draftUpdate id b us ds bs o ts rev)
        { st with
          valueDraft := us.foldl (fun m u => setItem m u.group u.key ({ value := u.value, updatedAt := at_ } : DraftValue))
            (ds.foldl (fun m (g, key) => removeItem m g key) st.valueDraft)
          sharedBindings := bindings, bindingsDirty := st.bindingsDirty || changed, draftRev := st.draftRev + 1 }
        br.gray []
  | grayPublish {rule : GrayRule} {c r o : String} {ts : Int} {policy : PublishPolicy} {struct : Structure}
      {old new : SnapshotMap} {errs : List String} (hrule : (validateGrayRule rule).eval t = .ok ())
      (hr : st.lastRequestId ≠ some r) (hp : ¬ (st.valueDraft = ∅ ∧ st.bindingsDirty = false)) (hstruct : structOf t id = some struct)
      (ho : br.active st = some old) (hm : (materializeResolved st struct old policy).eval t = .ok (new, errs)) :
      Edit t id b br st (.grayPublish id b rule c r o ts policy)
        { st with graySeq := st.graySeq + 1, grayRule := some rule, lastRequestId := some r, valueDraft := ∅,
                  bindingsDirty := false }
        (if st.graySeq > 0 then
          Function.update (Function.update br.gray (st.graySeq + 1) (some (Codec.encode new))) st.graySeq none
        else Function.update br.gray (st.graySeq + 1) (some (Codec.encode new)))
        [{ project := id, branch := b, version := st.activeVersion, ty := .valuePublish,
           structureVersion := struct.version, comment := c, requestId := r, changes := computeDiff old new,
           gray := true }]
  | grayAbort {c r o : String} {ts : Int} (hr : st.lastRequestId ≠ some r) (hg : st.graySeq ≠ 0)
      (hrule : st.grayRule ≠ none) :
      Edit t id b br st (.grayAbort id b c r o ts)
        { st with graySeq := 0, grayRule := none, lastRequestId := some r }
        (Function.update br.gray st.graySeq none)
        [{ project := id, branch := b, version := st.activeVersion, ty := .valuePublish,
           structureVersion := st.structureVersion, comment := c, requestId := r, changes := [], gray := true }]

/-- A command gives a branch at the snapshot `old` a version with the snapshot `new`. -/
inductive Release (t : Store) (id : ProjectId) (b : BranchName) (br : Branch) (st : BranchState) (old : SnapshotMap) :
    Command → SnapshotMap → BranchState → (Nat → Option Stored) → PublishEvent → Prop
  | publish {c r o : String} {ts : Int} {policy : PublishPolicy} {struct : Structure} {new : SnapshotMap}
      {errs : List String} (hat : br = branchAt t id b) (hr : st.lastRequestId ≠ some r)
      (hp : ¬ (st.valueDraft = ∅ ∧ st.bindingsDirty = false)) (hstruct : structOf t id = some struct)
      (hm : (materializeResolved st struct old policy).eval t = .ok (new, errs)) :
      Release t id b br st old (.publish id b c r o ts policy) new
        { st with activeVersion := st.activeVersion + 1, lastRequestId := some r, valueDraft := ∅,
                  bindingsDirty := false }
        br.gray
        { project := id, branch := b, version := st.activeVersion + 1, ty := .valuePublish,
          structureVersion := struct.version, comment := c, requestId := r, changes := computeDiff old new,
          gray := false }
  | rollback {v : Nat} {c r o : String} {ts : Int} {new : SnapshotMap} (hat : br = branchAt t id b)
      (hr : st.lastRequestId ≠ some r) (hv : ¬ (v = 0 ∨ v ≥ st.activeVersion)) (hnew : br.contents v = some new) :
      Release t id b br st old (.rollback id b v c r o ts) new
        { st with activeVersion := st.activeVersion + 1, lastRequestId := some r }
        br.gray
        { project := id, branch := b, version := st.activeVersion + 1, ty := .rollback,
          structureVersion := st.structureVersion, comment := c, requestId := r, changes := computeDiff old new,
          gray := false }
  | grayPromote {c r o : String} {ts : Int} {new : SnapshotMap} (hat : br = branchAt t id b)
      (hr : st.lastRequestId ≠ some r) (hg : st.graySeq ≠ 0) (hrule : st.grayRule ≠ none) (hnew : Decodes (br.gray st.graySeq) (some new)) :
      Release t id b br st old (.grayPromote id b c r o ts) new
        { st with activeVersion := nextMonotonic st.activeVersion st.graySeq, graySeq := 0, grayRule := none,
                  lastRequestId := some r }
        (Function.update br.gray st.graySeq none)
        { project := id, branch := b, version := nextMonotonic st.activeVersion st.graySeq, ty := .valuePublish,
          structureVersion := st.structureVersion, comment := c, requestId := r, changes := computeDiff old new,
          gray := true }
  | restructure {c r o : String} {ts : Int} {policy : PublishPolicy} {struct : Structure} {draft : StructureDraft}
      {bindings : Bindings} {gray : SnapshotMap} (hat : br = branchAt t id b) (hpub : Publishable t id policy)
      (hstruct : structOf t id = some struct) (hdraft : entity StructureDraft t (structDraftKey id) = some draft)
      (hbind : ∀ g k rk, item? bindings g k = some rk ↔
        item? st.sharedBindings g k = some rk ∧ Fits t { version := struct.version + 1, groups := draft.groups } g k rk)
      (hgray : st.graySeq > 0 → Decodes (br.gray st.graySeq) (some gray)) :
      Release t id b br st old (.publishStructure id c r o ts policy) old
        { st with activeVersion := nextMonotonic st.activeVersion st.graySeq, structureVersion := struct.version + 1,
                  graySeq := if st.graySeq > 0 then nextMonotonic st.activeVersion st.graySeq + 1 else st.graySeq,
                  valueDraft := pruneDraft { version := struct.version + 1, groups := draft.groups } st.valueDraft,
                  sharedBindings := bindings }
        (if st.graySeq > 0 then
          Function.update (Function.update br.gray (nextMonotonic st.activeVersion st.graySeq + 1) (some (Codec.encode gray)))
            st.graySeq none
        else br.gray)
        { project := id, branch := b, version := nextMonotonic st.activeVersion st.graySeq, ty := .structurePublish,
          structureVersion := struct.version + 1, comment := c, requestId := r, changes := [], gray := false }
  | cascade {c r o : String} {ts : Int} {mode : SharedCascadeMode} {policy : PublishPolicy} {item : SharedItem}
      {g k : String} (hitem : sharedDraftOf t item.key = some item)
      (hbound : item? st.sharedBindings g k = some item.key) :
      Release t id b br st old (.sharedPublish c r o ts mode policy) (setItem old g k item.value)
        { st with activeVersion := st.activeVersion + 1 }
        br.gray
        { project := id, branch := b, version := st.activeVersion + 1, ty := .sharedCascade,
          structureVersion := st.structureVersion, comment := c, requestId := r,
          changes := computeDiff old (setItem old g k item.value), gray := false }

/-- One move of a branch: the events it causes, the version it creates, and what it leaves. -/
inductive Move (t : Store) (id : ProjectId) (b : BranchName) (cmd : Command) (br : Branch) :
    List PublishEvent → List VersionWrite → Branch → Prop
  | create {st : BranchState} (hs : br.state = none) (h : Fresh t id b cmd st) : Move t id b cmd br [] [] (br.become st br.gray)
  | edit {st st' : BranchState} {gray : Nat → Option Stored} {events : List PublishEvent}
      (hat : br = branchAt t id b) (hs : br.state = some st) (h : Edit t id b br st cmd st' gray events) : Move t id b cmd br events [] (br.become st' gray)
  | release {st st' : BranchState} {old new : SnapshotMap} {gray : Nat → Option Stored} {event : PublishEvent}
      (record : VersionRecord) (hs : br.state = some st) (ho : br.active st = some old)
      (h : Release t id b br st old cmd new st' gray event) :
      Move t id b cmd br [event] [⟨id, b, st'.activeVersion, old, new⟩]
        ((br.write st'.activeVersion old new record).become st' gray)

inductive Course (t : Store) (cmd : Command) : State → List PublishEvent → State → Prop
  | refl (s : State) : Course t cmd s [] s
  | quiet {s s' s'' : State} {events : List PublishEvent}
      (hb : ∀ id b, Named id b → branchAt s'.kv id b = branchAt s.kv id b) (hm : s'.notes = s.notes)
      (h : Course t cmd s' events s'') : Course t cmd s events s''
  | move {s s' s'' : State} {events events' : List PublishEvent} {ws : List VersionWrite} {id : ProjectId}
      {b : BranchName} (hn : Named id b) (hmove : Move t id b cmd (branchAt s.kv id b) events ws (branchAt s'.kv id b))
      (he : ∀ k, ¬ UnderBranch id b k → s'.kv[k]? = s.kv[k]?) (hm : s'.notes = s.notes ++ ws)
      (h : Course t cmd s' events' s'') : Course t cmd s (events ++ events') s''

theorem Course.trans {cmd : Command} {events events' : List PublishEvent} (h : Course t cmd s events s')
    (h' : Course t cmd s' events' s'') : Course t cmd s (events ++ events') s'' := by
  induction h with
  | refl => exact h'
  | quiet hb hm _ ih => exact .quiet hb hm (ih h')
  | move hn hmove he hm _ ih =>
    rw [List.append_assoc]
    exact .move hn hmove he hm (ih h')

structure Moves (t : Store) (cmd : Command) (id : ProjectId) (b : BranchName) (s : State) (events : List PublishEvent)
    (s' : State) : Prop where
  named : Named id b
  move : ∃ ws, Move t id b cmd (branchAt s.kv id b) events ws (branchAt s'.kv id b) ∧ s'.notes = s.notes ++ ws
  frame : ∀ k, ¬ UnderBranch id b k → s'.kv[k]? = s.kv[k]?

theorem Moves.course {cmd : Command} {events : List PublishEvent} (h : Moves t cmd id b s events s') :
    Course t cmd s events s' := by
  obtain ⟨ws, hmove, hm⟩ := h.move
  have hc := Course.move h.named hmove h.frame hm (.refl s')
  rwa [List.append_nil] at hc

theorem Course.single {cmd : Command} {events : List PublishEvent} {ws : List VersionWrite} (hn : Named id b)
    (hmove : Move t id b cmd (branchAt s.kv id b) events ws (branchAt s'.kv id b))
    (he : ∀ k, ¬ UnderBranch id b k → s'.kv[k]? = s.kv[k]?) (hm : s'.notes = s.notes ++ ws) :
    Course t cmd s events s' := Moves.course ⟨hn, ⟨ws, hmove, hm⟩, he⟩

/-- The request is the last one the branch has taken up, and nothing is done. -/
def Retried (t : Store) (id : ProjectId) (b : BranchName) (r : String) (events : List PublishEvent) (s : State) : Prop :=
  ∃ st, stateOf t id b = some st ∧ st.lastRequestId = some r ∧ events = [] ∧ s = ⟨t, []⟩

end

/-! ## Writes, slot by slot -/

omit [SerdeJson] in
@[simp] theorem Branch.gray_set (br : Branch) (n : Nat) (o : Option Stored) :
    (br.set (.gray n) o).gray = Function.update br.gray n o := by
  funext m
  simp [Branch.gray, Function.update_apply]

@[simp] theorem Branch.state_become (br : Branch) (st : BranchState) (gray : Nat → Option Stored) :
    (br.become st gray).state = some (rereadState st) := decode_encode st

omit [SerdeJson] in
@[simp] theorem Branch.gray_become (br : Branch) (st : BranchState) (gray : Nat → Option Stored) :
    (br.become st gray).gray = gray := rfl

omit [SerdeJson] in
@[simp] theorem Branch.become_set (br : Branch) (n : Nat) (o : Option Stored) (st : BranchState)
    (gray : Nat → Option Stored) : (br.set (.gray n) o).become st gray = br.become st gray := by
  funext x
  cases x <;> simp [Branch.become]

omit [SerdeJson] in
@[simp] theorem Branch.gray_write (br : Branch) (n : Nat) (old new : SnapshotMap) (r : VersionRecord) :
    (br.write n old new r).gray = br.gray := funext fun m => Branch.write_of_ne (by simp)

@[simp] theorem Branch.log_become (br : Branch) (st : BranchState) (gray : Nat → Option Stored) :
    (br.become st gray).log = br.log := rfl

theorem Branch.log_write (br : Branch) (n : Nat) (old new : SnapshotMap) (r : VersionRecord) :
    (br.write n old new r).log =
      br.log.write checkpointInterval n (rereadSnapshot new) (rereadDiff (computeDiff old new)) := by
  have hc : DeltaLog.Checkpoint checkpointInterval n ↔ isCheckpoint n := Iff.rfl
  unfold Branch.write DeltaLog.Log.write
  by_cases h : isCheckpoint n
  · rw [if_pos h]
    refine congrArg₂ DeltaLog.Log.mk (funext fun m => ?_) (funext fun m => ?_)
    · by_cases e : m = n
      · simp [e, hc, h]
      · simp [Branch.log, e]
    · simp [Branch.log, hc, h]
  · rw [if_neg h]
    refine congrArg₂ DeltaLog.Log.mk (funext fun m => ?_) (funext fun m => ?_)
    · simp [Branch.log, hc, h]
    · by_cases e : m = n
      · simp [e, hc, h]
      · simp [Branch.log, e]

theorem Branch.contents_write {st : BranchState} {old : SnapshotMap} (ho : br.active st = some old)
    (new : SnapshotMap) (r : VersionRecord) :
    (br.write (st.activeVersion + 1) old new r).contents (st.activeVersion + 1) =
      some (readBack (st.activeVersion + 1) old new) := by
  rw [Branch.contents, Branch.log_write, readBack]
  by_cases hc : isCheckpoint (st.activeVersion + 1)
  · rw [DeltaLog.read_write_checkpoint (Nat.succ_pos _) hc, if_pos hc]
  · have hpos : st.activeVersion ≠ 0 := fun h => hc (.inl (by rw [h]))
    rw [Branch.active, if_neg hpos, Branch.contents] at ho
    rw [DeltaLog.read_write_succ hc, ho, if_neg hc]
    rfl

omit [SerdeJson] in
theorem branchAt_insert_state (hn : Named id b) (st : BranchState) :
    branchAt (t.insert (branchStateKey id b) (Codec.encode st)) id b =
      (branchAt t id b).become st (branchAt t id b).gray := by
  rw [show branchStateKey id b = Slot.key id b .state from rfl, branchAt_insert hn]
  funext x
  cases x <;> simp [Branch.become, Branch.gray]

omit [SerdeJson] in
theorem branchAt_gray_of_write (hn : Named id b) {n : Nat} {old new : SnapshotMap} {r : VersionRecord} {u : Unit}
    (h : (writeVersionSnapshot id b n old new r).exec s = (.ok u, s')) :
    (branchAt s'.kv id b).gray = (branchAt s.kv id b).gray := by
  obtain ⟨s₁, h₁, -, hb⟩ := writeVersionSnapshot_branch (s := s) hn n old new r
  obtain rfl := (Prod.mk.inj (h.symm.trans h₁)).2
  rw [hb, Branch.gray_write]

omit [SerdeJson] in
theorem branchAt_insert_gray (hn : Named id b) (n : Nat) (v : Stored) :
    branchAt (t.insert (graySnapKey id b n) v) id b = (branchAt t id b).set (.gray n) (some v) :=
  branchAt_insert hn (.gray n) v

omit [SerdeJson] in
theorem branchAt_erase_gray (hn : Named id b) (n : Nat) :
    branchAt (t.erase (graySnapKey id b n)) id b = (branchAt t id b).set (.gray n) none :=
  branchAt_erase hn (.gray n)

section
variable {cmd : Command} {events : List PublishEvent}

/-! ## Commands on one branch -/

omit [SerdeJson] in
theorem frame_of_obeys {α : Type} {p : M α} {Q : α → Prop} {r : Except Error α} (h : p.exec s = (r, s'))
    (hp : p.Obeys (rules (UnderBranch id b) fun _ => False) Q) (hs : WellPlaced s.kv) :
    ∀ k, ¬ UnderBranch id b k → s'.kv[k]? = s.kv[k]? := by
  intro k hk
  simpa only [h] using rows_of_obeys hp hs hk

theorem getStructure_bind {β : Type} {e : Error} {f : Structure → M β} {r : β}
    (h : (getStructure id >>= fun o => okOr o e >>= f).exec s = (.ok r, s')) :
    ∃ struct, structOf s.kv id = some struct ∧ (f struct).exec s = (.ok r, s') := by
  obtain ⟨_, ho, h⟩ := loadMerged_bind.mp h
  obtain ⟨struct, rfl, h⟩ := okOr_bind.mp h
  exact ⟨struct, entity_eq_some.mpr ho, h⟩

omit [SerdeJson] in
theorem checkDraftRev_ok {st : BranchState} {rev : Option Nat} {u : Unit} :
    (checkDraftRev st rev).eval t = .ok u ↔ ∀ exp, rev = some exp → exp = st.draftRev := by
  cases rev with
  | none => exact iff_of_true rfl (by rintro _ ⟨⟩)
  | some exp =>
    by_cases e : exp = st.draftRev
    · rw [checkDraftRev, ensure, if_pos e]
      exact iff_of_true rfl fun _ he => Option.some.inj he ▸ e
    · rw [checkDraftRev, ensure, if_neg e]
      exact iff_of_false (by rintro ⟨⟩) fun h => e (h exp rfl)

theorem applyDraftUpdate_moves (ht : WellPlaced t) {us : List DraftUpdateItem} {ds : List (String × String)}
    {bs : List SharedBinding} {now : Int} (ts : Int) {o : String} {rev : Option Nat}
    (h : (applyDraftUpdate id b us ds bs now o rev).exec ⟨t, []⟩ = (.ok events, s)) :
    Moves t (.draftUpdate id b us ds bs o ts rev) id b ⟨t, []⟩ events s := by
  have hw := frame_of_obeys h (applyDraftUpdate_obeys us ds bs now o rev) ht
  obtain ⟨st, hst, h⟩ := getBranchState_bind h
  have hn := named_of_stateOf ht hst
  obtain ⟨_, hrev, h⟩ := (checkDraftRev_readOnly _ _).exec_bind_ok.mp h
  replace hrev := checkDraftRev_ok.mp hrev
  obtain ⟨struct, hstruct, h⟩ := getStructure_bind h
  obtain ⟨n, hus, h⟩ := (foldlM_readOnly (checkUpdate_readOnly _ _) _ _).exec_bind_ok.mp h
  obtain ⟨⟨bindings, changed⟩, hbind, h⟩ := (foldlM_readOnly (bindOne_readOnly _) _ _).exec_bind_ok.mp h
  rw [savePending_bind] at h
  obtain ⟨rfl, rfl⟩ := pure_ok.mp h
  refine ⟨hn, ⟨_, ?_, rfl⟩, hw⟩
  rw [KV.Flat.insert_kv, branchAt_insert_state hn]
  exact .edit rfl hst (.draft now hrev hstruct hus hbind)

/-- A version written, then gray snapshots, and the new state last. -/
theorem release_moves (hn : Named id b) {st st' : BranchState} {old new : SnapshotMap} {gray : Nat → Option Stored}
    {event : PublishEvent} (hst : stateOf s.kv id b = some st) (ho : activeContents s.kv id b st = some old)
    (hrel : Release t id b (branchAt s.kv id b) st old cmd new st' gray event) {r : VersionRecord} {u : Unit}
    {s₁ s₂ : State} (h₁ : (writeVersionSnapshot id b st'.activeVersion old new r).exec s = (.ok u, s₁))
    (hs' : s' = s₂.insert (branchStateKey id b) (Codec.encode st'))
    (hg : (branchAt s₂.kv id b).become st' (branchAt s₂.kv id b).gray = (branchAt s₁.kv id b).become st' gray)
    (hm : s₂.notes = s₁.notes)
    (hw : ∀ k, ¬ UnderBranch id b k → s'.kv[k]? = s.kv[k]?) : Moves t cmd id b s [event] s' := by
  obtain ⟨s₁', h₁', hnotes, hb⟩ := writeVersionSnapshot_branch (s := s) hn st'.activeVersion old new r
  obtain rfl := (Prod.mk.inj (h₁.symm.trans h₁')).2
  subst hs'
  refine ⟨hn, ⟨_, ?_, hm.trans hnotes⟩, hw⟩
  rw [KV.Flat.insert_kv, branchAt_insert_state hn, hg, hb]
  exact .release r hst ho hrel

theorem applyPublish_moves (ht : WellPlaced t) {c r o : String} {now : Int} (ts : Int) {policy : PublishPolicy}
    (h : (applyPublish id b c r now o policy).exec ⟨t, []⟩ = (.ok events, s)) :
    Retried t id b r events s ∨ Moves t (.publish id b c r o ts policy) id b ⟨t, []⟩ events s := by
  have hw := frame_of_obeys h (applyPublish_obeys c r now o policy) ht
  obtain ⟨st, hst, h⟩ := getBranchState_bind h
  have hn := named_of_stateOf ht hst
  obtain ⟨struct, hstruct, h⟩ := getStructure_bind h
  split at h
  · rename_i hr
    obtain ⟨rfl, rfl⟩ := pure_ok.mp h
    exact .inl ⟨st, hst, hr, rfl, rfl⟩
  · rename_i hr
    right
    obtain ⟨hp, h⟩ := ensure_bind.mp h
    obtain ⟨old, ho, h⟩ := (activeSnapshot_readOnly _ _ _).exec_bind_ok.mp h
    replace ho := (activeSnapshot_eval ht hn).mp ho
    obtain ⟨⟨new, errs⟩, hm, h⟩ := (materializeResolved_readOnly _ _ _ _).exec_bind_ok.mp h
    obtain ⟨_, s₁, h₁, h⟩ := Prog.exec_bind_ok.mp h
    rw [savePending_bind] at h
    obtain ⟨rfl, rfl⟩ := pure_ok.mp h
    refine release_moves hn hst ho (.publish rfl hr hp hstruct hm) h₁ rfl ?_ rfl hw
    rw [branchAt_gray_of_write hn h₁]

theorem applyRollback_moves (ht : WellPlaced t) {v : Nat} {c r o : String} {now : Int} (ts : Int)
    (h : (applyRollback id b v c r now o).exec ⟨t, []⟩ = (.ok events, s)) :
    Retried t id b r events s ∨ Moves t (.rollback id b v c r o ts) id b ⟨t, []⟩ events s := by
  have hw := frame_of_obeys h (applyRollback_obeys v c r now o) ht
  obtain ⟨st, hst, h⟩ := getBranchState_bind h
  have hn := named_of_stateOf ht hst
  split at h
  · rename_i hr
    obtain ⟨rfl, rfl⟩ := pure_ok.mp h
    exact .inl ⟨st, hst, hr, rfl, rfl⟩
  · rename_i hr
    right
    obtain ⟨hv, h⟩ := ensure_bind.mp h
    obtain ⟨snap, hsnap, h⟩ := (snapshotOf_readOnly _ _ _).exec_bind_ok.mp h
    replace hsnap := (snapshotOf_eval ht hn.plain.1 hn.plain.2 _ _).mp hsnap
    obtain ⟨old, ho, h⟩ := (activeSnapshot_readOnly _ _ _).exec_bind_ok.mp h
    replace ho := (activeSnapshot_eval ht hn).mp ho
    obtain ⟨_, s₁, h₁, h⟩ := Prog.exec_bind_ok.mp h
    rw [savePending_bind] at h
    obtain ⟨rfl, rfl⟩ := pure_ok.mp h
    refine release_moves hn hst ho (.rollback rfl hr hv hsnap) h₁ rfl ?_ rfl hw
    rw [branchAt_gray_of_write hn h₁]

theorem graySnapshotOf_ok (hs : WellPlaced s.kv) (hn : Named id b) {seq : Nat} {snap : SnapshotMap} :
    (graySnapshotOf id b seq).eval s.kv = .ok snap ↔ Decodes ((branchAt s.kv id b).gray seq) (some snap) := by
  rw [graySnapshotOf, (readAs_readOnly _ _).eval_bind, readAs_eval]
  change _ ↔ Decodes s.kv[graySnapKey id b seq]? _
  cases h : s.kv[graySnapKey id b seq]? with
  | none => exact iff_of_false (by rintro ⟨⟩) (by rintro ⟨⟩)
  | some v =>
    obtain ⟨x, rfl⟩ := placed_at_graySnapKey hn.plain.1 hn.plain.2 (hs _ _ h)
    rw [parseRow_ok.mpr (decodes_encode x), Decodes, Option.map_some, Option.map_some, Option.some.injEq, decode_encode,
      Option.some.injEq]
    exact ⟨Except.ok.inj, congrArg Except.ok⟩

theorem applyGrayPublish_moves (ht : WellPlaced t) {rule : GrayRule} {c r o : String} {now : Int} (ts : Int)
    {policy : PublishPolicy} (h : (applyGrayPublish id b rule c r now o policy).exec ⟨t, []⟩ = (.ok events, s)) :
    Retried t id b r events s ∨ Moves t (.grayPublish id b rule c r o ts policy) id b ⟨t, []⟩ events s := by
  have hw := frame_of_obeys h (applyGrayPublish_obeys rule c r now o policy) ht
  obtain ⟨_, hrule, h⟩ := (validateGrayRule_readOnly _).exec_bind_ok.mp h
  obtain ⟨st, hst, h⟩ := getBranchState_bind h
  have hn := named_of_stateOf ht hst
  obtain ⟨struct, hstruct, h⟩ := getStructure_bind h
  split at h
  · rename_i hr
    obtain ⟨rfl, rfl⟩ := pure_ok.mp h
    exact .inl ⟨st, hst, hr, rfl, rfl⟩
  · rename_i hr
    right
    obtain ⟨hp, h⟩ := ensure_bind.mp h
    obtain ⟨old, ho, h⟩ := (activeSnapshot_readOnly _ _ _).exec_bind_ok.mp h
    replace ho := (activeSnapshot_eval ht hn).mp ho
    obtain ⟨⟨new, errs⟩, hm, h⟩ := (materializeResolved_readOnly _ _ _ _).exec_bind_ok.mp h
    have hedit : Edit t id b (branchAt t id b) st (.grayPublish id b rule c r o ts policy) _ _ _ :=
      .grayPublish hrule hr hp hstruct ho hm
    rw [savePending_bind] at h
    dsimp only at h
    split at h
    · rename_i hg
      rw [deletePending_bind, savePending_bind] at h
      obtain ⟨rfl, rfl⟩ := pure_ok.mp h
      refine ⟨hn, ⟨_, ?_, rfl⟩, hw⟩
      rw [if_pos hg] at hedit
      rw [KV.Flat.insert_kv, branchAt_insert_state hn, KV.Flat.erase_kv, branchAt_erase_gray hn, KV.Flat.insert_kv,
        branchAt_insert_gray hn]
      simp only [Branch.gray_set, Branch.become_set]
      exact .edit rfl hst hedit
    · rename_i hg
      rw [savePending_bind] at h
      obtain ⟨rfl, rfl⟩ := pure_ok.mp h
      refine ⟨hn, ⟨_, ?_, rfl⟩, hw⟩
      rw [if_neg hg] at hedit
      rw [KV.Flat.insert_kv, branchAt_insert_state hn, KV.Flat.insert_kv, branchAt_insert_gray hn]
      simp only [Branch.gray_set, Branch.become_set]
      exact .edit rfl hst hedit

theorem applyGrayPromote_moves (ht : WellPlaced t) {c r o : String} {now : Int} (ts : Int)
    (h : (applyGrayPromote id b c r now o).exec ⟨t, []⟩ = (.ok events, s)) :
    Retried t id b r events s ∨ Moves t (.grayPromote id b c r o ts) id b ⟨t, []⟩ events s := by
  have hw := frame_of_obeys h (applyGrayPromote_obeys c r now o) ht
  obtain ⟨st, hst, h⟩ := getBranchState_bind h
  have hn := named_of_stateOf ht hst
  split at h
  · rename_i hr
    obtain ⟨rfl, rfl⟩ := pure_ok.mp h
    exact .inl ⟨st, hst, hr, rfl, rfl⟩
  · rename_i hr
    right
    obtain ⟨hgray, h⟩ := ensure_bind.mp h
    rw [not_or] at hgray
    obtain ⟨new, hnew, h⟩ := (graySnapshotOf_readOnly _ _ _).exec_bind_ok.mp h
    replace hnew := (graySnapshotOf_ok (s := ⟨t, []⟩) ht hn).mp hnew
    obtain ⟨old, ho, h⟩ := (activeSnapshot_readOnly _ _ _).exec_bind_ok.mp h
    replace ho := (activeSnapshot_eval ht hn).mp ho
    obtain ⟨_, s₁, h₁, h⟩ := Prog.exec_bind_ok.mp h
    rw [deletePending_bind, savePending_bind] at h
    obtain ⟨rfl, rfl⟩ := pure_ok.mp h
    refine release_moves hn hst ho (.grayPromote rfl hr hgray.1 hgray.2 hnew) h₁ rfl ?_ rfl hw
    rw [KV.Flat.erase_kv, branchAt_erase_gray hn]
    simp only [Branch.gray_set, Branch.become_set]
    rw [branchAt_gray_of_write hn h₁]

theorem applyGrayAbort_moves (ht : WellPlaced t) {c r o : String} {now : Int} (ts : Int)
    (h : (applyGrayAbort id b c r now o).exec ⟨t, []⟩ = (.ok events, s)) :
    Retried t id b r events s ∨ Moves t (.grayAbort id b c r o ts) id b ⟨t, []⟩ events s := by
  have hw := frame_of_obeys h (applyGrayAbort_obeys c r now o) ht
  obtain ⟨st, hst, h⟩ := getBranchState_bind h
  have hn := named_of_stateOf ht hst
  split at h
  · rename_i hr
    obtain ⟨rfl, rfl⟩ := pure_ok.mp h
    exact .inl ⟨st, hst, hr, rfl, rfl⟩
  · rename_i hr
    right
    obtain ⟨hgray, h⟩ := ensure_bind.mp h
    rw [not_or] at hgray
    rw [deletePending_bind, savePending_bind] at h
    obtain ⟨rfl, rfl⟩ := pure_ok.mp h
    refine ⟨hn, ⟨_, ?_, rfl⟩, hw⟩
    rw [KV.Flat.insert_kv, branchAt_insert_state hn, KV.Flat.erase_kv, branchAt_erase_gray hn]
    simp only [Branch.gray_set, Branch.become_set]
    exact .edit rfl hst (.grayAbort hr hgray.1 hgray.2)

/-! ## Passes over branches -/

theorem bumpGray_branch (hs : WellPlaced s.kv) (hn : Named id b) {seq next seq' : Nat}
    (h : (bumpGray id b seq next).exec s = (.ok seq', s')) (st : BranchState) :
    seq' = (if seq > 0 then next else seq) ∧ s'.notes = s.notes ∧
      ∃ snap : SnapshotMap, (seq > 0 → Decodes ((branchAt s.kv id b).gray seq) (some snap)) ∧
      (branchAt s'.kv id b).become st (branchAt s'.kv id b).gray = (branchAt s.kv id b).become st (if seq > 0 then
        Function.update (Function.update (branchAt s.kv id b).gray next (some (Codec.encode snap))) seq none
      else (branchAt s.kv id b).gray) := by
  unfold bumpGray at h
  split at h
  · rename_i hseq
    obtain ⟨snap, hsnap, h⟩ := (graySnapshotOf_readOnly _ _ _).exec_bind_ok.mp h
    replace hsnap := (graySnapshotOf_ok hs hn).mp hsnap
    rw [savePending_bind, deletePending_bind] at h
    obtain ⟨rfl, rfl⟩ := pure_ok.mp h
    refine ⟨(if_pos hseq).symm, rfl, snap, fun _ => hsnap, ?_⟩
    rw [if_pos hseq, KV.Flat.erase_kv, branchAt_erase_gray hn, KV.Flat.insert_kv, branchAt_insert_gray hn]
    simp only [Branch.gray_set, Branch.become_set]
  · rename_i hseq
    obtain ⟨rfl, rfl⟩ := pure_ok.mp h
    exact ⟨(if_neg hseq).symm, rfl, ∅, fun h => absurd h hseq, by rw [if_neg hseq]⟩

omit [SerdeJson] in
theorem rows_of_write (hn : Named id b) (hs : WellPlaced s.kv) {n : Nat} {old new : SnapshotMap} {r : VersionRecord}
    {u : Unit} (hr : r.no = n) (h : (writeVersionSnapshot id b n old new r).exec s = (.ok u, s')) :
    WellPlaced s'.kv ∧ ∀ k, ¬ UnderBranch id b k → s'.kv[k]? = s.kv[k]? := by
  have hob := writeVersionSnapshot_obeys (T := UnderBranch id b) (D := fun _ => False) hn (fun _ hk => hk) hr old new
  exact ⟨by simpa only [h] using wellPlaced_of_obeys hob hs, frame_of_obeys h hob hs⟩

theorem rows_of_bump (hn : Named id b) (hs : WellPlaced s.kv) {seq next seq' : Nat}
    (h : (bumpGray id b seq next).exec s = (.ok seq', s')) :
    WellPlaced s'.kv ∧ ∀ k, ¬ UnderBranch id b k → s'.kv[k]? = s.kv[k]? := by
  have hob := bumpGray_obeys (T := UnderBranch id b) (D := fun _ => False) hn (fun _ hk => hk) seq next
  exact ⟨by simpa only [h] using wellPlaced_of_obeys hob hs, frame_of_obeys h hob hs⟩

/-- The rows of one branch, and no shared item, tell what a structure makes of it. -/
theorem publishStructureOn_move (hs : WellPlaced s.kv)
    (hat : Named id b → branchAt s.kv id b = branchAt t id b) (hshared : ∀ rk, sharedOf s.kv rk = sharedOf t rk)
    {struct : Structure} {draft : StructureDraft} (hstruct : structOf t id = some struct)
    (hdraft : entity StructureDraft t (structDraftKey id) = some draft) {c r o : String} {now : Int} (ts : Int)
    {policy : PublishPolicy} (hpub : Publishable t id policy) {event : PublishEvent}
    (h : (publishStructureOn id { version := struct.version + 1, groups := draft.groups } c r now o b).exec s =
      (.ok event, s')) :
    Named id b ∧ (stateOf s.kv id b).isSome ∧ WellPlaced s'.kv ∧ (∀ k, ¬ UnderBranch id b k → s'.kv[k]? = s.kv[k]?) ∧
      ∃ ws, Move t id b (.publishStructure id c r o ts policy) (branchAt s.kv id b) [event] ws (branchAt s'.kv id b) ∧
        s'.notes = s.notes ++ ws := by
  have hob := publishStructureOn_obeys (T := UnderBranch id b) (D := fun _ => False) (fun _ hk => hk)
    { version := struct.version + 1, groups := draft.groups } c r now o
  have hw := frame_of_obeys h hob hs
  have hp : WellPlaced s'.kv := by simpa only [h] using wellPlaced_of_obeys hob hs
  obtain ⟨st, hst, h⟩ := getBranchState_bind h
  have hn := named_of_stateOf hs hst
  obtain ⟨old, ho, h⟩ := (activeSnapshot_readOnly _ _ _).exec_bind_ok.mp h
  replace ho := (activeSnapshot_eval hs hn).mp ho
  obtain ⟨_, s₁, h₁, h⟩ := Prog.exec_bind_ok.mp h
  obtain ⟨graySeq, s₂, h₂, h⟩ := Prog.exec_bind_ok.mp h
  obtain ⟨record, hno, h₁⟩ : ∃ record : VersionRecord, record.no = nextMonotonic st.activeVersion st.graySeq ∧
      (writeVersionSnapshot id b (nextMonotonic st.activeVersion st.graySeq) old old record).exec s = (.ok (), s₁) :=
    ⟨_, by rfl, h₁⟩
  obtain ⟨hs₁, hw₁⟩ := rows_of_write hn hs hno h₁
  obtain ⟨hs₂, hw₂⟩ := rows_of_bump hn hs₁ h₂
  have hshared₂ : ∀ rk, sharedOf s₂.kv rk = sharedOf t rk := by
    intro rk
    have hout := (not_under_of_outside (outside_sharedKey rk) : ¬ UnderBranch id b _)
    rw [← hshared rk]
    exact entity_congr ((hw₂ _ hout).trans (hw₁ _ hout))
  obtain ⟨bindings, hb, h⟩ := (retainBindings_readOnly _ _).exec_bind_ok.mp h
  rw [retainBindings_eval hs₂, Except.ok.injEq] at hb
  rw [savePending_bind] at h
  obtain ⟨rfl, rfl⟩ := pure_ok.mp h
  obtain ⟨s₁', h₁', hnotes, hbr⟩ := writeVersionSnapshot_branch (s := s) hn (nextMonotonic st.activeVersion st.graySeq) old old
    record
  obtain rfl := (Prod.mk.inj (h₁.symm.trans h₁')).2
  obtain ⟨rfl, hnotes₂, gray, hgray, hb₂⟩ := bumpGray_branch hs₁ hn h₂ { st with
    activeVersion := nextMonotonic st.activeVersion st.graySeq, structureVersion := struct.version + 1,
    graySeq := graySeq, valueDraft := pruneDraft { version := struct.version + 1, groups := draft.groups } st.valueDraft,
    sharedBindings := bindings }
  refine ⟨hn, by rw [hst]; rfl, hp, hw, [⟨id, b, nextMonotonic st.activeVersion st.graySeq, old, old⟩], ?_,
    hnotes₂.trans hnotes⟩
  rw [KV.Flat.insert_kv, branchAt_insert_state hn, hb₂, hbr, Branch.gray_write]
  rw [hbr, Branch.gray_write] at hgray
  have hbind : ∀ g k rk, item? bindings g k = some rk ↔ item? st.sharedBindings g k = some rk ∧
      Fits t { version := struct.version + 1, groups := draft.groups } g k rk := by
    intro g k rk
    rw [← hb, item?_retained]
    simp only [Fits, hshared₂]
  have hrel : Release t id b (branchAt s.kv id b) st old (.publishStructure id c r o ts policy) old _ _ _ :=
    .restructure (hat hn) hpub hstruct hdraft hbind hgray
  have hst' : (branchAt s.kv id b).state = some st := hst
  exact .release record hst' ho hrel

theorem publishBranches_course {struct : Structure} {draft : StructureDraft} (hstruct : structOf t id = some struct)
    (hdraft : entity StructureDraft t (structDraftKey id) = some draft) {c r o : String} {now : Int} (ts : Int)
    {policy : PublishPolicy} (hpub : Publishable t id policy) (branches : List BranchName) :
    ∀ {s s' : State} {events : List PublishEvent}, WellPlaced s.kv → (∀ rk, sharedOf s.kv rk = sharedOf t rk) →
      branches.Nodup → (∀ b ∈ branches, Named id b → branchAt s.kv id b = branchAt t id b) →
      (branches.mapM (publishStructureOn id { version := struct.version + 1, groups := draft.groups } c r now o)).exec s =
        (.ok events, s') →
      WellPlaced s'.kv ∧ Course t (.publishStructure id c r o ts policy) s events s' ∧
        (∀ k, (∀ b ∈ branches, ¬ UnderBranch id b k) → s'.kv[k]? = s.kv[k]?) ∧
        ∀ b ∈ branches, Named id b ∧ (stateOf s.kv id b).isSome ∧ ∃ event ws,
          Move t id b (.publishStructure id c r o ts policy) (branchAt s.kv id b) [event] ws (branchAt s'.kv id b) := by
  induction branches with
  | nil =>
    intro s s' events hs _ _ _ h
    rw [List.mapM_nil] at h
    obtain ⟨rfl, rfl⟩ := pure_ok.mp h
    exact ⟨hs, .refl _, fun _ _ => rfl, fun b hb => absurd hb List.not_mem_nil⟩
  | cons b branches ih =>
    intro s s' events hs hshared hd hat h
    rw [List.nodup_cons] at hd
    rw [List.mapM_cons] at h
    obtain ⟨event, s₁, h₁, h⟩ := Prog.exec_bind_ok.mp h
    obtain ⟨events', s₂, h₂, h⟩ := Prog.exec_bind_ok.mp h
    obtain ⟨rfl, rfl⟩ := pure_ok.mp h
    obtain ⟨hn, hst, hs₁, hw₁, ws, hmove, hnotes⟩ := publishStructureOn_move hs (hat b List.mem_cons_self) hshared
      hstruct hdraft ts hpub h₁
    have hshared₁ : ∀ rk, sharedOf s₁.kv rk = sharedOf t rk := fun rk =>
      (entity_congr (hw₁ _ (not_under_of_outside (outside_sharedKey rk)))).trans (hshared rk)
    have hat₁ : ∀ b' ∈ branches, Named id b' → branchAt s₁.kv id b' = branchAt t id b' := by
      intro b' hb' hn'
      rw [branchAt_elsewhere hw₁ hn' fun e => hd.1 (e.2 ▸ hb')]
      exact hat b' (List.mem_cons_of_mem _ hb') hn'
    obtain ⟨hs₂, hcourse, hw₂, hmoves⟩ := ih hs₁ hshared₁ hd.2 hat₁ h₂
    refine ⟨hs₂, .move hn hmove hw₁ hnotes hcourse, fun k hk => ?_, fun b' hb' => ?_⟩
    · rw [List.forall_mem_cons] at hk
      rw [hw₂ k hk.2, hw₁ k hk.1]
    · rcases List.mem_cons.mp hb' with rfl | hb'
      · -- the branches after it leave it as it is
        refine ⟨hn, hst, event, ws, ?_⟩
        rwa [branchAt_congr (fun k hk => hw₂ k fun b hb hk' => ?_) hn]
        exact hd.1 ((hk.unique hk').2 ▸ hb)
      · obtain ⟨hn', hst', event', ws', hmove'⟩ := hmoves b' hb'
        rw [← state_branchAt, branchAt_elsewhere hw₁ hn' fun e => hd.1 (e.2 ▸ hb')] at hst'
        rw [branchAt_elsewhere hw₁ hn' fun e => hd.1 (e.2 ▸ hb')] at hmove'
        exact ⟨hn', hst', event', ws', hmove'⟩

/-- The structure of a project is published by a move of each of its branches, and no other one. -/
theorem applyPublishStructure_moves (ht : WellPlaced t) {c r o : String} {now : Int} (ts : Int) {policy : PublishPolicy}
    (h : (applyPublishStructure id c r now o policy).exec ⟨t, []⟩ = (.ok events, s)) :
    ∃ struct draft, structOf t id = some struct ∧ entity StructureDraft t (structDraftKey id) = some draft ∧
      Publishable t id policy ∧ structOf s.kv id = some { version := struct.version + 1, groups := draft.groups } ∧
      entity StructureDraft s.kv (structDraftKey id) = none ∧ Course t (.publishStructure id c r o ts policy) ⟨t, []⟩ events s ∧
      ∀ b, Named id b → (stateOf t id b = none ∧ branchAt s.kv id b = branchAt t id b) ∨
        (stateOf t id b).isSome ∧ ∃ event ws,
          Move t id b (.publishStructure id c r o ts policy) (branchAt t id b) [event] ws (branchAt s.kv id b) := by
  obtain ⟨struct, hstruct, h⟩ := getStructure_bind h
  obtain ⟨_, hdraft, h⟩ := loadMerged_bind.mp h
  obtain ⟨draft, rfl, h⟩ := okOr_bind.mp h
  replace hdraft := entity_eq_some.mpr hdraft
  obtain ⟨hbase, h⟩ := ensure_bind.mp h
  obtain ⟨herrs, h⟩ := ensure_bind.mp h
  have hi := plain_of_validName (validName_of_structure struct (ht _ _ (entity_exact.mp hstruct)))
  obtain ⟨branches, hb, h⟩ := (listBranches_readOnly _).exec_bind_ok.mp h
  obtain rfl := Except.ok.inj ((listBranches_eq t id).symm.trans hb)
  obtain ⟨events', s₁, h₁, h⟩ := Prog.exec_bind_ok.mp h
  rw [savePending_bind, deletePending_bind] at h
  obtain ⟨rfl, rfl⟩ := pure_ok.mp h
  have hpub : Publishable t id policy := ⟨struct, draft, hstruct, hdraft, hbase, herrs⟩
  obtain ⟨hs₁, hcourse, hw₁, hmoves⟩ := publishBranches_course hstruct hdraft ts hpub _ ht (fun _ => rfl)
    (listBranches_eval hb).1 (fun _ _ _ => rfl) h₁
  -- the rows of the structure are those of no branch
  have hrest : ∀ id' b', Named id' b' →
      branchAt ((s₁.kv.insert (structKey id) (Codec.encode (⟨struct.version + 1, draft.groups⟩ : Structure))).erase
        (structDraftKey id)) id' b' = branchAt s₁.kv id' b' := by
    intro id' b' hn
    rw [branchAt_erase_else hn (not_under_structDraftKey hi), branchAt_insert_else hn (not_under_structKey hi)]
  refine ⟨struct, draft, hstruct, hdraft, hpub, ?_, ?_, ?_, fun b hn => ?_⟩
  · rw [KV.Flat.erase_kv, structOf, entity_congr (KV.getElem?_erase_ne _ ?_)]
    · exact entity_insert _ _ _
    · intro e
      have := congrArg segments e
      simp [segments_structKey hi, segments_structDraftKey hi] at this
  · rw [entity, KV.Flat.erase_kv, KV.getElem?_erase, if_pos rfl]
    rfl
  · rw [← List.append_nil events']
    exact hcourse.trans (.quiet hrest (by rfl) (.refl _))
  · rw [KV.Flat.erase_kv, KV.Flat.insert_kv, hrest _ _ hn]
    by_cases hb : b ∈ branchesOf t id
    · exact .inr (hmoves b hb).2
    · refine .inl ⟨?_, branchAt_congr (fun k hk => hw₁ k fun b' hb' hk' => hb ((hk.unique hk').2 ▸ hb')) hn⟩
      rw [Option.eq_none_iff_forall_ne_some]
      exact fun st hst => hb (mem_branchesOf hn hst)

end

end Defing
