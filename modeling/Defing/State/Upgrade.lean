import Defing.State.Branch
import Defing.State.History

/-!
# Branches with versions from before diffs

Once every version was stored whole. A branch from then goes on with versions
that are checkpoints and diffs, and its reader meets both: without a diff after
a checkpoint it takes what stands whole at that number, for any later version.
-/

namespace Defing

open DeltaLog (Log)

section
variable [SerdeJson] {id : ProjectId} {b : BranchName} {t : Store} {s s' : State} {m n v : Nat} {c o r : Nat → SnapshotMap}

/-- The versions up to `m` stand whole, each with its own contents, and nothing else does. -/
structure AllWhole (t : Store) (id : ProjectId) (b : BranchName) (m : Nat) (c : Nat → SnapshotMap) : Prop where
  full (v : Nat) : 0 < v → v ≤ m → t[snapshotKey id b v]? = some (Codec.encode (c v))
  beyond (v : Nat) : ¬ (0 < v ∧ v ≤ m) → t[snapshotKey id b v]? = none
  delta (v : Nat) : t[diffKey id b v]? = none

/-- A branch whose versions up to `m` stand whole, and those after it are written on top of one another. The
contents of version `v` are `c v`, and the ones it was written as the change of are `o v`; what is not of a version
may change at any time. -/
inductive Upgraded (id : ProjectId) (b : BranchName) (m : Nat) (c o : Nat → SnapshotMap) : Nat → State → Prop
  | old {s : State} (h : AllWhole s.kv id b m c) : Upgraded id b m c o m s
  | write {n : Nat} {s s' : State} {st : BranchState} (record : VersionRecord)
      (h : Upgraded id b m c o n s) (hst : st.activeVersion = n) (hold : (activeSnapshot id b st).eval s.kv = .ok (o (n + 1)))
      (hw : (writeVersionSnapshot id b (n + 1) (o (n + 1)) (c (n + 1)) record).exec s = (.ok (), s')) :
      Upgraded id b m c o (n + 1) s'
  | other {n : Nat} {s s' : State} (h : Upgraded id b m c o n s)
      (hfull : ∀ v, s'.kv[snapshotKey id b v]? = s.kv[snapshotKey id b v]?)
      (hdelta : ∀ v, s'.kv[diffKey id b v]? = s.kv[diffKey id b v]?) : Upgraded id b m c o n s'

def textOf (m : Nat) (c o : Nat → SnapshotMap) (v : Nat) : SnapshotMap :=
  if v ≤ m then rereadSnapshot (c v) else readBack v (o v) (c v)

/-- The values that were printed for a version are steady: all of one that stands whole, else what changed. -/
def PrintedSteady (m : Nat) (c o : Nat → SnapshotMap) (v : Nat) : Prop :=
  ∀ g k w, item? (c v) g k = some w → v ≤ m ∨ isCheckpoint v ∨ item? (o v) g k ≠ some w → Steady w

theorem textOf_faithful_iff : SameItems (textOf m c o v) (c v) ↔ PrintedSteady m c o v := by
  unfold textOf
  split
  · rename_i hle
    rw [SameItems, rereadSnapshot_faithful_iff]
    exact ⟨fun h g k w hw _ => h g k w hw, fun h g k w hw => h g k w hw (.inl hle)⟩
  · rename_i hle
    rw [SameItems, readBack_faithful_iff]
    exact ⟨fun h g k w hw hp => h g k w hw (hp.resolve_left hle), fun h g k w hw hp => h g k w hw (.inr hp)⟩

/-! ## The log of such a branch -/

/-- What the log has of the versions up to `n`: `r` whole, or as what a version stands for. -/
structure Mixed (L : Log SnapshotMap (List DiffEntry)) (m : Nat) (r : Nat → SnapshotMap) (n : Nat) : Prop where
  le : m ≤ n
  full (v : Nat) : 0 < v → v ≤ n → v ≤ m ∨ isCheckpoint v → L.full v = some (r v)
  delta (v : Nat) : v ≤ m → L.delta v = none
  read (v : Nat) : 0 < v → v ≤ n → m ≤ checkpointOf v → DeltaLog.read checkpointInterval applyDiff L v = some (r v)

section
variable {L : Log SnapshotMap (List DiffEntry)}

omit [SerdeJson] in
theorem Mixed.whole (h : Mixed L m r n) (hv : 0 < v) (hle : v ≤ n) : L.full (checkpointOf v) = some (r (checkpointOf v)) :=
  h.full _ (DeltaLog.base_pos hv) ((DeltaLog.base_le hv).trans hle) (.inr (DeltaLog.checkpoint_base _ _))

omit [SerdeJson] in
/-- A checkpoint is read as it stands, and a version whose checkpoint is not from before all diffs is rebuilt
from diffs. -/
theorem Mixed.rebuild_late (h : Mixed L m r n) (hv : 0 < v) (hle : v ≤ n) (hm : v = checkpointOf v ∨ m ≤ checkpointOf v) :
    DeltaLog.rebuild checkpointInterval applyDiff L v = some (r v) := by
  rcases hm with he | hm
  · rw [DeltaLog.rebuild_base he.symm]
    exact h.full v hv hle (.inr (by rw [he]; exact DeltaLog.checkpoint_base _ _))
  · exact DeltaLog.rebuild_of_read hv (h.read v hv hle hm)

omit [SerdeJson] in
/-- Else the version after the checkpoint has no diff, and the reader ends there. -/
theorem Mixed.rebuild_early (h : Mixed L m r n) (hv : 0 < v) (hle : v ≤ n) (hm : ¬ (v = checkpointOf v ∨ m ≤ checkpointOf v)) :
    DeltaLog.rebuild checkpointInterval applyDiff L v = some (r (checkpointOf v + 1)) := by
  rw [not_or] at hm
  have hb : DeltaLog.base checkpointInterval v ≤ v := DeltaLog.base_le hv
  rw [← checkpointOf_eq] at hb
  have hlt : DeltaLog.base checkpointInterval v < v := by rw [← checkpointOf_eq]; omega
  have hnext : L.delta (checkpointOf v + 1) = none := h.delta _ (by omega)
  rw [DeltaLog.rebuild_first hlt (h.whole hv hle) hnext]
  exact h.full (checkpointOf v + 1) (by omega) (by omega) (.inl (by omega))

/-- The next version, written as the change from what the reader makes of the last one. -/
theorem Mixed.write (h : Mixed L m r n) {old new : SnapshotMap}
    (hold : 0 < n → DeltaLog.rebuild checkpointInterval applyDiff L n = some old) (hr : r (n + 1) = readBack (n + 1) old new) :
    Mixed (L.write checkpointInterval (n + 1) (rereadSnapshot new) (rereadDiff (computeDiff old new))) m r (n + 1) where
  le := Nat.le_succ_of_le h.le
  full v hv hle hw := by
    by_cases he : v = n + 1
    · subst he
      have hc : DeltaLog.Checkpoint checkpointInterval (n + 1) := hw.resolve_left (by have := h.le; omega)
      simp only [Log.write, hc, and_self, if_true]
      rw [hr]
      exact congrArg some (if_pos hc).symm
    · simp only [Log.write, he, false_and, if_false]
      exact h.full v hv (by omega) hw
  delta v hle := by
    have hne : v ≠ n + 1 := by have := h.le; omega
    simp only [Log.write, hne, false_and, if_false]
    exact h.delta v hle
  read v hv hle hm := by
    by_cases he : v = n + 1
    · subst he
      by_cases hc : isCheckpoint (n + 1)
      · rw [DeltaLog.read_write_checkpoint hv hc, hr, readBack, if_pos hc]
      · -- the last version has the same checkpoint, so the reader has made of it what it stands for
        have hn : 0 < n := Nat.pos_of_ne_zero fun h0 => hc (.inl (by rw [h0]))
        rw [checkpointOf_eq, DeltaLog.base_succ hc, ← checkpointOf_eq] at hm
        have hread := h.read n hn (Nat.le_refl n) hm
        have hsnap := DeltaLog.rebuild_of_read hn hread
        rw [hold hn] at hsnap
        rw [DeltaLog.read_write_succ hc, hread, ← Option.some.inj hsnap, hr, readBack, if_neg hc]
        rfl
    · rw [DeltaLog.read_write_of_lt (by omega)]
      exact h.read v hv (by omega) hm

end

/-! ## Runs -/

theorem AllWhole.log_full (h : AllWhole t id b m c) (hv : 0 < v) (hle : v ≤ m) :
    (logOf t id b).full v = some (rereadSnapshot (c v)) := entity_of_row (h.full v hv hle)

theorem AllWhole.log_delta (h : AllWhole t id b m c) (v : Nat) : (logOf t id b).delta v = none := by
  simp [logOf, entity, h.delta v]

theorem AllWhole.rows (h : AllWhole t id b m c) : VersionRows t id b where
  full v := by
    refine decodes_entity fun raw hraw => ?_
    by_cases hv : 0 < v ∧ v ≤ m
    · exact ⟨c v, Option.some.inj (hraw.symm.trans (h.full v hv.1 hv.2))⟩
    · rw [h.beyond v hv] at hraw
      cases hraw
  delta v := by
    rw [h.log_delta, h.delta]
    exact decodes_none.mpr rfl

theorem AllWhole.mixed (h : AllWhole t id b m c) : Mixed (logOf t id b) m (textOf m c o) m where
  le := Nat.le_refl m
  full v hv hle _ := by rw [h.log_full hv hle, textOf, if_pos hle]
  delta v _ := h.log_delta v
  read v hv hle hm := by
    -- a checkpoint at or after the last version is that version
    have he : v = checkpointOf v := Nat.le_antisymm (hle.trans hm) (DeltaLog.base_le hv)
    have hc : DeltaLog.Checkpoint checkpointInterval v := by
      rw [he]
      exact DeltaLog.checkpoint_base _ _
    rw [DeltaLog.read_checkpoint hv hc, h.log_full hv hle, textOf, if_pos hle]

theorem versionRows_write (hn : Named id b) (h : VersionRows s.kv id b) {no : Nat} {old new : SnapshotMap} {r : VersionRecord}
    (hw : (writeVersionSnapshot id b no old new r).exec s = (.ok (), s')) : VersionRows s'.kv id b := by
  obtain ⟨s₁, hw₁, -, hbranch⟩ := writeVersionSnapshot_branch hn (s := s) no old new r
  rw [hw] at hw₁
  obtain rfl : s' = s₁ := congrArg Prod.snd hw₁
  have hfull : ∀ v, branchAt s'.kv id b (.full v) = branchAt s.kv id b (.full v) ∨
      branchAt s'.kv id b (.full v) = some (Codec.encode new) := by
    intro v
    rw [hbranch, Branch.write]
    by_cases hc : isCheckpoint no <;> by_cases hv : v = no <;> simp [hc, hv, Branch.set]
  have hdelta : ∀ v, branchAt s'.kv id b (.diff v) = branchAt s.kv id b (.diff v) ∨
      branchAt s'.kv id b (.diff v) = some (Codec.encode (computeDiff old new)) := by
    intro v
    rw [hbranch, Branch.write]
    by_cases hc : isCheckpoint no <;> by_cases hv : v = no <;> simp [hc, hv, Branch.set]
  refine ⟨fun v => decodes_entity fun raw hraw => ?_, fun v => decodes_entity fun raw hraw => ?_⟩
  · rcases hfull v with e | e
    · exact (h.full v).typed (e.symm.trans hraw)
    · exact ⟨new, Option.some.inj (hraw.symm.trans e)⟩
  · rcases hdelta v with e | e
    · exact (h.delta v).typed (e.symm.trans hraw)
    · exact ⟨computeDiff old new, Option.some.inj (hraw.symm.trans e)⟩

theorem Upgraded.mixed (hn : Named id b) (h : Upgraded id b m c o n s) :
    VersionRows s.kv id b ∧ Mixed (logOf s.kv id b) m (textOf m c o) n := by
  induction h with
  | old h => exact ⟨h.rows, h.mixed⟩
  | @write n s s' st record _ hst hold hw ih =>
    obtain ⟨hrows, hmixed⟩ := ih
    refine ⟨versionRows_write hn hrows hw, ?_⟩
    obtain ⟨s₁, hw₁, -, -, hlog⟩ := writeVersionSnapshot_exec hn (s := s) (n + 1) (o (n + 1)) (c (n + 1)) record
    rw [hw] at hw₁
    obtain rfl : s' = s₁ := congrArg Prod.snd hw₁
    rw [hlog]
    refine hmixed.write (fun hpos => ?_) (if_neg (by have := hmixed.le; omega))
    rw [activeSnapshot, if_neg (by omega), hst] at hold
    exact (hrows.snapshotOf_eval hpos _).mp hold
  | @other n s s' _ hfull hdelta ih =>
    have hlog : logOf s'.kv id b = logOf s.kv id b := by
      simp only [logOf, entity_congr (hfull _), entity_congr (hdelta _)]
    rw [hlog]
    refine ⟨⟨fun v => ?_, fun v => ?_⟩, ih.2⟩
    · rw [hfull, hlog]
      exact ih.1.full v
    · rw [hdelta, hlog]
      exact ih.1.delta v

/-- After a checkpoint without a diff every version is read as the first of them. -/
theorem Upgraded.read_early (hn : Named id b) (h : Upgraded id b m c o n s) (hv : 0 < v) (hle : v ≤ n)
    (hm : ¬ (v = checkpointOf v ∨ m ≤ checkpointOf v)) :
    (snapshotOf id b v).eval s.kv = .ok (rereadSnapshot (c (checkpointOf v + 1))) := by
  obtain ⟨hrows, hmixed⟩ := h.mixed hn
  rw [hrows.snapshotOf_eval hv, hmixed.rebuild_early hv hle hm, textOf, if_pos]
  have hb : DeltaLog.base checkpointInterval v ≤ v := DeltaLog.base_le hv
  rw [← checkpointOf_eq] at hb
  omega

/-- A version that is a checkpoint, or whose checkpoint is not before the last version that stands whole, is read as
what it is exactly if the values printed for it are steady; any other one exactly if the version after its checkpoint
is read as its contents. -/
theorem upgraded_version_iff (hn : Named id b) (h : Upgraded id b m c o n s) (hv : 0 < v) (hle : v ≤ n) :
    (∃ snap, (snapshotOf id b v).eval s.kv = .ok snap ∧ SameItems snap (c v)) ↔
      (v = checkpointOf v ∨ m ≤ checkpointOf v) ∧ PrintedSteady m c o v ∨
        ¬ (v = checkpointOf v ∨ m ≤ checkpointOf v) ∧ SameItems (rereadSnapshot (c (checkpointOf v + 1))) (c v) := by
  by_cases hm : v = checkpointOf v ∨ m ≤ checkpointOf v
  · obtain ⟨hrows, hmixed⟩ := h.mixed hn
    have hread := (hrows.snapshotOf_eval hv _).mpr (hmixed.rebuild_late hv hle hm)
    rw [hread, ← textOf_faithful_iff]
    constructor
    · intro ⟨snap, hsnap, hsame⟩
      rw [Except.ok.inj hsnap]
      exact .inl ⟨hm, hsame⟩
    · intro hcond
      exact ⟨_, rfl, (hcond.resolve_right fun h => h.1 hm).2⟩
  · have hread := h.read_early hn hv hle hm
    rw [hread]
    constructor
    · intro ⟨snap, hsnap, hsame⟩
      rw [Except.ok.inj hsnap]
      exact .inr ⟨hm, hsame⟩
    · intro hcond
      exact ⟨_, rfl, (hcond.resolve_left fun h => hm h.1).2⟩

end

section
attribute [local instance] sampleJson

def sampleContents (v : Nat) : SnapshotMap := if v = 2 then ∅ else setItem ∅ "g" "k" (.int v)

def wholeStore : Nat → Store
  | 0 => ∅
  | m + 1 => (wholeStore m).insert (snapshotKey "p" "x" (m + 1)) (Codec.encode (sampleContents (m + 1)))

theorem sample_named : Named "p" "x" := ⟨by decide +kernel, by decide +kernel⟩

theorem wholeStore_whole (m : Nat) : AllWhole (wholeStore m) "p" "x" m sampleContents := by
  have hinj := fun v w => snapshotKey_inj sample_named.plain.1 sample_named.plain.2 (m := v) (n := w)
  induction m with
  | zero => exact ⟨fun v hv hle => by omega, fun v _ => by simp [wholeStore], fun v => by simp [wholeStore]⟩
  | succ m ih =>
    refine ⟨fun v hv hle => ?_, fun v hv => ?_, fun v => ?_⟩
    · rw [wholeStore, KV.getElem?_insert]
      by_cases he : m + 1 = v
      · rw [if_pos ((hinj _ _).mpr he), he]
      · rw [if_neg fun h => he ((hinj _ _).mp h)]
        exact ih.full v hv (by omega)
    · rw [wholeStore, KV.getElem?_insert_ne _ fun h => hv (by have := (hinj _ _).mp h; omega)]
      exact ih.beyond v fun h => hv (by omega)
    · rw [wholeStore, KV.getElem?_insert_ne _ (snapshotKey_ne_diffKey sample_named.plain.1 sample_named.plain.2 _ _)]
      exact ih.delta v

theorem upgraded_version_iff_sample :
    ∃ snap, (snapshotOf "p" "x" 2).eval (wholeStore 3) = .ok snap ∧ SameItems snap (sampleContents 2) :=
  (upgraded_version_iff (o := fun _ => ∅) (s := ⟨wholeStore 3, []⟩) sample_named (.old (wholeStore_whole 3)) (by decide)
    (by decide)).mpr (.inr ⟨by decide, congrArg dropEmpty rereadSnapshot_empty⟩)

/-- Version four, written after the upgrade, is read as version two, which the reader meets first. -/
theorem upgraded_version_confused :
    ¬ ∀ id b m c o n s, Named id b → Upgraded id b m c o n s → ∀ v, 0 < v → v ≤ n →
      ∃ snap, (snapshotOf id b v).eval s.kv = .ok snap ∧ SameItems snap (c v) := by
  intro h
  let record : VersionRecord :=
    { no := 4, structureVersion := 1, createdAt := 0, operator := "", comment := "", rollbackOf := none, kind := .full,
      snapshotRef := none, diffRef := none, eventTy := none, gray := false }
  have hbefore : Upgraded "p" "x" 3 sampleContents (fun _ => ∅) 3 ⟨wholeStore 3, []⟩ := .old (wholeStore_whole 3)
  have hold : (activeSnapshot "p" "x" { BranchState.new 1 with activeVersion := 3 }).eval (wholeStore 3) = .ok ∅ := by
    have := hbefore.read_early sample_named (v := 3) (by decide) (by decide) (by decide)
    rwa [show sampleContents (checkpointOf 3 + 1) = ∅ from rfl, rereadSnapshot_empty] at this
  obtain ⟨s', hw, -⟩ := writeVersionSnapshot_exec sample_named (s := ⟨wholeStore 3, []⟩) 4 ∅ (sampleContents 4) record
  have hafter : Upgraded "p" "x" 3 sampleContents (fun _ => ∅) 4 s' := .write record hbefore rfl hold hw
  have hread := hafter.read_early sample_named (v := 4) (by decide) (by decide) (by decide)
  obtain ⟨snap, hsnap, hsame⟩ := h _ _ _ _ _ _ _ sample_named hafter 4 (by decide) (by decide)
  rw [hread] at hsnap
  obtain rfl := Except.ok.inj hsnap
  have hitem := dropEmpty_eq_iff.mp hsame "g" "k"
  change item? (rereadSnapshot ∅) "g" "k" = item? (setItem ∅ "g" "k" (.int 4)) "g" "k" at hitem
  rw [rereadSnapshot_empty, item?_setItem, if_pos ⟨rfl, rfl⟩] at hitem
  cases hitem

end

end Defing
