import Defing.State.Append
import Defing.State.OwnRows
import Defing.State.VersionHistory

/-!
# Retention

Pruning takes from a branch all versions before a checkpoint, `Pruned`. What is
kept reads as before, and goes on to, through any commands and prunings, until
a later pruning takes it or the branch is deleted.
-/

namespace Defing

open KV (Prog Plain Buf)

section
variable [SerdeJson] {id id' : ProjectId} {b b' : BranchName} {t : Store} {br br' : Branch} {st : BranchState} {cmd : Command} {now : Int}
  {hist kept : List VersionRecord} {keep cut n : Nat}

/-! ## Versions without rows -/

section
variable (h : VersionRows t id b)
include h

theorem VersionRows.fullSnapshot_none {v : Nat} (hv : (logOf t id b).full v = none) :
    (fullSnapshot id b v).eval t = .error (Error.notFound s!"version {v} of {b}") := by
  rw [fullSnapshot, (readAs_readOnly _ _).eval_bind, h.readAs_snapshotKey, hv]
  rfl

/-- The loop of `snapshotOf` comes to a version that is not there. -/
theorem VersionRows.replay_missing (n v : Nat) (snap : SnapshotMap)
    (hv : ∀ m, v ≤ m → m < v + n → ¬ isCheckpoint m ∧ (logOf t id b).full m = none)
    (hd : ∃ m, v ≤ m ∧ m < v + n ∧ (logOf t id b).delta m = none) :
    ∃ what, (replay id b n v snap).eval t = .error (Error.notFound what) := by
  induction n generalizing v snap with
  | zero =>
    obtain ⟨m, hle, hlt, -⟩ := hd
    omega
  | succ n ih =>
    obtain ⟨hc, hf⟩ := hv v (Nat.le_refl v) (by omega)
    have hm : ¬ v % checkpointInterval = 0 := fun h => hc (.inr (Nat.dvd_of_mod_eq_zero h))
    rw [replay, if_neg hm, (readAs_readOnly _ _).eval_bind, h.readAs_diffKey]
    cases hdelta : (logOf t id b).delta v with
    | none => exact ⟨_, h.fullSnapshot_none hf⟩
    | some d =>
      refine ih (v + 1) (applyDiff snap d) (fun m hle hlt => hv m (by omega) (by omega)) ?_
      obtain ⟨m, hle, hlt, hnone⟩ := hd
      refine ⟨m, ?_, by omega, hnone⟩
      by_contra hnot
      obtain rfl : m = v := by omega
      rw [hdelta] at hnone
      cases hnone

end

omit [SerdeJson] in
/-- A version without rows of its own is not found, whatever there is of others. -/
theorem snapshotOf_missing [SerdeJson] (ht : WellPlaced t) (hn : Named id b) {v : Nat} (hf : (logOf t id b).full v = none)
    (hd : (logOf t id b).delta v = none) : ∃ what, (snapshotOf id b v).eval t = .error (Error.notFound what) := by
  have h := versionRows ht hn.plain.1 hn.plain.2
  rcases Nat.eq_zero_or_pos v with rfl | hv
  · exact ⟨_, snapshotOf_zero t id b⟩
  have he : (ensure (v ≠ 0) (Error.notFound s!"version 0 of {b}")).eval t = .ok () := by
    rw [ensure, if_pos (Nat.pos_iff_ne_zero.mp hv)]
    rfl
  rw [snapshotOf, (ensure_readOnly _ _).eval_bind_ok he]
  dsimp only
  rw [(readAs_readOnly _ _).eval_bind_ok (h.readAs_snapshotKey _ _), checkpointOf_eq]
  have hle := DeltaLog.base_le (c := checkpointInterval) hv
  cases hbase : (logOf t id b).full (DeltaLog.base checkpointInterval v) with
  | none => exact ⟨_, h.fullSnapshot_none hf⟩
  | some s =>
    have hlt : DeltaLog.base checkpointInterval v < v := by
      refine Nat.lt_of_le_of_ne hle fun e => ?_
      rw [e, hf] at hbase
      cases hbase
    refine h.replay_missing _ _ s (fun m hm hmv => ?_) ⟨v, by omega, by omega, hd⟩
    have hc : ¬ isCheckpoint m := DeltaLog.not_checkpoint_of_base_lt hm (by omega)
    exact ⟨hc, logOf_full_eq_none ht hn.plain.1 hn.plain.2 hc⟩

/-! ## What pruning removes -/

omit [SerdeJson] in
theorem keepFrom_eq (n : Nat) : keepFrom n = DeltaLog.base checkpointInterval n := by
  unfold keepFrom DeltaLog.base
  by_cases hd : checkpointInterval ∣ n
  · rw [if_pos hd, if_neg fun h => h.1 hd]
  · by_cases h1 : n = 1
    · subst h1
      rfl
    · rw [if_neg hd, if_pos ⟨hd, h1⟩]

def cutOf (keep : Nat) (hist : List VersionRecord) : Nat :=
  if hist.length ≤ keep then 0 else ((hist[hist.length - keep - 1]?).map fun rec => keepFrom rec.no).getD 0

omit [SerdeJson] in
theorem cutOf_of_lt (h : keep < hist.length) : ∃ rec : VersionRecord, hist[hist.length - keep - 1]? = some rec ∧
    cutOf keep hist = DeltaLog.base checkpointInterval rec.no := by
  have hget := List.getElem?_eq_getElem (l := hist) (i := hist.length - keep - 1) (by omega)
  refine ⟨_, hget, ?_⟩
  rw [cutOf, if_neg (Nat.not_le_of_lt h), hget, ← keepFrom_eq]
  rfl

omit [SerdeJson] in
/-- The cut is a checkpoint, so what is not before it does not need what is. -/
theorem cutOf_le_base (hle : cutOf keep hist ≤ n) : cutOf keep hist ≤ DeltaLog.base checkpointInterval n := by
  by_cases h : keep < hist.length
  · obtain ⟨rec, -, hcut⟩ := cutOf_of_lt h
    rw [hcut] at hle ⊢
    exact DeltaLog.le_base (DeltaLog.checkpoint_base _ _) hle
  · rw [cutOf, if_pos (Nat.le_of_not_lt h)]
    exact Nat.zero_le _

def versionKeys (id : ProjectId) (b : BranchName) (rec : VersionRecord) : List String :=
  [versionKey id b rec.no, snapshotKey id b rec.no, diffKey id b rec.no]

omit [SerdeJson] in
theorem run_deleteVersions (old : List VersionRecord) (buf : Buf String Stored VersionWrite) :
    (old.forM fun rec => deleteVersion id b rec.no).run buf =
      (.ok (), { buf with store := (old.flatMap (versionKeys id b)).foldl (fun t k => t.erase k) buf.store }) := by
  induction old generalizing buf with
  | nil => rfl
  | cons rec old ih =>
    have hone : (deleteVersion id b rec.no).run buf =
        (.ok (), { buf with store := (versionKeys id b rec).foldl (fun t k => t.erase k) buf.store }) := rfl
    show (deleteVersion id b rec.no >>= fun _ => old.forM fun rec => deleteVersion id b rec.no).run buf = _
    rw [Prog.run_bind_of_ok hone, ih, List.flatMap_cons, List.foldl_append]

section

theorem getBranchState_run (ht : WellPlaced t) (hn : Named id b) :
    (getBranchState id b).run { store := t } = (.ok (stateOf t id b), { store := t }) := by
  have hro : (getBranchState id b).ReadOnly := loadMerged_readOnly _
  rw [hro.run_eq]
  exact Prod.ext (getBranchState_eval ht hn.plain.1 hn.plain.2) rfl

theorem pruneVersions_run (ht : WellPlaced t) (hst : stateOf t id b = some st)
    (hh : (versionHistory id b).eval t = .ok hist) (keep : Nat) :
    (pruneVersions id b keep).run { store := t } =
      (.ok (hist.filter fun rec => ¬ (cutOf keep hist ≤ rec.no ∨ rec.no = st.activeVersion)).length,
        { store := ((hist.filter fun rec => ¬ (cutOf keep hist ≤ rec.no ∨ rec.no = st.activeVersion)).flatMap
          (versionKeys id b)).foldl (fun t k => t.erase k) t }) := by
  have hn := named_of_stateOf ht hst
  have hstate := getBranchState_run ht hn
  rw [hst] at hstate
  have hhist : (versionHistory id b).run { store := t } = (.ok hist, { store := t }) := by
    rw [(versionHistory_within id b).readOnly.run_eq]
    exact Prod.ext hh rfl
  unfold pruneVersions
  rw [Prog.run_bind_of_ok hstate]
  dsimp only [okOr]
  rw [Prog.run_bind_of_ok rfl, Prog.run_bind_of_ok hhist]
  by_cases hlt : keep < hist.length
  · obtain ⟨rec, hrec, hcut⟩ := cutOf_of_lt hlt
    rw [← keepFrom_eq] at hcut
    rw [hrec, hcut]
    dsimp only
    rw [if_neg (Nat.not_le_of_lt hlt), Prog.run_bind_of_ok (run_deleteVersions _ _)]
    rfl
  · have hle := Nat.le_of_not_lt hlt
    have hcut : cutOf keep hist = 0 := if_pos hle
    have hold : (hist.filter fun rec => ¬ (cutOf keep hist ≤ rec.no ∨ rec.no = st.activeVersion)) = [] :=
      List.filter_eq_nil_iff.mpr fun rec _ => by simp [hcut]
    rw [hold]
    cases hist[hist.length - keep - 1]? with
    | none => rfl
    | some newest =>
      dsimp only
      rw [if_pos hle]
      rfl

theorem prune_absent (ht : WellPlaced t) (hn : Named id b) (hst : stateOf t id b = none) (keep : Nat) :
    prune id b keep t = t := by
  have hstate := getBranchState_run ht hn
  rw [hst] at hstate
  unfold prune pruneVersions
  rw [Prog.run_bind_of_ok hstate]
  rfl

end

/-! ## A branch and its cut -/

structure Pruned (cut : Nat) (br br' : Branch) : Prop where
  state : br' .state = br .state
  gray : ∀ n, br' (.gray n) = br (.gray n)
  same : ∀ n, cut ≤ n → br' (.record n) = br (.record n) ∧ br' (.full n) = br (.full n) ∧ br' (.diff n) = br (.diff n)
  gone : ∀ n < cut, br' (.record n) = none ∧ br' (.full n) = none ∧ br' (.diff n) = none

/-- The rows of versions are those of the versions with a record, up to the active one, which has one. -/
structure Listed (br : Branch) : Prop where
  bounded : Bounded br
  record : ∀ n, br (.record n) = none → br (.full n) = none ∧ br (.diff n) = none
  active : br.activeNo ≠ 0 → br (.record br.activeNo) ≠ none

theorem listed_empty : Listed Branch.empty := ⟨fun _ _ => ⟨rfl, rfl, rfl⟩, fun _ _ => ⟨rfl, rfl⟩, fun h => absurd rfl h⟩

theorem Listed.le_active (h : Listed br) (hn : br (.record n) ≠ none) : n ≤ br.activeNo := by
  by_contra hlt
  exact hn (h.bounded n (Nat.lt_of_not_le hlt)).1

theorem Pruned.activeNo (h : Pruned cut br br') : br'.activeNo = br.activeNo := by
  simp only [Branch.activeNo, Branch.state, h.state]

theorem Pruned.contents (h : Pruned cut br br') (hcut : cut ≤ DeltaLog.base checkpointInterval n) :
    br'.contents n = br.contents n := by
  rcases Nat.eq_zero_or_pos n with rfl | hn
  · rfl
  · refine DeltaLog.read_congr_base hn fun m hm _ => ?_
    obtain ⟨-, hf, hd⟩ := h.same m (Nat.le_trans hcut hm)
    exact ⟨congrArg (Option.bind · Codec.decode) hf, congrArg (Option.bind · Codec.decode) hd⟩

theorem Pruned.listed (h : Pruned cut br br') (hcut : cut ≤ br.activeNo) (hl : Listed br) : Listed br' where
  bounded n hn := by
    rw [h.activeNo] at hn
    obtain ⟨hr, hf, hd⟩ := h.same n (Nat.le_trans hcut (Nat.le_of_lt hn))
    rw [hr, hf, hd]
    exact hl.bounded n hn
  record n hn := by
    by_cases hle : cut ≤ n
    · obtain ⟨hr, hf, hd⟩ := h.same n hle
      rw [hf, hd]
      exact hl.record n (hr ▸ hn)
    · exact (h.gone n (Nat.lt_of_not_le hle)).2
  active hne := by
    rw [h.activeNo] at hne ⊢
    rw [(h.same _ hcut).1]
    exact hl.active hne

section
variable {events : List PublishEvent} {ws : List VersionWrite}

theorem Move.listed (h : Move t id b cmd br events ws br') (hl : Listed br) : Listed br' := by
  have hbound := h.grows.2 hl.bounded
  cases h with
  | create hs h =>
    refine ⟨hbound, hl.record, fun hne => absurd ?_ hne⟩
    rw [Branch.activeNo_become, h.activeVersion]
  | edit hat hs h =>
    refine ⟨hbound, hl.record, fun hne => ?_⟩
    rw [Branch.activeNo_become, h.not_tells.1, ← Branch.activeNo_of_state hs] at hne ⊢
    exact hl.active hne
  | @release st st' old new gray event record hs ho h =>
    refine ⟨hbound, fun n hn => ?_, fun _ => ?_⟩
    · by_cases e : n = st'.activeVersion
      · subst e
        exact absurd hn (Branch.record_write _ _ _ _ _)
      · have hrow : ∀ x : Slot, x = .record n ∨ x = .full n ∨ x = .diff n →
            br.write st'.activeVersion old new record x = br x := by
          intro x hx
          refine Branch.write_of_ne ?_
          rcases hx with rfl | rfl | rfl <;> simp [e]
        have hnone := hl.record n ((hrow _ (.inl rfl)).symm.trans hn)
        exact ⟨(hrow _ (.inr (.inl rfl))).trans hnone.1, (hrow _ (.inr (.inr rfl))).trans hnone.2⟩
    · rw [Branch.activeNo_become]
      exact Branch.record_write _ _ _ _ _

end

section

theorem cutOf_le_active (ht : WellPlaced t) (hl : Listed (branchAt t id b)) (hh : (versionHistory id b).eval t = .ok hist)
    (keep : Nat) : cutOf keep hist ≤ (branchAt t id b).activeNo := by
  by_cases h : keep < hist.length
  · obtain ⟨rec, hrec, hcut⟩ := cutOf_of_lt h
    rw [hcut]
    have hrow : (branchAt t id b) (.record rec.no) ≠ none := by
      show t[versionKey id b rec.no]? ≠ none
      rw [((mem_versionHistory ht hh).mp (List.mem_of_getElem? hrec)).2]
      exact Option.some_ne_none _
    rcases Nat.eq_zero_or_pos rec.no with h0 | hpos
    · rw [h0]
      exact Nat.zero_le _
    · exact Nat.le_trans (DeltaLog.base_le hpos) (hl.le_active hrow)
  · rw [cutOf, if_pos (Nat.le_of_not_lt h)]
    exact Nat.zero_le _

/-- The rows that go are those of the versions before the cut that have a record. -/
theorem getElem?_prune (ht : WellPlaced t) (hst : stateOf t id b = some st) (hh : (versionHistory id b).eval t = .ok hist)
    (hcut : cutOf keep hist ≤ st.activeVersion) (k : String) :
    (prune id b keep t)[k]? =
      if ∃ rec ∈ hist, rec.no < cutOf keep hist ∧ k ∈ versionKeys id b rec then none else t[k]? := by
  have hrun := congrArg (fun r => r.2.store[k]?) (pruneVersions_run ht hst hh keep)
  rw [getElem?_deletes] at hrun
  refine hrun.trans (if_congr ?_ rfl rfl)
  simp only [List.mem_flatMap, List.mem_filter, decide_eq_true_eq, not_or, Nat.not_le, and_assoc]
  refine exists_congr fun rec => and_congr_right fun hrec => ?_
  constructor
  · intro h
    exact ⟨h.1, h.2.2⟩
  · intro h
    exact ⟨h.1, by omega, h.2⟩

theorem branchAt_prune (ht : WellPlaced t) (hst : stateOf t id b = some st) (hh : (versionHistory id b).eval t = .ok hist)
    (hcut : cutOf keep hist ≤ st.activeVersion) (x : Slot) :
    branchAt (prune id b keep t) id b x = if ∃ rec ∈ hist, rec.no < cutOf keep hist ∧
      (x = .record rec.no ∨ x = .full rec.no ∨ x = .diff rec.no) then none else branchAt t id b x := by
  have hn := named_of_stateOf ht hst
  refine (getElem?_prune ht hst hh hcut _).trans (if_congr ?_ rfl rfl)
  refine exists_congr fun rec => and_congr_right fun _ => and_congr_right fun _ => ?_
  simp only [versionKeys, List.mem_cons, List.not_mem_nil, or_false]
  constructor
  · intro h
    rcases h with h | h | h
    · exact .inl (Slot.key_inj (y := .record rec.no) hn h)
    · exact .inr (.inl (Slot.key_inj (y := .full rec.no) hn h))
    · exact .inr (.inr (Slot.key_inj (y := .diff rec.no) hn h))
  · rintro (rfl | rfl | rfl)
    · exact .inl rfl
    · exact .inr (.inl rfl)
    · exact .inr (.inr rfl)

/-- Of the versions of a branch, pruning leaves those from the cut on. -/
theorem prune_pruned (ht : WellPlaced t) (hst : stateOf t id b = some st) (hl : Listed (branchAt t id b))
    (hh : (versionHistory id b).eval t = .ok hist) (keep : Nat) :
    Pruned (cutOf keep hist) (branchAt t id b) (branchAt (prune id b keep t) id b) := by
  have hn := named_of_stateOf ht hst
  have hactive : (branchAt t id b).activeNo = st.activeVersion := Branch.activeNo_of_state hst
  have hslot := branchAt_prune ht hst hh (hactive ▸ cutOf_le_active ht hl hh keep)
  refine ⟨?_, fun n => ?_, fun n hle => ?_, fun n hlt => ?_⟩
  · rw [hslot, if_neg]
    simp
  · rw [hslot, if_neg]
    simp
  · have hnot : ∀ x : Slot, x = .record n ∨ x = .full n ∨ x = .diff n →
        branchAt (prune id b keep t) id b x = branchAt t id b x := by
      intro x hx
      rw [hslot, if_neg]
      rintro ⟨rec, -, hlt, hrec⟩
      rcases hx with rfl | rfl | rfl <;> simp at hrec <;> omega
    exact ⟨hnot _ (.inl rfl), hnot _ (.inr (.inl rfl)), hnot _ (.inr (.inr rfl))⟩
  · by_cases hsome : branchAt t id b (.record n) = none
    · have hnone : ∀ x : Slot, branchAt t id b x = none → branchAt (prune id b keep t) id b x = none := by
        intro x hx
        rw [hslot, hx, ite_self]
      obtain ⟨hf, hd⟩ := hl.record n hsome
      exact ⟨hnone _ hsome, hnone _ hf, hnone _ hd⟩
    · obtain ⟨rec, hrec, rfl⟩ := (exists_mem_versionHistory ht hh).mpr ⟨hn, hsome⟩
      have hgone : ∀ x : Slot, x = .record rec.no ∨ x = .full rec.no ∨ x = .diff rec.no →
          branchAt (prune id b keep t) id b x = none := by
        intro x hx
        rw [hslot, if_pos ⟨rec, hrec, hlt, hx⟩]
      exact ⟨hgone _ (.inl rfl), hgone _ (.inr (.inl rfl)), hgone _ (.inr (.inr rfl))⟩

theorem branchAt_prune_ne (ht : WellPlaced t) (keep : Nat) (hn : Named id' b') (hne : ¬ (id' = id ∧ b' = b)) :
    branchAt (prune id b keep t) id' b' = branchAt t id' b' :=
  branchAt_elsewhere (fun k hk => (prune_row ht keep k).resolve_right fun h => hk h.1.under) hn hne

theorem versionHistory_eval (id : ProjectId) (b : BranchName) (t : Store) : ∃ hist, (versionHistory id b).eval t = .ok hist :=
  ⟨_, versionHistory_exec⟩

theorem Live.listed (h : Live t) : ∀ id b, Named id b → Listed (branchAt t id b) := by
  induction h with
  | empty =>
    intro id b _
    rw [show branchAt ∅ id b = Branch.empty from funext fun x => Std.ExtTreeMap.getElem?_empty]
    exact listed_empty
  | step cmd now h ih =>
    exact apply_invariant (I := fun _ _ br => Listed br) (fun _ _ => listed_empty) h.placed.1 h.placed.2
      (fun _ hl hm => hm.listed hl) ih now
  | @prune t id₀ b₀ keep h ih =>
    intro id b hn
    have ht := h.placed.1
    by_cases e : id = id₀ ∧ b = b₀
    · obtain ⟨rfl, rfl⟩ := e
      cases hst : stateOf t id b with
      | none =>
        rw [prune_absent ht hn hst]
        exact ih id b hn
      | some st =>
        obtain ⟨hist, hh⟩ := versionHistory_eval id b t
        exact (prune_pruned ht hst (ih id b hn) hh keep).listed (cutOf_le_active ht (ih id b hn) hh keep) (ih id b hn)
    · rw [branchAt_prune_ne ht keep hn e]
      exact ih id b hn

/-! ## Commands without gray releases -/

omit [SerdeJson] in
/-- There is no gray release, and every version with a record has contents. -/
structure Legible (br : Branch) : Prop where
  calm : ∀ st, br.state = some st → st.graySeq = 0
  readable : ∀ n, br (.record n) ≠ none → 0 < n ∧ (br.contents n).isSome

theorem Release.next {old new : SnapshotMap} {st' : BranchState} {gray : Nat → Option Stored} {event : PublishEvent}
    (h : Release t id b br st old cmd new st' gray event) (hc : ¬ isGray cmd) (hg : st.graySeq = 0) :
    st'.activeVersion = st.activeVersion + 1 ∧ st'.graySeq = 0 := by
  have hnext : nextMonotonic st.activeVersion st.graySeq = st.activeVersion + 1 := by
    rw [nextMonotonic, hg, Nat.max_zero]
  cases h with
  | publish | rollback | cascade => exact ⟨rfl, hg⟩
  | grayPromote => exact absurd trivial hc
  | restructure =>
    refine ⟨hnext, ?_⟩
    simp only [hg, Nat.lt_irrefl, if_false, gt_iff_lt]

theorem Move.legible {events : List PublishEvent} {ws : List VersionWrite} (h : Move t id b cmd br events ws br')
    (hc : ¬ isGray cmd) (hl : Listed br) (hr : Legible br) : Legible br' := by
  obtain ⟨hgrows, -⟩ := h.grows
  cases h with
  | create hs h =>
    refine ⟨fun st hst => ?_, hr.readable⟩
    rw [Branch.state_become] at hst
    obtain rfl := Option.some.inj hst
    cases h with
    | bare => rfl
    | copy => rfl
  | @edit st st' gray _ hat hs h =>
    have hgray := hr.calm st hs
    refine ⟨fun st₁ hst => ?_, hr.readable⟩
    rw [Branch.state_become] at hst
    obtain rfl := Option.some.inj hst
    cases h with
    | draft => exact hgray
    | grayPublish | grayAbort => exact absurd trivial hc
  | @release st st' old new gray event record hs ho h =>
    obtain ⟨hnext, hgray⟩ := h.next hc (hr.calm st hs)
    refine ⟨fun st₁ hst => ?_, fun n hn => ?_⟩
    · rw [Branch.state_become] at hst
      rwa [← Option.some.inj hst]
    · by_cases e : n = st'.activeVersion
      · -- the version released is the one past the active one
        have hsnap := Branch.contents_write ho new record
        rw [e, hnext]
        refine ⟨Nat.succ_pos _, Option.isSome_iff_exists.mpr ⟨readBack (st.activeVersion + 1) old new, ?_⟩⟩
        rw [← hsnap]
        rfl
      · have hrow : (br.write st'.activeVersion old new record).become st' gray (.record n) = br (.record n) :=
          Branch.write_of_ne (by simp [e])
        rw [hrow] at hn
        obtain ⟨hpos, hsome⟩ := hr.readable n hn
        have hsnapshot := hgrows.snapshot (hl.le_active hn)
        rw [Branch.snapshot, Branch.snapshot, if_neg (Nat.ne_of_gt hpos), if_neg (Nat.ne_of_gt hpos)] at hsnapshot
        exact ⟨hpos, hsnapshot ▸ hsome⟩

theorem Pruned.legible (h : Pruned cut br br') (hcut : ∀ n, cut ≤ n → cut ≤ DeltaLog.base checkpointInterval n)
    (hr : Legible br) : Legible br' := by
  refine ⟨fun st hst => hr.calm st ?_, fun n hn => ?_⟩
  · rwa [Branch.state, ← h.state]
  · have hle : cut ≤ n := by
      by_contra hlt
      exact hn (h.gone n (Nat.lt_of_not_le hlt)).1
    rw [(h.same n hle).1] at hn
    rw [h.contents (hcut n hle)]
    exact hr.readable n hn

/-! ## Runs of commands and prunings -/

/-- A command, or a pass of pruning over one branch. -/
inductive Job
  | command (cmd : Command) (now : Int)
  | prune (project : ProjectId) (branch : BranchName) (keep : Nat)

def Job.run (t : Store) : Job → Store
  | .command cmd now => (apply cmd now t).store
  | .prune id b keep => Defing.prune id b keep t

def runJobs (jobs : List Job) (t : Store) : Store := jobs.foldl Job.run t

def Job.GrayFree : Job → Prop
  | .command cmd _ => ¬ isGray cmd
  | .prune .. => True

theorem runJobs_append (jobs jobs' : List Job) (t : Store) : runJobs (jobs ++ jobs') t = runJobs jobs' (runJobs jobs t) :=
  List.foldl_append

theorem Live.runJobs (h : Live t) (jobs : List Job) : Live (runJobs jobs t) := by
  induction jobs generalizing t with
  | nil => exact h
  | cons job jobs ih =>
    cases job with
    | command cmd now => exact ih (h.step cmd now)
    | prune id b keep => exact ih (h.prune id b keep)

theorem legible_runJobs {jobs : List Job} (hjobs : ∀ job ∈ jobs, job.GrayFree) :
    ∀ id b, Named id b → Legible (branchAt (runJobs jobs ∅) id b) := by
  have hempty : Legible Branch.empty := ⟨fun _ h => absurd h (by simp [Branch.state, Branch.empty]), fun _ h => absurd rfl h⟩
  induction jobs using List.reverseRecOn with
  | nil =>
    intro id b _
    rw [show branchAt (runJobs [] ∅) id b = Branch.empty from funext fun x => Std.ExtTreeMap.getElem?_empty]
    exact hempty
  | append_singleton jobs job ih =>
    have hr := ih fun job h => hjobs job (List.mem_append_left _ h)
    have hjob := hjobs job (List.mem_append_right _ (List.mem_singleton_self _))
    have hlive := Live.empty.runJobs jobs
    rw [runJobs_append]
    cases job with
    | command cmd now =>
      have h := apply_invariant (I := fun _ _ br => Listed br ∧ Legible br) (fun _ _ => ⟨listed_empty, hempty⟩)
        hlive.placed.1 hlive.placed.2 (fun _ h hm => ⟨hm.listed h.1, hm.legible hjob h.1 h.2⟩)
        (fun id b hn => ⟨hlive.listed id b hn, hr id b hn⟩) now
      exact fun id b hn => (h id b hn).2
    | prune id₀ b₀ keep =>
      intro id b hn
      show Legible (branchAt (prune id₀ b₀ keep (runJobs jobs ∅)) id b)
      by_cases e : id = id₀ ∧ b = b₀
      · obtain ⟨rfl, rfl⟩ := e
        cases hst : stateOf (runJobs jobs ∅) id b with
        | none =>
          rw [prune_absent hlive.placed.1 hn hst]
          exact hr id b hn
        | some st =>
          obtain ⟨hist, hh⟩ := versionHistory_eval id b (runJobs jobs ∅)
          exact (prune_pruned hlive.placed.1 hst (hlive.listed id b hn) hh keep).legible (fun _ => cutOf_le_base) (hr id b hn)
      · rw [branchAt_prune_ne hlive.placed.1 keep hn e]
        exact hr id b hn

/-! ## Histories -/

omit [SerdeJson] in
theorem filter_suffix {α : Type} {R : α → α → Prop} {p : α → Bool} (hp : ∀ a c, R a c → p a → p c) {l : List α}
    (hl : l.Pairwise R) : l.filter p <:+ l := by
  induction hl with
  | nil => exact List.suffix_refl _
  | @cons a l ha _ ih =>
    by_cases h : p a
    · have hall : ∀ c ∈ a :: l, p c := by
        intro c hc
        rcases List.mem_cons.mp hc with rfl | hc
        · exact h
        · exact hp a c (ha c hc) h
      exact (List.filter_eq_self.mpr hall).symm ▸ List.suffix_rfl
    · rw [List.filter_cons_of_neg h]
      exact ih.trans (List.suffix_cons a l)

theorem versionHistory_prune (ht : WellPlaced t) (hst : stateOf t id b = some st) (hl : Listed (branchAt t id b))
    (hh : (versionHistory id b).eval t = .ok hist) (keep : Nat) :
    (versionHistory id b).eval (prune id b keep t) = .ok (hist.filter fun rec => cutOf keep hist ≤ rec.no) := by
  have ht' : WellPlaced (prune id b keep t) := wellPlaced_prune ht keep
  have hpruned := prune_pruned ht hst hl hh keep
  obtain ⟨kept, hkept⟩ := versionHistory_eval id b (prune id b keep t)
  have hstrict := versionHistory_strict ht hh
  have hstrict' := versionHistory_strict ht' hkept
  have hfilter := hstrict.filter fun rec => decide (cutOf keep hist ≤ rec.no)
  have hirrefl : ∀ a c : VersionRecord, a.no < c.no → a ≠ c := fun a c h e => Nat.ne_of_lt h (congrArg _ e)
  have hperm : kept.Perm (hist.filter fun rec => cutOf keep hist ≤ rec.no) := by
    refine (List.perm_ext_iff_of_nodup (hstrict'.imp (hirrefl _ _)) (hfilter.imp (hirrefl _ _))).mpr fun rec => ?_
    rw [List.mem_filter, decide_eq_true_eq, mem_versionHistory ht' hkept, mem_versionHistory ht hh, and_assoc]
    refine and_congr_right fun _ => ?_
    by_cases hle : cutOf keep hist ≤ rec.no
    · have hrow : (prune id b keep t)[versionKey id b rec.no]? = t[versionKey id b rec.no]? := (hpruned.same _ hle).1
      rw [hrow]
      exact (and_iff_left hle).symm
    · have hrow : (prune id b keep t)[versionKey id b rec.no]? = none := (hpruned.gone _ (Nat.lt_of_not_le hle)).1
      rw [hrow]
      exact iff_of_false (fun h => by cases h) fun h => hle h.2
  rw [hkept, List.Perm.eq_of_pairwise (fun a c _ _ h h' => absurd h (Nat.lt_asymm h')) hstrict' hfilter hperm]

omit [SerdeJson] in
theorem drop_suffix_filter (hstrict : hist.Pairwise fun r r' => r.no < r'.no) (keep : Nat) :
    hist.drop (hist.length - keep) <:+ hist.filter fun rec => cutOf keep hist ≤ rec.no := by
  have hnewest : ∀ rec ∈ hist.drop (hist.length - keep), cutOf keep hist ≤ rec.no := by
    intro rec hrec
    by_cases hlt : keep < hist.length
    · obtain ⟨newest, hnewest, hcut⟩ := cutOf_of_lt hlt
      obtain ⟨hbound, hget⟩ := List.getElem?_eq_some_iff.mp hnewest
      have hdrop := (List.drop_eq_getElem_cons hbound) ▸ hstrict.drop (i := hist.length - keep - 1)
      rw [hget, show hist.length - keep - 1 + 1 = hist.length - keep by omega] at hdrop
      have hno := List.rel_of_pairwise_cons hdrop hrec
      rw [hcut]
      rcases Nat.eq_zero_or_pos newest.no with h0 | hpos
      · rw [h0]
        exact Nat.zero_le _
      · exact Nat.le_trans (DeltaLog.base_le hpos) (Nat.le_of_lt hno)
    · rw [cutOf, if_pos (Nat.le_of_not_lt hlt)]
      exact Nat.zero_le _
  have hsplit : hist.filter (fun rec => cutOf keep hist ≤ rec.no) =
      (hist.take (hist.length - keep)).filter (fun rec => cutOf keep hist ≤ rec.no) ++ hist.drop (hist.length - keep) := by
    conv_lhs => rw [← List.take_append_drop (hist.length - keep) hist]
    rw [List.filter_append, List.take_append_drop]
    congr 1
    exact List.filter_eq_self.mpr fun rec hrec => decide_eq_true (hnewest rec hrec)
  rw [hsplit]
  exact List.suffix_append _ _

/-! ## What is kept -/

/-- What a pass of pruning makes of the history `hist` of a branch. -/
structure Retains (t t' : Store) (id : ProjectId) (b : BranchName) (keep : Nat) (hist kept : List VersionRecord) : Prop where
  suffix : kept <:+ hist
  newest : hist.drop (hist.length - keep) <:+ kept
  active : ∀ st, stateOf t id b = some st → st.activeVersion ≠ 0 → ∃ rec ∈ kept, rec.no = st.activeVersion
  same : ∀ rec ∈ kept, ∀ snap, (snapshotOf id b rec.no).eval t' = .ok snap ↔ (snapshotOf id b rec.no).eval t = .ok snap
  gone : ∀ n, (∀ rec ∈ kept, rec.no ≠ n) → ∃ what, (snapshotOf id b n).eval t' = .error (Error.notFound what)
  frame : ∀ k, ¬ startsWith (kProject ++ id ++ kBranch ++ b ++ kVersion) k → t'[k]? = t[k]?

omit [SerdeJson] in
theorem VersionRow.startsWith {k : String} (h : VersionRow id b k) :
    startsWith (kProject ++ id ++ kBranch ++ b ++ kVersion) k := by
  obtain ⟨-, n, rfl | rfl | rfl⟩ := h <;> refine startsWith_iff.mpr ?_ <;>
    simp [versionKey, snapshotKey, diffKey]

theorem prune_retains (h : Live t) (hst : stateOf t id b = some st) (hh : (versionHistory id b).eval t = .ok hist)
    (keep : Nat) : ∃ kept, (versionHistory id b).eval (prune id b keep t) = .ok kept ∧
      Retains t (prune id b keep t) id b keep hist kept := by
  have ht := h.placed.1
  have hn := named_of_stateOf ht hst
  have hl := h.listed id b hn
  have hlive' := h.prune id b keep
  have ht' := hlive'.placed.1
  have hkept := versionHistory_prune ht hst hl hh keep
  have hpruned := prune_pruned ht hst hl hh keep
  refine ⟨_, hkept, ⟨?_, ?_, ?_, ?_, ?_, ?_⟩⟩
  · refine filter_suffix (fun a c hlt hle => ?_) (versionHistory_strict ht hh)
    exact decide_eq_true (Nat.le_trans (of_decide_eq_true hle) (Nat.le_of_lt hlt))
  · exact drop_suffix_filter (versionHistory_strict ht hh) keep
  · intro st₁ hst₁ hne
    obtain rfl := Option.some.inj (hst.symm.trans hst₁)
    have hactive : (branchAt t id b).activeNo = st.activeVersion := Branch.activeNo_of_state hst
    have hrow := hl.active
    have hcut := cutOf_le_active ht hl hh keep
    rw [hactive] at hrow hcut
    obtain ⟨rec, hrec, hno⟩ := (exists_mem_versionHistory ht hh).mpr ⟨hn, hrow hne⟩
    exact ⟨rec, List.mem_filter.mpr ⟨hrec, decide_eq_true (hno ▸ hcut)⟩, hno⟩
  · intro rec hrec snap
    have hle := of_decide_eq_true (List.mem_filter.mp hrec).2
    rw [snapshotOf_eval ht' hn.plain.1 hn.plain.2, snapshotOf_eval ht hn.plain.1 hn.plain.2, ← contents_branchAt,
      ← contents_branchAt, hpruned.contents (cutOf_le_base hle)]
  · intro n hn'
    have hrow : (branchAt (prune id b keep t) id b) (.record n) = none := by
      by_contra hsome
      obtain ⟨rec, hrec, hno⟩ := (exists_mem_versionHistory ht' hkept).mpr ⟨hn, hsome⟩
      exact hn' rec hrec hno
    obtain ⟨hf, hd⟩ := (hlive'.listed id b hn).record n hrow
    exact snapshotOf_missing ht' hn (congrArg (Option.bind · Codec.decode) hf) (congrArg (Option.bind · Codec.decode) hd)
  · intro k hk
    exact (prune_row ht keep k).resolve_right fun h => hk h.1.startsWith

theorem apply_keeps_version (h : Live t) (hn : Named id b) (hstays : (stateOf (apply cmd now t).store id b).isSome)
    {snap : SnapshotMap} (hrow : branchAt t id b (.record n) ≠ none) (hsnap : contents t id b n = some snap) :
    branchAt (apply cmd now t).store id b (.record n) ≠ none ∧ contents (apply cmd now t).store id b n = some snap := by
  by_cases hc : removesBranches cmd
  · rcases apply_removes h.placed.1 hc now hn with ⟨hb, -⟩ | hb
    · rw [← contents_branchAt, hb]
      exact ⟨hrow, hsnap⟩
    · rw [← state_branchAt, hb] at hstays
      cases hstays
  · have hkept := (apply_course h.placed.1 h.placed.2 hc now).invariant
      (I := fun id' b' br => Listed br ∧ (id' = id ∧ b' = b → br (.record n) ≠ none ∧ br.contents n = some snap))
      (fun _ hI hm => ⟨hm.listed hI.1, fun e => ?_⟩)
      (fun id' b' hn' => ⟨h.listed id' b' hn', by rintro ⟨rfl, rfl⟩; exact ⟨hrow, hsnap⟩⟩) id b hn
    · exact hkept.2 ⟨rfl, rfl⟩
    · obtain ⟨hrow, hsnap⟩ := hI.2 e
      have hle := hI.1.le_active hrow
      obtain ⟨hgrows, -⟩ := hm.grows
      refine ⟨(hgrows.rows n hle).1 ▸ hrow, ?_⟩
      have hsnapshot := hgrows.snapshot hle
      rcases Nat.eq_zero_or_pos n with rfl | hpos
      · cases hsnap
      · rw [Branch.snapshot, Branch.snapshot, if_neg (Nat.ne_of_gt hpos), if_neg (Nat.ne_of_gt hpos)] at hsnapshot
        rw [hsnapshot]
        exact hsnap

/-- A later pruning of the branch took the version, which was not among the newest that it had to keep. -/
def TakenLater (t : Store) (id : ProjectId) (b : BranchName) (later : List Job) (n : Nat) : Prop :=
  ∃ earlier keep hist, earlier ++ [.prune id b keep] <+: later ∧
    (versionHistory id b).eval (runJobs earlier t) = .ok hist ∧ ∀ rec ∈ hist.drop (hist.length - keep), rec.no ≠ n

theorem version_stays (h : Live t) (hn : Named id b) {snap : SnapshotMap} (hrow : branchAt t id b (.record n) ≠ none)
    (hsnap : contents t id b n = some snap) (later : List Job)
    (hstays : ∀ earlier, earlier <+: later → (stateOf (runJobs earlier t) id b).isSome) :
    branchAt (runJobs later t) id b (.record n) ≠ none ∧ contents (runJobs later t) id b n = some snap ∨
      TakenLater t id b later n := by
  induction later using List.reverseRecOn with
  | nil => exact .inl ⟨hrow, hsnap⟩
  | append_singleton later job ih =>
    have hlive := h.runJobs later
    rcases ih fun earlier hp => hstays earlier (hp.trans (List.prefix_append _ _)) with ⟨hrow', hsnap'⟩ | htaken
    · rw [runJobs_append]
      cases job with
      | command cmd now =>
        refine .inl (apply_keeps_version hlive hn ?_ hrow' hsnap')
        have := hstays _ (List.prefix_refl _)
        rwa [runJobs_append] at this
      | prune id₀ b₀ keep =>
        by_cases e : id = id₀ ∧ b = b₀
        · obtain ⟨rfl, rfl⟩ := e
          obtain ⟨st, hst⟩ := Option.isSome_iff_exists.mp (hstays later (List.prefix_append _ _))
          obtain ⟨hist, hh⟩ := versionHistory_eval id b (runJobs later t)
          have hpruned := prune_pruned hlive.placed.1 hst (hlive.listed id b hn) hh keep
          by_cases hle : cutOf keep hist ≤ n
          · refine .inl ⟨?_, ?_⟩
            · show branchAt (prune id b keep (runJobs later t)) id b (.record n) ≠ none
              rw [(hpruned.same n hle).1]
              exact hrow'
            · show contents (prune id b keep (runJobs later t)) id b n = some snap
              rw [← contents_branchAt, hpruned.contents (cutOf_le_base hle)]
              exact hsnap'
          · refine .inr ⟨later, keep, hist, List.prefix_refl _, hh, fun rec hrec hno => hle ?_⟩
            have hmem := (drop_suffix_filter (versionHistory_strict hlive.placed.1 hh) keep).subset hrec
            exact hno ▸ of_decide_eq_true (List.mem_filter.mp hmem).2
        · refine .inl ?_
          show branchAt (prune id₀ b₀ keep (runJobs later t)) id b (.record n) ≠ none ∧
            contents (prune id₀ b₀ keep (runJobs later t)) id b n = some snap
          rw [← contents_branchAt, branchAt_prune_ne hlive.placed.1 keep hn e]
          exact ⟨hrow', hsnap'⟩
    · obtain ⟨earlier, keep, hist, hp, hh, hout⟩ := htaken
      exact .inr ⟨earlier, keep, hist, hp.trans (List.prefix_append _ _), hh, hout⟩

/-- Without gray releases the active version can be read. -/
theorem activeContents_runJobs {jobs : List Job} (hjobs : ∀ job ∈ jobs, job.GrayFree)
    (hst : stateOf (runJobs jobs ∅) id b = some st) : ∃ old, activeContents (runJobs jobs ∅) id b st = some old := by
  have hlive := Live.empty.runJobs jobs
  have hn := named_of_stateOf hlive.placed.1 hst
  have hno : (branchAt (runJobs jobs ∅) id b).activeNo = st.activeVersion := by
    rw [Branch.activeNo, state_branchAt, hst]
    rfl
  unfold activeContents
  split
  · exact ⟨∅, rfl⟩
  · rename_i hpos
    have hrow := (hlive.listed id b hn).active (hno ▸ hpos)
    exact Option.isSome_iff_exists.mp ((legible_runJobs hjobs id b hn).readable _ (hno ▸ hrow)).2

theorem applyRollback_goes_through (ht : WellPlaced t) (hst : stateOf t id b = some st) {v : Nat} {r : String}
    (hr : st.lastRequestId ≠ some r) (hv : ¬ (v = 0 ∨ v ≥ st.activeVersion)) {snap old : SnapshotMap}
    (hsnap : contents t id b v = some snap) (hold : activeContents t id b st = some old) (c o : String) (now : Int) :
    ∃ events s, (applyRollback id b v c r now o).exec ⟨t, []⟩ = (.ok events, s) ∧
      stateOf s.kv id b = some (rereadState { st with activeVersion := st.activeVersion + 1, lastRequestId := some r }) := by
  have hn := named_of_stateOf ht hst
  obtain ⟨s₁, hw, -⟩ := writeVersionSnapshot_exec (s := ⟨t, []⟩) hn (st.activeVersion + 1) old snap
    { no := st.activeVersion + 1, structureVersion := st.structureVersion, createdAt := now, operator := operatorId o,
      comment := c, rollbackOf := some v, kind := .full, snapshotRef := none, diffRef := none, eventTy := some .rollback,
      gray := false }
  refine ⟨[⟨id, b, st.activeVersion + 1, .rollback, st.structureVersion, c, r, computeDiff old snap, false⟩],
    s₁.insert (branchStateKey id b)
      (Codec.encode { st with activeVersion := st.activeVersion + 1, lastRequestId := some r }), ?_, by rw [KV.Flat.insert_kv, stateOf_insert]⟩
  refine loadMerged_bind.mpr ⟨some st, entity_eq_some.mp hst, okOr_bind.mpr ⟨st, rfl, ?_⟩⟩
  rw [if_neg hr]
  refine ensure_bind.mpr ⟨hv, ?_⟩
  refine (snapshotOf_readOnly _ _ _).exec_bind_ok.mpr ⟨snap, (snapshotOf_eval ht hn.plain.1 hn.plain.2 _ _).mpr hsnap, ?_⟩
  refine (activeSnapshot_readOnly _ _ _).exec_bind_ok.mpr ⟨old, (activeSnapshot_eval ht hn).mpr hold, ?_⟩
  refine Prog.exec_bind_ok.mpr ⟨(), s₁, hw, ?_⟩
  rw [savePending_bind]
  exact pure_ok.mpr ⟨rfl, rfl⟩

/-- After any commands without gray releases and any prunings, pruning a branch retains the newest versions and the
active one, with the snapshots they had; the others are not found. As long as the branch is there, a version
retained reads the same after whatever comes next, unless a later pruning takes it. -/
theorem pruning_retains {jobs : List Job} (hjobs : ∀ job ∈ jobs, job.GrayFree)
    (hst : stateOf (runJobs jobs ∅) id b = some st) (keep : Nat) :
    ∃ hist kept, (versionHistory id b).eval (runJobs jobs ∅) = .ok hist ∧
      (versionHistory id b).eval (prune id b keep (runJobs jobs ∅)) = .ok kept ∧
      Retains (runJobs jobs ∅) (prune id b keep (runJobs jobs ∅)) id b keep hist kept ∧
      ∀ rec ∈ kept, ∃ snap, (snapshotOf id b rec.no).eval (prune id b keep (runJobs jobs ∅)) = .ok snap ∧
        ∀ later, (∀ earlier, earlier <+: later →
            (stateOf (runJobs earlier (prune id b keep (runJobs jobs ∅))) id b).isSome) →
          (snapshotOf id b rec.no).eval (runJobs later (prune id b keep (runJobs jobs ∅))) = .ok snap ∨
            TakenLater (prune id b keep (runJobs jobs ∅)) id b later rec.no := by
  have hlive := Live.empty.runJobs jobs
  have hlive' := hlive.prune id b keep
  have hn := named_of_stateOf hlive.placed.1 hst
  obtain ⟨hist, hh⟩ := versionHistory_eval id b (runJobs jobs ∅)
  obtain ⟨kept, hkept, hretains⟩ := prune_retains hlive hst hh keep
  refine ⟨hist, kept, hh, hkept, hretains, fun rec hrec => ?_⟩
  have hrow := ((mem_versionHistory hlive.placed.1 hh).mp (hretains.suffix.subset hrec)).2
  have hsome : branchAt (runJobs jobs ∅) id b (.record rec.no) ≠ none := fun h => by cases hrow.symm.trans h
  obtain ⟨snap, hsnap⟩ := Option.isSome_iff_exists.mp ((legible_runJobs hjobs id b hn).readable rec.no hsome).2
  have hread := (hretains.same rec hrec snap).mpr
    ((snapshotOf_eval hlive.placed.1 hn.plain.1 hn.plain.2 _ _).mpr hsnap)
  have hrow' := ((mem_versionHistory hlive'.placed.1 hkept).mp hrec).2
  have hsome' : branchAt (prune id b keep (runJobs jobs ∅)) id b (.record rec.no) ≠ none :=
    fun h => by cases hrow'.symm.trans h
  refine ⟨snap, hread, fun later hstays => ?_⟩
  have hcontents := (snapshotOf_eval hlive'.placed.1 hn.plain.1 hn.plain.2 _ _).mp hread
  refine (version_stays hlive' hn hsome' hcontents later hstays).imp_left fun h => ?_
  exact (snapshotOf_eval (hlive'.runJobs later).placed.1 hn.plain.1 hn.plain.2 _ _).mpr h.2

end

end

section
attribute [local instance] sampleJson

def retentionJobs : List Job := [
  .command (.projectCreate "p" "" 0 none) 1,
  .command (.structureDraftSet "p" 1 oneItem "") 2,
  .command (.publishStructure "p" "" "r0" "" 0 .block) 3,
  .command (.draftUpdate "p" "dev" [⟨"g", "k", .string "v"⟩] [] [] "" 0 none) 4,
  .command (.publish "p" "dev" "" "r1" "" 0 .block) 5]

theorem retentionJobs_grayFree : ∀ job ∈ retentionJobs, job.GrayFree := by
  simp [retentionJobs, Job.GrayFree, isGray]

def rollbackId (n : Nat) : String := if n % 2 = 0 then "r2" else "r3"

def rollbackJobs : Nat → List Job
  | 0 => retentionJobs
  | n + 1 => rollbackJobs n ++ [.command (.rollback "p" "dev" 1 "" (rollbackId n) "" 0) 6]

theorem rollbackJobs_grayFree (n : Nat) : ∀ job ∈ rollbackJobs n, job.GrayFree := by
  induction n with
  | zero => exact retentionJobs_grayFree
  | succ n ih => exact List.forall_mem_append.mpr ⟨ih, by simp [Job.GrayFree, isGray]⟩

theorem rollbackJobs_state (n : Nat) :
    (branchAt (runJobs (rollbackJobs n) ∅) "p" "dev" (.record 1) ≠ none ∧
      (contents (runJobs (rollbackJobs n) ∅) "p" "dev" 1).isSome) ∧
    ∃ st, stateOf (runJobs (rollbackJobs n) ∅) "p" "dev" = some st ∧ st.activeVersion = n + 2 ∧
      st.lastRequestId ≠ some (rollbackId n) := by
  induction n with
  | zero =>
    have hfacts : ((runJobs retentionJobs ∅)[versionKey "p" "dev" 1]?).isSome ∧
        (contents (runJobs retentionJobs ∅) "p" "dev" 1).isSome ∧
        (stateOf (runJobs retentionJobs ∅) "p" "dev").map (fun st => (st.activeVersion, st.lastRequestId)) =
          some (2, some "r1") := by
      decide +kernel
    obtain ⟨hrow, hcontents, hstate⟩ := hfacts
    obtain ⟨st, hst, he⟩ := Option.map_eq_some_iff.mp hstate
    obtain ⟨hactive, hlast⟩ := Prod.mk.inj he
    exact ⟨⟨Option.isSome_iff_ne_none.mp hrow, hcontents⟩, st, hst, hactive, by rw [hlast]; decide⟩
  | succ n ih =>
    obtain ⟨⟨hrow, hcontents⟩, st, hst, hactive, hlast⟩ := ih
    obtain ⟨snap, hsnap⟩ := Option.isSome_iff_exists.mp hcontents
    have hlive := Live.empty.runJobs (rollbackJobs n)
    have hn := named_of_stateOf hlive.placed.1 hst
    obtain ⟨old, hold⟩ := activeContents_runJobs (rollbackJobs_grayFree n) hst
    obtain ⟨events, s, hexec, hst'⟩ := applyRollback_goes_through hlive.placed.1 hst hlast (v := 1) (by omega) hsnap hold "" ""
      (effTs 0 6)
    have hok : (apply (.rollback "p" "dev" 1 "" (rollbackId n) "" 0) 6 (runJobs (rollbackJobs n) ∅)).result = .ok events := by
      rw [apply_result]
      exact congrArg Prod.fst hexec
    obtain ⟨s', hexec', hstore, -⟩ := apply_ok hok
    obtain rfl := (Prod.mk.inj (hexec.symm.trans hexec')).2
    rw [← hstore] at hst'
    have hstays := apply_keeps_version hlive hn (by rw [hst']; rfl) hrow hsnap
    rw [rollbackJobs, runJobs_append]
    refine ⟨⟨hstays.1, Option.isSome_iff_exists.mpr ⟨snap, hstays.2⟩⟩, _, hst', ?_, ?_⟩
    · rw [rereadState_activeVersion, hactive]
    · rw [rereadState_lastRequestId, Ne, Option.some.injEq]
      unfold rollbackId
      split <;> split <;> first | omega | decide

theorem pruning_retains_sample :
    ∃ hist kept, (versionHistory "p" "dev").eval (runJobs (rollbackJobs 105) ∅) = .ok hist ∧
      (versionHistory "p" "dev").eval (prune "p" "dev" 0 (runJobs (rollbackJobs 105) ∅)) = .ok kept ∧
      Retains (runJobs (rollbackJobs 105) ∅) (prune "p" "dev" 0 (runJobs (rollbackJobs 105) ∅)) "p" "dev" 0 hist kept ∧
      (∃ rec ∈ hist, rec.no = 1) ∧ ∀ rec ∈ kept, 100 ≤ rec.no := by
  obtain ⟨⟨hrow, -⟩, st, hst, hactive, -⟩ := rollbackJobs_state 105
  obtain ⟨hist, kept, hh, hkept, hretains, -⟩ := pruning_retains (rollbackJobs_grayFree 105) hst 0
  have hlive := Live.empty.runJobs (rollbackJobs 105)
  have hn := named_of_stateOf hlive.placed.1 hst
  refine ⟨hist, kept, hh, hkept, hretains, (exists_mem_versionHistory hlive.placed.1 hh).mpr ⟨hn, hrow⟩, ?_⟩
  have hcut : 100 ≤ cutOf 0 hist := by
    obtain ⟨rec, hrec, hno⟩ := hretains.active st hst (by omega)
    have hmem := hretains.suffix.subset hrec
    obtain ⟨last, hlast, hbase⟩ := cutOf_of_lt (List.length_pos_of_mem hmem)
    have hle : rec.no ≤ last.no := by
      obtain ⟨i, hi, rfl⟩ := List.mem_iff_getElem.mp hmem
      obtain ⟨hj, rfl⟩ := List.getElem?_eq_some_iff.mp hlast
      rcases Nat.lt_or_ge i (hist.length - 0 - 1) with h | h
      · exact List.pairwise_iff_getElem.mp (versionHistory_sorted hh) _ _ hi hj h
      · obtain rfl : i = hist.length - 0 - 1 := by omega
        exact le_rfl
    rw [hbase]
    exact DeltaLog.le_base (.inr (dvd_refl checkpointInterval)) (show 100 ≤ last.no by omega)
  intro rec hrec
  rw [versionHistory_prune hlive.placed.1 hst (hlive.listed _ _ hn) hh] at hkept
  rw [← Except.ok.inj hkept] at hrec
  exact hcut.trans (of_decide_eq_true (List.mem_filter.mp hrec).2)

/-- The project is deleted after the pruning. -/
theorem retained_until_deleted :
    ¬ ∀ jobs : List Job, (∀ job ∈ jobs, job.GrayFree) → ∀ id b keep hist,
      (versionHistory id b).eval (prune id b keep (runJobs jobs ∅)) = .ok hist → ∀ later : List Job, ∀ rec ∈ hist,
        ∃ snap, (snapshotOf id b rec.no).eval (runJobs later (prune id b keep (runJobs jobs ∅))) = .ok snap := by
  intro h
  have hlive := (Live.empty.runJobs retentionJobs).prune "p" "dev" 0
  obtain ⟨hist, hh⟩ := versionHistory_eval "p" "dev" (prune "p" "dev" 0 (runJobs retentionJobs ∅))
  have hn : Named "p" "dev" := ⟨by decide +kernel, by decide +kernel⟩
  have hrow : (prune "p" "dev" 0 (runJobs retentionJobs ∅))[versionKey "p" "dev" 2]? ≠ none := by decide +kernel
  obtain ⟨rec, hrec, hno⟩ := (exists_mem_versionHistory hlive.placed.1 hh).mpr ⟨hn, hrow⟩
  obtain ⟨snap, hsnap⟩ := h retentionJobs retentionJobs_grayFree "p" "dev" 0 hist hh [.command (.projectDelete "p" "") 6] rec hrec
  have herr : ((snapshotOf "p" "dev" 2).eval
      (runJobs [.command (.projectDelete "p" "") 6] (prune "p" "dev" 0 (runJobs retentionJobs ∅)))).toOption = none := by
    decide +kernel
  rw [hno] at hsnap
  rw [hsnap] at herr
  cases herr

end

end Defing
