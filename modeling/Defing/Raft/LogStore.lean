import Mathlib.Algebra.Order.Ring.Nat
import Mathlib.Data.List.Basic
import Mathlib.Data.Prod.Lex
import Mathlib.Order.Fin.Basic
import Mathlib.Order.MinMax
import Defing.Lib.Result

/-!
# The log store of a node

The table of log entries and the rows beside it that its readers look at. Rows
are JSON texts; an entry stands here for its row, and `rowBytes` for the size
of the text. Indexes are 64-bit: a sum that does not fit panics in a build with
overflow checks and wraps around in one without.
-/

namespace Defing

open Std (ExtTreeMap)

abbrev Index := Fin (2 ^ 64)

instance Index.neZero : NeZero (2 ^ 64) := ⟨by decide⟩

instance : Std.TransOrd Index := inferInstanceAs (Std.TransOrd (Fin _))

/-- The leader an entry comes from; leaders are ordered by term, then by node. -/
structure LeaderId where
  term : Nat
  nodeId : Nat
  deriving DecidableEq, Repr

structure LogId where
  leaderId : LeaderId
  index : Index
  deriving DecidableEq, Repr

def LogId.rank (id : LogId) : ℕ ×ₗ ℕ ×ₗ ℕ := toLex (id.leaderId.term, toLex (id.leaderId.nodeId, id.index.val))

structure LogEntry (P : Type) where
  logId : LogId
  payload : P
  deriving DecidableEq, Repr

/-- The row of the last purge; older stores kept the index only. -/
inductive PurgedRow
  | id (logId : LogId)
  | index (i : Index)
  deriving DecidableEq, Repr

def PurgedRow.toIndex : PurgedRow → Index
  | id logId => logId.index
  | index i => i

structure LogDb (P : Type) where
  log : ExtTreeMap Index (LogEntry P)
  lastPurged : Option PurgedRow
  lastApplied : Option LogId

inductive LogFault
  | overflow
  | hole (expected found : Index)
  deriving DecidableEq, Repr

inductive Build
  | checked | wrapping
  deriving DecidableEq, Repr

def Build.succ : Build → Index → Except LogFault Index
  | checked, i => if i.val + 1 < 2 ^ 64 then .ok (i + 1) else .error .overflow
  | wrapping, i => .ok (i + 1)

def Build.pred : Build → Index → Except LogFault Index
  | checked, i => if 0 < i.val then .ok (i - 1) else .error .overflow
  | wrapping, i => .ok (i - 1)

/-! ## Readers -/

section
variable {P : Type}

def LogDb.rowsFrom (db : LogDb P) (start : Index) : List (Index × LogEntry P) :=
  db.log.toList.filter fun row => start ≤ row.1

def LogDb.firstExpected (build : Build) (db : LogDb P) (start : Index) : Except LogFault Index :=
  match db.lastPurged with
  | none => .ok start
  | some row => do
    let next ← build.succ row.toIndex
    .ok (max next start)

def readRows (build : Build) (stop : Index) : Index → List (Index × LogEntry P) → Except LogFault (List (LogEntry P))
  | _, [] => .ok []
  | expected, (idx, entry) :: rows =>
    if stop < idx then .ok []
    else if idx ≠ expected then .error (.hole expected idx)
    else do
      let next ← build.succ idx
      let entries ← readRows build stop next rows
      .ok (entry :: entries)

def readEntries (build : Build) (db : LogDb P) (start stop : Index) : Except LogFault (List (LogEntry P)) := do
  let first ← db.firstExpected build start
  readRows build stop first (db.rowsFrom start)

/-- The loop of `readEntriesLimited`: `acc` bytes have been taken, `any` says if there are entries so far. The
sum of the sizes fits in 64 bits, as a row is no longer than half of that. -/
def readRowsLimited (build : Build) (rowBytes : LogEntry P → Nat) (stop : Index) (cap : Nat) :
    (acc : Nat) → (any : Bool) → Index → List (Index × LogEntry P) → Except LogFault (List (LogEntry P))
  | _, _, _, [] => .ok []
  | acc, any, expected, (idx, entry) :: rows =>
    if stop < idx then .ok []
    else if idx ≠ expected then .error (.hole expected idx)
    else do
      let next ← build.succ idx
      if any ∧ cap < acc + rowBytes entry then .ok []
      else do
        let entries ← readRowsLimited build rowBytes stop cap (acc + rowBytes entry) true next rows
        .ok (entry :: entries)

def readEntriesLimited (build : Build) (rowBytes : LogEntry P → Nat) (db : LogDb P) (start stop : Index) (cap : Nat) :
    Except LogFault (List (LogEntry P)) := do
  let first ← db.firstExpected build start
  readRowsLimited build rowBytes stop cap 0 false first (db.rowsFrom start)

inductive IndexBound
  | included (i : Index)
  | excluded (i : Index)
  | unbounded
  deriving DecidableEq, Repr

structure IndexRange where
  startBound : IndexBound
  endBound : IndexBound
  deriving DecidableEq, Repr

def tryGetLogEntries (build : Build) (db : LogDb P) (range : IndexRange) : Except LogFault (List (LogEntry P)) := do
  let start ← match range.startBound with
    | .included i => .ok i
    | .excluded i => build.succ i
    | .unbounded => .ok 0
  let stop ← match range.endBound with
    | .included i => .ok i
    | .excluded i => build.pred i
    | .unbounded => .ok (Fin.last _)
  readEntries build db start stop

def maxBatchBytes : Nat := 6 <<< 20

def limitedGetLogEntries (build : Build) (rowBytes : LogEntry P → Nat) (db : LogDb P) (start stop : Index) :
    Except LogFault (List (LogEntry P)) :=
  if stop ≤ start then .ok []
  else do
    let stop ← build.pred stop
    readEntriesLimited build rowBytes db start stop maxBatchBytes

end

/-! ## Writers -/

structure LogState where
  lastPurged : Option LogId
  lastLog : Option LogId
  deriving DecidableEq, Repr

/-- A row that keeps the index only gets the id of the last applied entry, if it is at that index. -/
def PurgedRow.toLogId (lastApplied : Option LogId) : PurgedRow → LogId
  | id logId => logId
  | index i =>
    match lastApplied with
    | some a => if a.index = i then a else ⟨⟨0, 2 ^ 64 - 1⟩, i⟩
    | none => ⟨⟨0, 2 ^ 64 - 1⟩, i⟩

section
variable {P : Type}

def lastLogEntry (db : LogDb P) : Option (LogEntry P) := db.log.toList.getLast?.map (·.2)

def getLogState (db : LogDb P) : LogState :=
  let lastPurged := db.lastPurged.map (·.toLogId db.lastApplied)
  { lastPurged, lastLog := ((lastLogEntry db).map (·.logId)).or lastPurged }

def LogDb.append (db : LogDb P) (entries : List (LogEntry P)) : LogDb P :=
  { db with log := entries.foldl (fun log entry => log.insert entry.logId.index entry) db.log }

def removeLogIndexes (log : ExtTreeMap Index (LogEntry P)) (indexes : List Index) : ExtTreeMap Index (LogEntry P) :=
  indexes.foldl (fun log i => log.erase i) log

def LogDb.truncateAfter (build : Build) (db : LogDb P) (lastLogId : Option LogId) : Except LogFault (LogDb P) := do
  let start ← match lastLogId with
    | none => .ok 0
    | some id => build.succ id.index
  .ok { db with log := removeLogIndexes db.log ((db.rowsFrom start).map (·.1)) }

def LogDb.purge (db : LogDb P) (logId : LogId) : LogDb P :=
  let indexes := (db.log.toList.map (·.1)).filter fun i => i ≤ logId.index
  { db with log := removeLogIndexes db.log indexes, lastPurged := some (.id logId) }

end

/-! ## Ranges -/

section
variable {P : Type} {build : Build} {db : LogDb P} {range : IndexRange} {i n stop expected : Index}
variable {rows : List (Index × LogEntry P)} {entries : List (LogEntry P)}

def IndexRange.Contains (range : IndexRange) (i : Index) : Prop :=
  (match range.startBound with
    | .included a => a ≤ i
    | .excluded a => a < i
    | .unbounded => True) ∧
  match range.endBound with
  | .included b => i ≤ b
  | .excluded b => i < b
  | .unbounded => True

instance (range : IndexRange) (i : Index) : Decidable (range.Contains i) := by
  rcases range with ⟨_ | _ | _, _ | _ | _⟩ <;> exact inferInstanceAs (Decidable (_ ∧ _))

def LogDb.entriesIn (db : LogDb P) (range : IndexRange) : List (LogEntry P) :=
  (db.log.toList.filter fun row => range.Contains row.1).map (·.2)

/-- Indexes that run on from `n`, none of them the last one there is. -/
def RunsFrom : Nat → List Index → Prop
  | _, [] => True
  | n, i :: is => i.val = n ∧ n + 1 < 2 ^ 64 ∧ RunsFrom (n + 1) is

instance decidableRunsFrom : ∀ (n : Nat) (is : List Index), Decidable (RunsFrom n is)
  | _, [] => .isTrue trivial
  | n, _ :: is => haveI := decidableRunsFrom (n + 1) is; inferInstanceAs (Decidable (_ ∧ _ ∧ _))

def IndexRange.start (range : IndexRange) : Nat :=
  match range.startBound with
  | .included i => i.val
  | .excluded i => i.val + 1
  | .unbounded => 0

def LogDb.afterPurge (db : LogDb P) : Nat := (db.lastPurged.map fun row => row.toIndex.val + 1).getD 0

/-- The bounds of the range and the last purge leave room to count, and what is stored in the range has no hole. -/
structure IndexRange.Plain (range : IndexRange) (db : LogDb P) : Prop where
  start : range.startBound ≠ .excluded (Fin.last _)
  stop : range.endBound ≠ .excluded 0
  purged : db.afterPurge < 2 ^ 64
  runs : RunsFrom (max db.afterPurge range.start) ((db.log.toList.map (·.1)).filter range.Contains)

theorem sorted_rows (db : LogDb P) : db.log.toList.Pairwise fun a b => a.1 < b.1 := by
  refine Std.ExtTreeMap.ordered_keys_toList.imp ?_
  intro a b h
  exact compare_lt_iff_lt.mp h

theorem sorted_rowsFrom (db : LogDb P) (i : Index) : (db.rowsFrom i).Pairwise fun a b => a.1 < b.1 :=
  (sorted_rows db).filter _

/-! ## Sums -/

theorem val_succ (h : i.val + 1 < 2 ^ 64) : (i + 1).val = i.val + 1 := by
  rw [Fin.val_add]
  exact Nat.mod_eq_of_lt h

theorem val_pred (h : 0 < i.val) : (i - 1).val = i.val - 1 := by
  have hi := i.isLt
  rw [Fin.sub_val_of_le]
  · rfl
  · show 1 ≤ i.val
    exact h

theorem succ_of_lt (h : i.val + 1 < 2 ^ 64) : build.succ i = .ok (i + 1) := by
  cases build
  · exact if_pos h
  · rfl

theorem pred_of_pos (h : 0 < i.val) : build.pred i = .ok (i - 1) := by
  cases build
  · exact if_pos h
  · rfl

theorem checked_succ : Build.checked.succ i = .ok n ↔ i.val + 1 < 2 ^ 64 ∧ n = i + 1 := by
  unfold Build.succ
  dsimp only
  by_cases h : i.val + 1 < 2 ^ 64
  · rw [if_pos h, Except.ok.injEq, and_iff_right h, eq_comm]
  · rw [if_neg h]
    exact iff_of_false (fun e => by cases e) fun e => h e.1

theorem checked_pred : Build.checked.pred i = .ok n ↔ 0 < i.val ∧ n = i - 1 := by
  unfold Build.pred
  dsimp only
  by_cases h : 0 < i.val
  · rw [if_pos h, Except.ok.injEq, and_iff_right h, eq_comm]
  · rw [if_neg h]
    exact iff_of_false (fun e => by cases e) fun e => h e.1

theorem ne_last_iff : i ≠ Fin.last _ ↔ i.val + 1 < 2 ^ 64 := by
  have hi := i.isLt
  rw [Ne, Fin.ext_iff, Fin.val_last]
  omega

/-! ## The loop -/

def upTo (stop : Index) (rows : List (Index × LogEntry P)) : List (Index × LogEntry P) :=
  rows.filter fun row => row.1 ≤ stop

theorem upTo_cons_of_le {row : Index × LogEntry P} (h : row.1 ≤ stop) : upTo stop (row :: rows) = row :: upTo stop rows :=
  List.filter_cons_of_pos (by simpa using h)

theorem upTo_cons_of_lt {row : Index × LogEntry P} (hs : (row :: rows).Pairwise fun a b => a.1 < b.1)
    (h : stop < row.1) : upTo stop (row :: rows) = [] := by
  refine List.filter_eq_nil_iff.mpr ?_
  intro r hr
  rw [decide_eq_true_eq, not_le]
  rcases List.mem_cons.mp hr with rfl | hr
  · exact h
  · exact h.trans ((List.pairwise_cons.mp hs).1 r hr)

theorem readRows_ok (hs : rows.Pairwise fun a b => a.1 < b.1) (h : RunsFrom expected.val ((upTo stop rows).map (·.1))) :
    readRows build stop expected rows = .ok ((upTo stop rows).map (·.2)) := by
  induction rows generalizing expected with
  | nil => rfl
  | cons row rows ih =>
    obtain ⟨idx, entry⟩ := row
    rw [readRows]
    by_cases hlt : stop < idx
    · rw [if_pos hlt, upTo_cons_of_lt hs hlt]
      rfl
    · rw [upTo_cons_of_le (not_lt.mp hlt)] at h ⊢
      obtain ⟨he, hroom, h⟩ := h
      have hroom' : idx.val + 1 < 2 ^ 64 := he ▸ hroom
      rw [if_neg hlt, if_neg (by simpa using Fin.ext he), succ_of_lt hroom']
      have h' : RunsFrom (idx + 1).val ((upTo stop rows).map (·.1)) := by
        rw [val_succ hroom', he]
        exact h
      show (readRows build stop (idx + 1) rows).bind _ = _
      rw [ih (List.pairwise_cons.mp hs).2 h']
      rfl

theorem runs_of_readRows (hs : rows.Pairwise fun a b => a.1 < b.1)
    (h : readRows .checked stop expected rows = .ok entries) : RunsFrom expected.val ((upTo stop rows).map (·.1)) := by
  induction rows generalizing expected entries with
  | nil => trivial
  | cons row rows ih =>
    obtain ⟨idx, entry⟩ := row
    rw [readRows] at h
    by_cases hlt : stop < idx
    · rw [upTo_cons_of_lt hs hlt]
      trivial
    · rw [upTo_cons_of_le (not_lt.mp hlt)]
      by_cases he : idx = expected
      · rw [if_neg hlt, if_neg (not_not.mpr he)] at h
        obtain ⟨next, hnext, h⟩ := Result.bind_ok.mp h
        obtain ⟨rest, hrest, -⟩ := Result.bind_ok.mp h
        obtain ⟨hroom, rfl⟩ := checked_succ.mp hnext
        have ih := ih (List.pairwise_cons.mp hs).2 hrest
        rw [val_succ hroom] at ih
        subst he
        exact ⟨rfl, hroom, ih⟩
      · rw [if_neg hlt, if_pos he] at h
        cases h

/-! ## Ranges of a log -/

theorem firstExpected_ok (h : db.afterPurge < 2 ^ 64) :
    ∃ first, db.firstExpected build i = .ok first ∧ first.val = max db.afterPurge i.val := by
  unfold LogDb.firstExpected LogDb.afterPurge at *
  cases hp : db.lastPurged with
  | none => exact ⟨i, rfl, by simp⟩
  | some row =>
    rw [hp] at h
    have hroom : row.toIndex.val + 1 < 2 ^ 64 := h
    refine ⟨max (row.toIndex + 1) i, ?_, ?_⟩
    · simp only [succ_of_lt hroom]
      rfl
    · show (max (row.toIndex + 1) i).val = max (row.toIndex.val + 1) i.val
      rw [← val_succ hroom]
      exact Monotone.map_max Fin.val_strictMono.monotone

theorem afterPurge_of_firstExpected (h : db.firstExpected .checked i = .ok n) : db.afterPurge < 2 ^ 64 := by
  unfold LogDb.firstExpected LogDb.afterPurge at *
  cases hp : db.lastPurged with
  | none => simp
  | some row =>
    rw [hp] at h
    obtain ⟨next, hnext, -⟩ := Result.bind_ok.mp h
    exact (checked_succ.mp hnext).1

/-- The rows of a range that starts at `i` and stops at `stop`. -/
theorem upTo_rowsFrom (h : ∀ j, range.Contains j ↔ i ≤ j ∧ j ≤ stop) :
    upTo stop (db.rowsFrom i) = db.log.toList.filter fun row => range.Contains row.1 := by
  rw [upTo, LogDb.rowsFrom, List.filter_filter]
  refine List.filter_congr ?_
  intro row _
  rw [← Bool.decide_and, decide_eq_decide, h]
  exact and_comm

theorem readEntries_ok (h : ∀ j, range.Contains j ↔ i ≤ j ∧ j ≤ stop) (hp : db.afterPurge < 2 ^ 64)
    (hr : RunsFrom (max db.afterPurge i.val) ((db.log.toList.map (·.1)).filter range.Contains)) :
    readEntries build db i stop = .ok (db.entriesIn range) := by
  obtain ⟨first, hfirst, hval⟩ := @firstExpected_ok _ build _ i hp
  have hrows := @upTo_rowsFrom _ db _ _ _ h
  have hruns : RunsFrom first.val ((upTo stop (db.rowsFrom i)).map (·.1)) := by
    rw [hval, hrows]
    rwa [List.filter_map] at hr
  unfold readEntries
  rw [hfirst]
  show readRows build stop first (db.rowsFrom i) = _
  rw [readRows_ok (sorted_rowsFrom db i) hruns, hrows]
  rfl

theorem plain_of_readEntries (h : ∀ j, range.Contains j ↔ i ≤ j ∧ j ≤ stop)
    (hr : readEntries .checked db i stop = .ok entries) : db.afterPurge < 2 ^ 64 ∧
      RunsFrom (max db.afterPurge i.val) ((db.log.toList.map (·.1)).filter range.Contains) := by
  obtain ⟨first, hfirst, hrows⟩ := Result.bind_ok.mp hr
  have hp := afterPurge_of_firstExpected hfirst
  obtain ⟨first', hfirst', hval⟩ := @firstExpected_ok _ .checked _ i hp
  obtain rfl := Except.ok.inj (hfirst.symm.trans hfirst')
  have hruns := runs_of_readRows (sorted_rowsFrom db i) hrows
  rw [hval, upTo_rowsFrom h] at hruns
  refine ⟨hp, ?_⟩
  rwa [List.filter_map]

def IndexRange.first (build : Build) (range : IndexRange) : Except LogFault Index :=
  match range.startBound with
  | .included i => .ok i
  | .excluded i => build.succ i
  | .unbounded => .ok 0

def IndexRange.last (build : Build) (range : IndexRange) : Except LogFault Index :=
  match range.endBound with
  | .included i => .ok i
  | .excluded i => build.pred i
  | .unbounded => .ok (Fin.last _)

theorem tryGetLogEntries_eq : tryGetLogEntries build db range =
    (range.first build >>= fun start => range.last build >>= fun stop => readEntries build db start stop) := by
  obtain ⟨_ | _ | _, _ | _ | _⟩ := range <;> rfl

theorem IndexRange.first_ok (h : range.startBound ≠ .excluded (Fin.last _)) :
    ∃ i, range.first build = .ok i ∧ i.val = range.start := by
  unfold first start
  cases hb : range.startBound with
  | included i => exact ⟨i, rfl, rfl⟩
  | excluded i =>
    have hroom : i.val + 1 < 2 ^ 64 := ne_last_iff.mp fun e => h (e ▸ hb)
    exact ⟨i + 1, succ_of_lt hroom, val_succ hroom⟩
  | unbounded => exact ⟨0, rfl, rfl⟩

theorem IndexRange.last_ok (h : range.endBound ≠ .excluded 0) : ∃ stop, range.last build = .ok stop ∧
    ∀ j : Index, j ≤ stop ↔ (match range.endBound with
      | .included b => j ≤ b
      | .excluded b => j < b
      | .unbounded => True) := by
  unfold last
  cases hb : range.endBound with
  | included i => exact ⟨i, rfl, fun _ => .rfl⟩
  | excluded i =>
    have hpos : 0 < i.val := Nat.pos_of_ne_zero fun e => h (by rw [hb, Fin.ext (a := i) (b := 0) e])
    refine ⟨i - 1, pred_of_pos hpos, ?_⟩
    intro j
    show j.val ≤ (i - 1).val ↔ j.val < i.val
    rw [val_pred hpos]
    omega
  | unbounded => exact ⟨Fin.last _, rfl, fun j => iff_of_true (Fin.le_last j) trivial⟩

theorem IndexRange.contains_iff {start : Index} (hstart : start.val = range.start)
    (hstop : ∀ j : Index, j ≤ stop ↔ (match range.endBound with
      | .included b => j ≤ b
      | .excluded b => j < b
      | .unbounded => True)) (j : Index) : range.Contains j ↔ start ≤ j ∧ j ≤ stop := by
  rw [hstop j]
  refine and_congr ?_ .rfl
  show _ ↔ start.val ≤ j.val
  rw [hstart]
  unfold IndexRange.start
  cases range.startBound with
  | included a => exact .rfl
  | excluded a => exact Nat.lt_iff_add_one_le
  | unbounded => simp

/-- A read gives exactly the stored entries of a range, without a sum that does not fit, if and only if the bounds
and the last purge leave room to count and the range has no hole. -/
theorem log_reads_exact_iff (db : LogDb P) (range : IndexRange) :
    (∀ build, tryGetLogEntries build db range = .ok (db.entriesIn range)) ↔ range.Plain db := by
  constructor
  · intro h
    have hread := h .checked
    rw [tryGetLogEntries_eq] at hread
    obtain ⟨start, hfirst, hread⟩ := Result.bind_ok.mp hread
    obtain ⟨stop, hlast, hread⟩ := Result.bind_ok.mp hread
    have hstart : range.startBound ≠ .excluded (Fin.last _) := by
      intro hb
      rw [IndexRange.first, hb] at hfirst
      exact ne_last_iff.mpr (checked_succ.mp hfirst).1 rfl
    have hstop : range.endBound ≠ .excluded 0 := by
      intro hb
      rw [IndexRange.last, hb] at hlast
      exact Nat.lt_irrefl 0 (checked_pred.mp hlast).1
    obtain ⟨start', hfirst', hval⟩ := @IndexRange.first_ok .checked _ hstart
    obtain ⟨stop', hlast', hle⟩ := @IndexRange.last_ok .checked _ hstop
    obtain rfl := Except.ok.inj (hfirst.symm.trans hfirst')
    obtain rfl := Except.ok.inj (hlast.symm.trans hlast')
    obtain ⟨hpurged, hruns⟩ := plain_of_readEntries (IndexRange.contains_iff hval hle) hread
    exact ⟨hstart, hstop, hpurged, hval ▸ hruns⟩
  · intro h build
    obtain ⟨start, hfirst, hval⟩ := @IndexRange.first_ok build _ h.start
    obtain ⟨stop, hlast, hle⟩ := @IndexRange.last_ok build _ h.stop
    rw [tryGetLogEntries_eq, hfirst, hlast]
    exact readEntries_ok (IndexRange.contains_iff hval hle) h.purged (hval ▸ h.runs)

end

def shortLog : LogDb Unit where
  log := (∅ : ExtTreeMap Index (LogEntry Unit)) |>.insert 0 ⟨⟨⟨1, 1⟩, 0⟩, ()⟩ |>.insert 1 ⟨⟨⟨1, 1⟩, 1⟩, ()⟩
  lastPurged := none
  lastApplied := none

/-- A range that stops before the first index: the end is counted down from zero. -/
theorem empty_range_misread : ¬ ∀ (db : LogDb Unit) (range : IndexRange) (build : Build),
    tryGetLogEntries build db range = .ok (db.entriesIn range) := by
  intro h
  have hchecked := h shortLog ⟨.included 0, .excluded 0⟩ .checked
  have hwrong : tryGetLogEntries .checked shortLog ⟨.included 0, .excluded 0⟩ = .error .overflow := by decide +kernel
  rw [hwrong] at hchecked
  cases hchecked

example : tryGetLogEntries .wrapping shortLog ⟨.included 0, .excluded 0⟩ =
    .ok [⟨⟨⟨1, 1⟩, 0⟩, ()⟩, ⟨⟨⟨1, 1⟩, 1⟩, ()⟩] := by decide +kernel

end Defing
