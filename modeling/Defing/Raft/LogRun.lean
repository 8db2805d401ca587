import Mathlib.Data.List.Pairwise
import Defing.Raft.LogStore

/-!
# Runs of the log store

What is stored after any run of appends, truncations and purges runs on from
the last purge, and so do the reads of it.
-/

namespace Defing

open Std (ExtTreeMap)

variable {P : Type} {build : Build} {db db' : LogDb P} {i n start stop : Index} {is js : List Index}
variable {entry : LogEntry P} {entries : List (LogEntry P)}

/-! ## Rows of changed tables -/

theorem rows_ext {l l' : List (Index × LogEntry P)} (hl : l.Pairwise fun a b => a.1 < b.1)
    (hl' : l'.Pairwise fun a b => a.1 < b.1) (h : ∀ row, row ∈ l ↔ row ∈ l') : l = l' := by
  have nodup : ∀ {l : List (Index × LogEntry P)}, (l.Pairwise fun a b => a.1 < b.1) → l.Nodup := by
    intro l hl
    refine hl.imp ?_
    intro a b hab e
    rw [e] at hab
    exact lt_irrefl _ hab
  refine List.Perm.eq_of_pairwise ?_ hl hl' ((List.perm_ext_iff_of_nodup (nodup hl) (nodup hl')).mpr h)
  intro a b _ _ hab hba
  exact absurd (hab.trans hba) (lt_irrefl _)

theorem mem_rows {log : ExtTreeMap Index (LogEntry P)} : (i, entry) ∈ log.toList ↔ log[i]? = some entry :=
  Std.ExtTreeMap.mem_toList_iff_getElem?_eq_some

theorem sorted_log (log : ExtTreeMap Index (LogEntry P)) : log.toList.Pairwise fun a b => a.1 < b.1 :=
  sorted_rows ⟨log, none, none⟩

theorem toList_insert {log : ExtTreeMap Index (LogEntry P)} (h : ∀ row ∈ log.toList, row.1 < i) :
    (log.insert i entry).toList = log.toList ++ [(i, entry)] := by
  refine rows_ext (sorted_log _) ?_ ?_
  · refine List.pairwise_append.mpr ⟨sorted_log _, List.pairwise_singleton .., ?_⟩
    intro row hrow row' hrow'
    rw [List.mem_singleton.mp hrow']
    exact h row hrow
  · intro ⟨j, e⟩
    rw [mem_rows, ExtTreeMap.getElem?_insert, List.mem_append, List.mem_singleton, mem_rows]
    by_cases hj : i = j
    · subst hj
      have hnone : log[i]? ≠ some e := fun he => lt_irrefl _ (h _ (mem_rows.mpr he))
      simp [hnone, eq_comm]
    · have hcmp : compare i j ≠ .eq := fun e => hj (Std.LawfulEqCmp.eq_of_compare e)
      simp [hcmp, Ne.symm hj]

theorem getElem?_removeLogIndexes (log : ExtTreeMap Index (LogEntry P)) (is : List Index) (j : Index) :
    (removeLogIndexes log is)[j]? = if j ∈ is then none else log[j]? := by
  induction is generalizing log with
  | nil => simp [removeLogIndexes]
  | cons i is ih =>
    show (removeLogIndexes (log.erase i) is)[j]? = _
    rw [ih, ExtTreeMap.getElem?_erase]
    by_cases hj : i = j
    · simp [hj]
    · have hcmp : compare i j ≠ .eq := fun e => hj (Std.LawfulEqCmp.eq_of_compare e)
      simp [hcmp, Ne.symm hj]

theorem toList_removeLogIndexes {log : ExtTreeMap Index (LogEntry P)} {f : Index → Bool}
    (h : ∀ row ∈ log.toList, row.1 ∈ is ↔ f row.1 = false) :
    (removeLogIndexes log is).toList = log.toList.filter fun row => f row.1 := by
  refine rows_ext (sorted_log _) ((sorted_log _).filter _) ?_
  intro ⟨j, e⟩
  rw [mem_rows, getElem?_removeLogIndexes, List.mem_filter, mem_rows]
  by_cases he : log[j]? = some e
  · have hj := h (j, e) (mem_rows.mpr he)
    by_cases hf : f j
    · have hnot : j ∉ is := fun hm => by simp [hj.mp hm] at hf
      simp [hf, he, hnot]
    · have hin : j ∈ is := hj.mpr (by simpa using hf)
      simp [hin, hf]
  · simp only [he, false_and, iff_false]
    split
    · simp
    · exact he

/-! ## Runs of indexes -/

theorem runsFrom_append {n : Nat} : RunsFrom n (is ++ js) ↔ RunsFrom n is ∧ RunsFrom (n + is.length) js := by
  induction is generalizing n with
  | nil => simp [RunsFrom]
  | cons i is ih =>
    simp only [List.cons_append, RunsFrom, ih, List.length_cons, and_assoc]
    rw [show n + 1 + is.length = n + (is.length + 1) by omega]

theorem RunsFrom.le {n : Nat} (h : RunsFrom n is) {i : Index} (hi : i ∈ is) : n ≤ i.val := by
  induction is generalizing n with
  | nil => cases hi
  | cons j is ih =>
    obtain ⟨hj, -, h⟩ := h
    rcases List.mem_cons.mp hi with rfl | hi
    · exact hj.ge
    · have := ih h hi
      omega

theorem RunsFrom.lt {n : Nat} (h : RunsFrom n is) {i : Index} (hi : i ∈ is) : i.val < n + is.length := by
  induction is generalizing n with
  | nil => cases hi
  | cons j is ih =>
    obtain ⟨hj, -, h⟩ := h
    rw [List.length_cons]
    rcases List.mem_cons.mp hi with rfl | hi
    · omega
    · have := ih h hi
      omega

theorem RunsFrom.before {n : Nat} (h : RunsFrom n is) (stop : Nat) : RunsFrom n (is.filter fun i => i.val < stop) := by
  induction is generalizing n with
  | nil => trivial
  | cons i is ih =>
    obtain ⟨hi, hroom, h⟩ := h
    by_cases hlt : i.val < stop
    · rw [List.filter_cons_of_pos (by simpa using hlt)]
      exact ⟨hi, hroom, ih h⟩
    · rw [List.filter_cons_of_neg (by simpa using hlt), List.filter_eq_nil_iff.mpr]
      · trivial
      · intro j hj
        have := h.le hj
        rw [decide_eq_true_eq]
        omega

theorem RunsFrom.from {n : Nat} (h : RunsFrom n is) (start : Nat) :
    RunsFrom (max n start) (is.filter fun i => start ≤ i.val) := by
  induction is generalizing n with
  | nil => trivial
  | cons i is ih =>
    have hall := h
    obtain ⟨hi, hroom, h⟩ := h
    by_cases hle : start ≤ i.val
    · have hn : start ≤ n := hi ▸ hle
      rw [List.filter_eq_self.mpr, max_eq_left hn]
      · exact hall
      · intro j hj
        simpa using hn.trans (hall.le hj)
    · have hn : n < start := hi ▸ not_le.mp hle
      have ih := ih h
      rw [max_eq_right (by omega)] at ih
      rw [List.filter_cons_of_neg (by simpa using hle), max_eq_right hn.le]
      exact ih

/-! ## Operations -/

def LogId.Before (a b : LogId) : Prop := a.rank < b.rank

instance (a b : LogId) : Decidable (a.Before b) := inferInstanceAs (Decidable (_ < _))

def LogDb.nextIndex (db : LogDb P) : Nat := ((getLogState db).lastLog.map fun id => id.index.val + 1).getD 0

inductive LogOp (P : Type)
  | append (entries : List (LogEntry P))
  | truncateAfter (lastLogId : Option LogId)
  | purge (logId : LogId)

def LogOp.run (build : Build) (op : LogOp P) (db : LogDb P) : Except LogFault (LogDb P) :=
  match op with
  | append entries => .ok (db.append entries)
  | truncateAfter lastLogId => db.truncateAfter build lastLogId
  | purge logId => .ok (db.purge logId)

def LogDb.new : LogDb P where
  log := ∅
  lastPurged := none
  lastApplied := none

/-- The logs that allowed operations reach. -/
inductive Logged (build : Build) (allowed : LogDb P → LogOp P → Prop) : LogDb P → Prop
  | new : Logged build allowed LogDb.new
  | step {db db' : LogDb P} {op : LogOp P} (hrun : Logged build allowed db) (ha : allowed db op)
      (h : op.run build db = .ok db') : Logged build allowed db'

def LogDb.Contiguous (db : LogDb P) (entries : List (LogEntry P)) : Prop :=
  entries.map (fun e => e.logId.index.val) = List.range' db.nextIndex entries.length

instance (db : LogDb P) (entries : List (LogEntry P)) : Decidable (db.Contiguous entries) :=
  inferInstanceAs (Decidable (_ = _))

def LogOp.Contiguous (db : LogDb P) : LogOp P → Prop
  | append entries => db.Contiguous entries
  | _ => True

/-- Operations as Raft gives them: appends run on from the last index under growing log ids, a purge goes up to an
entry of the log or to its end or beyond, and the last index there is is never used. -/
def LogOp.Regular (db : LogDb P) : LogOp P → Prop
  | append entries => db.Contiguous entries ∧ (∀ e ∈ entries, e.logId.index.val + 1 < 2 ^ 64) ∧
      (entries.map (·.logId)).Pairwise LogId.Before ∧
      ∀ last, (getLogState db).lastLog = some last → ∀ e ∈ entries, last.Before e.logId
  | truncateAfter _ => True
  | purge logId => logId.index.val + 1 < 2 ^ 64 ∧
      ((∃ e, db.log[logId.index]? = some e ∧ e.logId = logId) ∨ db.lastPurged = some (.id logId) ∨
        ∀ last, (getLogState db).lastLog = some last → last.index ≤ logId.index)

structure LogDb.Kept (db : LogDb P) : Prop where
  marker : ∀ row, db.lastPurged = some row → ∃ id, row = .id id ∧ id.index.val + 1 < 2 ^ 64
  runs : RunsFrom db.afterPurge (db.log.toList.map (·.1))
  own : ∀ row ∈ db.log.toList, row.2.logId.index = row.1
  ids : (db.log.toList.map (·.2.logId)).Pairwise LogId.Before
  above : ∀ id, db.lastPurged = some (.id id) → ∀ row ∈ db.log.toList, id.Before row.2.logId

theorem LogId.Before.trans {a b c : LogId} (h : a.Before b) (h' : b.Before c) : a.Before c := lt_trans h h'

theorem kept_new : (LogDb.new : LogDb P).Kept where
  marker _ h := by cases h
  runs := trivial
  own _ h := by cases h
  ids := List.Pairwise.nil
  above _ h := by cases h

section
variable (hk : db.Kept)
include hk

theorem LogDb.Kept.afterPurge_lt : db.afterPurge < 2 ^ 64 := by
  unfold LogDb.afterPurge
  cases hp : db.lastPurged with
  | none => simp
  | some row =>
    obtain ⟨id, rfl, hroom⟩ := hk.marker row hp
    exact hroom

theorem LogDb.Kept.lastPurged_eq (logId : LogId) :
    (getLogState db).lastPurged = some logId ↔ db.lastPurged = some (.id logId) := by
  show db.lastPurged.map _ = some logId ↔ _
  cases hp : db.lastPurged with
  | none => simp
  | some row =>
    obtain ⟨id, rfl, -⟩ := hk.marker row hp
    simp [PurgedRow.toLogId]

omit hk in
/-- The last row, where there is one, is the last log id; else it is the last purge. -/
theorem LogDb.lastLog_cases (db : LogDb P) :
    (db.log.toList = [] ∧ (getLogState db).lastLog = (getLogState db).lastPurged) ∨
    ∃ rows row, db.log.toList = rows ++ [row] ∧ (getLogState db).lastLog = some row.2.logId := by
  rcases List.eq_nil_or_concat' db.log.toList with h | ⟨rows, row, h⟩
  · refine .inl ⟨h, ?_⟩
    simp [getLogState, lastLogEntry, h]
  · refine .inr ⟨rows, row, h, ?_⟩
    simp [getLogState, lastLogEntry, h]

theorem LogDb.Kept.nextIndex_eq : db.nextIndex = db.afterPurge + db.log.toList.length := by
  unfold LogDb.nextIndex
  rcases db.lastLog_cases with ⟨hnil, hlast⟩ | ⟨rows, row, hrows, hlast⟩
  · rw [hlast, hnil]
    unfold LogDb.afterPurge
    cases hp : db.lastPurged with
    | none => simp [getLogState, hp]
    | some r =>
      obtain ⟨id, rfl, -⟩ := hk.marker r hp
      rw [(hk.lastPurged_eq id).mpr hp]
      rfl
  · have hr := hk.runs
    rw [hrows, List.map_append, runsFrom_append] at hr
    have hrow : row.1.val = db.afterPurge + rows.length := by simpa [RunsFrom] using hr.2.1
    rw [hlast, hrows]
    show row.2.logId.index.val + 1 = _
    rw [hk.own row (by simp [hrows]), hrow, List.length_append]
    rfl

/-- The last log id comes after every stored one that is not itself. -/
theorem LogDb.Kept.before_last {last : LogId} (h : (getLogState db).lastLog = some last) {row : Index × LogEntry P}
    (hrow : row ∈ db.log.toList) : row.2.logId = last ∨ row.2.logId.Before last := by
  rcases db.lastLog_cases with ⟨hnil, -⟩ | ⟨rows, r, hrows, hlast⟩
  · rw [hnil] at hrow
    cases hrow
  · obtain rfl := Option.some.inj (hlast.symm.trans h)
    have hids := hk.ids
    rw [hrows] at hrow hids
    rcases List.mem_append.mp hrow with hin | hin
    · rw [List.map_append] at hids
      exact .inr ((List.pairwise_append.mp hids).2.2 _ (List.mem_map_of_mem hin) _ (by simp))
    · exact .inl (by rw [List.mem_singleton.mp hin])

end

/-! ## Steps -/

theorem toList_foldl_insert {log : ExtTreeMap Index (LogEntry P)} {n : Nat} (hlast : ∀ row ∈ log.toList, row.1.val < n)
    (h : entries.map (fun e => e.logId.index.val) = List.range' n entries.length) :
    (entries.foldl (fun log entry => log.insert entry.logId.index entry) log).toList =
      log.toList ++ entries.map fun e => (e.logId.index, e) := by
  induction entries generalizing log n with
  | nil => simp
  | cons e entries ih =>
    rw [List.map_cons, List.length_cons, List.range'_succ, List.cons.injEq] at h
    obtain ⟨he, h⟩ := h
    have hins : (log.insert e.logId.index e).toList = log.toList ++ [(e.logId.index, e)] := toList_insert fun row hrow => by
      show row.1.val < e.logId.index.val
      rw [he]
      exact hlast row hrow
    rw [List.foldl_cons, ih (n := n + 1) ?_ h, hins, List.append_assoc]
    · rfl
    · intro row hrow
      rw [hins] at hrow
      rcases List.mem_append.mp hrow with hrow | hrow
      · exact Nat.lt_succ_of_lt (hlast row hrow)
      · rw [List.mem_singleton.mp hrow]
        show e.logId.index.val < n + 1
        omega

theorem runsFrom_range' {n : Nat} (h : is.map (·.val) = List.range' n is.length) (hroom : ∀ i ∈ is, i.val + 1 < 2 ^ 64) :
    RunsFrom n is := by
  induction is generalizing n with
  | nil => trivial
  | cons i is ih =>
    rw [List.map_cons, List.length_cons, List.range'_succ, List.cons.injEq] at h
    have hi := hroom i (List.mem_cons_self ..)
    exact ⟨h.1, h.1 ▸ hi, ih h.2 fun j hj => hroom j (List.mem_cons_of_mem _ hj)⟩

section
variable (hk : db.Kept)
include hk

theorem LogDb.Kept.append (hcont : db.Contiguous entries) (hroom : ∀ e ∈ entries, e.logId.index.val + 1 < 2 ^ 64)
    (hids : (entries.map (·.logId)).Pairwise LogId.Before)
    (hlast : ∀ last, (getLogState db).lastLog = some last → ∀ e ∈ entries, last.Before e.logId) :
    (db.append entries).Kept := by
  have hnext := hk.nextIndex_eq
  have hrows : (db.append entries).log.toList = db.log.toList ++ entries.map fun e => (e.logId.index, e) := by
    refine toList_foldl_insert (n := db.nextIndex) ?_ hcont
    intro row hrow
    have := hk.runs.lt (List.mem_map_of_mem (f := fun r : Index × LogEntry P => r.1) hrow)
    rwa [List.length_map, ← hnext] at this
  refine ⟨hk.marker, ?_, ?_, ?_, ?_⟩
  · show RunsFrom db.afterPurge _
    rw [hrows, List.map_append, runsFrom_append, List.length_map, ← hnext, List.map_map]
    refine ⟨hk.runs, runsFrom_range' ?_ ?_⟩
    · rw [List.map_map, List.length_map]
      exact hcont
    · intro i hi
      obtain ⟨e, he, rfl⟩ := List.mem_map.mp hi
      exact hroom e he
  · intro row hrow
    rw [hrows] at hrow
    rcases List.mem_append.mp hrow with hrow | hrow
    · exact hk.own row hrow
    · obtain ⟨e, -, rfl⟩ := List.mem_map.mp hrow
      rfl
  · rw [hrows, List.map_append, List.map_map, List.pairwise_append]
    refine ⟨hk.ids, hids, ?_⟩
    intro a ha b hb
    obtain ⟨row, hrow, rfl⟩ := List.mem_map.mp ha
    obtain ⟨e, he, rfl⟩ := List.mem_map.mp hb
    rcases db.lastLog_cases with ⟨hnil, -⟩ | ⟨_, r, -, hl⟩
    · rw [hnil] at hrow
      cases hrow
    · rcases hk.before_last hl hrow with e' | hb
      · exact e' ▸ hlast _ hl e he
      · exact hb.trans (hlast _ hl e he)
  · intro id hid row hrow
    rw [hrows] at hrow
    rcases List.mem_append.mp hrow with hrow | hrow
    · exact hk.above id hid row hrow
    · obtain ⟨e, he, rfl⟩ := List.mem_map.mp hrow
      rcases db.lastLog_cases with ⟨-, hl⟩ | ⟨rows, r, hr, hl⟩
      · rw [(hk.lastPurged_eq id).mpr hid] at hl
        exact hlast _ hl e he
      · exact (hk.above id hid r (by simp [hr])).trans (hlast _ hl e he)

theorem LogDb.Kept.truncate {last : Nat} (hlog : db'.log.toList = db.log.toList.filter fun row => row.1.val < last)
    (hpurged : db'.lastPurged = db.lastPurged) : db'.Kept := by
  have hsub : db'.log.toList.Sublist db.log.toList := hlog ▸ List.filter_sublist
  have hp : db'.afterPurge = db.afterPurge := by rw [LogDb.afterPurge, hpurged, LogDb.afterPurge]
  have hruns := hk.runs.before last
  rw [List.filter_map] at hruns
  refine ⟨hpurged ▸ hk.marker, ?_, fun row hrow => hk.own row (hsub.subset hrow), hk.ids.sublist (hsub.map _),
    fun id hid row hrow => hk.above id (hpurged ▸ hid) row (hsub.subset hrow)⟩
  rw [hp, hlog]
  exact hruns

omit hk in
theorem truncateAfter_ok {lastLogId : Option LogId} (h : db.truncateAfter build lastLogId = .ok db') :
    ∃ start : Index, db' = { db with log := removeLogIndexes db.log ((db.rowsFrom start).map (·.1)) } := by
  cases lastLogId with
  | none =>
    cases h
    exact ⟨0, rfl⟩
  | some id =>
    obtain ⟨start, -, h⟩ := Result.bind_ok.mp h
    cases h
    exact ⟨start, rfl⟩

theorem LogDb.Kept.truncateAfter {lastLogId : Option LogId} (h : db.truncateAfter build lastLogId = .ok db') :
    db'.Kept := by
  obtain ⟨start, rfl⟩ := truncateAfter_ok h
  refine @LogDb.Kept.truncate _ _ _ hk start.val ?_ rfl
  refine toList_removeLogIndexes (f := fun i => decide (i.val < start.val)) ?_
  intro row hrow
  rw [decide_eq_false_iff_not, not_lt]
  constructor
  · intro hmem
    obtain ⟨row', hrow', e⟩ := List.mem_map.mp hmem
    exact e ▸ of_decide_eq_true (List.mem_filter.mp hrow').2
  · intro hle
    exact List.mem_map_of_mem (List.mem_filter.mpr ⟨hrow, decide_eq_true hle⟩)

theorem LogDb.Kept.before_of_lt {row row' : Index × LogEntry P} (hrow : row ∈ db.log.toList)
    (hrow' : row' ∈ db.log.toList) (hlt : row.1 < row'.1) : row.2.logId.Before row'.2.logId := by
  have hids := List.pairwise_map.mp hk.ids
  have hboth : db.log.toList.Pairwise fun a b =>
      (a.1 < b.1 → a.2.logId.Before b.2.logId) ∧ (b.1 < a.1 → b.2.logId.Before a.2.logId) := by
    refine (hids.and (sorted_rows db)).imp ?_
    intro a b ⟨hab, hlt⟩
    exact ⟨fun _ => hab, fun h => absurd h (lt_asymm hlt)⟩
  have hsymm : Std.Symm fun a b : Index × LogEntry P =>
      (a.1 < b.1 → a.2.logId.Before b.2.logId) ∧ (b.1 < a.1 → b.2.logId.Before a.2.logId) := ⟨fun _ _ h => h.symm⟩
  have hne : row ≠ row' := fun e => lt_irrefl _ (e ▸ hlt)
  exact (hboth.forall hrow hrow' hne).1 hlt

theorem LogDb.Kept.le_last {last : LogId} (hlast : (getLogState db).lastLog = some last) {row : Index × LogEntry P}
    (hrow : row ∈ db.log.toList) : row.1 ≤ last.index := by
  rcases db.lastLog_cases with ⟨hnil, -⟩ | ⟨rows, r, hrows, hl⟩
  · rw [hnil] at hrow
    cases hrow
  · obtain rfl := Option.some.inj (hl.symm.trans hlast)
    have hr : r ∈ db.log.toList := by simp [hrows]
    rw [hk.own r hr]
    have hsorted := sorted_rows db
    rw [hrows] at hsorted hrow
    rcases List.mem_append.mp hrow with hin | hin
    · exact ((List.pairwise_append.mp hsorted).2.2 row hin r (by simp)).le
    · rw [List.mem_singleton.mp hin]

theorem LogDb.Kept.purge {logId : LogId} (hroom : logId.index.val + 1 < 2 ^ 64)
    (h : (∃ e, db.log[logId.index]? = some e ∧ e.logId = logId) ∨ db.lastPurged = some (.id logId) ∨
      ∀ last, (getLogState db).lastLog = some last → last.index ≤ logId.index) : (db.purge logId).Kept := by
  have hlog : (db.purge logId).log.toList = db.log.toList.filter fun row => decide (logId.index < row.1) := by
    refine toList_removeLogIndexes (f := fun i => decide (logId.index < i)) ?_
    intro row hrow
    simp only [List.mem_filter, decide_eq_true_eq, decide_eq_false_iff_not, not_lt, and_iff_right_iff_imp]
    exact fun _ => List.mem_map_of_mem hrow
  have hmem : ∀ row ∈ (db.purge logId).log.toList, row ∈ db.log.toList ∧ logId.index < row.1 := by
    intro row hrow
    rw [hlog, List.mem_filter, decide_eq_true_eq] at hrow
    exact hrow
  have hsub : (db.purge logId).log.toList.Sublist db.log.toList := hlog ▸ List.filter_sublist
  have hruns := hk.runs.from (logId.index.val + 1)
  rw [List.filter_map] at hruns
  refine ⟨?_, ?_, fun row hrow => hk.own row (hmem row hrow).1, hk.ids.sublist (hsub.map _), ?_⟩
  · rintro _ ⟨⟩
    exact ⟨logId, rfl, hroom⟩
  · show RunsFrom (logId.index.val + 1) _
    rcases h with ⟨e, he, -⟩ | hp | hend
    · have hle := hk.runs.le (List.mem_map_of_mem (f := fun r : Index × LogEntry P => r.1) (mem_rows.mpr he))
      rw [max_eq_right (Nat.le_succ_of_le hle)] at hruns
      rw [hlog]
      exact hruns
    · have hafter : db.afterPurge = logId.index.val + 1 := by rw [LogDb.afterPurge, hp]; rfl
      rw [hafter, max_self] at hruns
      rw [hlog]
      exact hruns
    · have hnil : (db.purge logId).log.toList = [] := by
        refine List.eq_nil_iff_forall_not_mem.mpr ?_
        intro row hrow
        obtain ⟨hin, hlt⟩ := hmem row hrow
        rcases db.lastLog_cases with ⟨hnil, -⟩ | ⟨_, r, -, hl⟩
        · rw [hnil] at hin
          cases hin
        · exact absurd (hlt.trans_le (hk.le_last hl hin)) (hend _ hl).not_gt
      rw [hnil]
      trivial
  · rintro _ ⟨⟩ row hrow
    obtain ⟨hin, hlt⟩ := hmem row hrow
    rcases h with ⟨e, he, rfl⟩ | hp | hend
    · exact hk.before_of_lt (mem_rows.mpr he) hin hlt
    · exact hk.above _ hp row hin
    · rcases db.lastLog_cases with ⟨hnil, -⟩ | ⟨_, r, -, hl⟩
      · rw [hnil] at hin
        cases hin
      · exact absurd (hlt.trans_le (hk.le_last hl hin)) (hend _ hl).not_gt

end

theorem LogDb.kept_of_logged (h : Logged build LogOp.Regular db) : db.Kept := by
  induction h with
  | new => exact kept_new
  | @step _ _ op _ ha h ih =>
    cases op with
    | append entries =>
      cases h
      exact ih.append ha.1 ha.2.1 ha.2.2.1 ha.2.2.2
    | truncateAfter lastLogId => exact ih.truncateAfter h
    | purge logId =>
      cases h
      exact ih.purge ha.1 ha.2

/-! ## Reads -/

section
variable {rowBytes : LogEntry P → Nat} {cap acc : Nat} {any : Bool}

/-- Entries until their sizes pass the cap; the first one is taken whatever its size. -/
def takeWithin (rowBytes : LogEntry P → Nat) (cap : Nat) : (acc : Nat) → (any : Bool) → List (LogEntry P) → List (LogEntry P)
  | _, _, [] => []
  | acc, any, entry :: entries =>
    if any ∧ cap < acc + rowBytes entry then []
    else entry :: takeWithin rowBytes cap (acc + rowBytes entry) true entries

theorem takeWithin_prefix : takeWithin rowBytes cap acc any entries <+: entries := by
  induction entries generalizing acc any with
  | nil => exact List.prefix_rfl
  | cons entry entries ih =>
    rw [takeWithin]
    split
    · exact List.nil_prefix
    · exact List.cons_prefix_cons.mpr ⟨rfl, ih⟩

theorem takeWithin_ne_nil (h : entries ≠ []) : takeWithin rowBytes cap 0 false entries ≠ [] := by
  cases entries with
  | nil => exact absurd rfl h
  | cons entry entries => simp [takeWithin]

theorem takeWithin_le (h : acc ≤ cap) :
    acc + ((takeWithin rowBytes cap acc true entries).map rowBytes).sum ≤ cap := by
  induction entries generalizing acc with
  | nil => simpa [takeWithin] using h
  | cons entry entries ih =>
    rw [takeWithin]
    by_cases hlt : cap < acc + rowBytes entry
    · rw [if_pos ⟨rfl, hlt⟩]
      simpa using h
    · rw [if_neg (by simp [hlt]), List.map_cons, List.sum_cons, ← Nat.add_assoc]
      exact ih (not_lt.mp hlt)

theorem takeWithin_cap : ((takeWithin rowBytes cap 0 false entries).map rowBytes).sum ≤ cap ∨
    (takeWithin rowBytes cap 0 false entries).length = 1 := by
  cases entries with
  | nil => exact .inl (Nat.zero_le _)
  | cons entry entries =>
    rw [takeWithin, if_neg (by simp), Nat.zero_add, List.map_cons, List.sum_cons, List.length_cons]
    by_cases hle : rowBytes entry ≤ cap
    · exact .inl (takeWithin_le hle)
    · refine .inr ?_
      cases entries with
      | nil => rfl
      | cons e entries =>
        rw [takeWithin, if_pos ⟨rfl, by omega⟩]
        rfl

theorem readRowsLimited_ok {rows : List (Index × LogEntry P)} {expected : Index}
    (hs : rows.Pairwise fun a b => a.1 < b.1) (h : RunsFrom expected.val ((upTo stop rows).map (·.1))) :
    readRowsLimited build rowBytes stop cap acc any expected rows =
      .ok (takeWithin rowBytes cap acc any ((upTo stop rows).map (·.2))) := by
  induction rows generalizing expected acc any with
  | nil => rfl
  | cons row rows ih =>
    obtain ⟨idx, entry⟩ := row
    rw [readRowsLimited]
    by_cases hlt : stop < idx
    · rw [if_pos hlt, upTo_cons_of_lt hs hlt]
      rfl
    · rw [upTo_cons_of_le (not_lt.mp hlt)] at h ⊢
      obtain ⟨he, hroom, h⟩ := h
      have hroom' : idx.val + 1 < 2 ^ 64 := he ▸ hroom
      have h' : RunsFrom (idx + 1).val ((upTo stop rows).map (·.1)) := by
        rw [val_succ hroom', he]
        exact h
      rw [if_neg hlt, if_neg (by simpa using Fin.ext he), succ_of_lt hroom', List.map_cons, takeWithin]
      show (if any ∧ cap < acc + rowBytes entry then Except.ok [] else _) = _
      by_cases hcap : any ∧ cap < acc + rowBytes entry
      · rw [if_pos hcap, if_pos hcap]
      · rw [if_neg hcap, if_neg hcap, ih (List.pairwise_cons.mp hs).2 h']
        rfl

/-- Any range of a kept log can be read, if its bounds leave room to count. -/
theorem LogDb.Kept.plain (hk : db.Kept) {range : IndexRange} (hstart : range.startBound ≠ .excluded (Fin.last _))
    (hstop : range.endBound ≠ .excluded 0) : range.Plain db := by
  refine ⟨hstart, hstop, hk.afterPurge_lt, ?_⟩
  obtain ⟨i, -, hval⟩ := @IndexRange.first_ok .checked _ hstart
  obtain ⟨last, -, hle⟩ := @IndexRange.last_ok .checked _ hstop
  have hruns := (hk.runs.from range.start).before (last.val + 1)
  rw [List.filter_filter] at hruns
  have hcontains : (db.log.toList.map (·.1)).filter range.Contains =
      (db.log.toList.map (·.1)).filter fun j => decide (j.val < last.val + 1) && decide (range.start ≤ j.val) := by
    refine List.filter_congr ?_
    intro j _
    rw [← Bool.decide_and, decide_eq_decide, IndexRange.contains_iff hval hle, ← hval, and_comm, Nat.lt_succ_iff]
    rfl
  rw [hcontains]
  exact hruns

theorem readEntriesLimited_ok (hk : db.Kept) {range : IndexRange} (h : ∀ j, range.Contains j ↔ i ≤ j ∧ j ≤ stop) :
    readEntriesLimited build rowBytes db i stop cap = .ok (takeWithin rowBytes cap 0 false (db.entriesIn range)) := by
  obtain ⟨first, hfirst, hval⟩ := @firstExpected_ok _ build _ i hk.afterPurge_lt
  have hrows := @upTo_rowsFrom _ db _ _ _ h
  have hruns : RunsFrom first.val ((upTo stop (db.rowsFrom i)).map (·.1)) := by
    have hruns := (hk.runs.from i.val).before (stop.val + 1)
    rw [List.filter_filter, List.filter_map, ← hval] at hruns
    rw [hrows]
    convert hruns using 3
    funext row
    simp only [Function.comp_apply, ← Bool.decide_and, decide_eq_decide, h, Nat.lt_succ_iff]
    exact and_comm
  unfold readEntriesLimited
  rw [hfirst]
  show readRowsLimited build rowBytes stop cap 0 false first (db.rowsFrom i) = _
  rw [readRowsLimited_ok (sorted_rowsFrom db i) hruns, hrows]
  rfl

theorem limitedGetLogEntries_ok (hk : db.Kept) : limitedGetLogEntries build rowBytes db start stop =
    .ok (takeWithin rowBytes maxBatchBytes 0 false (db.entriesIn ⟨.included start, .excluded stop⟩)) := by
  unfold limitedGetLogEntries
  by_cases hle : stop ≤ start
  · rw [if_pos hle]
    have hnil : db.entriesIn ⟨.included start, .excluded stop⟩ = [] := by
      rw [LogDb.entriesIn, List.map_eq_nil_iff, List.filter_eq_nil_iff]
      intro row _ hrow
      obtain ⟨hstart, hstop⟩ := of_decide_eq_true hrow
      exact absurd (hstop.trans_le hle) (not_lt.mpr hstart)
    rw [hnil]
    rfl
  · rw [if_neg hle]
    have hlt : start < stop := not_le.mp hle
    have hpos : 0 < stop.val := Nat.lt_of_le_of_lt (Nat.zero_le _) hlt
    rw [pred_of_pos hpos]
    refine readEntriesLimited_ok hk ?_
    intro j
    refine and_congr .rfl ?_
    show j.val < stop.val ↔ j.val ≤ (stop - 1).val
    rw [val_pred hpos]
    omega

theorem LogDb.Kept.lastLog (hk : db.Kept) :
    (∀ row ∈ db.log.toList, (∀ row' ∈ db.log.toList, row'.1 ≤ row.1) → (getLogState db).lastLog = some row.2.logId) ∧
      (db.log.toList = [] → (getLogState db).lastLog = (getLogState db).lastPurged) ∧
      ∀ purged, (getLogState db).lastPurged = some purged →
        ∃ last, (getLogState db).lastLog = some last ∧ purged.rank ≤ last.rank := by
  rcases db.lastLog_cases with ⟨hnil, hl⟩ | ⟨rows, r, hrows, hl⟩
  · refine ⟨?_, fun _ => hl, ?_⟩
    · intro row hrow
      rw [hnil] at hrow
      cases hrow
    · intro purged hp
      exact ⟨purged, hl.trans hp, le_rfl⟩
  · have hr : r ∈ db.log.toList := by simp [hrows]
    refine ⟨?_, ?_, ?_⟩
    · intro row hrow hgreatest
      rcases (hgreatest r hr).lt_or_eq with hlt | heq
      · exact absurd (hk.le_last hl hrow) (not_le.mpr (hk.own r hr ▸ hlt))
      · have he : row = r := by
          have hrow' : db.log[row.1]? = some row.2 := mem_rows.mp hrow
          rw [← heq, mem_rows.mp hr] at hrow'
          exact Prod.ext heq.symm (Option.some.inj hrow').symm
        rw [he]
        exact hl
    · intro hnil
      rw [hnil] at hr
      cases hr
    · intro purged hp
      exact ⟨_, hl, (hk.above purged ((hk.lastPurged_eq purged).mp hp) r hr).le⟩

/-- After any run of regular operations a bounded read gives a prefix of the entries of its range, not an empty one
if there are any, within the cap or a single entry; the unbounded read gives all of them; and the last log id is that
of the greatest entry, or else of the last purge, which it never precedes. -/
theorem bounded_reads (h : Logged build LogOp.Regular db) (rowBytes : LogEntry P → Nat) (start stop : Index) :
    (∃ entries, limitedGetLogEntries build rowBytes db start stop = .ok entries ∧
      entries <+: db.entriesIn ⟨.included start, .excluded stop⟩ ∧
      (db.entriesIn ⟨.included start, .excluded stop⟩ ≠ [] → entries ≠ []) ∧
      ((entries.map rowBytes).sum ≤ maxBatchBytes ∨ entries.length = 1)) ∧
    (0 < stop → tryGetLogEntries build db ⟨.included start, .excluded stop⟩ =
      .ok (db.entriesIn ⟨.included start, .excluded stop⟩)) ∧
    (∀ row ∈ db.log.toList, (∀ row' ∈ db.log.toList, row'.1 ≤ row.1) →
      (getLogState db).lastLog = some row.2.logId) ∧
    (db.log.toList = [] → (getLogState db).lastLog = (getLogState db).lastPurged) ∧
    ∀ purged, (getLogState db).lastPurged = some purged →
      ∃ last, (getLogState db).lastLog = some last ∧ purged.rank ≤ last.rank := by
  have hk := LogDb.kept_of_logged h
  refine ⟨⟨_, limitedGetLogEntries_ok hk, takeWithin_prefix, takeWithin_ne_nil, takeWithin_cap⟩, ?_, hk.lastLog⟩
  intro hpos
  have hplain : IndexRange.Plain ⟨.included start, .excluded stop⟩ db :=
    hk.plain (by simp) (by simpa using hpos.ne')
  obtain ⟨first, hfirst, hval⟩ := @IndexRange.first_ok build _ hplain.start
  obtain ⟨last, hlast, hle⟩ := @IndexRange.last_ok build _ hplain.stop
  rw [tryGetLogEntries_eq, hfirst, hlast]
  exact readEntries_ok (IndexRange.contains_iff hval hle) hplain.purged (hval ▸ hplain.runs)

end

/-! ## Runs on fixed inputs -/

def blankEntry (i : Index) : LogEntry Unit := ⟨⟨⟨1, 1⟩, i⟩, ()⟩

def blankRowBytes (_ : LogEntry Unit) : Nat :=
  "\x7b\"log_id\":\x7b\"leader_id\":\x7b\"term\":1,\"node_id\":1\x7d,\"index\":0\x7d,\"payload\":\"Blank\"\x7d".utf8ByteSize

theorem bounded_reads_sample :
    ∃ entries, limitedGetLogEntries .checked blankRowBytes
        ((LogDb.new.append [blankEntry 0, blankEntry 1, blankEntry 2]).purge ⟨⟨1, 1⟩, 0⟩) 0 3 = .ok entries ∧
      entries ≠ [] := by
  have hnew : Logged (P := Unit) .checked LogOp.Regular LogDb.new := .new
  have happend : LogOp.Regular LogDb.new (.append [blankEntry 0, blankEntry 1, blankEntry 2]) := by
    refine ⟨by decide +kernel, by decide +kernel, by decide +kernel, ?_⟩
    intro last h
    cases h
  have hpurge : LogOp.Regular (LogDb.new.append [blankEntry 0, blankEntry 1, blankEntry 2]) (.purge ⟨⟨1, 1⟩, 0⟩) :=
    ⟨by decide, .inl ⟨blankEntry 0, by decide +kernel, rfl⟩⟩
  obtain ⟨⟨entries, hread, -, hne, -⟩, -⟩ :=
    bounded_reads (.step (.step hnew happend rfl) hpurge rfl) blankRowBytes 0 3
  exact ⟨entries, hread, hne (by decide +kernel)⟩

def fourEntries : LogDb Unit := LogDb.new.append [blankEntry 0, blankEntry 1, blankEntry 2, blankEntry 3]

theorem Logged.purge {db : LogDb Unit} (h : Logged .checked LogOp.Contiguous db) (logId : LogId) :
    Logged .checked LogOp.Contiguous (db.purge logId) := h.step (show LogOp.Contiguous db (.purge logId) from trivial) rfl

theorem fourEntries_logged : Logged .checked LogOp.Contiguous fourEntries := by
  have happend : LogOp.Contiguous LogDb.new (.append [blankEntry 0, blankEntry 1, blankEntry 2, blankEntry 3]) := by
    show LogDb.Contiguous _ _
    decide +kernel
  exact .step .new happend rfl

/-- A purge that goes back leaves a hole after its mark, one that is of a later leader than the entries after it leaves
a last log id below it, and one up to the last index there is leaves no room to count. -/
theorem irregular_purges :
    (∃ db : LogDb Unit, Logged .checked LogOp.Contiguous db ∧
      limitedGetLogEntries .checked blankRowBytes db 1 4 = .error (.hole 1 3)) ∧
    (∃ db : LogDb Unit, Logged .checked LogOp.Contiguous db ∧ ∃ purged last,
      getLogState db = ⟨some purged, some last⟩ ∧ last.rank < purged.rank) ∧
    ∃ db : LogDb Unit, Logged .checked LogOp.Contiguous db ∧
      limitedGetLogEntries .checked blankRowBytes db 0 1 = .error .overflow := by
  refine ⟨⟨(fourEntries.purge ⟨⟨1, 1⟩, 2⟩).purge ⟨⟨1, 1⟩, 0⟩, ?_, by decide +kernel⟩,
    ⟨fourEntries.purge ⟨⟨2, 1⟩, 1⟩, ?_, ⟨⟨2, 1⟩, 1⟩, ⟨⟨1, 1⟩, 3⟩, by decide +kernel, by decide +kernel⟩,
    ⟨fourEntries.purge ⟨⟨1, 1⟩, Fin.last _⟩, ?_, by decide +kernel⟩⟩
  · exact .purge (.purge fourEntries_logged ⟨⟨1, 1⟩, 2⟩) ⟨⟨1, 1⟩, 0⟩
  · exact .purge fourEntries_logged ⟨⟨2, 1⟩, 1⟩
  · exact .purge fourEntries_logged ⟨⟨1, 1⟩, Fin.last _⟩

end Defing
