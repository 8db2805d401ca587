import Defing.Raft.Node
import Defing.State.Restore

/-!
# What a log makes

A node that has applied a log up to some entry holds what the log makes of the
empty state. It may also have written the next entry without a mark of it, where
writing it again changes nothing.
-/

namespace Defing

variable {M : Type}

structure CommittedLog (M : Type) where
  entries : List (LogEntry (EntryPayload M))
  index : ∀ (k : Nat) (e : LogEntry (EntryPayload M)), entries[k]? = some e → e.logId.index.val = k
  ordered : ∀ (j k : Nat) (e e' : LogEntry (EntryPayload M)), entries[j]? = some e → entries[k]? = some e' → j < k → e.logId.Before e'.logId

/-! ## Contents -/

section
variable [ApplyBytes] [Inhabited M] {log : CommittedLog M} {c : Contents M} {e : LogEntry (EntryPayload M)} {j k : Nat}

def CommittedLog.after (log : CommittedLog M) : Nat → Contents M
  | 0 => .new
  | k + 1 =>
    match log.entries[k]? with
    | some e => ((log.after k).write e).mark e.logId
    | none => log.after k

structure SettledAt (log : CommittedLog M) (k : Nat) (c : Contents M) : Prop where
  le : k ≤ log.entries.length
  made : c = log.after k ∨ ∃ e, log.entries[k]? = some e ∧ c = (log.after k).write e ∧ c.write e = c

def Settled (log : CommittedLog M) (c : Contents M) : Prop := ∃ k, SettledAt log k c

omit [Inhabited M] in
theorem write_lastApplied (c : Contents M) (e : LogEntry (EntryPayload M)) : (c.write e).lastApplied = c.lastApplied := by
  unfold Contents.write
  cases e.payload <;> rfl

theorem after_succ (h : log.entries[k]? = some e) : log.after (k + 1) = ((log.after k).write e).mark e.logId := by
  rw [CommittedLog.after, h]

theorem lastApplied_after_succ (h : log.entries[k]? = some e) : (log.after (k + 1)).lastApplied = some e.logId := by
  rw [after_succ h]
  rfl

theorem nextIndex_after (h : k ≤ log.entries.length) : nextIndex (log.after k).lastApplied = k := by
  cases k with
  | zero => rfl
  | succ k =>
    obtain ⟨e, he⟩ : ∃ e, log.entries[k]? = some e := ⟨_, List.getElem?_eq_getElem h⟩
    rw [lastApplied_after_succ he, nextIndex, Option.map_some, Option.getD_some, log.index k e he]

theorem settledAt_after (h : k ≤ log.entries.length) : SettledAt log k (log.after k) := ⟨h, .inl rfl⟩

theorem SettledAt.lastApplied (h : SettledAt log k c) : c.lastApplied = (log.after k).lastApplied := by
  rcases h.made with rfl | ⟨e, -, rfl, -⟩
  · rfl
  · exact write_lastApplied _ e

theorem SettledAt.next (h : SettledAt log k c) : nextIndex c.lastApplied = k := by
  rw [h.lastApplied, nextIndex_after h.le]

theorem SettledAt.write (h : SettledAt log k c) (he : log.entries[k]? = some e) : c.write e = (log.after k).write e := by
  rcases h.made with rfl | ⟨e', he', hc, hsame⟩
  · rfl
  · obtain rfl : e' = e := Option.some.inj (he'.symm.trans he)
    rw [hsame, hc]

theorem SettledAt.apply (h : SettledAt log k c) (he : log.entries[k]? = some e) :
    (c.write e).mark e.logId = log.after (k + 1) := by
  rw [h.write he, after_succ he]

def applyEntries (c : Contents M) (entries : List (LogEntry (EntryPayload M))) : Contents M :=
  entries.foldl (fun c e => (c.write e).mark e.logId) c

variable (log) in
theorem applyEntries_after (n : Nat) (h : k + n = log.entries.length) :
    applyEntries (log.after k) (log.entries.drop k) = log.after log.entries.length := by
  induction n generalizing k with
  | zero =>
    rw [List.drop_eq_nil_of_le (by omega), ← h]
    rfl
  | succ n ih =>
    have hlt : k < log.entries.length := by omega
    have he := List.getElem?_eq_getElem hlt
    rw [List.drop_eq_getElem_cons hlt, ← ih (k := k + 1) (by omega), after_succ he]
    rfl

/-- The rest of the log leads settled contents to what the whole log makes. -/
theorem SettledAt.catchesUp (h : SettledAt log k c) :
    applyEntries c (log.entries.drop (nextIndex c.lastApplied)) = log.after log.entries.length := by
  rw [h.next]
  by_cases hlt : k < log.entries.length
  · have he := List.getElem?_eq_getElem hlt
    have hrest := applyEntries_after log (k := k + 1) (log.entries.length - (k + 1)) (by omega)
    rw [← h.apply he] at hrest
    rw [List.drop_eq_getElem_cons hlt]
    exact hrest
  · have hle := h.le
    have hk : k = log.entries.length := by omega
    have hnone : log.entries[k]? = none := List.getElem?_eq_none (by omega)
    rw [List.drop_eq_nil_of_le (by omega), ← hk]
    rcases h.made with rfl | ⟨e, he, -⟩
    · rfl
    · rw [hnone] at he
      cases he

/-! ## Which snapshot is newer -/

omit [ApplyBytes] [Inhabited M] in
theorem not_before_self (id : LogId) : ¬ id.Before id := lt_irrefl _

omit [ApplyBytes] [Inhabited M] in
theorem before_iff {e' : LogEntry (EntryPayload M)} (he : log.entries[j]? = some e) (he' : log.entries[k]? = some e') :
    e.logId.Before e'.logId ↔ j < k := by
  rcases Nat.lt_trichotomy j k with h | h | h
  · exact ⟨fun _ => h, fun _ => log.ordered _ _ _ _ he he' h⟩
  · subst h
    obtain rfl := Option.some.inj (he.symm.trans he')
    exact ⟨fun hb => absurd hb (not_before_self _), fun hlt => absurd hlt (Nat.lt_irrefl _)⟩
  · have hb := log.ordered _ _ _ _ he' he h
    exact ⟨fun hb' => absurd (hb'.trans hb) (not_before_self _), fun hlt => absurd hlt (Nat.lt_asymm h)⟩

theorem newer_iff {m m' : SnapshotMeta M} (hm : m.lastLogId = (log.after j).lastApplied)
    (hm' : m'.lastLogId = (log.after k).lastApplied) (hj : j ≤ log.entries.length) (hk : k ≤ log.entries.length) :
    snapshotMetaNewer m m' ↔ k < j := by
  unfold snapshotMetaNewer
  rw [hm, hm']
  cases j with
  | zero => simp [CommittedLog.after, Contents.new]
  | succ j =>
    have he := List.getElem?_eq_getElem (show j < log.entries.length by omega)
    rw [lastApplied_after_succ he]
    cases k with
    | zero => simp [CommittedLog.after, Contents.new]
    | succ k =>
      have he' := List.getElem?_eq_getElem (show k < log.entries.length by omega)
      rw [lastApplied_after_succ he']
      simp only [before_iff he' he]
      omega

end

/-! ## Payloads -/

section
variable [Rmp] [PairJson] {bytes : Bytes} {t : Table} {path : String} {budget : Nat}

def PayloadReads (bytes : Bytes) (t : Table) : Prop := ∃ pairs, readPayloadPairs bytes = .ok pairs ∧ KV.writeBatch ∅ pairs [] = t

theorem PayloadReads.opens (h : PayloadReads bytes t) (path : String) (budget : Nat) : ∃ b, readPayloadBatches path bytes budget = .ok b := by
  obtain ⟨pairs, hp, -⟩ := h
  obtain ⟨b, hb, -⟩ := readPayloadAll_ok.mp ((readers_agree path bytes budget pairs).mp hp)
  exact ⟨b, hb⟩

theorem PayloadReads.batches (h : PayloadReads bytes t) {b : PayloadBatches} (hb : readPayloadBatches path bytes budget = .ok b) :
    ∃ batches, b.collect = .ok batches ∧ KV.writeBatch ∅ batches.flatten [] = t := by
  obtain ⟨pairs, hp, ht⟩ := h
  obtain ⟨b', hb', batches, hall, hflat⟩ := readPayloadAll_ok.mp ((readers_agree path bytes budget pairs).mp hp)
  obtain rfl : b' = b := Except.ok.inj (hb'.symm.trans hb)
  exact ⟨batches, hall, hflat ▸ ht⟩

theorem reads_buildPayload (hr : Rmp.Lawful) (hj : ∀ pairs, PairJson.Reads pairs) {msgpack : Bool}
    (hb : buildPayload msgpack budget t = .ok bytes) : PayloadReads bytes t := by
  have hsm : (⟨.redb, { store := t }⟩ : StateMachine).dumpAll = t.toList := dumpAll_eq rfl
  unfold buildPayload at hb
  cases msgpack with
  | false =>
    obtain rfl := Except.ok.inj hb
    exact ⟨t.toList, by rw [hsm]; exact readPayloadPairs_json (hj _), insertAll_toList t⟩
  | true =>
    have hpages : ((⟨.redb, { store := t }⟩ : StateMachine).dumpBatches budget).flatten = t.toList :=
      ((dumpFrom_spec _ _ none).1).trans (rowsAfter_none t)
    have hlen : (t.getPrefixKeys []).length = ((⟨.redb, { store := t }⟩ : StateMachine).dumpBatches budget).flatten.length := by
      rw [hpages, Table.getPrefixKeys, List.length_map, getPrefix_eq_filter]
      exact congrArg List.length (List.filter_eq_self.mpr fun r _ => rfl)
    simp only [if_true, hlen] at hb
    obtain ⟨hlimits, rfl⟩ := writePayloadV2_ok.mp hb
    rw [hpages] at hlimits ⊢
    exact ⟨t.toList, readPayloadPairs_file hr hlimits, insertAll_toList t⟩

end

end Defing
