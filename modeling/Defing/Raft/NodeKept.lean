import Defing.Raft.Settled

/-!
# What every step of a node keeps

A restore that is under way, or was cut off, can be repeated from its marker and
the payload that the marker names. Until then nothing is applied, and no payload
is deleted that the marker, the registry or a snapshot under way still needs.
-/

namespace Defing

open Runs (Run Path)

variable {M : Type} [Rmp] [PairJson] [ApplyBytes] [Inhabited M] {log : CommittedLog M}

/-! ## Snapshots of a log -/

/-- A payload with the state after the entries that its snapshot is of. -/
def CommittedLog.Delivers (log : CommittedLog M) (m : SnapshotMeta M) (bytes : Bytes) : Prop :=
  ∃ k c, SettledAt log k c ∧ c.snapMeta = m ∧ PayloadReads bytes c.table

def SnapshotMeta.next (m : SnapshotMeta M) : Nat := nextIndex m.lastLogId

def Contents.next (c : Contents M) : Nat := nextIndex c.lastApplied

def CommittedLog.Stored (log : CommittedLog M) (files : SnapName → Option Bytes) (p : SnapshotMeta M × SnapName) : Prop :=
  ∃ bytes, files p.2 = some bytes ∧ log.Delivers p.1 bytes

/-! ## Steps that are kept to -/

/-- No batch of a command fails unseen, an entry that is cut off before its mark can be written again, no snapshot is
taken of a state that a restore has left or a poisoned node holds, none is committed without a look at the registry, no
two are committed one inside the other, and what is installed is of the log and not behind. -/
def RegularStep (log : CommittedLog M) (n : Node M) : NodeEvent M → Prop
  | .other => True
  | .lost => False
  | .cut => ∀ e, n.applying = some e → n.disk.contents.write e = n.disk.contents
  | .capture => n.poisoned = false ∧ ∀ r, n.restore = some r → r.phase ≠ .failed
  | .blind => False
  | .register none => ∀ i b, n.builds i = some b → b.commits = false
  | .register (some i) =>
    (∀ r, n.restore = some r → r.phase.commits = false) ∧ ∀ j b, j ≠ i → n.builds j = some b → b.commits = false
  | .install m bytes => log.Delivers m bytes ∧ n.disk.contents.next ≤ m.next

/-! ## Phases -/

def RestorePhase.holds : RestorePhase → Bool
  | copied _ | restoring .. | restored | appliedPut | membershipPut | oldRead _ => true
  | _ => false

def RestorePhase.marked : RestorePhase → Bool
  | restoring .. | restored | appliedPut | membershipPut | oldRead _ | registered _ | oldDeleted | failed => true
  | _ => false

def RestorePhase.registers : RestorePhase → Bool
  | registered _ | oldDeleted | cleared | unpoisoned => true
  | _ => false

/-- The current snapshot may be of a file that is deleted. -/
def RestorePhase.finishes : RestorePhase → Bool
  | registered _ | oldDeleted | cleared | unpoisoned | failed => true
  | _ => false

def BuildPhase.finishes : BuildPhase M → Bool
  | registered .. | oldDeleted .. => true
  | _ => false

def Restore.held (r : Restore M) : Option (SnapshotMeta M × SnapName) :=
  bif r.phase.holds && !r.boot then some (r.marker.snapMeta, r.marker.payload) else none

def BuildPhase.held : BuildPhase M → Option (SnapshotMeta M × SnapName)
  | written m f | newer m f | oldRead m f _ => some (m, f)
  | _ => none

/-- How far a restore has come from the contents `c` to those of its snapshot. -/
def RestorePhase.Reaches (c target : Contents M) : RestorePhase → Prop
  | copied b => ∃ batches, b.collect = .ok batches ∧ KV.writeBatch ∅ batches.flatten [] = target.table
  | restoring first b =>
    ∃ batches, b.collect = .ok batches ∧ KV.writeBatch (if first then ∅ else c.table) batches.flatten [] = target.table
  | restored => c.table = target.table
  | appliedPut => c.table = target.table ∧ c.lastApplied = target.lastApplied
  | membershipPut | oldRead _ | registered _ | oldDeleted => c = target
  | cleared | unpoisoned | failed => True

structure RestoreInv (log : CommittedLog M) (c : Contents M) (marker : Option (RestoreBegin M))
    (registry : Option (SnapshotMeta M × SnapName)) (r : Restore M) : Prop where
  marked : r.phase.marked = true → marker = some r.marker
  cleared : r.phase = .cleared ∨ r.phase = .unpoisoned → marker = none
  ahead : c.next ≤ r.marker.snapMeta.next
  reaches : ∃ k target, SettledAt log k target ∧ target.snapMeta = r.marker.snapMeta ∧ r.phase.Reaches c target
  registers : r.phase.registers = true → registry = some (r.marker.snapMeta, r.marker.payload)
  old : ∀ old, r.phase = .oldRead old → old = registry.map (·.2)
  copied : ∀ batches, r.phase = .copied batches → r.boot = false

def BuildInv (log : CommittedLog M) (next : Nat) (registry : Option (SnapshotMeta M × SnapName)) : BuildPhase M → Prop
  | .unpoisoned => True
  | .captured m t => m.next ≤ next ∧ ∃ k c, SettledAt log k c ∧ c.snapMeta = m ∧ c.table = t
  | .written m _ => m.next ≤ next
  | .newer m _ => m.next ≤ next ∧ ∀ reg, registry = some reg → reg.1.next < m.next
  | .oldRead m _ old => m.next ≤ next ∧ (∀ reg, registry = some reg → reg.1.next < m.next) ∧ old = registry.map (·.2)
  | .registered m f _ | .oldDeleted m f => registry = some (m, f)

namespace Node

/-- Payloads that are not registered yet: that of an installation, and those of builds. -/
def held (n : Node M) : Option ℕ → Option (SnapshotMeta M × SnapName)
  | none => n.restore.bind (·.held)
  | some i => (n.builds i).bind (·.held)

def deletes (n : Node M) (f : SnapName) : Prop :=
  (∃ r, n.restore = some r ∧ r.phase = .registered (some f) ∧ f ≠ r.marker.payload) ∨
    ∃ i m g, n.builds i = some (.registered m g (some f))

def finishes (n : Node M) : Prop :=
  (∃ r, n.restore = some r ∧ r.phase.finishes = true) ∨ ∃ i b, n.builds i = some b ∧ b.finishes = true

end Node

structure NodeInv (log : CommittedLog M) (n : Node M) : Prop where
  settled : n.disk.restoreBegin = none → n.applying = none → Settled log n.disk.contents
  written : ∀ e, n.applying = some e → n.power = .on ∧ n.restore = none ∧ n.disk.restoreBegin = none ∧
    ∃ k, k ≤ log.entries.length ∧ log.entries[k]? = some e ∧ n.disk.contents = (log.after k).write e
  guarded : n.power = .on → ∀ m, n.disk.restoreBegin = some m →
    n.poisoned = true ∨ ∃ r, n.restore = some r ∧ r.phase.marked = true
  poison : n.disk.restorePoison = true → n.disk.restoreBegin ≠ none
  ahead : ∀ m, n.disk.restoreBegin = some m → n.disk.contents.next ≤ m.snapMeta.next
  restore : ∀ r, n.restore = some r →
    RestoreInv log n.disk.contents n.disk.restoreBegin n.disk.registry r ∧ n.power = if r.boot then .booting else .on
  registryOld : ∀ reg, n.disk.registry = some reg → reg.1.next ≤ n.disk.contents.next
  leftover : ∀ m reg, n.disk.restoreBegin = some m → n.disk.registry = some reg → reg.2 = m.payload →
    reg.1 = m.snapMeta ∧ n.disk.contents.lastApplied = m.snapMeta.lastLogId
  builds : ∀ i b, n.builds i = some b → n.power = .on ∧ BuildInv log n.disk.contents.next n.disk.registry b
  named : ∀ f, n.disk.files f ≠ none → f < n.names
  registryFile : ∀ reg, n.disk.registry = some reg → log.Stored n.disk.files reg
  markerFile : ∀ m, n.disk.restoreBegin = some m → log.Stored n.disk.files (m.snapMeta, m.payload)
  heldFile : ∀ a p, n.held a = some p → log.Stored n.disk.files p
  apart : ∀ a b p q, n.held a = some p → n.held b = some q → p.2 = q.2 → a = b
  registryApart : ∀ a p reg, n.held a = some p → n.disk.registry = some reg → reg.2 ≠ p.2
  markerApart : ∀ i p m, n.held (some i) = some p → n.disk.restoreBegin = some m → m.payload ≠ p.2
  deleted : ∀ f, n.deletes f → f < n.names ∧ (∀ a p, n.held a = some p → p.2 ≠ f) ∧
    (∀ reg, n.disk.registry = some reg → reg.2 ≠ f) ∧ ∀ m, n.disk.restoreBegin = some m → m.payload ≠ f
  current : n.poisoned = false → ¬ n.finishes → n.current = none ∨ n.current = n.disk.registry
  unpowered : n.power ≠ .on → n.current = none

/-! ## Entries -/

section
variable {n : Node M} {e : LogEntry (EntryPayload M)} {r : Restore M}

omit [Rmp] [PairJson] [Inhabited M] in
theorem next_write (c : Contents M) (e : LogEntry (EntryPayload M)) : (c.write e).next = c.next := by
  rw [Contents.next, write_lastApplied, Contents.next]

theorem NodeInv.no_marker (h : NodeInv log n) (hr : n.ready) (hp : n.poisoned = false) : n.disk.restoreBegin = none := by
  obtain ⟨hon, -, -, hrestore⟩ := hr
  refine Option.eq_none_iff_forall_ne_some.mpr fun m hm => ?_
  rcases h.guarded hon m hm with hp' | ⟨r, hr, -⟩
  · rw [hp] at hp'
    cases hp'
  · rw [hrestore] at hr
    cases hr

theorem NodeInv.write (h : NodeInv log n) (hr : n.ready) (hp : n.poisoned = false)
    (he : log.entries[nextIndex n.disk.contents.lastApplied]? = some e) :
    NodeInv log { n.setContents (n.disk.contents.write e) with applying := some e } := by
  have hm := h.no_marker hr hp
  obtain ⟨k, hk⟩ := h.settled hm hr.2.2.1
  rw [hk.next] at he
  have hnext := next_write n.disk.contents e
  exact { h with
    settled := fun _ ha => by cases ha
    written := fun e' he' => by
      obtain rfl : e = e' := Option.some.inj he'
      exact ⟨hr.1, hr.2.2.2, hm, k, hk.le, he, hk.write he⟩
    ahead := fun m hm' => by cases hm.symm.trans hm'
    restore := fun r hr' => by cases hr.2.2.2.symm.trans hr'
    registryOld := fun reg hreg => hnext ▸ h.registryOld reg hreg
    leftover := fun m _ hm' => by cases hm.symm.trans hm'
    builds := fun i b hb => ⟨(h.builds i b hb).1, hnext ▸ (h.builds i b hb).2⟩ }

omit [Rmp] [PairJson] in
theorem BuildInv.mono {next next' : Nat} {registry : Option (SnapshotMeta M × SnapName)} {b : BuildPhase M} (hle : next ≤ next')
    (h : BuildInv log next registry b) : BuildInv log next' registry b := by
  cases b with
  | unpoisoned => trivial
  | captured m t => exact ⟨Nat.le_trans h.1 hle, h.2⟩
  | written m f => exact Nat.le_trans h hle
  | newer m f => exact ⟨Nat.le_trans h.1 hle, h.2⟩
  | oldRead m f old => exact ⟨Nat.le_trans h.1 hle, h.2⟩
  | registered m f old => exact h
  | oldDeleted m f => exact h

theorem NodeInv.mark (h : NodeInv log n) (he : n.applying = some e) :
    NodeInv log { n.setContents (n.disk.contents.mark e.logId) with applying := none } := by
  obtain ⟨hon, hrestore, hm, k, hk, hentry, hc⟩ := h.written e he
  have hafter : n.disk.contents.mark e.logId = log.after (k + 1) := by rw [hc, after_succ hentry]
  have hlt : k < log.entries.length := (List.getElem?_eq_some_iff.mp hentry).1
  have hnext : n.disk.contents.next = k := by
    rw [Contents.next, hc, write_lastApplied, nextIndex_after hk]
  have hnext' : (n.disk.contents.mark e.logId).next = k + 1 := by
    rw [hafter, Contents.next, nextIndex_after hlt]
  have hle : n.disk.contents.next ≤ (n.disk.contents.mark e.logId).next := by omega
  exact { h with
    settled := fun _ _ => ⟨k + 1, by rw [show _ = log.after (k + 1) from hafter]; exact settledAt_after hlt⟩
    written := fun e' he' => by cases he'
    ahead := fun m hm' => by cases hm.symm.trans hm'
    restore := fun r hr' => by cases hrestore.symm.trans hr'
    registryOld := fun reg hreg => Nat.le_trans (h.registryOld reg hreg) hle
    leftover := fun m _ hm' => by cases hm.symm.trans hm'
    builds := fun i b hb => ⟨(h.builds i b hb).1, (h.builds i b hb).2.mono hle⟩ }

/-- An entry that is written without its mark leaves settled contents if it may be written again. -/
theorem NodeInv.settled_written (h : NodeInv log n) (he : n.applying = some e)
    (hsame : n.disk.contents.write e = n.disk.contents) : Settled log n.disk.contents := by
  obtain ⟨-, -, -, k, hk, hentry, hc⟩ := h.written e he
  exact ⟨k, hk, .inr ⟨e, hentry, hc, hsame⟩⟩

theorem NodeInv.notMarked (h : NodeInv log n) (he : n.applying = some e)
    (hsame : n.disk.contents.write e = n.disk.contents) : NodeInv log { n with applying := none, stopped := true } :=
  { h with
    settled := fun _ _ => h.settled_written he hsame
    written := fun e' he' => by cases he' }

end

/-! ## Files -/

section
variable {n : Node M} {f : SnapName} {p : SnapshotMeta M × SnapName} {bytes : Bytes}

theorem NodeInv.lt_names (h : NodeInv log n) (hp : log.Stored n.disk.files p) : p.2 < n.names := by
  obtain ⟨bytes, hf, -⟩ := hp
  exact h.named p.2 (by simp [hf])

theorem NodeInv.stored_addFile (h : NodeInv log n) (hp : log.Stored n.disk.files p) (bytes : Bytes) :
    log.Stored (n.addFile bytes).disk.files p := by
  have hne : p.2 ≠ n.names := Nat.ne_of_lt (h.lt_names hp)
  obtain ⟨b, hf, hd⟩ := hp
  exact ⟨b, by rw [← hf]; exact Function.update_of_ne hne _ _, hd⟩

theorem NodeInv.addFile (h : NodeInv log n) (bytes : Bytes) : NodeInv log (n.addFile bytes) :=
  { h with
    named := fun f hf => by
      by_cases hfn : f = n.names
      · exact hfn ▸ Nat.lt_succ_self f
      · have hsame : (n.addFile bytes).disk.files f = n.disk.files f := Function.update_of_ne hfn _ _
        exact Nat.lt_succ_of_lt (h.named f (hsame ▸ hf))
    registryFile := fun reg hreg => h.stored_addFile (h.registryFile reg hreg) bytes
    markerFile := fun m hm => h.stored_addFile (h.markerFile m hm) bytes
    heldFile := fun a p ha => h.stored_addFile (h.heldFile a p ha) bytes
    deleted := fun f hf => ⟨Nat.lt_succ_of_lt (h.deleted f hf).1, (h.deleted f hf).2⟩ }

theorem stored_new {m : SnapshotMeta M} (hd : log.Delivers m bytes) :
    log.Stored (n.addFile bytes).disk.files (m, n.names) :=
  ⟨bytes, by simp [Node.addFile], hd⟩

theorem stored_deleteOldFile {files : SnapName → Option Bytes} {deleted : Bool} {old : Option SnapName}
    (hold : deleted = true → old ≠ some p.2) (hp : log.Stored files p) : log.Stored (deleteOldFile deleted old files) p := by
  obtain ⟨b, hf, hd⟩ := hp
  refine ⟨b, ?_, hd⟩
  rw [deleteOldFile, if_neg fun hc => hold hc.1 hc.2, hf]

omit [Rmp] [PairJson] [ApplyBytes] in
theorem named_deleteOldFile {files : SnapName → Option Bytes} {deleted : Bool} {old : Option SnapName}
    (hf : deleteOldFile deleted old files f ≠ none) : files f ≠ none := by
  unfold deleteOldFile at hf
  split at hf
  · exact absurd rfl hf
  · exact hf

theorem NodeInv.deleteOld (h : NodeInv log n) {deleted : Bool} {old : Option SnapName}
    (hold : ∀ f, deleted = true → old = some f → n.deletes f) : NodeInv log (n.deleteOld deleted old) :=
  { h with
    named := fun f hf => h.named f (named_deleteOldFile hf)
    registryFile := fun reg hreg => stored_deleteOldFile (fun hd e => (h.deleted _ (hold _ hd e)).2.2.1 reg hreg rfl)
      (h.registryFile reg hreg)
    markerFile := fun m hm => stored_deleteOldFile (fun hd e => (h.deleted _ (hold _ hd e)).2.2.2 m hm rfl)
      (h.markerFile m hm)
    heldFile := fun a p ha => stored_deleteOldFile (fun hd e => (h.deleted _ (hold _ hd e)).2.1 a p ha rfl)
      (h.heldFile a p ha) }

omit [Rmp] [PairJson] [ApplyBytes] [Inhabited M] in
theorem sweepFiles_needed {swept : SnapName → Bool} {d : Disk M}
    (hf : d.registry.map (·.2) = some f ∨ d.restoreBegin.map (·.payload) = some f) : sweepFiles swept d f = d.files f := by
  unfold sweepFiles
  rw [if_neg]
  intro hc
  rcases hf with hf | hf
  · exact hc.2.1 hf
  · exact hc.2.2 hf

omit [Rmp] [PairJson] [ApplyBytes] [Inhabited M] in
theorem named_sweepFiles {swept : SnapName → Bool} {d : Disk M} (hf : sweepFiles swept d f ≠ none) : d.files f ≠ none := by
  unfold sweepFiles at hf
  split at hf
  · exact absurd rfl hf
  · exact hf

theorem NodeInv.sweep (h : NodeInv log n) (hheld : ∀ a, n.held a = none) (swept : SnapName → Bool) :
    NodeInv log { n with disk := { n.disk with files := sweepFiles swept n.disk } } :=
  { h with
    named := fun f hf => h.named f (named_sweepFiles hf)
    registryFile := fun reg hreg => by
      obtain ⟨b, hf, hd⟩ := h.registryFile reg hreg
      exact ⟨b, (sweepFiles_needed (.inl (by rw [hreg]; rfl))).trans hf, hd⟩
    markerFile := fun m hm => by
      obtain ⟨b, hf, hd⟩ := h.markerFile m hm
      exact ⟨b, (sweepFiles_needed (.inr (by rw [hm]; rfl))).trans hf, hd⟩
    heldFile := fun a p ha => by
      have hnone : n.held a = some p := ha
      rw [hheld a] at hnone
      cases hnone }

end

/-! ## Installations -/

section
variable {n : Node M} {r : Restore M} {phase : RestorePhase}

theorem NodeInv.not_applying (h : NodeInv log n) (hr : n.restore = some r) : n.applying = none := by
  refine Option.eq_none_iff_forall_ne_some.mpr fun e he => ?_
  have := (h.written e he).2.1
  rw [hr] at this
  cases this

omit [Rmp] [PairJson] [ApplyBytes] [Inhabited M] in
/-- A change of the restore does not ask for a file's deletion, unless it registers a payload. -/
theorem Node.deletes_of_restore {n' : Node M} {f : SnapName} (hd : n'.deletes f) (hbuilds : n'.builds = n.builds)
    (hr : ∀ r, n'.restore = some r → r.phase ≠ .registered (some f)) : n.deletes f := by
  rcases hd with ⟨r, hr', hp, -⟩ | hd
  · exact absurd hp (hr r hr')
  · exact .inr (hbuilds ▸ hd)

theorem NodeInv.apart_fresh (h : NodeInv log n) {held : Option ℕ → Option (SnapshotMeta M × SnapName)} {a₀ : Option ℕ}
    {m : SnapshotMeta M} (hheld : ∀ a p, held a = some p → a = a₀ ∧ p = (m, n.names) ∨ n.held a = some p ∧ a ≠ a₀) :
    (∀ a b p q, held a = some p → held b = some q → p.2 = q.2 → a = b) ∧
      (∀ a p reg, held a = some p → n.disk.registry = some reg → reg.2 ≠ p.2) ∧
      (∀ i p m, held (some i) = some p → n.disk.restoreBegin = some m → m.payload ≠ p.2) ∧
      ∀ f, n.deletes f → ∀ a p, held a = some p → p.2 ≠ f := by
  have hlt : ∀ a p, n.held a = some p → p.2 < n.names := fun a p ha => h.lt_names (h.heldFile a p ha)
  refine ⟨fun a b p q ha hb hpq => ?_, fun a p reg ha hreg => ?_, fun i p mk ha hmk => ?_, fun f hf a p ha => ?_⟩
  · rcases hheld a p ha with ⟨rfl, rfl⟩ | ⟨ha, -⟩
    · rcases hheld b q hb with ⟨rfl, -⟩ | ⟨hb, -⟩
      · rfl
      · exact absurd hpq.symm (Nat.ne_of_lt (hlt b q hb))
    · rcases hheld b q hb with ⟨rfl, rfl⟩ | ⟨hb, -⟩
      · exact absurd hpq (Nat.ne_of_lt (hlt a p ha))
      · exact h.apart a b p q ha hb hpq
  · rcases hheld a p ha with ⟨rfl, rfl⟩ | ⟨ha, -⟩
    · exact Nat.ne_of_lt (h.lt_names (h.registryFile reg hreg))
    · exact h.registryApart a p reg ha hreg
  · rcases hheld (some i) p ha with ⟨-, rfl⟩ | ⟨ha, -⟩
    · exact Nat.ne_of_lt (h.lt_names (h.markerFile mk hmk))
    · exact h.markerApart i p mk ha hmk
  · rcases hheld a p ha with ⟨rfl, rfl⟩ | ⟨ha, -⟩
    · exact Nat.ne_of_gt (h.deleted f hf).1
    · exact (h.deleted f hf).2.1 a p ha

theorem NodeInv.copy (h : NodeInv log n) (hr : n.ready) {m : SnapshotMeta M} {bytes : Bytes} {path : String} {budget : Nat}
    {batches : PayloadBatches} (hb : readPayloadBatches path bytes budget = .ok batches) (hd : log.Delivers m bytes)
    (hnext : n.disk.contents.next ≤ m.next) :
    NodeInv log { n.addFile bytes with restore := some ⟨false, ⟨m, n.names⟩, .copied batches⟩ } := by
  have h₀ := h.addFile bytes
  have hnone : n.restore = none := hr.2.2.2
  have hheld : ∀ a p, Node.held { n.addFile bytes with restore := some ⟨false, ⟨m, n.names⟩, .copied batches⟩ } a = some p →
      a = none ∧ p = (m, n.names) ∨ n.held a = some p ∧ a ≠ none := by
    intro a p ha
    cases a with
    | none => exact .inl ⟨rfl, (Option.some.inj ha).symm⟩
    | some i => exact .inr ⟨ha, Option.some_ne_none i⟩
  obtain ⟨hapart, hreg, hmarker, hdel⟩ := h.apart_fresh hheld
  exact { h₀ with
    written := fun e he => by cases hr.2.2.1.symm.trans he
    guarded := fun hon mk hmk => by
      rcases h.guarded hon mk hmk with hp | ⟨r, hr', -⟩
      · exact .inl hp
      · cases hnone.symm.trans hr'
    restore := fun r hr' => by
      obtain rfl := Option.some.inj hr'
      obtain ⟨k, target, hk, hm, hreads⟩ := hd
      exact ⟨⟨fun hc => (by cases hc), fun hc => (by rcases hc with hc | hc <;> cases hc), hnext,
        ⟨k, target, hk, hm, hreads.batches hb⟩, fun hc => (by cases hc), fun old hc => (by cases hc), fun _ _ => rfl⟩, hr.1⟩
    heldFile := fun a p ha => by
      rcases hheld a p ha with ⟨-, rfl⟩ | ⟨ha, -⟩
      · exact stored_new hd
      · exact h₀.heldFile a p ha
    apart := hapart
    registryApart := hreg
    markerApart := hmarker
    deleted := fun f hf => by
      have hf₀ : n.deletes f := Node.deletes_of_restore hf rfl fun r hr' hp => by cases hr'; cases hp
      obtain ⟨hlt, -, hrest⟩ := h.deleted f hf₀
      exact ⟨Nat.lt_succ_of_lt hlt, hdel f hf₀, hrest⟩
    current := fun hp hfin => h.current hp fun hf => by
      rcases hf with ⟨r, hr', -⟩ | hf
      · cases hnone.symm.trans hr'
      · exact hfin (.inr hf)
    unpowered := fun hpow => absurd hr.1 hpow }

omit [Rmp] [PairJson] [ApplyBytes] [Inhabited M] in
theorem Restore.held_eq_some {p : SnapshotMeta M × SnapName} :
    r.held = some p ↔ r.phase.holds = true ∧ r.boot = false ∧ (r.marker.snapMeta, r.marker.payload) = p := by
  unfold Restore.held
  cases r.phase.holds <;> cases r.boot <;> simp

/-- A restore goes on or ends; as long as its marker stands it may have written to the state. -/
theorem NodeInv.go_on (h : NodeInv log n) {c : Contents M} {o : Option (Restore M)} (hr : n.restore = some r)
    (hc : c = n.disk.contents ∨ r.phase.marked = true ∧ n.disk.contents.next ≤ c.next ∧
      (c.lastApplied = n.disk.contents.lastApplied ∨ c.lastApplied = r.marker.snapMeta.lastLogId))
    (hheld : ∀ r', o = some r' → ∀ p, r'.held = some p → r.held = some p)
    (hmarked : n.poisoned = true ∨ (r.phase.marked = true → ∃ r', o = some r' ∧ r'.phase.marked = true))
    (hcur : n.poisoned = false → ¬ Node.finishes { n.setContents c with restore := o } →
      n.current = none ∨ n.current = n.disk.registry)
    (hdel : ∀ r' f, o = some r' → r'.phase ≠ .registered (some f))
    (hinv : ∀ r', o = some r' → RestoreInv log c n.disk.restoreBegin n.disk.registry r' ∧ r'.boot = r.boot) :
    NodeInv log { n.setContents c with restore := o } := by
  obtain ⟨hrestore, hpower⟩ := h.restore r hr
  have hnext : n.disk.contents.next ≤ c.next := by
    rcases hc with rfl | hc
    · exact Nat.le_refl _
    · exact hc.2.1
  have hsame : ∀ a p, Node.held { n.setContents c with restore := o } a = some p → n.held a = some p := by
    intro a p ha
    cases a with
    | none =>
      obtain ⟨r', hr', hp⟩ := Option.bind_eq_some_iff.mp ha
      exact Option.bind_eq_some_iff.mpr ⟨r, hr, hheld r' hr' p hp⟩
    | some i => exact ha
  exact { h with
    settled := fun hm _ => by
      rcases hc with rfl | ⟨hc, -⟩
      · exact h.settled hm (h.not_applying hr)
      · cases hm.symm.trans (hrestore.marked hc)
    written := fun e he => by cases (h.not_applying hr).symm.trans he
    guarded := fun hon m hm => by
      rcases hmarked with hp | hmarked
      · exact .inl hp
      · rcases h.guarded hon m hm with hp | ⟨r₀, hr₀, hm₀⟩
        · exact .inl hp
        · obtain rfl := Option.some.inj (hr.symm.trans hr₀)
          exact .inr (hmarked hm₀)
    ahead := fun m hm => by
      rcases hc with rfl | ⟨hc, -, hla | hla⟩
      · exact h.ahead m hm
      · exact (congrArg nextIndex hla).trans_le (h.ahead m hm)
      · obtain rfl := Option.some.inj ((hrestore.marked hc).symm.trans hm)
        exact Nat.le_of_eq (congrArg nextIndex hla)
    restore := fun r' hr' => by
      obtain ⟨hi, hb⟩ := hinv r' hr'
      exact ⟨hi, by rw [hb]; exact hpower⟩
    registryOld := fun reg hreg => Nat.le_trans (h.registryOld reg hreg) hnext
    leftover := fun m reg hm hreg hf => by
      obtain ⟨hmeta, hla⟩ := h.leftover m reg hm hreg hf
      refine ⟨hmeta, ?_⟩
      rcases hc with rfl | ⟨hc, -, hla' | hla'⟩
      · exact hla
      · exact hla'.trans hla
      · obtain rfl := Option.some.inj ((hrestore.marked hc).symm.trans hm)
        exact hla'
    builds := fun i b hb => ⟨(h.builds i b hb).1, (h.builds i b hb).2.mono hnext⟩
    heldFile := fun a p ha => h.heldFile a p (hsame a p ha)
    apart := fun a b p q ha hb => h.apart a b p q (hsame a p ha) (hsame b q hb)
    registryApart := fun a p reg ha => h.registryApart a p reg (hsame a p ha)
    deleted := fun f hd => by
      have hd₀ : n.deletes f := Node.deletes_of_restore hd rfl fun r' hr' => hdel r' f hr'
      obtain ⟨hlt, hh, hrest⟩ := h.deleted f hd₀
      exact ⟨hlt, fun a p ha => hh a p (hsame a p ha), hrest⟩
    current := hcur }

/-- While a restore is not finishing, the current snapshot does not depend on it. -/
theorem NodeInv.current_of (h : NodeInv log n) {c : Contents M} {o : Option (Restore M)} (hr : n.restore = some r)
    (hfin : r.phase.finishes = true → ∃ r', o = some r' ∧ r'.phase.finishes = true) (hp : n.poisoned = false)
    (hnot : ¬ Node.finishes { n.setContents c with restore := o }) : n.current = none ∨ n.current = n.disk.registry :=
  h.current hp fun hf => by
    rcases hf with ⟨r₀, hr₀, hf⟩ | hf
    · obtain rfl := Option.some.inj (hr.symm.trans hr₀)
      exact hnot (.inl (hfin hf))
    · exact hnot (.inr hf)

theorem NodeInv.advance (h : NodeInv log n) {c : Contents M} (hr : n.restore = some r) (hm : r.phase.marked = true)
    (hnext : n.disk.contents.next ≤ c.next) (hahead : c.next ≤ r.marker.snapMeta.next)
    (hla : c.lastApplied = n.disk.contents.lastApplied ∨ c.lastApplied = r.marker.snapMeta.lastLogId)
    (hmarked : phase.marked = true) (hholds : phase.holds = true → r.phase.holds = true)
    (hfin : r.phase.finishes = true → phase.finishes = true) (hdel : ∀ f, phase ≠ .registered (some f))
    (hreach : ∃ k target, SettledAt log k target ∧ target.snapMeta = r.marker.snapMeta ∧ phase.Reaches c target)
    (hreg : phase.registers = true → n.disk.registry = some (r.marker.snapMeta, r.marker.payload))
    (hold : ∀ old, phase = .oldRead old → old = n.disk.registry.map (·.2)) :
    NodeInv log ((n.setContents c).setPhase r phase) := by
  obtain ⟨hrestore, -⟩ := h.restore r hr
  refine h.go_on hr (.inr ⟨hm, hnext, hla⟩) ?_ (.inr fun _ => ⟨_, rfl, hmarked⟩)
    (h.current_of hr fun hf => ⟨_, rfl, hfin hf⟩) ?_ ?_
  · intro r' hr' p hheld
    obtain rfl := Option.some.inj hr'
    obtain ⟨hh, hb, hp⟩ := Restore.held_eq_some.mp hheld
    exact Restore.held_eq_some.mpr ⟨hholds hh, hb, hp⟩
  · intro r' f hr'
    obtain rfl := Option.some.inj hr'
    exact hdel f
  · intro r' hr'
    obtain rfl := Option.some.inj hr'
    have hnc : ¬ (phase = .cleared ∨ phase = .unpoisoned) := by
      intro hc
      rcases hc with rfl | rfl <;> cases hmarked
    exact ⟨⟨fun _ => hrestore.marked hm, fun hc => absurd hc hnc, hahead, hreach, hreg, hold,
      fun batches hc => by subst hc; cases hmarked⟩, rfl⟩

omit [Rmp] [PairJson] [ApplyBytes] [Inhabited M] in
theorem restoreFrom_table (t : Table) (first : Bool) (chunks : List KeyValuePairs) :
    (StateMachine.restoreFrom t first (chunks.map .ok)).2 = KV.writeBatch (if first then ∅ else t) chunks.flatten [] := by
  cases first with
  | true => rw [restoreFrom_true, if_pos rfl]
  | false => rw [restoreFrom_false, if_neg Bool.false_ne_true]

theorem NodeInv.batch (h : NodeInv log n) {first : Bool} {batches batches' : PayloadBatches} {batch : KeyValuePairs}
    (hr : n.restore = some r) (hp : r.phase = .restoring first batches) (hb : batches.next = some (.ok (batch, batches'))) :
    NodeInv log ((n.setContents { n.disk.contents with
      table := (StateMachine.restoreFrom n.disk.contents.table first [.ok batch]).2 }).setPhase r (.restoring false batches')) := by
  obtain ⟨hrestore, -⟩ := h.restore r hr
  obtain ⟨k, target, hk, hmeta, hreach⟩ := hrestore.reaches
  rw [hp] at hreach
  obtain ⟨all, hall, hT⟩ := hreach
  rw [batches_ok hb, Result.map_ok] at hall
  obtain ⟨rest, hrest, rfl⟩ := hall
  have hone := restoreFrom_table n.disk.contents.table first [batch]
  rw [List.flatten_singleton] at hone
  refine h.advance hr (by rw [hp]; rfl) (Nat.le_refl _) hrestore.ahead (.inl rfl) rfl (fun _ => by rw [hp]; rfl)
    (fun hf => by rw [hp] at hf; cases hf) (fun f hc => by cases hc)
    ⟨k, target, hk, hmeta, rest, hrest, ?_⟩ (fun hc => by cases hc) (fun old hc => by cases hc)
  rw [if_neg Bool.false_ne_true, ← hT, List.flatten_cons]
  change KV.writeBatch (StateMachine.restoreFrom n.disk.contents.table first ([batch].map .ok)).2 rest.flatten [] = _
  rw [hone]
  exact List.foldl_append.symm

theorem NodeInv.lastBatch (h : NodeInv log n) {first : Bool} {batches : PayloadBatches} (hr : n.restore = some r)
    (hp : r.phase = .restoring first batches) (hb : batches.next = none) :
    NodeInv log ((n.setContents { n.disk.contents with
      table := (StateMachine.restoreFrom n.disk.contents.table first []).2 }).setPhase r .restored) := by
  obtain ⟨hrestore, -⟩ := h.restore r hr
  obtain ⟨k, target, hk, hmeta, hreach⟩ := hrestore.reaches
  rw [hp] at hreach
  obtain ⟨all, hall, hT⟩ := hreach
  rw [batches_none hb] at hall
  obtain rfl := Except.ok.inj hall
  exact h.advance hr (by rw [hp]; rfl) (Nat.le_refl _) hrestore.ahead (.inl rfl) rfl (fun _ => by rw [hp]; rfl)
    (fun hf => by rw [hp] at hf; cases hf) (fun f hc => by cases hc)
    ⟨k, target, hk, hmeta, (restoreFrom_table n.disk.contents.table first []).trans hT⟩ (fun hc => by cases hc)
    (fun old hc => by cases hc)

theorem NodeInv.putLastApplied (h : NodeInv log n) (hr : n.restore = some r) (hp : r.phase = .restored) :
    NodeInv log ((n.setContents { n.disk.contents with lastApplied := r.marker.snapMeta.lastLogId }).setPhase r .appliedPut) := by
  obtain ⟨hrestore, -⟩ := h.restore r hr
  obtain ⟨k, target, hk, hmeta, hreach⟩ := hrestore.reaches
  rw [hp] at hreach
  have hla : r.marker.snapMeta.lastLogId = target.lastApplied := by rw [← hmeta]; rfl
  exact h.advance hr (by rw [hp]; rfl) hrestore.ahead (Nat.le_refl _) (.inr rfl) rfl (fun _ => by rw [hp]; rfl)
    (fun hf => by rw [hp] at hf; cases hf) (fun f hc => by cases hc) ⟨k, target, hk, hmeta, hreach, hla⟩ (fun hc => by cases hc)
    (fun old hc => by cases hc)

theorem NodeInv.putMembership (h : NodeInv log n) (hr : n.restore = some r) (hp : r.phase = .appliedPut) :
    NodeInv log ((n.setContents { n.disk.contents with membership := r.marker.snapMeta.lastMembership }).setPhase r
      .membershipPut) := by
  obtain ⟨hrestore, -⟩ := h.restore r hr
  obtain ⟨k, target, hk, hmeta, hreach⟩ := hrestore.reaches
  rw [hp] at hreach
  have hwhole : Contents.mk n.disk.contents.table n.disk.contents.lastApplied r.marker.snapMeta.lastMembership = target := by
    rw [hreach.1, hreach.2, ← hmeta]
    rfl
  exact h.advance hr (by rw [hp]; rfl) (Nat.le_refl _) hrestore.ahead (.inl rfl) rfl (fun _ => by rw [hp]; rfl)
    (fun hf => by rw [hp] at hf; cases hf) (fun f hc => by cases hc) ⟨k, target, hk, hmeta, hwhole⟩ (fun hc => by cases hc)
    (fun old hc => by cases hc)

theorem NodeInv.readOld (h : NodeInv log n) (hr : n.restore = some r) (hp : r.phase = .membershipPut) :
    NodeInv log (n.setPhase r (.oldRead (n.disk.registry.map (·.2)))) := by
  obtain ⟨hrestore, -⟩ := h.restore r hr
  obtain ⟨k, target, hk, hmeta, hreach⟩ := hrestore.reaches
  rw [hp] at hreach
  exact h.advance hr (by rw [hp]; rfl) (Nat.le_refl _) hrestore.ahead (.inl rfl) rfl (fun _ => by rw [hp]; rfl)
    (fun hf => by rw [hp] at hf; cases hf) (fun f hc => by cases hc) ⟨k, target, hk, hmeta, hreach⟩ (fun hc => by cases hc)
    (fun old hc => (RestorePhase.oldRead.inj hc).symm)

theorem NodeInv.fail (h : NodeInv log n) (hr : n.restore = some r) (hp : r.phase.mayFail = true) :
    NodeInv log (n.setPhase r .failed) := by
  obtain ⟨hrestore, -⟩ := h.restore r hr
  obtain ⟨k, target, hk, hmeta, -⟩ := hrestore.reaches
  have hm : r.phase.marked = true := by
    cases hphase : r.phase <;> rw [hphase] at hp <;> first | rfl | cases hp
  exact h.advance hr hm (Nat.le_refl _) hrestore.ahead (.inl rfl) rfl (fun hc => by cases hc) (fun _ => rfl)
    (fun f hc => by cases hc) ⟨k, target, hk, hmeta, trivial⟩ (fun hc => by cases hc) (fun old hc => by cases hc)

theorem NodeInv.on_of_install (h : NodeInv log n) (hr : n.restore = some r) (hb : r.boot = false) : n.power = .on := by
  rw [(h.restore r hr).2, hb]
  rfl

omit [Rmp] [PairJson] [ApplyBytes] [Inhabited M] in
theorem Node.held_restore (hr : n.restore = some r) (hb : r.boot = false)
    (hp : r.phase.holds = true) : n.held none = some (r.marker.snapMeta, r.marker.payload) := by
  rw [Node.held, hr, Option.bind_some]
  exact Restore.held_eq_some.mpr ⟨hp, hb, rfl⟩

theorem NodeInv.begin (h : NodeInv log n) {batches : PayloadBatches} (hr : n.restore = some r)
    (hp : r.phase = .copied batches) :
    NodeInv log { n.setPhase r (.restoring true batches) with disk := { n.disk with restoreBegin := some r.marker } } := by
  obtain ⟨hrestore, hpower⟩ := h.restore r hr
  have hb := hrestore.copied batches hp
  obtain ⟨k, target, hk, hmeta, hreach⟩ := hrestore.reaches
  rw [hp] at hreach
  have hheld := Node.held_restore hr hb (by rw [hp]; rfl)
  have hsame : ∀ a p, Node.held { n.setPhase r (.restoring true batches) with
      disk := { n.disk with restoreBegin := some r.marker } } a = some p → n.held a = some p := by
    intro a p ha
    cases a with
    | none =>
      have ha : Restore.held { r with phase := .restoring true batches } = some p := ha
      rw [hheld, ← (Restore.held_eq_some.mp ha).2.2]
    | some i => exact ha
  exact { h with
    settled := fun hm => by cases hm
    written := fun e he => by cases (h.not_applying hr).symm.trans he
    guarded := fun _ m hm => .inr ⟨_, rfl, rfl⟩
    poison := fun _ hm => by cases hm
    ahead := fun m hm => by
      obtain rfl := Option.some.inj hm
      exact hrestore.ahead
    restore := fun r' hr' => by
      obtain rfl := Option.some.inj hr'
      exact ⟨⟨fun _ => rfl, fun hc => (by rcases hc with hc | hc <;> cases hc), hrestore.ahead,
        ⟨k, target, hk, hmeta, hreach⟩, fun hc => (by cases hc), fun old hc => (by cases hc), fun _ hc => (by cases hc)⟩, hpower⟩
    leftover := fun m reg hm hreg hf => by
      obtain rfl := Option.some.inj hm
      exact absurd hf (h.registryApart none _ reg hheld hreg)
    markerFile := fun m hm => by
      obtain rfl := Option.some.inj hm
      exact h.heldFile none _ hheld
    heldFile := fun a p ha => h.heldFile a p (hsame a p ha)
    apart := fun a b p q ha hb => h.apart a b p q (hsame a p ha) (hsame b q hb)
    registryApart := fun a p reg ha => h.registryApart a p reg (hsame a p ha)
    markerApart := fun i p m ha hm hf => by
      obtain rfl := Option.some.inj hm
      cases h.apart none (some i) _ p hheld ha hf
    deleted := fun f hd => by
      have hd₀ : n.deletes f := Node.deletes_of_restore hd rfl fun r' hr' hp' => by cases hr'; cases hp'
      obtain ⟨hlt, hh, hreg, -⟩ := h.deleted f hd₀
      refine ⟨hlt, fun a p ha => hh a p (hsame a p ha), hreg, fun m hm => ?_⟩
      obtain rfl := Option.some.inj hm
      exact hh none _ hheld
    current := fun hp' hfin => h.current hp' fun hf => by
      rcases hf with ⟨r₀, hr₀, hf⟩ | hf
      · obtain rfl := Option.some.inj (hr.symm.trans hr₀)
        rw [hp] at hf
        cases hf
      · exact hfin (.inr hf) }

omit [Rmp] [PairJson] in
theorem BuildInv.of_not_commits {next : Nat} {registry registry' : Option (SnapshotMeta M × SnapName)} {b : BuildPhase M}
    (hb : b.commits = false) (h : BuildInv log next registry b) : BuildInv log next registry' b := by
  cases b with
  | unpoisoned => trivial
  | captured m t => exact h
  | written m f => exact h
  | newer m f => cases hb
  | oldRead m f old => cases hb
  | registered m f old => cases hb
  | oldDeleted m f => cases hb

omit [Rmp] [PairJson] [ApplyBytes] [Inhabited M] in
theorem Node.deletes_of_build {f : SnapName} (hd : n.deletes f)
    (hbuilds : ∀ i b, n.builds i = some b → b.commits = false) :
    ∃ r, n.restore = some r ∧ r.phase = .registered (some f) ∧ f ≠ r.marker.payload := by
  rcases hd with hd | ⟨i, m, g, hi⟩
  · exact hd
  · cases hbuilds i _ hi

theorem NodeInv.register (h : NodeInv log n) {old : Option SnapName} (hr : n.restore = some r) (hp : r.phase = .oldRead old)
    (hbuilds : ∀ i b, n.builds i = some b → b.commits = false) :
    NodeInv log ((n.register r.marker.snapMeta r.marker.payload).setPhase r (.registered old)) := by
  obtain ⟨hrestore, hpower⟩ := h.restore r hr
  have hmarker := hrestore.marked (by rw [hp]; rfl)
  obtain ⟨k, target, hk, hmeta, hreach⟩ := hrestore.reaches
  rw [hp] at hreach
  have hla : n.disk.contents.lastApplied = r.marker.snapMeta.lastLogId := by
    rw [show n.disk.contents = target from hreach, ← hmeta]
    rfl
  exact { h with
    restore := fun r' hr' => by
      obtain rfl := Option.some.inj hr'
      exact ⟨⟨fun _ => hmarker, fun hc => (by rcases hc with hc | hc <;> cases hc), hrestore.ahead,
        ⟨k, target, hk, hmeta, hreach⟩, fun _ => rfl, fun old hc => (by cases hc), fun _ hc => (by cases hc)⟩, hpower⟩
    guarded := fun _ m hm => .inr ⟨_, rfl, rfl⟩
    written := fun e he => by cases (h.not_applying hr).symm.trans he
    registryOld := fun reg hreg => by
      obtain rfl := Option.some.inj hreg
      exact Nat.le_of_eq (congrArg nextIndex hla.symm)
    leftover := fun m reg hm hreg _ => by
      obtain rfl := Option.some.inj (hmarker.symm.trans hm)
      obtain rfl := Option.some.inj hreg
      exact ⟨rfl, hla⟩
    builds := fun i b hb => ⟨(h.builds i b hb).1, (h.builds i b hb).2.of_not_commits (hbuilds i b hb)⟩
    registryFile := fun reg hreg => by
      obtain rfl := Option.some.inj hreg
      exact h.markerFile r.marker hmarker
    heldFile := fun a p ha => by
      cases a with
      | none => cases ha
      | some i => exact h.heldFile (some i) p ha
    apart := fun a b p q ha hb hpq => by
      cases a with
      | none => cases ha
      | some i =>
        cases b with
        | none => cases hb
        | some j => exact h.apart (some i) (some j) p q ha hb hpq
    registryApart := fun a p reg ha hreg => by
      obtain rfl := Option.some.inj hreg
      cases a with
      | none => cases ha
      | some i => exact h.markerApart i p r.marker ha hmarker
    deleted := fun f hd => by
      obtain ⟨r', hr', hp', hne⟩ := Node.deletes_of_build hd hbuilds
      obtain rfl := Option.some.inj hr'
      obtain rfl : old = some f := RestorePhase.registered.inj hp'
      obtain ⟨reg, hreg, hf⟩ := Option.map_eq_some_iff.mp (hrestore.old _ hp).symm
      refine ⟨hf ▸ h.lt_names (h.registryFile reg hreg), fun a p ha => ?_, fun reg' hreg' => ?_, fun m hm => ?_⟩
      · cases a with
        | none => cases ha
        | some i => exact fun e => h.registryApart (some i) p reg ha hreg (hf.trans e.symm)
      · obtain rfl := Option.some.inj hreg'
        exact Ne.symm hne
      · obtain rfl := Option.some.inj (hmarker.symm.trans hm)
        exact Ne.symm hne
    current := fun _ hfin => absurd (.inl ⟨_, rfl, rfl⟩) hfin }

theorem NodeInv.notBegun (h : NodeInv log n) {batches : PayloadBatches} (hr : n.restore = some r)
    (hp : r.phase = .copied batches) : NodeInv log { n with restore := none } :=
  h.go_on hr (.inl rfl) (fun r' hr' => by cases hr') (.inr fun hm => by rw [hp] at hm; cases hm)
    (h.current_of hr fun hf => by rw [hp] at hf; cases hf) (fun r' f hr' => by cases hr') (fun r' hr' => by cases hr')

theorem NodeInv.deleteOldFile (h : NodeInv log n) {old : Option SnapName} (deleted : Bool) (hr : n.restore = some r)
    (hp : r.phase = .registered old) :
    NodeInv log ((n.deleteOld (deleted && old ≠ some r.marker.payload) old).setPhase r .oldDeleted) := by
  obtain ⟨hrestore, -⟩ := h.restore r hr
  obtain ⟨k, target, hk, hmeta, hreach⟩ := hrestore.reaches
  rw [hp] at hreach
  have h₁ : NodeInv log (n.deleteOld (deleted && old ≠ some r.marker.payload) old) := by
    refine h.deleteOld fun f hd hf => .inl ⟨r, hr, hf ▸ hp, fun e => ?_⟩
    simp only [Bool.and_eq_true, decide_eq_true_eq] at hd
    exact hd.2 (e ▸ hf)
  exact h₁.advance hr (by rw [hp]; rfl) (Nat.le_refl _) hrestore.ahead (.inl rfl) rfl (fun hc => by cases hc) (fun _ => rfl)
    (fun f hc => by cases hc) ⟨k, target, hk, hmeta, hreach⟩ (fun _ => hrestore.registers (by rw [hp]; rfl))
    (fun old hc => by cases hc)

theorem NodeInv.clear (h : NodeInv log n) (hr : n.restore = some r) (hp : r.phase = .oldDeleted) :
    NodeInv log { n.setPhase r .cleared with disk := { n.disk with restoreBegin := none, restorePoison := false } } := by
  obtain ⟨hrestore, hpower⟩ := h.restore r hr
  obtain ⟨k, target, hk, hmeta, hreach⟩ := hrestore.reaches
  rw [hp] at hreach
  have hsame : ∀ a p, Node.held { n.setPhase r .cleared with
      disk := { n.disk with restoreBegin := none, restorePoison := false } } a = some p → n.held a = some p := by
    intro a p ha
    cases a with
    | none => cases ha
    | some i => exact ha
  exact { h with
    settled := fun _ _ => ⟨k, by rw [show n.disk.contents = target from hreach]; exact hk⟩
    written := fun e he => by cases (h.not_applying hr).symm.trans he
    guarded := fun _ m hm => by cases hm
    poison := fun hc => by cases hc
    ahead := fun m hm => by cases hm
    restore := fun r' hr' => by
      obtain rfl := Option.some.inj hr'
      exact ⟨⟨fun hc => (by cases hc), fun _ => rfl, hrestore.ahead, ⟨k, target, hk, hmeta, trivial⟩,
        fun _ => hrestore.registers (by rw [hp]; rfl), fun old hc => (by cases hc), fun _ hc => (by cases hc)⟩, hpower⟩
    leftover := fun m reg hm => by cases hm
    markerFile := fun m hm => by cases hm
    heldFile := fun a p ha => h.heldFile a p (hsame a p ha)
    apart := fun a b p q ha hb => h.apart a b p q (hsame a p ha) (hsame b q hb)
    registryApart := fun a p reg ha => h.registryApart a p reg (hsame a p ha)
    markerApart := fun i p m _ hm => by cases hm
    deleted := fun f hd => by
      have hd₀ : n.deletes f := Node.deletes_of_restore hd rfl fun r' hr' hp' => by cases hr'; cases hp'
      obtain ⟨hlt, hh, hreg, -⟩ := h.deleted f hd₀
      exact ⟨hlt, fun a p ha => hh a p (hsame a p ha), hreg, fun m hm => by cases hm⟩
    current := fun _ hfin => absurd (.inl ⟨_, rfl, rfl⟩) hfin }

theorem NodeInv.unpoison (h : NodeInv log n) (hr : n.restore = some r) (hp : r.phase = .cleared) :
    NodeInv log { n.setPhase r .unpoisoned with poisoned := false } := by
  obtain ⟨hrestore, -⟩ := h.restore r hr
  have hnone := hrestore.cleared (.inl hp)
  obtain ⟨k, target, hk, hmeta, -⟩ := hrestore.reaches
  have h₁ : NodeInv log (n.setPhase r .unpoisoned) := by
    refine h.go_on hr (.inl rfl) (fun r' hr' p hheld => ?_) (.inr fun hm => by rw [hp] at hm; cases hm)
      (h.current_of hr fun _ => ⟨_, rfl, rfl⟩) (fun r' f hr' hc => ?_) (fun r' hr' => ?_)
    · obtain rfl := Option.some.inj hr'
      cases hheld
    · obtain rfl := Option.some.inj hr'
      cases hc
    · obtain rfl := Option.some.inj hr'
      exact ⟨⟨fun hc => (by cases hc), fun _ => hnone, hrestore.ahead, ⟨k, target, hk, hmeta, trivial⟩,
        fun _ => hrestore.registers (by rw [hp]; rfl), fun old hc => (by cases hc), fun _ hc => (by cases hc)⟩, rfl⟩
  exact { h₁ with
    guarded := fun _ m hm => by cases hnone.symm.trans hm
    current := fun _ hfin => absurd (.inl ⟨_, rfl, rfl⟩) hfin }

theorem NodeInv.installed (h : NodeInv log n) (hr : n.restore = some r) (hp : r.phase = .unpoisoned) (hb : r.boot = false) :
    NodeInv log { n with current := some (r.marker.snapMeta, r.marker.payload), restore := none } := by
  obtain ⟨hrestore, -⟩ := h.restore r hr
  have hreg := hrestore.registers (by rw [hp]; rfl)
  have h₁ : NodeInv log { n with current := some (r.marker.snapMeta, r.marker.payload) } :=
    { h with
      current := fun _ _ => .inr hreg.symm
      unpowered := fun hpow => absurd (h.on_of_install hr hb) hpow }
  exact h₁.go_on hr (.inl rfl) (fun r' hr' => by cases hr') (.inr fun hm => by rw [hp] at hm; cases hm)
    (fun _ _ => .inr hreg.symm) (fun r' f hr' => by cases hr') (fun r' hr' => by cases hr')

theorem NodeInv.poisons (h : NodeInv log n) (persisted : Bool) (hr : n.restore = some r) (hp : r.phase = .failed) :
    NodeInv log { n with
      poisoned := true, restore := none, disk := { n.disk with restorePoison := n.disk.restorePoison || persisted } } := by
  obtain ⟨hrestore, -⟩ := h.restore r hr
  have hmarker := hrestore.marked (by rw [hp]; rfl)
  have h₁ : NodeInv log { n with
      poisoned := true, disk := { n.disk with restorePoison := n.disk.restorePoison || persisted } } :=
    { h with
      guarded := fun _ _ _ => .inl rfl
      poison := fun _ hc => by cases hmarker.symm.trans hc
      current := fun hc => by cases hc }
  exact h₁.go_on hr (.inl rfl) (fun r' hr' => by cases hr') (.inl rfl) (fun hc => by cases hc) (fun r' f hr' => by cases hr')
    (fun r' hr' => by cases hr')

end

/-! ## Builds -/

section
variable {n : Node M} {i : ℕ} {b : BuildPhase M} {m m' : SnapshotMeta M} {f : SnapName} {bytes bytes' : Bytes}

theorem newer_iff_next (h : log.Delivers m bytes) (h' : log.Delivers m' bytes') : snapshotMetaNewer m m' ↔ m'.next < m.next := by
  obtain ⟨j, c, hj, rfl, -⟩ := h
  obtain ⟨k, c', hk, rfl, -⟩ := h'
  have hjn : c.snapMeta.next = j := hj.next
  have hkn : c'.snapMeta.next = k := hk.next
  rw [hjn, hkn]
  exact newer_iff hj.lastApplied hk.lastApplied hj.le hk.le

omit [Rmp] [PairJson] [ApplyBytes] [Inhabited M] in
theorem Node.setBuild_self (n : Node M) (i : ℕ) (o : Option (BuildPhase M)) : (n.setBuild i o).builds i = o :=
  Function.update_self ..

omit [Rmp] [PairJson] [ApplyBytes] [Inhabited M] in
theorem Node.setBuild_ne (n : Node M) {i j : ℕ} (o : Option (BuildPhase M)) (h : j ≠ i) :
    (n.setBuild i o).builds j = n.builds j := Function.update_of_ne h _ _

omit [Rmp] [PairJson] [ApplyBytes] [Inhabited M] in
/-- What is asked of all builds is asked of the one that has changed and of the others. -/
theorem Node.forall_setBuild {P : ℕ → BuildPhase M → Prop} {o : Option (BuildPhase M)} (hi : ∀ b, o = some b → P i b)
    (hothers : ∀ j b, j ≠ i → n.builds j = some b → P j b) (j : ℕ) (b : BuildPhase M)
    (hj : (n.setBuild i o).builds j = some b) : P j b := by
  by_cases hji : j = i
  · subst hji
    rw [Node.setBuild_self] at hj
    exact hi b hj
  · rw [Node.setBuild_ne n o hji] at hj
    exact hothers j b hji hj

omit [Rmp] [PairJson] [ApplyBytes] [Inhabited M] in
theorem Node.held_setBuild {o : Option (BuildPhase M)} {a : Option ℕ} {p : SnapshotMeta M × SnapName}
    (ha : (n.setBuild i o).held a = some p) : a = some i ∧ o.bind (·.held) = some p ∨ n.held a = some p ∧ a ≠ some i := by
  by_cases hai : a = some i
  · subst hai
    rw [Node.held, Node.setBuild_self] at ha
    exact .inl ⟨rfl, ha⟩
  · cases a with
    | none => exact .inr ⟨ha, hai⟩
    | some j =>
      rw [Node.held, Node.setBuild_ne n o fun e => hai (congrArg some e)] at ha
      exact .inr ⟨ha, hai⟩

omit [Rmp] [PairJson] [ApplyBytes] [Inhabited M] in
theorem Node.deletes_setBuild {o : Option (BuildPhase M)} {f : SnapName} (hd : (n.setBuild i o).deletes f) :
    (∃ m g, o = some (.registered m g (some f))) ∨
      (∃ r, n.restore = some r ∧ r.phase = .registered (some f) ∧ f ≠ r.marker.payload) ∨
      ∃ j m g, j ≠ i ∧ n.builds j = some (.registered m g (some f)) := by
  rcases hd with hd | ⟨j, m, g, hj⟩
  · exact .inr (.inl hd)
  · by_cases hji : j = i
    · subst hji
      rw [Node.setBuild_self] at hj
      exact .inl ⟨m, g, hj⟩
    · rw [Node.setBuild_ne n o hji] at hj
      exact .inr (.inr ⟨j, m, g, hji, hj⟩)

theorem NodeInv.build (h : NodeInv log n) {o : Option (BuildPhase M)} (hon : n.power = .on)
    (hheld : ∀ b, o = some b → ∀ p, b.held = some p → n.held (some i) = some p)
    (hcur : n.poisoned = false → ¬ (n.setBuild i o).finishes → n.current = none ∨ n.current = n.disk.registry)
    (hdel : ∀ m g f, o ≠ some (.registered m g (some f)))
    (hinv : ∀ b, o = some b → BuildInv log n.disk.contents.next n.disk.registry b) : NodeInv log (n.setBuild i o) := by
  have hsame : ∀ a p, (n.setBuild i o).held a = some p → n.held a = some p := by
    intro a p ha
    rcases Node.held_setBuild ha with ⟨rfl, hp⟩ | ⟨ha, -⟩
    · obtain ⟨b, hb, hp⟩ := Option.bind_eq_some_iff.mp hp
      exact hheld b hb p hp
    · exact ha
  exact { h with
    builds := Node.forall_setBuild (fun b hb => ⟨hon, hinv b hb⟩) fun j b _ hb => h.builds j b hb
    heldFile := fun a p ha => h.heldFile a p (hsame a p ha)
    apart := fun a b p q ha hb => h.apart a b p q (hsame a p ha) (hsame b q hb)
    registryApart := fun a p reg ha => h.registryApart a p reg (hsame a p ha)
    markerApart := fun j p m ha => h.markerApart j p m (hsame (some j) p ha)
    deleted := fun f hd => by
      have hd₀ : n.deletes f := by
        rcases Node.deletes_setBuild hd with ⟨m, g, ho⟩ | hd | ⟨j, m, g, -, hj⟩
        · exact absurd ho (hdel m g f)
        · exact .inl hd
        · exact .inr ⟨j, m, g, hj⟩
      obtain ⟨hlt, hh, hrest⟩ := h.deleted f hd₀
      exact ⟨hlt, fun a p ha => hh a p (hsame a p ha), hrest⟩
    current := hcur }

/-- While a build is not finishing, the current snapshot does not depend on it. -/
theorem NodeInv.current_of_build (h : NodeInv log n) {o : Option (BuildPhase M)} (hi : n.builds i = some b ∨ n.builds i = none)
    (hfin : n.builds i = some b → b.finishes = true → ∃ b', o = some b' ∧ b'.finishes = true) (hp : n.poisoned = false)
    (hnot : ¬ (n.setBuild i o).finishes) : n.current = none ∨ n.current = n.disk.registry :=
  h.current hp fun hf => by
    rcases hf with hf | ⟨j, b₀, hj, hf⟩
    · exact hnot (.inl hf)
    · by_cases hji : j = i
      · subst hji
        rcases hi with hi | hi
        · obtain rfl := Option.some.inj (hi.symm.trans hj)
          obtain ⟨b', hb', hf'⟩ := hfin hi hf
          exact hnot (.inr ⟨j, b', by rw [Node.setBuild_self, hb'], hf'⟩)
        · cases hi.symm.trans hj
      · exact hnot (.inr ⟨j, b₀, by rw [Node.setBuild_ne n o hji]; exact hj, hf⟩)

theorem NodeInv.buildStart (h : NodeInv log n) (hon : n.power = .on) (hi : n.builds i = none) :
    NodeInv log (n.setBuild i (some .unpoisoned)) :=
  h.build hon (fun b hb p hp => by obtain rfl := Option.some.inj hb; cases hp)
    (h.current_of_build (b := .unpoisoned) (.inr hi) fun hc => by cases hi.symm.trans hc)
    (fun m g f hc => by cases hc) fun b hb => by obtain rfl := Option.some.inj hb; trivial

/-- Where no write lock is held and no restore has failed, the state is settled. -/
theorem NodeInv.settled_unlocked (h : NodeInv log n) (hon : n.power = .on) (hl : n.unlocked) (hp : n.poisoned = false)
    (hfail : ∀ r, n.restore = some r → r.phase ≠ .failed) : Settled log n.disk.contents := by
  obtain ⟨happ, hlock⟩ := hl
  cases hm : n.disk.restoreBegin with
  | none => exact h.settled hm happ
  | some m =>
    rcases h.guarded hon m hm with hc | ⟨r, hr, hmarked⟩
    · rw [hp] at hc
      cases hc
    · obtain ⟨k, target, hk, -, hreach⟩ := (h.restore r hr).1.reaches
      have hlr := hlock r hr
      have hfr := hfail r hr
      cases hphase : r.phase with
      | registered old =>
        rw [hphase] at hreach
        exact ⟨k, by rw [show n.disk.contents = target from hreach]; exact hk⟩
      | oldDeleted =>
        rw [hphase] at hreach
        exact ⟨k, by rw [show n.disk.contents = target from hreach]; exact hk⟩
      | failed => exact absurd hphase hfr
      | copied _ => rw [hphase] at hmarked; cases hmarked
      | cleared => rw [hphase] at hmarked; cases hmarked
      | unpoisoned => rw [hphase] at hmarked; cases hmarked
      | restoring _ _ => rw [hphase] at hlr; cases hlr
      | restored => rw [hphase] at hlr; cases hlr
      | appliedPut => rw [hphase] at hlr; cases hlr
      | membershipPut => rw [hphase] at hlr; cases hlr
      | oldRead _ => rw [hphase] at hlr; cases hlr

theorem NodeInv.capture (h : NodeInv log n) (hi : n.builds i = some .unpoisoned) (hl : n.unlocked) (hp : n.poisoned = false)
    (hfail : ∀ r, n.restore = some r → r.phase ≠ .failed) :
    NodeInv log (n.setBuild i (some (.captured n.disk.contents.snapMeta n.disk.contents.table))) := by
  have hon := (h.builds i _ hi).1
  obtain ⟨k, hk⟩ := h.settled_unlocked hon hl hp hfail
  exact h.build hon (fun b hb p hp => by obtain rfl := Option.some.inj hb; cases hp)
    (h.current_of_build (.inl hi) fun _ hf => by cases hf) (fun m g f hc => by cases hc)
    fun b hb => by obtain rfl := Option.some.inj hb; exact ⟨Nat.le_refl _, k, _, hk, rfl, rfl⟩

theorem NodeInv.writePayload (h : NodeInv log n) (hr : Rmp.Lawful) (hj : ∀ pairs, PairJson.Reads pairs) {t : Table}
    {msgpack : Bool} {budget : Nat} (hi : n.builds i = some (.captured m t)) (hb : buildPayload msgpack budget t = .ok bytes) :
    NodeInv log ((n.addFile bytes).setBuild i (some (.written m n.names))) := by
  have h₀ := h.addFile bytes
  obtain ⟨hon, hle, k, c, hk, hm, rfl⟩ := h.builds i _ hi
  have hd : log.Delivers m bytes := ⟨k, c, hk, hm, reads_buildPayload hr hj hb⟩
  have hheld : ∀ a p, ((n.addFile bytes).setBuild i (some (.written m n.names))).held a = some p →
      a = some i ∧ p = (m, n.names) ∨ n.held a = some p ∧ a ≠ some i := by
    intro a p ha
    rcases Node.held_setBuild ha with ⟨rfl, hp⟩ | ha
    · exact .inl ⟨rfl, (Option.some.inj hp).symm⟩
    · exact .inr ha
  obtain ⟨hapart, hreg, hmarker, hdel⟩ := h.apart_fresh hheld
  exact { h₀ with
    builds := Node.forall_setBuild (fun b hb => by obtain rfl := Option.some.inj hb; exact ⟨hon, hle⟩)
      fun j b _ hb => h₀.builds j b hb
    heldFile := fun a p ha => by
      rcases hheld a p ha with ⟨-, rfl⟩ | ⟨ha, -⟩
      · exact stored_new hd
      · exact h₀.heldFile a p ha
    apart := hapart
    registryApart := hreg
    markerApart := hmarker
    deleted := fun f hf => by
      have hf₀ : n.deletes f := by
        rcases Node.deletes_setBuild hf with ⟨m', g, ho⟩ | hf | ⟨j, m', g, -, hj⟩
        · cases ho
        · exact .inl hf
        · exact .inr ⟨j, m', g, hj⟩
      obtain ⟨hlt, -, hrest⟩ := h.deleted f hf₀
      exact ⟨Nat.lt_succ_of_lt hlt, hdel f hf₀, hrest⟩
    current := h₀.current_of_build (.inl hi) fun _ hf => by cases hf }

omit [Rmp] [PairJson] [ApplyBytes] [Inhabited M] in
theorem Node.held_build {p : SnapshotMeta M × SnapName} (hi : n.builds i = some b) (hb : b.held = some p) :
    n.held (some i) = some p := by
  rw [Node.held, hi, Option.bind_some, hb]

theorem NodeInv.newer (h : NodeInv log n) (hi : n.builds i = some (.written m f))
    (hn : ∀ reg, n.disk.registry = some reg → (n.disk.files reg.2).isSome → snapshotMetaNewer m reg.1) :
    NodeInv log (n.setBuild i (some (.newer m f))) := by
  obtain ⟨hon, hle⟩ := h.builds i _ hi
  refine h.build hon (fun b hb p hp => ?_) (h.current_of_build (.inl hi) fun _ hf => by cases hf) (fun m g f hc => by cases hc)
    fun b hb => ?_
  · obtain rfl := Option.some.inj hb
    exact Node.held_build hi hp
  · obtain rfl := Option.some.inj hb
    refine ⟨hle, fun reg hreg => ?_⟩
    obtain ⟨bytes, hf, hd⟩ := h.registryFile reg hreg
    obtain ⟨bytes', -, hd'⟩ := h.heldFile (some i) (m, f) (Node.held_build hi rfl)
    exact (newer_iff_next hd' hd).mp (hn reg hreg (by rw [hf]; rfl))

theorem NodeInv.buildReadOld (h : NodeInv log n) (hi : n.builds i = some (.newer m f)) :
    NodeInv log (n.setBuild i (some (.oldRead m f (n.disk.registry.map (·.2))))) := by
  obtain ⟨hon, hle, hnewer⟩ := h.builds i _ hi
  refine h.build hon (fun b hb p hp => ?_) (h.current_of_build (.inl hi) fun _ hf => by cases hf) (fun m g f hc => by cases hc)
    fun b hb => ?_
  · obtain rfl := Option.some.inj hb
    exact Node.held_build hi hp
  · obtain rfl := Option.some.inj hb
    exact ⟨hle, hnewer, rfl⟩

theorem NodeInv.dropBuild (h : NodeInv log n) (hi : n.builds i = some b) (hb : b.finishes = false) :
    NodeInv log (n.setBuild i none) :=
  h.build (h.builds i b hi).1 (fun b hb => by cases hb)
    (h.current_of_build (.inl hi) fun _ hf => by rw [hb] at hf; cases hf) (fun m g f hc => by cases hc) fun b hb => by cases hb

omit [Rmp] [PairJson] [ApplyBytes] [Inhabited M] in
theorem RestorePhase.commits_of_registers {phase : RestorePhase} (h : phase.registers = true) : phase.commits = true := by
  cases phase <;> first | rfl | cases h

/-- A build supersedes the registry's snapshot by a newer one, which no marker needs. -/
theorem NodeInv.buildRegister (h : NodeInv log n) {old : Option SnapName} (hi : n.builds i = some (.oldRead m f old))
    (hrestore : ∀ r, n.restore = some r → r.phase.commits = false)
    (hbuilds : ∀ j b, j ≠ i → n.builds j = some b → b.commits = false) :
    NodeInv log ((n.register m f).setBuild i (some (.registered m f old))) := by
  obtain ⟨hon, hle, hnewer, hold⟩ := h.builds i _ hi
  have hheld : n.held (some i) = some (m, f) := Node.held_build hi rfl
  have hsame : ∀ a p, ((n.register m f).setBuild i (some (.registered m f old))).held a = some p →
      n.held a = some p ∧ a ≠ some i := by
    intro a p ha
    rcases Node.held_setBuild ha with ⟨-, hp⟩ | ha
    · cases hp
    · exact ha
  exact { h with
    restore := fun r hr => by
      obtain ⟨hinv, hpower⟩ := h.restore r hr
      have hc := hrestore r hr
      refine ⟨{ hinv with registers := fun hreg => ?_, old := fun old hphase => ?_ }, hpower⟩
      · rw [RestorePhase.commits_of_registers hreg] at hc
        cases hc
      · rw [hphase] at hc
        cases hc
    registryOld := fun reg hreg => by
      obtain rfl := Option.some.inj hreg
      exact hle
    leftover := fun mk reg hmk hreg hf => by
      obtain rfl := Option.some.inj hreg
      exact absurd hf.symm (h.markerApart i (m, f) mk hheld hmk)
    builds := Node.forall_setBuild (fun b hb => by obtain rfl := Option.some.inj hb; exact ⟨hon, rfl⟩)
      fun j b hji hb => ⟨hon, (h.builds j b hb).2.of_not_commits (hbuilds j b hji hb)⟩
    registryFile := fun reg hreg => by
      obtain rfl := Option.some.inj hreg
      exact h.heldFile (some i) (m, f) hheld
    heldFile := fun a p ha => h.heldFile a p (hsame a p ha).1
    apart := fun a b p q ha hb => h.apart a b p q (hsame a p ha).1 (hsame b q hb).1
    registryApart := fun a p reg ha hreg hf => by
      obtain rfl := Option.some.inj hreg
      exact (hsame a p ha).2 (h.apart a (some i) p (m, f) (hsame a p ha).1 hheld hf.symm)
    markerApart := fun j p mk ha => h.markerApart j p mk (hsame (some j) p ha).1
    deleted := fun g hd => by
      obtain rfl : old = some g := by
        rcases Node.deletes_setBuild hd with ⟨m', g', ho⟩ | ⟨r, hr, hp, -⟩ | ⟨j, m', g', hji, hj⟩
        · cases ho
          rfl
        · have hc := hrestore r hr
          rw [hp] at hc
          cases hc
        · cases hbuilds j _ hji hj
      obtain ⟨reg, hreg, hg⟩ := Option.map_eq_some_iff.mp hold.symm
      refine ⟨hg ▸ h.lt_names (h.registryFile reg hreg), fun a p ha e => ?_, fun reg' hreg' e => ?_, fun mk hmk e => ?_⟩
      · exact h.registryApart a p reg (hsame a p ha).1 hreg (hg.trans e.symm)
      · obtain rfl := Option.some.inj hreg'
        exact h.registryApart (some i) (m, f) reg hheld hreg (hg.trans e.symm)
      · obtain ⟨hmeta, hla⟩ := h.leftover mk reg hmk hreg (hg.trans e.symm)
        have hlt := hnewer reg hreg
        have hnext : reg.1.next = n.disk.contents.next := by rw [hmeta, SnapshotMeta.next, ← hla, Contents.next]
        omega
    current := fun _ hfin => absurd (.inr ⟨i, _, Node.setBuild_self _ i _, rfl⟩) hfin }

theorem NodeInv.buildDeleteOld (h : NodeInv log n) {old : Option SnapName} (deleted : Bool)
    (hi : n.builds i = some (.registered m f old)) :
    NodeInv log ((n.deleteOld deleted old).setBuild i (some (.oldDeleted m f))) := by
  obtain ⟨hon, hreg⟩ := h.builds i _ hi
  have h₁ : NodeInv log (n.deleteOld deleted old) := by
    refine h.deleteOld fun g _ hg => .inr ⟨i, m, f, ?_⟩
    rw [← hg]
    exact hi
  refine h₁.build hon (fun b hb p hp => ?_) (h₁.current_of_build (.inl hi) fun _ _ => ⟨_, rfl, rfl⟩) (fun m g f hc => by cases hc)
    fun b hb => ?_
  · obtain rfl := Option.some.inj hb
    cases hp
  · obtain rfl := Option.some.inj hb
    exact hreg

theorem NodeInv.built (h : NodeInv log n) (hi : n.builds i = some (.oldDeleted m f)) :
    NodeInv log { n.setBuild i none with current := some (m, f) } := by
  obtain ⟨hon, hreg⟩ := h.builds i _ hi
  have h₁ : NodeInv log { n with current := some (m, f) } :=
    { h with
      current := fun _ _ => .inr hreg.symm
      unpowered := fun hpow => absurd hon hpow }
  exact h₁.build hon (fun b hb => by cases hb) (fun _ _ => .inr hreg.symm) (fun m g f hc => by cases hc)
    fun b hb => by cases hb

end

/-! ## Power -/

section
variable {n : Node M} {m : RestoreBegin M}

theorem NodeInv.no_builds (h : NodeInv log n) (hoff : n.power ≠ .on) (i : ℕ) : n.builds i = none :=
  Option.eq_none_iff_forall_ne_some.mpr fun b hb => hoff (h.builds i b hb).1

theorem NodeInv.nothing_held (h : NodeInv log n) (hoff : n.power ≠ .on) (a : Option ℕ) : n.held a = none := by
  cases a with
  | none =>
    refine Option.eq_none_iff_forall_ne_some.mpr fun p hp => ?_
    obtain ⟨r, hr, hp⟩ := Option.bind_eq_some_iff.mp hp
    exact hoff (h.on_of_install hr (Restore.held_eq_some.mp hp).2.1)
  | some i => rw [Node.held, h.no_builds hoff i, Option.bind_none]

theorem NodeInv.not_written (h : NodeInv log n) (hoff : n.power ≠ .on) : n.applying = none :=
  Option.eq_none_iff_forall_ne_some.mpr fun e he => hoff (h.written e he).1

theorem NodeInv.off_restore (h : NodeInv log n) (hoff : n.power = .off) : n.restore = none :=
  Option.eq_none_iff_forall_ne_some.mpr fun r hr => by
    have hpow := (h.restore r hr).2
    rw [hoff] at hpow
    cases hb : r.boot <;> rw [hb] at hpow <;> cases hpow

/-- Where nothing runs but perhaps a restore at the start, no payload waits to be registered or deleted. -/
theorem NodeInv.at_rest (h : NodeInv log n) {n' : Node M} (hdisk : n'.disk = n.disk) (hnames : n'.names = n.names)
    (happ : n'.applying = none) (hbuilds : ∀ i, n'.builds i = none) (hcurrent : n'.current = none)
    (hsettled : n.disk.restoreBegin = none → Settled log n.disk.contents)
    (hguarded : n'.power = .on → ∀ m, n.disk.restoreBegin = some m →
      n'.poisoned = true ∨ ∃ r, n'.restore = some r ∧ r.phase.marked = true)
    (hrestore : ∀ r, n'.restore = some r → r.boot = true ∧ n'.power = .booting ∧ (∀ old, r.phase ≠ .registered old) ∧
      RestoreInv log n.disk.contents n.disk.restoreBegin n.disk.registry r) : NodeInv log n' := by
  have hheld : ∀ a, n'.held a = none := fun a => by
    cases a with
    | none =>
      refine Option.eq_none_iff_forall_ne_some.mpr fun p hp => ?_
      obtain ⟨r, hr, hp⟩ := Option.bind_eq_some_iff.mp hp
      have hboot := (hrestore r hr).1
      rw [(Restore.held_eq_some.mp hp).2.1] at hboot
      cases hboot
    | some i => rw [Node.held, hbuilds i, Option.bind_none]
  have hdeletes : ∀ f, ¬ n'.deletes f := fun f hd => by
    rcases hd with ⟨r, hr, hp, -⟩ | ⟨i, m, g, hi⟩
    · exact (hrestore r hr).2.2.1 _ hp
    · cases (hbuilds i).symm.trans hi
  exact {
    settled := fun hm _ => hdisk ▸ hsettled (hdisk ▸ hm)
    written := fun e he => by cases happ.symm.trans he
    guarded := fun hon m hm => hguarded hon m (hdisk ▸ hm)
    poison := hdisk ▸ h.poison
    ahead := hdisk ▸ h.ahead
    restore := fun r hr => by
      obtain ⟨hboot, hpow, -, hinv⟩ := hrestore r hr
      rw [hdisk, hboot]
      exact ⟨hinv, hpow⟩
    registryOld := hdisk ▸ h.registryOld
    leftover := hdisk ▸ h.leftover
    builds := fun i b hb => by cases (hbuilds i).symm.trans hb
    named := fun f hf => by
      rw [hnames]
      exact h.named f (hdisk ▸ hf)
    registryFile := hdisk ▸ h.registryFile
    markerFile := hdisk ▸ h.markerFile
    heldFile := fun a p ha => by cases (hheld a).symm.trans ha
    apart := fun a b p q ha => by cases (hheld a).symm.trans ha
    registryApart := fun a p reg ha => by cases (hheld a).symm.trans ha
    markerApart := fun i p m ha => by cases (hheld (some i)).symm.trans ha
    deleted := fun f hd => absurd hd (hdeletes f)
    current := fun _ _ => .inl hcurrent
    unpowered := fun _ => hcurrent }

theorem NodeInv.lostPower (h : NodeInv log n)
    (hcut : ∀ e, n.applying = some e → n.disk.contents.write e = n.disk.contents) : NodeInv log n.lostPower := by
  have hsettled : n.disk.restoreBegin = none → Settled log n.disk.contents := fun hm => by
    cases ha : n.applying with
    | none => exact h.settled hm ha
    | some e => exact h.settled_written ha (hcut e ha)
  exact h.at_rest rfl rfl rfl (fun _ => rfl) rfl hsettled (fun hon => by cases hon) fun r hr => by cases hr

theorem NodeInv.resetRegistry (h : NodeInv log n) (swept : SnapName → Bool) (healed : Bool) :
    resetRegistry healed { n.disk with files := sweepFiles swept n.disk } = n.disk.registry := by
  unfold Defing.resetRegistry
  cases hreg : n.disk.registry with
  | none => rfl
  | some reg =>
    obtain ⟨bytes, hf, -⟩ := h.registryFile reg hreg
    have hkept : sweepFiles swept n.disk reg.2 = some bytes := (sweepFiles_needed (.inl (by rw [hreg]; rfl))).trans hf
    simp [Option.filter_some, hkept]

theorem NodeInv.boot (h : NodeInv log n) (hoff : n.power = .off) (swept : SnapName → Bool) (healed : Bool) :
    NodeInv log (n.boot swept healed) := by
  have hne : n.power ≠ .on := by simp [hoff]
  have h₁ := h.sweep (h.nothing_held hne) swept
  have hboot : n.boot swept healed =
      { n with disk := { n.disk with files := sweepFiles swept n.disk }, power := .booting, poisoned := n.disk.restorePoison } :=
    congrArg (fun registry => ({ n with
      disk := { n.disk with files := sweepFiles swept n.disk, registry }, power := .booting,
      poisoned := n.disk.restorePoison } : Node M)) (h.resetRegistry swept healed)
  rw [hboot]
  exact { h₁ with
    written := fun e he => by cases (h.not_written hne).symm.trans he
    guarded := fun hc => by cases hc
    restore := fun r hr => by cases (h.off_restore hoff).symm.trans hr
    builds := fun i b hb => by cases (h.no_builds hne i).symm.trans hb
    current := fun _ _ => .inl (h.unpowered hne)
    unpowered := fun _ => h.unpowered hne }

theorem NodeInv.powerOn (h : NodeInv log n) (hb : n.power = .booting) (hm : n.disk.restoreBegin = none ∨ n.poisoned = true) :
    NodeInv log { n with power := .on, restore := none } := by
  have hne : n.power ≠ .on := by simp [hb]
  have happ := h.not_written hne
  have hguarded : ∀ m, n.disk.restoreBegin = some m → n.poisoned = true := fun m hm' => by
    rcases hm with hm | hm
    · cases hm.symm.trans hm'
    · exact hm
  exact h.at_rest rfl rfl happ (h.no_builds hne) (h.unpowered hne) (fun hm => h.settled hm happ)
    (fun _ m hm' => .inl (hguarded m hm')) fun r hr => by cases hr

/-- The marker is never behind what is applied, so that the restore is repeated. -/
theorem NodeInv.not_stale (h : NodeInv log n) {marked applied : LogId} (hm : n.disk.restoreBegin = some m)
    (hmarked : m.snapMeta.lastLogId = some marked) (happlied : n.disk.contents.lastApplied = some applied) :
    ¬ marked.index < applied.index := by
  have hle := h.ahead m hm
  rw [Contents.next, happlied, SnapshotMeta.next, hmarked, nextIndex, nextIndex, Option.map_some, Option.map_some,
    Option.getD_some, Option.getD_some] at hle
  rw [Fin.lt_def]
  omega

theorem NodeInv.replay (h : NodeInv log n) {bytes : Bytes} {path : String} {budget : Nat} {batches : PayloadBatches}
    (hb : n.power = .booting) (hm : n.disk.restoreBegin = some m) (hf : n.disk.files m.payload = some bytes)
    (hread : readPayloadBatches path bytes budget = .ok batches) :
    NodeInv log { n with restore := some ⟨true, m, .restoring true batches⟩ } := by
  have hne : n.power ≠ .on := by simp [hb]
  obtain ⟨bytes', hf', k, target, hk, hmeta, hreads⟩ := h.markerFile m hm
  obtain rfl : bytes' = bytes := Option.some.inj (hf'.symm.trans hf)
  have happ := h.not_written hne
  refine h.at_rest rfl rfl happ (h.no_builds hne) (h.unpowered hne) (fun hm => h.settled hm happ)
    (fun hon => absurd hon hne) fun r hr => ?_
  obtain rfl := Option.some.inj hr
  exact ⟨rfl, hb, fun old hc => (by cases hc), fun _ => hm, fun hc => (by rcases hc with hc | hc <;> cases hc), h.ahead m hm,
    ⟨k, target, hk, hmeta, hreads.batches hread⟩, fun hc => (by cases hc), fun old hc => (by cases hc),
    fun _ hc => (by cases hc)⟩

end

/-! ## Runs -/

section
variable {n n' : Node M} {event : NodeEvent M}

theorem NodeStep.kept (hr : Rmp.Lawful) (hj : ∀ pairs, PairJson.Reads pairs) (h : NodeInv log n)
    (hs : NodeStep log.entries n event n') (ha : RegularStep log n event) : NodeInv log n' := by
  cases hs with
  | write hready hp he => exact h.write hready hp he
  | lost => exact ha.elim
  | notWritten => exact { h with }
  | mark he => exact h.mark he
  | notMarked he => exact h.notMarked he (ha _ he)
  | copyOnly _ bytes => exact h.addFile bytes
  | copy hready _ hb => exact h.copy hready hb ha.1 ha.2
  | begin hr' hp => exact h.begin hr' hp
  | notBegun hr' hp => exact h.notBegun hr' hp
  | batch hr' hp hb => exact h.batch hr' hp hb
  | lastBatch hr' hp hb => exact h.lastBatch hr' hp hb
  | putLastApplied hr' hp => exact h.putLastApplied hr' hp
  | putMembership hr' hp => exact h.putMembership hr' hp
  | readOld hr' hp => exact h.readOld hr' hp
  | register hr' hp => exact h.register hr' hp ha
  | deleteOld deleted hr' hp => exact h.deleteOldFile deleted hr' hp
  | clear hr' hp => exact h.clear hr' hp
  | unpoison hr' hp => exact h.unpoison hr' hp
  | installed hr' hp hb => exact h.installed hr' hp hb
  | fail hr' hp hb => exact h.fail hr' hp
  | poison persisted hr' hp => exact h.poisons persisted hr' hp
  | buildStart hon hi hp => exact h.buildStart hon hi
  | capture hi hl => exact h.capture hi hl ha.1 ha.2
  | writePayload hi hb => exact h.writePayload hr hj hi hb
  | notNewer hi => exact h.dropBuild hi rfl
  | newer hi hn => exact h.newer hi hn
  | blind => exact ha.elim
  | buildReadOld hi => exact h.buildReadOld hi
  | buildRegister hi => exact h.buildRegister hi ha.1 ha.2
  | buildDeleteOld deleted hi => exact h.buildDeleteOld deleted hi
  | built hi => exact h.built hi
  | @notBuilt i b hi hb =>
    refine h.dropBuild hi ?_
    cases b <;> first | rfl | cases hb
  | cut => exact h.lostPower ha
  | boot swept healed hoff => exact h.boot hoff swept healed
  | noMarker hb hr' hm =>
    have h₁ := h.powerOn hb (.inl hm)
    rw [← hr'] at h₁
    exact h₁
  | stale hb hr' hm hmarked happlied hlt => exact absurd hlt (h.not_stale hm hmarked happlied)
  | @force m persisted hb hr' hm =>
    have h₁ : NodeInv log { n with
        poisoned := true, disk := { n.disk with restorePoison := n.disk.restorePoison || persisted } } :=
      { h with
        guarded := fun _ _ _ => .inl rfl
        poison := fun _ hc => by cases hm.symm.trans hc
        current := fun hc => by cases hc }
    have h₂ := h₁.powerOn hb (.inr rfl)
    rw [← hr'] at h₂
    exact h₂
  | replay hb hr' hm hf hread => exact h.replay hb hm hf hread
  | @recovered r swept hr' hp hboot =>
    obtain ⟨hinv, hpow⟩ := h.restore r hr'
    rw [hboot, if_pos rfl] at hpow
    have hne : n.power ≠ .on := by simp [hpow]
    exact (h.sweep (h.nothing_held hne) swept).powerOn hpow (.inl (hinv.cleared (.inr hp)))

end

end Defing
