import Mathlib.Logic.Function.Basic
import Defing.Core.Command
import Defing.Core.Dump
import Defing.Lib.Runs
import Defing.Raft.LogRun
import Defing.Raft.RoundTrip

/-!
# The state machine of a node

Entries are applied, snapshots are built beside them and installed in their
place, and the node may lose its power between any two writes. What is written
is one transaction each; a restore is many, and is begun with a marker by which
the next start repeats it. Markers are on (`DSH_RAFT_RESTORE_MARKER`). The jobs
of a leader that prune versions and audit entries write past the log, and are no
steps here.
-/

namespace Defing

open Runs (Run Path)

variable {M : Type}

/-! ## What is stored -/

/-- Names of payload files differ by a counter and by a number of the process; they are counted here. -/
abbrev SnapName := Nat

def snapPath (f : SnapName) : String := s!"snap-{f}.snap"

structure StoredMembership (M : Type) where
  logId : Option LogId
  membership : M
  deriving DecidableEq

structure SnapshotMeta (M : Type) where
  lastLogId : Option LogId
  lastMembership : StoredMembership M
  deriving DecidableEq

inductive EntryPayload (M : Type)
  | blank
  | normal (cmd : Command)
  | membership (m : M)

class ApplyBytes where
  apply (cmd : Command) (nowMs : Int) (t : Table) : Table

structure Contents (M : Type) where
  table : Table
  lastApplied : Option LogId
  membership : StoredMembership M

structure RestoreBegin (M : Type) where
  snapMeta : SnapshotMeta M
  payload : SnapName

structure Disk (M : Type) where
  contents : Contents M
  restoreBegin : Option (RestoreBegin M)
  restorePoison : Bool
  registry : Option (SnapshotMeta M × SnapName)
  files : SnapName → Option Bytes

namespace Contents

def write [ApplyBytes] (c : Contents M) (e : LogEntry (EntryPayload M)) : Contents M :=
  match e.payload with
  | .blank => c
  | .normal cmd => { c with table := ApplyBytes.apply cmd e.logId.index.val c.table }
  | .membership m => { c with membership := ⟨some e.logId, m⟩ }

def mark (c : Contents M) (id : LogId) : Contents M := { c with lastApplied := some id }

def snapMeta (c : Contents M) : SnapshotMeta M := ⟨c.lastApplied, c.membership⟩

def new [Inhabited M] : Contents M := ⟨∅, none, ⟨none, default⟩⟩

end Contents

def nextIndex (id : Option LogId) : Nat := (id.map fun id => id.index.val + 1).getD 0

def snapshotMetaNewer (built reg : SnapshotMeta M) : Prop :=
  match built.lastLogId, reg.lastLogId with
  | some b, some r => r.Before b
  | some _, none => True
  | none, _ => False

/-! ## Payload files -/

section
variable [Rmp] [PairJson]

def buildPayload (msgpack : Bool) (budget : Nat) (t : Table) : Except String Bytes :=
  let sm : StateMachine := ⟨.redb, { store := t }⟩
  if msgpack then writePayloadV2 (t.getPrefixKeys []).length (sm.dumpBatches budget) else .ok (writePayloadV1 sm.dumpAll)

end

def deleteOldFile (deleted : Bool) (old : Option SnapName) (files : SnapName → Option Bytes) : SnapName → Option Bytes :=
  fun f => if deleted ∧ old = some f then none else files f

/-- `sweep_snapshot_payloads`: it may stop before all is swept. -/
def sweepFiles (swept : SnapName → Bool) (d : Disk M) : SnapName → Option Bytes := fun f =>
  if swept f ∧ d.registry.map (·.2) ≠ some f ∧ d.restoreBegin.map (·.payload) ≠ some f then none else d.files f

def resetRegistry (healed : Bool) (d : Disk M) : Option (SnapshotMeta M × SnapName) :=
  d.registry.filter fun r => !(healed && (d.files r.2).isNone)

/-! ## What runs -/

inductive RestorePhase
  | copied (batches : PayloadBatches)
  | restoring (first : Bool) (batches : PayloadBatches)
  | restored
  | appliedPut
  | membershipPut
  | oldRead (old : Option SnapName)
  | registered (old : Option SnapName)
  | oldDeleted
  | cleared
  | unpoisoned
  | failed

/-- An `install_snapshot`, or a repetition of one at the start. -/
structure Restore (M : Type) where
  boot : Bool
  marker : RestoreBegin M
  phase : RestorePhase

inductive BuildPhase (M : Type)
  | unpoisoned
  | captured (snapMeta : SnapshotMeta M) (table : Table)
  | written (snapMeta : SnapshotMeta M) (file : SnapName)
  | newer (snapMeta : SnapshotMeta M) (file : SnapName)
  | oldRead (snapMeta : SnapshotMeta M) (file : SnapName) (old : Option SnapName)
  | registered (snapMeta : SnapshotMeta M) (file : SnapName) (old : Option SnapName)
  | oldDeleted (snapMeta : SnapshotMeta M) (file : SnapName)

def RestorePhase.locked : RestorePhase → Bool
  | restoring .. | restored | appliedPut | membershipPut | oldRead _ => true
  | _ => false

def RestorePhase.mayFail : RestorePhase → Bool
  | restoring .. | restored | appliedPut | membershipPut | oldRead _ | oldDeleted => true
  | _ => false

/-- Between the look at the registry and the new current snapshot. -/
def RestorePhase.commits : RestorePhase → Bool
  | oldRead _ | registered _ | oldDeleted | cleared | unpoisoned => true
  | _ => false

def BuildPhase.commits : BuildPhase M → Bool
  | newer .. | oldRead .. | registered .. | oldDeleted .. => true
  | _ => false

def BuildPhase.mayFail : BuildPhase M → Bool
  | registered .. | oldDeleted .. => false
  | _ => true

inductive Power
  | off | booting | on
  deriving DecidableEq

structure Node (M : Type) where
  disk : Disk M
  power : Power
  poisoned : Bool
  current : Option (SnapshotMeta M × SnapName)
  restore : Option (Restore M)
  /-- The entry that is written and not yet marked as applied. -/
  applying : Option (LogEntry (EntryPayload M))
  /-- Raft has stopped at an error, until the next start. -/
  stopped : Bool
  builds : ℕ → Option (BuildPhase M)
  names : SnapName

namespace Node

def unlocked (n : Node M) : Prop := n.applying = none ∧ ∀ r, n.restore = some r → r.phase.locked = false

/-- Raft may apply an entry or install a snapshot. -/
def ready (n : Node M) : Prop := n.power = .on ∧ n.stopped = false ∧ n.applying = none ∧ n.restore = none

def lostPower (n : Node M) : Node M :=
  { n with power := .off, poisoned := false, current := none, restore := none, applying := none, stopped := false,
           builds := fun _ => none }

def setContents (n : Node M) (c : Contents M) : Node M := { n with disk := { n.disk with contents := c } }

def setPhase (n : Node M) (r : Restore M) (phase : RestorePhase) : Node M := { n with restore := some { r with phase } }

def setBuild (n : Node M) (i : ℕ) (b : Option (BuildPhase M)) : Node M := { n with builds := Function.update n.builds i b }

def addFile (n : Node M) (bytes : Bytes) : Node M :=
  { n with disk := { n.disk with files := Function.update n.disk.files n.names (some bytes) }, names := n.names + 1 }

def register (n : Node M) (snapMeta : SnapshotMeta M) (f : SnapName) : Node M :=
  { n with disk := { n.disk with registry := some (snapMeta, f) } }

def deleteOld (n : Node M) (deleted : Bool) (old : Option SnapName) : Node M :=
  { n with disk := { n.disk with files := deleteOldFile deleted old n.disk.files } }

def boot (n : Node M) (swept : SnapName → Bool) (healed : Bool) : Node M :=
  let disk := { n.disk with files := sweepFiles swept n.disk }
  { n with disk := { disk with registry := resetRegistry healed disk }, power := .booting, poisoned := disk.restorePoison }

end Node

/-! ## Steps -/

inductive NodeEvent (M : Type)
  | other
  /-- The batch of a command is not written, and the command is answered as refused. -/
  | lost
  /-- Power, or Raft, is lost. -/
  | cut
  | capture
  /-- A snapshot is committed whose registry could not be read. -/
  | blind
  | register (build : Option ℕ)
  | install (snapMeta : SnapshotMeta M) (bytes : Bytes)

section
variable [Rmp] [PairJson] [ApplyBytes]

inductive NodeStep (entries : List (LogEntry (EntryPayload M))) : Node M → NodeEvent M → Node M → Prop
  -- entries
  | write {n : Node M} {e : LogEntry (EntryPayload M)} (h : n.ready) (hp : n.poisoned = false)
      (he : entries[nextIndex n.disk.contents.lastApplied]? = some e) :
      NodeStep entries n .other { n.setContents (n.disk.contents.write e) with applying := some e }
  | lost {n : Node M} {e : LogEntry (EntryPayload M)} (h : n.ready) (hp : n.poisoned = false)
      (he : entries[nextIndex n.disk.contents.lastApplied]? = some e) (hcmd : ∃ cmd, e.payload = .normal cmd) :
      NodeStep entries n .lost { n with applying := some e }
  | notWritten {n : Node M} {e : LogEntry (EntryPayload M)} (h : n.ready) (hp : n.poisoned = false)
      (he : entries[nextIndex n.disk.contents.lastApplied]? = some e) (hm : ∃ m, e.payload = .membership m) :
      NodeStep entries n .other { n with stopped := true }
  | mark {n : Node M} {e : LogEntry (EntryPayload M)} (h : n.applying = some e) :
      NodeStep entries n .other { n.setContents (n.disk.contents.mark e.logId) with applying := none }
  | notMarked {n : Node M} {e : LogEntry (EntryPayload M)} (h : n.applying = some e) :
      NodeStep entries n .cut { n with applying := none, stopped := true }
  -- `install_snapshot`
  | copyOnly {n : Node M} (h : n.ready) (bytes : Bytes) : NodeStep entries n .other (n.addFile bytes)
  | copy {n : Node M} {snapMeta : SnapshotMeta M} {bytes : Bytes} {budget : Nat} {batches : PayloadBatches} (h : n.ready)
      (hv : verifyPayloadFile (snapPath n.names) bytes = .ok ())
      (hb : readPayloadBatches (snapPath n.names) bytes budget = .ok batches) :
      NodeStep entries n (.install snapMeta bytes)
        { n.addFile bytes with restore := some ⟨false, ⟨snapMeta, n.names⟩, .copied batches⟩ }
  | begin {n : Node M} {r : Restore M} {batches : PayloadBatches} (h : n.restore = some r) (hp : r.phase = .copied batches) :
      NodeStep entries n .other
        { n.setPhase r (.restoring true batches) with disk := { n.disk with restoreBegin := some r.marker } }
  | notBegun {n : Node M} {r : Restore M} {batches : PayloadBatches} (h : n.restore = some r)
      (hp : r.phase = .copied batches) : NodeStep entries n .other { n with restore := none }
  -- `restore_and_persist_inner`, and what follows it
  | batch {n : Node M} {r : Restore M} {first : Bool} {batches batches' : PayloadBatches} {batch : KeyValuePairs}
      (h : n.restore = some r) (hp : r.phase = .restoring first batches) (hb : batches.next = some (.ok (batch, batches'))) :
      NodeStep entries n .other
        ((n.setContents { n.disk.contents with
            table := (StateMachine.restoreFrom n.disk.contents.table first [.ok batch]).2 }).setPhase r
          (.restoring false batches'))
  | lastBatch {n : Node M} {r : Restore M} {first : Bool} {batches : PayloadBatches} (h : n.restore = some r)
      (hp : r.phase = .restoring first batches) (hb : batches.next = none) :
      NodeStep entries n .other
        ((n.setContents { n.disk.contents with
            table := (StateMachine.restoreFrom n.disk.contents.table first []).2 }).setPhase r .restored)
  | putLastApplied {n : Node M} {r : Restore M} (h : n.restore = some r) (hp : r.phase = .restored) :
      NodeStep entries n .other
        ((n.setContents { n.disk.contents with lastApplied := r.marker.snapMeta.lastLogId }).setPhase r .appliedPut)
  | putMembership {n : Node M} {r : Restore M} (h : n.restore = some r) (hp : r.phase = .appliedPut) :
      NodeStep entries n .other
        ((n.setContents { n.disk.contents with membership := r.marker.snapMeta.lastMembership }).setPhase r .membershipPut)
  | readOld {n : Node M} {r : Restore M} (h : n.restore = some r) (hp : r.phase = .membershipPut) :
      NodeStep entries n .other (n.setPhase r (.oldRead (n.disk.registry.map (·.2))))
  | register {n : Node M} {r : Restore M} {old : Option SnapName} (h : n.restore = some r) (hp : r.phase = .oldRead old) :
      NodeStep entries n (.register none)
        ((n.register r.marker.snapMeta r.marker.payload).setPhase r (.registered old))
  | deleteOld {n : Node M} {r : Restore M} {old : Option SnapName} (deleted : Bool) (h : n.restore = some r)
      (hp : r.phase = .registered old) :
      NodeStep entries n .other ((n.deleteOld (deleted && old ≠ some r.marker.payload) old).setPhase r .oldDeleted)
  | clear {n : Node M} {r : Restore M} (h : n.restore = some r) (hp : r.phase = .oldDeleted) :
      NodeStep entries n .other
        { n.setPhase r .cleared with disk := { n.disk with restoreBegin := none, restorePoison := false } }
  | unpoison {n : Node M} {r : Restore M} (h : n.restore = some r) (hp : r.phase = .cleared) :
      NodeStep entries n .other { n.setPhase r .unpoisoned with poisoned := false }
  | installed {n : Node M} {r : Restore M} (h : n.restore = some r) (hp : r.phase = .unpoisoned) (hb : r.boot = false) :
      NodeStep entries n .other
        { n with current := some (r.marker.snapMeta, r.marker.payload), restore := none }
  | fail {n : Node M} {r : Restore M} (h : n.restore = some r) (hp : r.phase.mayFail = true) (hb : r.boot = false) :
      NodeStep entries n .other (n.setPhase r .failed)
  | poison {n : Node M} {r : Restore M} (persisted : Bool) (h : n.restore = some r) (hp : r.phase = .failed) :
      NodeStep entries n .other
        { n with poisoned := true, restore := none,
                 disk := { n.disk with restorePoison := n.disk.restorePoison || persisted } }
  -- `build_snapshot`
  | buildStart {n : Node M} {i : ℕ} (hon : n.power = .on) (hi : n.builds i = none) (hp : n.poisoned = false) :
      NodeStep entries n .other (n.setBuild i (some .unpoisoned))
  | capture {n : Node M} {i : ℕ} (hi : n.builds i = some .unpoisoned) (hl : n.unlocked) :
      NodeStep entries n .capture (n.setBuild i (some (.captured n.disk.contents.snapMeta n.disk.contents.table)))
  | writePayload {n : Node M} {i : ℕ} {snapMeta : SnapshotMeta M} {t : Table} {msgpack : Bool} {budget : Nat} {bytes : Bytes}
      (hi : n.builds i = some (.captured snapMeta t)) (hb : buildPayload msgpack budget t = .ok bytes) :
      NodeStep entries n .other ((n.addFile bytes).setBuild i (some (.written snapMeta n.names)))
  | notNewer {n : Node M} {i : ℕ} {snapMeta regMeta : SnapshotMeta M} {f regFile : SnapName}
      (hi : n.builds i = some (.written snapMeta f)) (hr : n.disk.registry = some (regMeta, regFile))
      (hf : (n.disk.files regFile).isSome) (hn : ¬ snapshotMetaNewer snapMeta regMeta) :
      NodeStep entries n .other (n.setBuild i none)
  | newer {n : Node M} {i : ℕ} {snapMeta : SnapshotMeta M} {f : SnapName} (hi : n.builds i = some (.written snapMeta f))
      (hn : ∀ reg, n.disk.registry = some reg → (n.disk.files reg.2).isSome → snapshotMetaNewer snapMeta reg.1) :
      NodeStep entries n .other (n.setBuild i (some (.newer snapMeta f)))
  | blind {n : Node M} {i : ℕ} {snapMeta : SnapshotMeta M} {f : SnapName} (hi : n.builds i = some (.written snapMeta f)) :
      NodeStep entries n .blind (n.setBuild i (some (.newer snapMeta f)))
  | buildReadOld {n : Node M} {i : ℕ} {snapMeta : SnapshotMeta M} {f : SnapName} (hi : n.builds i = some (.newer snapMeta f)) :
      NodeStep entries n .other (n.setBuild i (some (.oldRead snapMeta f (n.disk.registry.map (·.2)))))
  | buildRegister {n : Node M} {i : ℕ} {snapMeta : SnapshotMeta M} {f : SnapName} {old : Option SnapName}
      (hi : n.builds i = some (.oldRead snapMeta f old)) :
      NodeStep entries n (.register (some i))
        ((n.register snapMeta f).setBuild i (some (.registered snapMeta f old)))
  | buildDeleteOld {n : Node M} {i : ℕ} {snapMeta : SnapshotMeta M} {f : SnapName} {old : Option SnapName} (deleted : Bool)
      (hi : n.builds i = some (.registered snapMeta f old)) :
      NodeStep entries n .other ((n.deleteOld deleted old).setBuild i (some (.oldDeleted snapMeta f)))
  | built {n : Node M} {i : ℕ} {snapMeta : SnapshotMeta M} {f : SnapName} (hi : n.builds i = some (.oldDeleted snapMeta f)) :
      NodeStep entries n .other { n.setBuild i none with current := some (snapMeta, f) }
  | notBuilt {n : Node M} {i : ℕ} {b : BuildPhase M} (hi : n.builds i = some b) (hb : b.mayFail = true) :
      NodeStep entries n .other (n.setBuild i none)
  -- power; a start that is refused is a loss of power
  | cut {n : Node M} : NodeStep entries n .cut n.lostPower
  | boot {n : Node M} (swept : SnapName → Bool) (healed : Bool) (hoff : n.power = .off) :
      NodeStep entries n .other (n.boot swept healed)
  -- `recover_interrupted_restore`
  | noMarker {n : Node M} (hb : n.power = .booting) (hr : n.restore = none) (hm : n.disk.restoreBegin = none) :
      NodeStep entries n .other { n with power := .on }
  | stale {n : Node M} {m : RestoreBegin M} {marked applied : LogId} (hb : n.power = .booting) (hr : n.restore = none)
      (hm : n.disk.restoreBegin = some m) (hmarked : m.snapMeta.lastLogId = some marked)
      (happlied : n.disk.contents.lastApplied = some applied) (hlt : marked.index < applied.index) :
      NodeStep entries n .other { n with disk := { n.disk with restoreBegin := none }, power := .on }
  | force {n : Node M} {m : RestoreBegin M} (persisted : Bool) (hb : n.power = .booting) (hr : n.restore = none)
      (hm : n.disk.restoreBegin = some m) :
      NodeStep entries n .other
        { n with poisoned := true, power := .on,
                 disk := { n.disk with restorePoison := n.disk.restorePoison || persisted } }
  | replay {n : Node M} {m : RestoreBegin M} {bytes : Bytes} {budget : Nat} {batches : PayloadBatches} (hb : n.power = .booting)
      (hr : n.restore = none) (hm : n.disk.restoreBegin = some m) (hf : n.disk.files m.payload = some bytes)
      (hread : readPayloadBatches (snapPath m.payload) bytes budget = .ok batches) :
      NodeStep entries n .other { n with restore := some ⟨true, m, .restoring true batches⟩ }
  | recovered {n : Node M} {r : Restore M} (swept : SnapName → Bool) (h : n.restore = some r) (hp : r.phase = .unpoisoned)
      (hb : r.boot = true) :
      NodeStep entries n .other
        { n with disk := { n.disk with files := sweepFiles swept n.disk }, power := .on, restore := none }

end

def Node.getCurrentSnapshot (n : Node M) : Option (SnapshotMeta M × SnapName) :=
  if n.poisoned then none
  else n.current.or (n.disk.registry.filter fun r => (n.disk.files r.2).isSome)

end Defing
