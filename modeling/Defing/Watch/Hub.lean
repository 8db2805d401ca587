import Defing.Lib.Broadcast
import Defing.State.Always
import Defing.Watch.Replay

/-!
# The hub and its streams

A node applies commands under a lock and broadcasts their events after it. In a
cluster a forwarder carries them from the state machine to the hub, and the
store may be replaced by one that is further on. A watch reads the history,
subscribes to the hub, and receives.
-/

namespace Defing

open Broadcast

/-! ## Streams -/

inductive WatchWay
  | sse
  | grpc
  deriving DecidableEq, Repr

/-- A stream since the version `after`: what it has still to replay, whether it then requires the snapshot, and what it
has sent. -/
structure WatchStream where
  way : WatchWay
  after : Nat
  replay : List SeenEvent
  required : Bool
  last : Nat
  replayed : List SeenEvent
  live : List SeenEvent
  snapshotRequired : Bool
  ended : Bool
  deriving DecidableEq, Repr

section
variable [SerdeJson] (t : Store) (id : ProjectId) (b : BranchName) (after : Nat)

/-- `watch_branch` before it subscribes, with what `sse_stream` starts from. -/
def sseStream : WatchStream :=
  let replay := sseReplay t id b after
  { way := .sse, after, replay := replay.1.map (·.seen), required := replay.2,
    last := (replay.1.map (·.version)).foldr max 0,
    replayed := [], live := [], snapshotRequired := false, ended := false }

/-- `ConfigService::watch` before it subscribes; one that requires the snapshot replays nothing. -/
def grpcStream : Except Error WatchStream := do
  let (replay, required) ← grpcReplay t id b after
  .ok { way := .grpc, after, replay := if required then [] else replay.map (·.seen), required, last := after,
        replayed := [], live := [], snapshotRequired := false, ended := false }

end

def WatchEvent.live (e : PublishEvent) : WatchEvent where
  version := e.version
  type := e.ty
  structureVersion := e.structureVersion
  comment := e.comment
  requestId := e.requestId
  changes := diffToChanges e.changes
  snapshotRequired := false
  gray := e.gray

def WatchWay.send : WatchWay → PublishEvent → SeenEvent
  | sse, e => e.seen
  | grpc, e => (WatchEvent.live e).seen

/-- The gRPC stream keeps up `last` with what it sends; that of the SSE stream stays at the end of the replay. -/
def WatchWay.advance (last version : Nat) : WatchWay → Nat
  | sse => last
  | grpc => version

def WatchStream.next (s : WatchStream) : Option WatchStream :=
  match s.replay with
  | e :: replay => some { s with replay, replayed := s.replayed ++ [e], last := s.way.advance s.last e.version }
  | [] => if s.required then some { s with snapshotRequired := true, ended := true } else none

def WatchStream.receive (id : ProjectId) (b : BranchName) (s : WatchStream) : Received PublishEvent → WatchStream
  | .lagged => { s with snapshotRequired := s.snapshotRequired || s.way = .grpc, ended := true }
  | .value e =>
    if (e.project = id ∧ e.branch = b) ∧ (e.gray ∨ s.last < e.version) then
      { s with live := s.live ++ [s.way.send e], last := s.way.advance s.last (max s.last e.version) }
    else s

/-! ## Nodes -/

/-- Writers broadcast to the hub themselves, or the state machine does in the order of the log. -/
inductive Deployment
  | devSingle
  | cluster
  deriving DecidableEq, Repr

def raftRetain : Nat := 1024

inductive WatchPhase
  | idle
  | read (s : WatchStream)
  | streaming (s : WatchStream) (rx : Broadcast.Receiver PublishEvent)

/-- A node with one watch of a branch: the events that writers have still to broadcast, the versions of the branch
that it has applied, without the gray ones, and the gray events that the watch has to tell: those since it has read the
history, and those that had not reached the hub by then. -/
structure HubNode where
  store : Store
  applied : List Nat
  grays : List PublishEvent
  writers : List (List PublishEvent)
  forwarder : Option (Broadcast.Receiver PublishEvent)
  watch : WatchPhase

def HubNode.start (d : Deployment) : HubNode where
  store := ∅
  applied := []
  grays := []
  writers := []
  forwarder := if d = .cluster then some .new else none
  watch := .idle

def HubNode.waiting (n : HubNode) : List PublishEvent := (n.forwarder.elim [] (·.queue)) ++ n.writers.flatten

/-- The events of a command go with their writer; those of a log wait in line. -/
def Deployment.enqueue (d : Deployment) (writers : List (List PublishEvent)) (events : List PublishEvent) :
    List (List PublishEvent) :=
  match d with
  | devSingle => writers ++ [events]
  | cluster => [writers.flatten ++ events]

def WatchPhase.hear (cap : Nat) (e : PublishEvent) : WatchPhase → WatchPhase
  | streaming s rx => streaming s (rx.send cap e)
  | phase => phase

def NonGray (id : ProjectId) (b : BranchName) (e : PublishEvent) : Prop := (e.project = id ∧ e.branch = b) ∧ e.gray = false

instance (id : ProjectId) (b : BranchName) : DecidablePred (NonGray id b) := fun _ => inferInstanceAs (Decidable (_ ∧ _))

def versionsOf (events : List PublishEvent) (id : ProjectId) (b : BranchName) : List Nat :=
  (events.filter (NonGray id b)).map (·.version)

def OfGray (id : ProjectId) (b : BranchName) (e : PublishEvent) : Prop := (e.project = id ∧ e.branch = b) ∧ e.gray = true

instance (id : ProjectId) (b : BranchName) : DecidablePred (OfGray id b) := fun _ => inferInstanceAs (Decidable (_ ∧ _))

def graysOf (events : List PublishEvent) (id : ProjectId) (b : BranchName) : List PublishEvent := events.filter (OfGray id b)

section
variable [SerdeJson]

def versionsAlong (id : ProjectId) (b : BranchName) : Store → List (Command × Int) → List Nat
  | _, [] => []
  | t, (cmd, now) :: log =>
    versionsOf (apply cmd now t).emitted id b ++ versionsAlong id b (apply cmd now t).store log

def graysAlong (id : ProjectId) (b : BranchName) : Store → List (Command × Int) → List PublishEvent
  | _, [] => []
  | t, (cmd, now) :: log =>
    graysOf (apply cmd now t).emitted id b ++ graysAlong id b (apply cmd now t).store log

inductive HubInput
  | apply (cmd : Command) (now : Int)
  | send (before : List (List PublishEvent)) (e : PublishEvent) (rest : List PublishEvent) (behind : List (List PublishEvent))
  | forward (e : PublishEvent)
  | stop
  | install (log : List (Command × Int))
  | read (way : WatchWay) (after : Nat)
  | subscribe
  | next
  | receive

/-- One step of a node that keeps `cap` events for each receiver of its hub. -/
inductive HubStep (d : Deployment) (cap : Nat) (id : ProjectId) (b : BranchName) : HubInput → HubNode → HubNode → Prop
  | apply {n : HubNode} (cmd : Command) (now : Int) :
      HubStep d cap id b (.apply cmd now) n { n with
        store := (apply cmd now n.store).store
        applied := n.applied ++ versionsOf (apply cmd now n.store).emitted id b
        grays := n.grays ++ graysOf (apply cmd now n.store).emitted id b
        writers := d.enqueue n.writers (apply cmd now n.store).emitted }
  | sendHub {n : HubNode} {ws ws' : List (List PublishEvent)} {e : PublishEvent} {w : List PublishEvent}
      (hd : d = .devSingle) (h : n.writers = ws ++ (e :: w) :: ws') :
      HubStep d cap id b (.send ws e w ws') n { n with writers := ws ++ w :: ws', watch := n.watch.hear cap e }
  | sendRaft {n : HubNode} {e : PublishEvent} {w : List PublishEvent} (hd : d = .cluster) (h : n.writers = [e :: w]) :
      HubStep d cap id b (.send [] e w []) n { n with
        writers := [w], forwarder := n.forwarder.map fun r => r.send raftRetain e }
  | forward {n : HubNode} {e : PublishEvent} {r r' : Broadcast.Receiver PublishEvent} (hf : n.forwarder = some r)
      (h : r.recv = some (.value e, r')) :
      HubStep d cap id b (.forward e) n { n with forwarder := some r', watch := n.watch.hear cap e }
  | stop {n : HubNode} {r r' : Broadcast.Receiver PublishEvent} (hf : n.forwarder = some r) (h : r.recv = some (.lagged, r')) :
      HubStep d cap id b .stop n { n with forwarder := none }
  | install {n : HubNode} (hd : d = .cluster) (log : List (Command × Int)) :
      HubStep d cap id b (.install log) n { n with
        store := runFrom n.store log
        applied := n.applied ++ versionsAlong id b n.store log
        grays := n.grays ++ graysAlong id b n.store log }
  | readSse {n : HubNode} {after : Nat} (hafter : 0 < after) (hw : n.watch = .idle) :
      HubStep d cap id b (.read .sse after) n { n with
        grays := graysOf n.waiting id b, watch := .read (sseStream n.store id b after) }
  | readGrpc {n : HubNode} {after : Nat} {s : WatchStream} (hafter : 0 < after) (hw : n.watch = .idle)
      (h : grpcStream n.store id b after = .ok s) :
      HubStep d cap id b (.read .grpc after) n { n with grays := graysOf n.waiting id b, watch := .read s }
  | subscribe {n : HubNode} {s : WatchStream} (hw : n.watch = .read s) :
      HubStep d cap id b .subscribe n { n with watch := .streaming s .new }
  | next {n : HubNode} {s s' : WatchStream} {rx : Broadcast.Receiver PublishEvent} (hw : n.watch = .streaming s rx)
      (he : s.ended = false) (h : s.next = some s') :
      HubStep d cap id b .next n { n with watch := .streaming s' rx }
  | receive {n : HubNode} {s : WatchStream} {rx rx' : Broadcast.Receiver PublishEvent} {x : Received PublishEvent}
      (hw : n.watch = .streaming s rx) (he : s.ended = false) (hn : s.next = none) (h : rx.recv = some (x, rx')) :
      HubStep d cap id b .receive n { n with watch := .streaming (s.receive id b x) rx' }

end

end Defing
