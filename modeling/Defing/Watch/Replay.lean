import Defing.Core.Config
import Defing.Core.Patch
import Defing.Lib.Result

/-!
# Replays of a watch

A watch that resumes after a version begins with events for the versions since,
made of the differences between their snapshots. The gRPC service and the SSE
endpoint make them each for themselves.
-/

namespace Defing

/-! ## The wire -/

def maskedValue : Value → Value
  | .secret _ => .string "***"
  | other => other

def maskDiffEntry (d : DiffEntry) : DiffEntry := { d with newValue := d.newValue.map maskedValue }

def maskEventForWire (e : PublishEvent) : PublishEvent := { e with changes := e.changes.map maskDiffEntry }

/-- A value of `config.v1`: a secret is a string, told by its type and its mark. -/
structure ProtoValue where
  type : ValueType
  data : Value
  masked : Bool
  deriving DecidableEq, Repr

def valueToProto (v : Value) : ProtoValue :=
  match v with
  | .secret _ => { type := v.valueType, data := .string "***", masked := true }
  | other => { type := v.valueType, data := other, masked := false }

structure Change where
  group : String
  key : String
  kind : ChangeKind
  newValue : Option ProtoValue
  deriving DecidableEq, Repr

def diffToChanges (diff : List DiffEntry) : List Change :=
  diff.map fun d => { group := d.group, key := d.key, kind := d.kind, newValue := d.newValue.map valueToProto }

structure WatchEvent where
  version : Nat
  type : EventType
  structureVersion : Nat
  comment : String
  requestId : String
  changes : List Change
  snapshotRequired : Bool
  gray : Bool
  deriving DecidableEq, Repr

section
variable [SerdeJson] (t : Store) (id : ProjectId) (b : BranchName) (after : Nat)

/-! ## The replay of the gRPC service -/

/-- The type of a replayed event; records of old logs do not have it. -/
def replayedType (r : VersionRecord) : EventType :=
  r.eventTy.getD (if r.rollbackOf.isSome then .rollback else .valuePublish)

def startPruned (hist : List VersionRecord) : Bool :=
  match hist.head?, hist.getLast? with
  | some min, some active => after < min.no && after < active.no
  | _, _ => false

def grpcEvents : List VersionRecord → SnapshotMap → Except Error (List WatchEvent)
  | [], _ => .ok []
  | r :: hist, prev =>
    if r.no ≤ after then grpcEvents hist prev
    else do
      let cur ← (snapshotOf id b r.no).eval t
      let rest ← grpcEvents hist cur
      .ok ({ version := r.no, type := replayedType r, structureVersion := r.structureVersion, comment := r.comment,
             requestId := "", changes := diffToChanges (computeDiff prev cur), snapshotRequired := false,
             gray := r.gray } :: rest)

/-- What `ConfigService::watch` replays, and whether the client is to fetch the snapshot anew instead. -/
def grpcReplay : Except Error (List WatchEvent × Bool) :=
  if after > 0 then do
    let hist ← (versionHistory id b).eval t
    let replay ← grpcEvents t id b after hist ∅
    .ok (replay, startPruned after hist)
  else .ok ([], false)

/-! ## The replay of the SSE endpoint -/

/-- The loop over the history; a version that cannot be read is left out. -/
def sseEvents : List VersionRecord → SnapshotMap → List PublishEvent
  | [], _ => []
  | r :: hist, prev =>
    if r.no ≤ after then sseEvents hist prev
    else
      match (snapshotOf id b r.no).eval t with
      | .error _ => sseEvents hist prev
      | .ok cur =>
        { project := id, branch := b, version := r.no, ty := replayedType r, structureVersion := r.structureVersion,
          comment := r.comment, requestId := "", changes := computeDiff prev cur, gray := r.gray } :: sseEvents hist cur

def sseReplay : List PublishEvent × Bool :=
  if after > 0 then
    match (versionHistory id b).eval t with
    | .ok hist => (sseEvents t id b after hist ∅, startPruned after hist)
    | .error _ => ([], false)
  else ([], false)

end

/-! ## What both send -/

structure SeenEvent where
  version : Nat
  type : EventType
  gray : Bool
  changes : List (String × String × ChangeKind × Option Value)
  deriving DecidableEq, Repr

def WatchEvent.seen (e : WatchEvent) : SeenEvent where
  version := e.version
  type := e.type
  gray := e.gray
  changes := e.changes.map fun c => (c.group, c.key, c.kind, c.newValue.map (·.data))

def PublishEvent.seen (e : PublishEvent) : SeenEvent where
  version := e.version
  type := e.ty
  gray := e.gray
  changes := (maskEventForWire e).changes.map fun d => (d.group, d.key, d.kind, d.newValue)

theorem valueToProto_data (v : Value) : (valueToProto v).data = maskedValue v := by
  cases v <;> rfl

theorem changes_seen (diff : List DiffEntry) :
    (diffToChanges diff).map (fun c => (c.group, c.key, c.kind, c.newValue.map (·.data))) =
      (diff.map maskDiffEntry).map fun d => (d.group, d.key, d.kind, d.newValue) := by
  rw [diffToChanges, List.map_map, List.map_map]
  refine List.map_congr_left fun d _ => ?_
  simp only [Function.comp_apply, maskDiffEntry, Option.map_map]
  rw [show (fun x : ProtoValue => x.data) ∘ valueToProto = maskedValue from funext valueToProto_data]

section
variable [SerdeJson] {t : Store} {id : ProjectId} {b : BranchName} {after : Nat}

/-- Where every version can be read, both replay the same. -/
theorem grpcEvents_seen (hist : List VersionRecord) (prev : SnapshotMap)
    (hread : ∀ r ∈ hist, after < r.no → ∃ snap, (snapshotOf id b r.no).eval t = .ok snap) :
    ∃ events, grpcEvents t id b after hist prev = .ok events ∧
      events.map WatchEvent.seen = (sseEvents t id b after hist prev).map PublishEvent.seen := by
  induction hist generalizing prev with
  | nil => exact ⟨[], rfl, rfl⟩
  | cons r hist ih =>
    have hrest := fun r' hr' => hread r' (List.mem_cons_of_mem _ hr')
    rw [grpcEvents, sseEvents]
    by_cases h : r.no ≤ after
    · rw [if_pos h, if_pos h]
      exact ih prev hrest
    · rw [if_neg h, if_neg h]
      obtain ⟨cur, hcur⟩ := hread r List.mem_cons_self (Nat.lt_of_not_le h)
      obtain ⟨events, hevents, hseen⟩ := ih cur hrest
      refine ⟨_, Result.bind_ok.mpr ⟨cur, hcur, Result.bind_ok.mpr ⟨events, hevents, rfl⟩⟩, ?_⟩
      rw [hcur]
      simp only [List.map_cons, hseen]
      congr 1
      simp only [WatchEvent.seen, PublishEvent.seen, maskEventForWire, changes_seen]

/-! ## What a client makes of a replay -/

omit [SerdeJson]

def maskSnapshot (snap : SnapshotMap) : SnapshotMap := snap.map fun _ items => items.map fun _ => maskedValue

def applyEvents (held : SnapshotMap) (events : List PublishEvent) : SnapshotMap :=
  events.foldl (fun held e => applyDiff held (maskEventForWire e).changes) held

theorem item?_maskSnapshot (snap : SnapshotMap) (g k : String) : item? (maskSnapshot snap) g k = (item? snap g k).map maskedValue := by
  simp only [item?, maskSnapshot, Std.ExtTreeMap.getElem?_map]
  cases snap[g]? with
  | none => rfl
  | some items => simp [Std.ExtTreeMap.getElem?_map]

theorem newValue_masked {old new : SnapshotMap} {e : DiffEntry} (he : e ∈ (computeDiff old new).map maskDiffEntry)
    (hu : e.kind = .upsert) : e.newValue ≠ none := by
  obtain ⟨e, hmem, rfl⟩ := List.mem_map.mp he
  rcases mem_computeDiff.mp hmem with ⟨v, _, _, _, hv⟩ | ⟨_, _, hd, _⟩
  · simp [maskDiffEntry, hv]
  · cases hd.symm.trans hu

/-- The masked changes between two snapshots, put on what holds the one, lead to the other, but for items of neither. -/
theorem item?_applyDiff_masked {held old new : SnapshotMap} {g k : String}
    (h : item? held g k = (item? old g k).map maskedValue ∨ item? new g k ≠ none ∧ item? old g k = none) :
    item? (applyDiff held ((computeDiff old new).map maskDiffEntry)) g k = (item? new g k).map maskedValue := by
  refine item?_applyDiff (fun e he => newValue_masked he) ?_ ?_
  · intro e he hat
    obtain ⟨e, hmem, rfl⟩ := List.mem_map.mp he
    obtain ⟨rfl, rfl⟩ := hat
    rcases mem_computeDiff.mp hmem with ⟨v, hn, _, hk, hv⟩ | ⟨_, hn, hk, _⟩
    · simp [DiffEntry.leaves, maskDiffEntry, hk, hv, hn]
    · simp [DiffEntry.leaves, maskDiffEntry, hk, hn]
  · by_cases hsame : item? old g k = item? new g k
    · rcases h with h | ⟨hnew, hold⟩
      · exact .inl (by rw [h, hsame])
      · exact absurd (hsame.symm.trans hold) hnew
    · -- the item is in the diff
      refine .inr ?_
      cases hn : item? new g k with
      | some v =>
        have hmem : (⟨g, k, .upsert, some v⟩ : DiffEntry) ∈ computeDiff old new :=
          mem_computeDiff.mpr (.inl ⟨v, hn, fun ho => hsame (ho.trans hn.symm), rfl, rfl⟩)
        exact ⟨_, List.mem_map_of_mem hmem, rfl, rfl⟩
      | none =>
        have hold : (item? old g k).isSome := Option.isSome_iff_ne_none.mpr fun ho => hsame (ho.trans hn.symm)
        have hmem : (⟨g, k, .delete, none⟩ : DiffEntry) ∈ computeDiff old new := mem_computeDiff.mpr (.inr ⟨hold, hn, rfl, rfl⟩)
        exact ⟨_, List.mem_map_of_mem hmem, rfl, rfl⟩

/-- What holds a snapshot holds the next one after their masked changes. -/
theorem dropEmpty_applyDiff_masked {held old : SnapshotMap} (new : SnapshotMap) (h : dropEmpty held = dropEmpty (maskSnapshot old)) :
    dropEmpty (applyDiff held ((computeDiff old new).map maskDiffEntry)) = dropEmpty (maskSnapshot new) := by
  refine dropEmpty_eq_iff.mpr fun g k => ?_
  rw [item?_maskSnapshot]
  refine item?_applyDiff_masked (.inl ?_)
  rw [dropEmpty_eq_iff.mp h, item?_maskSnapshot]

/-- The changes from nothing to a snapshot set its items and remove none. -/
theorem dropEmpty_applyDiff_empty {held new : SnapshotMap} :
    dropEmpty (applyDiff held ((computeDiff ∅ new).map maskDiffEntry)) = dropEmpty (maskSnapshot new) ↔
      ∀ g k, item? held g k ≠ none → item? new g k ≠ none := by
  have hempty : ∀ g k, item? (∅ : SnapshotMap) g k = none := fun g k => by simp [item?]
  constructor
  · intro h g k hheld hnew
    refine hheld ?_
    have hitem := dropEmpty_eq_iff.mp h g k
    rw [item?_maskSnapshot, hnew, Option.map_none] at hitem
    -- no entry of the diff is on such an item
    refine (item?_applyDiff (fun e he => newValue_masked he) (fun e he hat => ?_) (.inl rfl)).symm.trans hitem
    obtain ⟨e, hmem, rfl⟩ := List.mem_map.mp he
    obtain ⟨rfl, rfl⟩ := hat
    rcases mem_computeDiff.mp hmem with ⟨v, hn, _, _, _⟩ | ⟨hold, _, _, _⟩
    · exact absurd (hn.symm.trans hnew) (by simp)
    · rw [hempty] at hold
      cases hold
  · intro h
    refine dropEmpty_eq_iff.mpr fun g k => ?_
    rw [item?_maskSnapshot]
    refine item?_applyDiff_masked ?_
    cases hnew : item? new g k with
    | some v => exact .inr ⟨by simp, hempty g k⟩
    | none =>
      refine .inl ?_
      rw [hempty]
      by_contra hheld
      exact h g k hheld hnew

end

end Defing
