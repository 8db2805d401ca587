import Defing.State.Readable
import Defing.Watch.History

/-!
# Resuming a watch

A replay begins with the difference from nothing, not from what the client
holds. What has been deleted since stays with the client, and so on through
the replay.
-/

namespace Defing

section
variable [SerdeJson] {t : Store} {id : ProjectId} {b : BranchName} {after : Nat} {hist : List VersionRecord}

theorem not_startPruned (h : (versionHistory id b).eval t = .ok hist) (hmem : ∃ r ∈ hist, r.no = after) :
    startPruned after hist = false := by
  obtain ⟨r, hr, rfl⟩ := hmem
  have hsorted := versionHistory_sorted h
  unfold startPruned
  split
  · rename_i min active hmin hactive
    have hle : min.no ≤ r.no := by
      cases hist with
      | nil => cases hr
      | cons first hist =>
        obtain rfl := Option.some.inj hmin
        rcases List.mem_cons.mp hr with rfl | hr
        · exact Nat.le_refl _
        · exact (List.pairwise_cons.mp hsorted).1 r hr
    simp [Nat.not_lt.mpr hle]
  · rfl

def eventOf (id : ProjectId) (b : BranchName) (r : VersionRecord) (changes : List DiffEntry) : PublishEvent :=
  { project := id, branch := b, version := r.no, ty := replayedType r, structureVersion := r.structureVersion,
    comment := r.comment, requestId := "", changes, gray := r.gray }

theorem sseEvents_cons (after : Nat) (hist : List VersionRecord) (prev : SnapshotMap)
    (hread : ∀ r ∈ hist, ∃ snap, (snapshotOf id b r.no).eval t = .ok snap) :
    hist.find? (after < ·.no) = none ∧ sseEvents t id b after hist prev = [] ∨
      ∃ r rest cur, hist.find? (after < ·.no) = some r ∧ (snapshotOf id b r.no).eval t = .ok cur ∧ (∀ r' ∈ rest, r' ∈ hist) ∧
        sseEvents t id b after hist prev = eventOf id b r (computeDiff prev cur) :: sseEvents t id b after rest cur := by
  induction hist with
  | nil => exact .inl ⟨rfl, rfl⟩
  | cons r hist ih =>
    rw [sseEvents]
    by_cases h : r.no ≤ after
    · rw [if_pos h, List.find?_cons_of_neg (by simpa using h)]
      rcases ih fun r' hr' => hread r' (List.mem_cons_of_mem _ hr') with hnone | ⟨r', rest, cur, hfind, hcur, hrest, hevents⟩
      · exact .inl hnone
      · exact .inr ⟨r', rest, cur, hfind, hcur, fun x hx => List.mem_cons_of_mem _ (hrest x hx), hevents⟩
    · obtain ⟨cur, hcur⟩ := hread r List.mem_cons_self
      rw [if_neg h, List.find?_cons_of_pos (by simpa using h), hcur]
      exact .inr ⟨r, hist, cur, rfl, hcur, fun x hx => List.mem_cons_of_mem _ hx, rfl⟩

def Follows (t : Store) (id : ProjectId) (b : BranchName) (held : SnapshotMap) (events : List PublishEvent) : Prop :=
  ∀ pre e post, events = pre ++ e :: post → ∀ snap, (snapshotOf id b e.version).eval t = .ok snap →
    dropEmpty (applyEvents held (pre ++ [e])) = dropEmpty (maskSnapshot snap)

theorem follows_cons {held : SnapshotMap} {e : PublishEvent} {events : List PublishEvent} :
    Follows t id b held (e :: events) ↔
      (∀ snap, (snapshotOf id b e.version).eval t = .ok snap →
        dropEmpty (applyDiff held (maskEventForWire e).changes) = dropEmpty (maskSnapshot snap)) ∧
      Follows t id b (applyDiff held (maskEventForWire e).changes) events := by
  constructor
  · intro h
    refine ⟨h [] e events rfl, ?_⟩
    intro pre e' post hsplit
    exact h (e :: pre) e' post (by rw [hsplit]; rfl)
  · intro ⟨hfirst, hrest⟩ pre e' post hsplit
    cases pre with
    | nil =>
      obtain ⟨rfl, rfl⟩ := List.cons.inj hsplit
      exact hfirst
    | cons a pre =>
      obtain ⟨rfl, hsplit'⟩ := List.cons.inj hsplit
      exact hrest pre e' post hsplit'

theorem follows_of_held (hist : List VersionRecord) (hread : ∀ r ∈ hist, ∃ snap, (snapshotOf id b r.no).eval t = .ok snap)
    {held old : SnapshotMap} (h : dropEmpty held = dropEmpty (maskSnapshot old)) :
    Follows t id b held (sseEvents t id b after hist old) := by
  induction hist generalizing held old with
  | nil =>
    intro pre e post hsplit
    simp [sseEvents] at hsplit
  | cons r hist ih =>
    have hrest := fun r' hr' => hread r' (List.mem_cons_of_mem _ hr')
    rw [sseEvents]
    by_cases hno : r.no ≤ after
    · rw [if_pos hno]
      exact ih hrest h
    · obtain ⟨cur, hcur⟩ := hread r List.mem_cons_self
      have hnext := dropEmpty_applyDiff_masked cur h
      rw [if_neg hno, hcur]
      refine follows_cons.mpr ⟨?_, ih hrest hnext⟩
      intro snap hsnap
      obtain rfl := Except.ok.inj (hcur.symm.trans hsnap)
      exact hnext

/-- A client that holds the snapshot of a version is led by the replay since to each of its versions, and both ways of
watching replay the same. -/
def ReplayExact (t : Store) (id : ProjectId) (b : BranchName) (after : Nat) (base : SnapshotMap) : Prop :=
  Follows t id b (maskSnapshot base) (sseReplay t id b after).1 ∧ (sseReplay t id b after).2 = false ∧
    ∃ events, grpcReplay t id b after = .ok (events, false) ∧
      events.map WatchEvent.seen = (sseReplay t id b after).1.map PublishEvent.seen

/-- The replay of a readable history is exact if and only if its first version still has every item of the version that
the client holds. -/
theorem replay_exact_iff (t : Store) (id : ProjectId) (b : BranchName) (after : Nat) (hist : List VersionRecord) (base : SnapshotMap)
    (hhist : (versionHistory id b).eval t = .ok hist) (hread : ∀ r ∈ hist, ∃ snap, (snapshotOf id b r.no).eval t = .ok snap)
    (hmem : ∃ r ∈ hist, r.no = after) (hbase : (snapshotOf id b after).eval t = .ok base) :
    ReplayExact t id b after base ↔ ∀ r, hist.find? (after < ·.no) = some r →
      ∀ next, (snapshotOf id b r.no).eval t = .ok next → ∀ g k, item? base g k ≠ none → item? next g k ≠ none := by
  have hpos : after > 0 := by
    by_contra hzero
    obtain rfl : after = 0 := by omega
    rw [snapshotOf, (ensure_readOnly _ _).eval_bind] at hbase
    cases hbase
  have hpruned := not_startPruned hhist hmem
  have hsse : sseReplay t id b after = (sseEvents t id b after hist ∅, false) := by
    rw [sseReplay, if_pos hpos, hhist]
    simp only [hpruned]
  obtain ⟨events, hevents, hseen⟩ := grpcEvents_seen hist ∅ fun r hr (_ : after < r.no) => hread r hr
  have hgrpc : grpcReplay t id b after = .ok (events, false) := by
    rw [grpcReplay, if_pos hpos]
    exact Result.bind_ok.mpr ⟨hist, hhist, Result.bind_ok.mpr ⟨events, hevents, by rw [hpruned]⟩⟩
  have hexact : ReplayExact t id b after base ↔ Follows t id b (maskSnapshot base) (sseEvents t id b after hist ∅) := by
    unfold ReplayExact
    rw [hsse]
    constructor
    · exact fun h => h.1
    · exact fun h => ⟨h, rfl, events, hgrpc, hseen⟩
  rw [hexact]
  have hitem : ∀ next : SnapshotMap, (∀ g k, item? (maskSnapshot base) g k ≠ none → item? next g k ≠ none) ↔
      ∀ g k, item? base g k ≠ none → item? next g k ≠ none := by
    intro next
    simp only [item?_maskSnapshot, ne_eq, Option.map_eq_none_iff]
  rcases sseEvents_cons after hist ∅ hread with ⟨hnone, hnil⟩ | ⟨r, rest, cur, hfind, hcur, hrest, hcons⟩
  · rw [hnil, hnone]
    refine iff_of_true ?_ ?_
    · intro pre e post hsplit
      simp at hsplit
    · intro r h
      cases h
  · rw [hcons, hfind, follows_cons]
    have hfirst : (maskEventForWire (eventOf id b r (computeDiff ∅ cur))).changes = (computeDiff ∅ cur).map maskDiffEntry := rfl
    constructor
    · intro h r' hr' next hnext
      obtain rfl := Option.some.inj hr'
      obtain rfl := Except.ok.inj (hcur.symm.trans hnext)
      exact (hitem cur).mp (dropEmpty_applyDiff_empty.mp (h.1 cur hcur))
    · intro h
      have hnext := dropEmpty_applyDiff_empty.mpr ((hitem cur).mpr (h r rfl cur hcur))
      refine ⟨?_, ?_⟩
      · intro snap hsnap
        obtain rfl := Except.ok.inj (hcur.symm.trans hsnap)
        exact hnext
      · exact follows_of_held rest (fun r' hr' => hread r' (hrest r' hr')) hnext

end

section
attribute [local instance] sampleJson

def rolledBackLog : List (Command × Int) := structureLog.take 3 ++ [
  (.draftUpdate "p" "dev" [⟨"g", "k", .string "v"⟩] [] [] "" 0 none, 4),
  (.publish "p" "dev" "" "r1" "" 0 .block, 5),
  (.rollback "p" "dev" 1 "" "r2" "" 0, 6)]

theorem rolledBack_readable : ∃ hist, (versionHistory "p" "dev").eval (runLog rolledBackLog) = .ok hist ∧
    (∀ r ∈ hist, ∃ snap, (snapshotOf "p" "dev" r.no).eval (runLog rolledBackLog) = .ok snap) ∧
    (∃ r ∈ hist, r.no = 1) ∧ ∃ r ∈ hist, r.no = 2 := by
  have hfacts : (((versionHistory "p" "dev").eval (runLog rolledBackLog)).toOption.map fun hist =>
      hist.all (fun r => ((snapshotOf "p" "dev" r.no).eval (runLog rolledBackLog)).toOption.isSome) &&
        hist.any (·.no = 1) && hist.any (·.no = 2)) = some true := by
    decide +kernel
  cases hhist : (versionHistory "p" "dev").eval (runLog rolledBackLog) with
  | error e =>
    rw [hhist] at hfacts
    cases hfacts
  | ok hist =>
    rw [hhist] at hfacts
    have hfacts := Option.some.inj hfacts
    rw [Bool.and_eq_true, Bool.and_eq_true, List.all_eq_true, List.any_eq_true, List.any_eq_true] at hfacts
    obtain ⟨⟨hread, r₁, hr₁, hno₁⟩, r₂, hr₂, hno₂⟩ := hfacts
    refine ⟨hist, rfl, ?_, ⟨r₁, hr₁, by simpa using hno₁⟩, r₂, hr₂, by simpa using hno₂⟩
    intro r hr
    have hsome := hread r hr
    cases hsnap : (snapshotOf "p" "dev" r.no).eval (runLog rolledBackLog) with
    | error e =>
      rw [hsnap] at hsome
      cases hsome
    | ok snap => exact ⟨snap, rfl⟩

theorem replay_exact_sample : ∃ base, (snapshotOf "p" "dev" 1).eval (runLog rolledBackLog) = .ok base ∧
    ReplayExact (runLog rolledBackLog) "p" "dev" 1 base := by
  obtain ⟨hist, hhist, hread, hmem, _⟩ := rolledBack_readable
  have hempty : ((snapshotOf "p" "dev" 1).eval (runLog rolledBackLog)).toOption.map dropEmpty = some ∅ := by decide +kernel
  cases hbase : (snapshotOf "p" "dev" 1).eval (runLog rolledBackLog) with
  | error e =>
    rw [hbase] at hempty
    cases hempty
  | ok base =>
    rw [hbase] at hempty
    refine ⟨base, rfl, (replay_exact_iff _ _ _ _ hist base hhist hread hmem hbase).mpr ?_⟩
    -- the first version has no items
    intro _ _ _ _ g k hitem
    rw [← item?_dropEmpty, Option.some.inj hempty] at hitem
    exact absurd (by simp [item?]) hitem

/-- What the rollback has deleted stays with a client that resumes from before it. -/
theorem replay_keeps_deleted : ¬ ∀ t, Reachable t → ∀ id b after hist base, (versionHistory id b).eval t = .ok hist →
    (∀ r ∈ hist, ∃ snap, (snapshotOf id b r.no).eval t = .ok snap) → (∃ r ∈ hist, r.no = after) →
    (snapshotOf id b after).eval t = .ok base → ReplayExact t id b after base := by
  intro h
  obtain ⟨hist, hhist, hread, _, hmem⟩ := rolledBack_readable
  have hfacts : ((snapshotOf "p" "dev" 2).eval (runLog rolledBackLog)).toOption.map (fun base => item? (maskSnapshot base) "g" "k") =
      some (some (.string "v")) ∧
    ((snapshotOf "p" "dev" 3).eval (runLog rolledBackLog)).toOption.map (fun snap => item? (maskSnapshot snap) "g" "k") = some none ∧
    (sseReplay (runLog rolledBackLog) "p" "dev" 2).1.map (fun e => (e.version, e.changes)) = [(3, [])] := by
    decide +kernel
  obtain ⟨hbase, hsnap, hevents⟩ := hfacts
  cases hb : (snapshotOf "p" "dev" 2).eval (runLog rolledBackLog) with
  | error e =>
    rw [hb] at hbase
    cases hbase
  | ok base =>
    cases hs : (snapshotOf "p" "dev" 3).eval (runLog rolledBackLog) with
    | error e =>
      rw [hs] at hsnap
      cases hsnap
    | ok snap =>
      rw [hb] at hbase
      rw [hs] at hsnap
      obtain ⟨e, hlist, he⟩ := List.map_eq_singleton_iff.mp hevents
      obtain ⟨hversion, hchanges⟩ := Prod.mk.inj he
      have hexact := (h _ (reachable_runLog _) "p" "dev" 2 hist base hhist hread hmem hb).1 [] e [] hlist snap (by rw [hversion, hs])
      have hitem := dropEmpty_eq_iff.mp hexact "g" "k"
      -- nothing is changed by the replay
      have hheld : applyEvents (maskSnapshot base) ([] ++ [e]) = maskSnapshot base := by
        change applyDiff (maskSnapshot base) (e.changes.map maskDiffEntry) = _
        rw [hchanges]
        rfl
      have hold : item? (maskSnapshot base) "g" "k" = some (.string "v") := Option.some.inj hbase
      have hnew : item? (maskSnapshot snap) "g" "k" = none := Option.some.inj hsnap
      rw [hheld, hold, hnew] at hitem
      cases hitem

end

end Defing
