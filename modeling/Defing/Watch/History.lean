import Defing.State.VersionHistory
import Defing.Watch.Replay

/-!
# Replays of the history

The events of a replay are those of the versions since a number, whether they
go over SSE or gRPC.
-/

namespace Defing

variable {id : ProjectId} {b : BranchName} {t : Store} {hist : List VersionRecord}

section
variable [SerdeJson] {after : Nat} {prev : SnapshotMap}

def versionsSince (after : Nat) (hist : List VersionRecord) : List Nat := (hist.filter (after < ·.no)).map (·.no)

omit [SerdeJson] in
theorem versionsSince_cons (r : VersionRecord) (hist : List VersionRecord) :
    versionsSince after (r :: hist) = if r.no ≤ after then versionsSince after hist else r.no :: versionsSince after hist := by
  unfold versionsSince
  by_cases h : r.no ≤ after
  · rw [if_pos h, List.filter_cons_of_neg (by simpa using h)]
  · rw [if_neg h, List.filter_cons_of_pos (by simpa using h)]
    rfl

omit [SerdeJson] in
theorem mem_versionsSince {n : Nat} : n ∈ versionsSince after hist ↔ after < n ∧ ∃ r ∈ hist, r.no = n := by
  unfold versionsSince
  rw [List.mem_map]
  constructor
  · intro ⟨r, hr, e⟩
    obtain ⟨hr, hlt⟩ := List.mem_filter.mp hr
    exact ⟨e ▸ of_decide_eq_true hlt, r, hr, e⟩
  · intro ⟨hlt, r, hr, e⟩
    exact ⟨r, List.mem_filter.mpr ⟨hr, decide_eq_true (e ▸ hlt)⟩, e⟩

omit [SerdeJson] in
theorem versionsSince_strict (h : hist.Pairwise fun r r' => r.no < r'.no) : (versionsSince after hist).Pairwise (· < ·) :=
  List.pairwise_map.mpr (h.filter _)

theorem sseEvents_versions (hread : ∀ r ∈ hist, after < r.no → ∃ snap, (snapshotOf id b r.no).eval t = .ok snap) :
    (sseEvents t id b after hist prev).map (·.version) = versionsSince after hist := by
  induction hist generalizing prev with
  | nil => rfl
  | cons r hist ih =>
    have hrest := fun r' hr' => hread r' (List.mem_cons_of_mem _ hr')
    rw [sseEvents, versionsSince_cons]
    by_cases h : r.no ≤ after
    · rw [if_pos h, if_pos h, ih hrest]
    · obtain ⟨cur, hcur⟩ := hread r List.mem_cons_self (Nat.lt_of_not_le h)
      rw [if_neg h, if_neg h, hcur, List.map_cons, ih hrest]

theorem grpcEvents_versions {events : List WatchEvent} (h : grpcEvents t id b after hist prev = .ok events) :
    events.map (·.version) = versionsSince after hist := by
  induction hist generalizing prev events with
  | nil =>
    cases h
    rfl
  | cons r hist ih =>
    rw [grpcEvents] at h
    rw [versionsSince_cons]
    split at h
    · rw [if_pos ‹_›, ih h]
    · rw [if_neg ‹_›]
      obtain ⟨cur, -, h⟩ := Result.bind_ok.mp h
      obtain ⟨rest, hrest, h⟩ := Result.bind_ok.mp h
      cases h
      rw [List.map_cons, ih hrest]

end

end Defing
