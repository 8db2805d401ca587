import Defing.State.Evolve

/-!
# A branch by itself

What the store keeps of one branch, apart from all other rows, and the moves
commands make on it. A move is told by the state of the branch, its log and its
gray snapshots; `Course` is a command that goes through, told by its moves.
-/

namespace Defing

open KV (Prog Plain segments)
open DeltaLog (Log)

variable {id id' : ProjectId} {b b' : BranchName} {t t' : Store} {x y : Slot}

/-! ## The rows of a branch -/

inductive Slot
  | state
  | record (n : Nat)
  | full (n : Nat)
  | diff (n : Nat)
  | gray (n : Nat)
  deriving DecidableEq

def Slot.key (id : ProjectId) (b : BranchName) : Slot → String
  | state => branchStateKey id b
  | record n => versionKey id b n
  | full n => snapshotKey id b n
  | diff n => diffKey id b n
  | gray n => graySnapKey id b n

theorem Slot.under (hn : Named id b) : ∀ x : Slot, UnderBranch id b (x.key id b)
  | state => under_branchStateKey hn
  | record n => under_versionKey hn n
  | full n => under_snapshotKey hn n
  | diff n => under_diffKey hn n
  | gray n => under_graySnapKey hn n

theorem Slot.key_inj (hn : Named id b) (h : x.key id b = y.key id b) : x = y := by
  have hs := congrArg segments h
  cases x <;> cases y <;>
    simp [Slot.key, segments_branchStateKey hn.plain.1 hn.plain.2, segments_versionKey hn.plain.1 hn.plain.2,
      segments_snapshotKey hn.plain.1 hn.plain.2, segments_diffKey hn.plain.1 hn.plain.2,
      segments_graySnapKey hn.plain.1 hn.plain.2] at hs ⊢
  all_goals exact hs

abbrev Branch := Slot → Option Stored

def branchAt (t : Store) (id : ProjectId) (b : BranchName) : Branch := fun x => t[x.key id b]?

def Branch.empty : Branch := fun _ => none

def Branch.set (br : Branch) (x : Slot) (o : Option Stored) : Branch := Function.update br x o

@[simp] theorem Branch.set_apply (br : Branch) (x : Slot) (o : Option Stored) (y : Slot) :
    br.set x o y = if y = x then o else br y := Function.update_apply br x o y

section
variable [SerdeJson]

def Branch.state (br : Branch) : Option BranchState := (br .state).bind Codec.decode

def Branch.log (br : Branch) : Log SnapshotMap (List DiffEntry) where
  full n := (br (.full n)).bind Codec.decode
  delta n := (br (.diff n)).bind Codec.decode

/-- What a version stands for. -/
def Branch.contents (br : Branch) (n : Nat) : Option SnapshotMap :=
  DeltaLog.read checkpointInterval applyDiff br.log n

def Branch.active (br : Branch) (st : BranchState) : Option SnapshotMap :=
  if st.activeVersion = 0 then some ∅ else br.contents st.activeVersion

theorem state_branchAt (t : Store) (id : ProjectId) (b : BranchName) :
    (branchAt t id b).state = stateOf t id b := rfl

theorem contents_branchAt (t : Store) (id : ProjectId) (b : BranchName) (n : Nat) :
    (branchAt t id b).contents n = contents t id b n := rfl

end

theorem branchAt_congr (h : ∀ k, UnderBranch id b k → t'[k]? = t[k]?) (hn : Named id b) :
    branchAt t' id b = branchAt t id b := funext fun x => h _ (x.under hn)

theorem branchAt_insert (hn : Named id b) (x : Slot) (v : Stored) :
    branchAt (t.insert (x.key id b) v) id b = (branchAt t id b).set x (some v) := by
  funext y
  rw [Branch.set_apply, branchAt, KV.getElem?_insert]
  by_cases h : y = x
  · rw [h, if_pos rfl, if_pos rfl]
  · rw [if_neg h, if_neg fun e => h (Slot.key_inj hn e).symm]
    rfl

theorem branchAt_erase (hn : Named id b) (x : Slot) :
    branchAt (t.erase (x.key id b)) id b = (branchAt t id b).set x none := by
  funext y
  rw [Branch.set_apply, branchAt, KV.getElem?_erase]
  by_cases h : y = x
  · rw [h, if_pos rfl, if_pos rfl]
  · rw [if_neg h, if_neg fun e => h (Slot.key_inj hn e).symm]
    rfl

theorem UnderBranch.unique {k : String} (h : UnderBranch id b k) (h' : UnderBranch id' b' k) : id' = id ∧ b' = b := by
  obtain ⟨tail, h⟩ := h
  obtain ⟨tail', h'⟩ := h'
  rw [h] at h'
  simp only [List.cons.injEq, true_and] at h'
  exact ⟨h'.1.symm, h'.2.1.symm⟩

theorem branchAt_elsewhere (h : ∀ k, ¬ UnderBranch id b k → t'[k]? = t[k]?) (hn : Named id' b')
    (hne : ¬ (id' = id ∧ b' = b)) : branchAt t' id' b' = branchAt t id' b' :=
  branchAt_congr (fun k hk => h k fun hk' => hne (hk'.unique hk)) hn

/-! ## Rows of no branch -/

theorem not_under_of_outside {k : String} (hk : OutsideProjects k) : ¬ UnderBranch id b k := by
  rintro ⟨tail, h⟩
  rw [OutsideProjects, h] at hk
  exact hk rfl

theorem not_under_structKey (hi : Plain id') : ¬ UnderBranch id b (structKey id') := by
  rintro ⟨tail, h⟩
  simp [segments_structKey hi] at h

theorem not_under_structDraftKey (hi : Plain id') : ¬ UnderBranch id b (structDraftKey id') := by
  rintro ⟨tail, h⟩
  simp [segments_structDraftKey hi] at h

theorem branchAt_insert_else (hn : Named id b) {k : String} (hk : ¬ UnderBranch id b k) (v : Stored) :
    branchAt (t.insert k v) id b = branchAt t id b :=
  branchAt_congr (fun _ hk' => KV.getElem?_insert_ne t (by rintro rfl; exact hk hk') v) hn

theorem branchAt_erase_else (hn : Named id b) {k : String} (hk : ¬ UnderBranch id b k) :
    branchAt (t.erase k) id b = branchAt t id b :=
  branchAt_congr (fun _ hk' => KV.getElem?_erase_ne t (by rintro rfl; exact hk hk')) hn

/-! ## Versions -/

def Branch.write (br : Branch) (n : Nat) (old new : SnapshotMap) (r : VersionRecord) : Branch :=
  if isCheckpoint n then
    (br.set (.full n) (some (Codec.encode new))).set (.record n) (some (Codec.encode { r with kind := .full }))
  else
    (br.set (.diff n) (some (Codec.encode (computeDiff old new)))).set (.record n)
      (some (Codec.encode { r with kind := .diff }))

theorem Branch.write_of_ne {br : Branch} {n : Nat} {old new : SnapshotMap} {r : VersionRecord}
    (hx : x ≠ .full n ∧ x ≠ .diff n ∧ x ≠ .record n) : br.write n old new r x = br x := by
  unfold Branch.write
  split <;> simp [hx]

theorem writeVersionSnapshot_branch {s : State} (hn : Named id b) (n : Nat) (old new : SnapshotMap)
    (r : VersionRecord) :
    ∃ s₁, (writeVersionSnapshot id b n old new r).exec s = (.ok (), s₁) ∧ s₁.notes = s.notes ++ [⟨id, b, n, old, new⟩] ∧
      branchAt s₁.kv id b = (branchAt s.kv id b).write n old new r := by
  unfold writeVersionSnapshot
  by_cases hc : isCheckpoint n
  · refine ⟨⟨(s.kv.insert (Slot.key id b (.full n)) (Codec.encode new)).insert (Slot.key id b (.record n))
      (Codec.encode { r with kind := .full }), s.notes ++ [⟨id, b, n, old, new⟩]⟩, ?_, rfl, ?_⟩
    · rw [if_pos hc]; rfl
    · rw [branchAt_insert hn, branchAt_insert hn, Branch.write, if_pos hc]
  · refine ⟨⟨(s.kv.insert (Slot.key id b (.diff n)) (Codec.encode (computeDiff old new))).insert
      (Slot.key id b (.record n)) (Codec.encode { r with kind := .diff }), s.notes ++ [⟨id, b, n, old, new⟩]⟩, ?_, rfl, ?_⟩
    · rw [if_neg hc]; rfl
    · rw [branchAt_insert hn, branchAt_insert hn, Branch.write, if_neg hc]

end Defing
