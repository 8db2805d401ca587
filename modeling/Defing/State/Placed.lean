import Defing.State.Obeys
import Defing.State.Readers

/-!
# Every row is where its type says

`Placed` ties the type of a row to the shape of its key. Every command keeps
it, and stays within the keys that `touches` gives it.
-/

namespace Defing

open KV (Prog Contract Plain segments)

/-! ## Names are segments -/

theorem plain_of_validName {s : String} (h : validName s) : Plain s := by
  simp only [validName, Bool.and_eq_true] at h
  exact KV.plain_of_forall h.1.1.2 (by decide)

theorem plain_of_validBranch {s : String} (h : validBranch s) : Plain s := by
  simp only [validBranch, Bool.and_eq_true] at h
  exact KV.plain_of_forall h.1.1.2 (by decide)

theorem plain_of_validKeyName {s : String} (h : validKeyName s) : Plain s := by
  simp only [validKeyName, Bool.and_eq_true] at h
  exact KV.plain_of_forall h.2 (by decide)

theorem plain_of_validAccountUsername {s : String} (h : validAccountUsername s) : Plain s := by
  simp only [validAccountUsername, Bool.and_eq_true] at h
  exact KV.plain_of_forall h.1.2 (by decide)

theorem branchOfKey_plain {stem key : String} {b : BranchName} (h : branchOfKey stem key = some b) :
    Plain b := by
  unfold branchOfKey at h
  dsimp only at h
  split at h
  · split at h
    · cases h
    · cases h
      intro hm
      rw [String.toList_ofList] at hm
      simpa using List.all_eq_true.mp List.all_takeWhile _ hm
  · cases h

/-! ## Keys that determine their names -/

theorem projectKey_inj {id id' : ProjectId} : projectKey id = projectKey id' ↔ id = id' := by
  rw [← String.toList_inj, ← String.toList_inj]
  simp [projectKey]

theorem structKey_inj {id id' : ProjectId} : structKey id = structKey id' ↔ id = id' := by
  rw [← String.toList_inj, ← String.toList_inj]
  simp [structKey]

theorem structDraftKey_inj {id id' : ProjectId} : structDraftKey id = structDraftKey id' ↔ id = id' := by
  rw [← String.toList_inj, ← String.toList_inj]
  simp [structDraftKey]

theorem sharedKey_inj {key key' : String} : sharedKey key = sharedKey key' ↔ key = key' := by
  rw [← String.toList_inj, ← String.toList_inj]
  simp [sharedKey]

theorem sharedKey_ne_sharedDraftKey {key key' : String} : sharedKey key ≠ sharedDraftKey key' := by
  intro e
  have := congrArg segments e
  simp [segments_sharedKey, segments_sharedDraftKey] at this

/-- The names in the key of a branch have no slash if those of an equal key have none. -/
theorem branchStateKey_inj {id id' : ProjectId} {b b' : BranchName} (hi : Plain id') (hb : Plain b')
    (h : branchStateKey id b = branchStateKey id' b') : id = id' ∧ b = b' := by
  have hl := String.toList_inj.mpr h
  simp only [branchStateKey, String.toList_append, List.append_assoc, List.append_cancel_left_eq] at hl
  rw [← List.append_assoc, ← List.append_assoc, ← List.append_assoc, ← List.append_assoc,
    List.append_cancel_right_eq] at hl
  have hc := congrArg (List.count '/') hl
  simp only [List.count_append, List.count_eq_zero_of_not_mem hi, List.count_eq_zero_of_not_mem hb] at hc
  have hi' : Plain id := fun hm => by have := List.count_pos_iff.mpr hm; omega
  have hb' : Plain b := fun hm => by have := List.count_pos_iff.mpr hm; omega
  have hs := congrArg segments h
  rw [segments_branchStateKey hi' hb', segments_branchStateKey hi hb] at hs
  simp only [List.cons.injEq, true_and, and_true] at hs
  exact hs

/-! ## The shape of a row -/

structure Named (id : ProjectId) (b : BranchName) : Prop where
  id : validName id
  branch : validBranch b

theorem Named.plain {id : ProjectId} {b : BranchName} (h : Named id b) : Plain id ∧ Plain b :=
  ⟨plain_of_validName h.id, plain_of_validBranch h.branch⟩

def Placed (k : String) : Stored → Prop
  | .project p => validName p.id ∧ p.name = p.id ∧ k = projectKey p.id
  | .text s => k = kAdminPw ∨ s = "1" ∧ ∃ name, k = idxPname name
  | .structure _ => ∃ id, validName id ∧ k = structKey id
  | .structureDraft _ => ∃ id, validName id ∧ k = structDraftKey id
  | .branchState _ => ∃ id b, Named id b ∧ k = branchStateKey id b
  | .version r => ∃ id b, Named id b ∧ k = versionKey id b r.no
  | .snapshot _ => ∃ id b n, Named id b ∧ (isCheckpoint n ∧ k = snapshotKey id b n ∨ k = graySnapKey id b n)
  | .diff _ => ∃ id b n, Named id b ∧ ¬ isCheckpoint n ∧ k = diffKey id b n
  | .shared item => validKeyName item.key ∧ (k = sharedKey item.key ∨ k = sharedDraftKey item.key)
  | .session _ => k = sessionKey ∨ (∃ sid, k = sessionKeyWith sid) ∨ (∃ u, k = paSessionKey u) ∨
      (∃ u sid, k = paSessionKeyWith u sid) ∨ ∃ u sid, k = gaSessionKeyWith u sid
  | .projectAdmin a => validAccountUsername a.username ∧ k = projectAdminKey a.username
  | .globalAdmin a => validAccountUsername a.username ∧ k = globalAdminKey a.username
  | .token r => k = dataTokenKey r.hash
  | .audit e => k = auditKey e.seq
  | .number _ => k = kAuditSeq

/-- Rows are placed, writes and deletes stay within `T`, direct deletes within `D`; versions are
made only of branches whose state is within `T`. -/
def rules (T D : String → Prop) : Contract String Stored VersionWrite where
  row := Placed
  put k v := Placed k v ∧ T k
  del := T
  direct := D
  note w := Named w.project w.branch ∧ T (branchStateKey w.project w.branch)

section
variable {T D : String → Prop} {k : String}

@[simp] theorem rules_row (v : Stored) : (rules T D).row k v = Placed k v := rfl
@[simp] theorem rules_put (v : Stored) : (rules T D).put k v = (Placed k v ∧ T k) := rfl
@[simp] theorem rules_del : (rules T D).del k = T k := rfl
@[simp] theorem rules_direct : (rules T D).direct k = D k := rfl

theorem obeys_rules_mono {α : Type} {p : M α} {Q : α → Prop} {T' D' : String → Prop} (h : p.Obeys (rules T D) Q)
    (hT : ∀ k, T k → T' k) (hD : ∀ k, D k → D' k) : p.Obeys (rules T' D') Q :=
  h.weaken (fun _ _ h => h) (fun _ _ h => ⟨h.1, hT _ h.2⟩) hT hD fun _ h => ⟨h.1, hT _ h.2⟩

@[simp] theorem placed_project (p : Project) :
    Placed k (Codec.encode p) ↔ validName p.id ∧ p.name = p.id ∧ k = projectKey p.id := Iff.rfl

@[simp] theorem placed_text (s : String) :
    Placed k (Codec.encode s) ↔ k = kAdminPw ∨ s = "1" ∧ ∃ name, k = idxPname name := Iff.rfl

@[simp] theorem placed_structure (s : Structure) :
    Placed k (Codec.encode s) ↔ ∃ id, validName id ∧ k = structKey id := Iff.rfl

@[simp] theorem placed_structureDraft (d : StructureDraft) :
    Placed k (Codec.encode d) ↔ ∃ id, validName id ∧ k = structDraftKey id := Iff.rfl

@[simp] theorem placed_branchState (st : BranchState) :
    Placed k (Codec.encode st) ↔ ∃ id b, Named id b ∧ k = branchStateKey id b := Iff.rfl

@[simp] theorem placed_version (r : VersionRecord) :
    Placed k (Codec.encode r) ↔ ∃ id b, Named id b ∧ k = versionKey id b r.no := Iff.rfl

@[simp] theorem placed_snapshot (snap : SnapshotMap) :
    Placed k (Codec.encode snap) ↔
      ∃ id b n, Named id b ∧ (isCheckpoint n ∧ k = snapshotKey id b n ∨ k = graySnapKey id b n) := Iff.rfl

@[simp] theorem placed_diff (d : List DiffEntry) :
    Placed k (Codec.encode d) ↔ ∃ id b n, Named id b ∧ ¬ isCheckpoint n ∧ k = diffKey id b n := Iff.rfl

@[simp] theorem placed_shared (item : SharedItem) :
    Placed k (Codec.encode item) ↔
      validKeyName item.key ∧ (k = sharedKey item.key ∨ k = sharedDraftKey item.key) := Iff.rfl

@[simp] theorem placed_session (s : AdminSession) :
    Placed k (Codec.encode s) ↔ k = sessionKey ∨ (∃ sid, k = sessionKeyWith sid) ∨ (∃ u, k = paSessionKey u) ∨
      (∃ u sid, k = paSessionKeyWith u sid) ∨ ∃ u sid, k = gaSessionKeyWith u sid := Iff.rfl

@[simp] theorem placed_projectAdmin (a : ProjectAdminAccount) :
    Placed k (Codec.encode a) ↔ validAccountUsername a.username ∧ k = projectAdminKey a.username := Iff.rfl

@[simp] theorem placed_globalAdmin (a : GlobalAdminAccount) :
    Placed k (Codec.encode a) ↔ validAccountUsername a.username ∧ k = globalAdminKey a.username := Iff.rfl

@[simp] theorem placed_token (r : ProjectTokenRecord) :
    Placed k (Codec.encode r) ↔ k = dataTokenKey r.hash := Iff.rfl

@[simp] theorem placed_audit (e : AuditEntry) : Placed k (Codec.encode e) ↔ k = auditKey e.seq := Iff.rfl

@[simp] theorem placed_number (n : Nat) : Placed k (Codec.encode n) ↔ k = kAuditSeq := Iff.rfl

end

theorem named_of_placed {id : ProjectId} {b : BranchName} (st : BranchState)
    (h : Placed (branchStateKey id b) (Codec.encode st)) : Named id b := by
  obtain ⟨id', b', hn, e⟩ := h
  obtain ⟨rfl, rfl⟩ := branchStateKey_inj hn.plain.1 hn.plain.2 e
  exact hn

theorem validName_of_structure {id : ProjectId} (s : Structure)
    (h : Placed (structKey id) (Codec.encode s)) : validName id := by
  obtain ⟨id', hn, e⟩ := h
  exact structKey_inj.mp e ▸ hn

theorem validName_of_project {id : ProjectId} (p : Project)
    (h : Placed (projectKey id) (Codec.encode p)) : validName id ∧ p.id = id ∧ p.name = id := by
  obtain ⟨hn, hp, e⟩ := h
  have := projectKey_inj.mp e
  exact ⟨this ▸ hn, this.symm, hp.trans this.symm⟩

end Defing
