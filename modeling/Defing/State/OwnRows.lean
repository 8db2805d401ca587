import Defing.Core.Config
import Defing.State.Isolation
import Defing.State.Readers

/-!
# The rows of a project

What clients read is read for a project. Whatever the branch, the version and
the client, the rows are those of keys that go on after the key of that project.
What the rows of other projects hold makes no difference.
-/

namespace Defing

open KV (Plain)

def RowOf (id : ProjectId) (k : String) : Prop := startsWith (projectKey id ++ "/") k

def SameRows (id : ProjectId) (t t' : Store) : Prop := ∀ k, RowOf id k → t[k]? = t'[k]?

section
variable {id id' : ProjectId} {b : BranchName} {k : String} {n : Nat}

theorem rowOf_unique (h : RowOf id k) (h' : RowOf id' k) (hi : Plain id) (hi' : Plain id') : id = id' := by
  have hseg : ∀ {id : ProjectId}, RowOf id k → Plain id → ∃ tail, KV.segments k = ["p", id] ++ tail := by
    intro id h hi
    refine segments_of_startsWith h (fun c => ?_) (by simpa [Plain] using hi)
    simp [projectKey, kProject, KV.under]
  obtain ⟨tail, e⟩ := hseg h hi
  obtain ⟨tail', e'⟩ := hseg h' hi'
  rw [e] at e'
  simpa using (List.cons.inj (List.cons.inj e').2).1

theorem rowOf_iff : RowOf id k ↔ (projectKey id).toList ++ [ '/'] <+: k.toList := by
  rw [RowOf, startsWith_iff]
  simp

theorem rowOf_structKey : RowOf id (structKey id) := by
  rw [rowOf_iff]
  simp [structKey, projectKey, kStruct]

theorem rowOf_branchStateKey : RowOf id (branchStateKey id b) := by
  rw [rowOf_iff]
  simp [branchStateKey, projectKey, kBranch]

theorem rowOf_snapshotKey : RowOf id (snapshotKey id b n) := by
  rw [rowOf_iff]
  simp [snapshotKey, projectKey, kBranch]

theorem rowOf_diffKey : RowOf id (diffKey id b n) := by
  rw [rowOf_iff]
  simp [diffKey, projectKey, kBranch]

theorem rowOf_graySnapKey : RowOf id (graySnapKey id b n) := by
  rw [rowOf_iff]
  simp [graySnapKey, projectKey, kBranch]

theorem rowOf_of_version (h : startsWith (kProject ++ id ++ kBranch ++ b ++ kVersion) k) : RowOf id k := by
  rw [rowOf_iff]
  refine List.IsPrefix.trans ?_ (startsWith_iff.mp h)
  simp [projectKey, kBranch]

/-! ## Readers -/

section
variable [SerdeJson] (id : ProjectId) (b : BranchName)

theorem branchSnapshot_within (v : Nat) : (snapshotOf id b v).Within (RowOf id) :=
  snapshotOf_within (fun _ => rowOf_snapshotKey) (fun _ => rowOf_diffKey) v

theorem configState_within : (configState id b).Within (RowOf id) :=
  (loadMerged_within rowOf_branchStateKey).bind fun _ => okOr_within _ _

theorem structureVersionOf_within : (structureVersionOf id).Within (RowOf id) :=
  (loadMerged_within rowOf_structKey).bind fun _ => trivial

theorem getConfig_within (v : Nat) : (getConfig id b v).Within (RowOf id) := by
  refine (configState_within id b).bind fun _ => (ensure_within _ _).bind fun _ => ?_
  exact (branchSnapshot_within id b _).bind fun _ => (structureVersionOf_within id).bind fun _ => trivial

theorem resolveVersion_within (ctx : ClientCtx) : (resolveVersion id b ctx).Within (RowOf id) := by
  refine (configState_within id b).bind fun st => ?_
  cases st.grayRule with
  | none => trivial
  | some rule => dsimp only; split <;> [trivial; (split <;> trivial)]

theorem getConfigResolved_within (v : Nat) (ctx : ClientCtx) : (getConfigResolved id b v ctx).Within (RowOf id) := by
  unfold getConfigResolved
  split
  · exact getConfig_within id b v
  · refine (resolveVersion_within id b ctx).bind fun r => ?_
    cases r with
    | stable => exact getConfig_within id b 0
    | gray seq =>
      refine ((readAs_within _ rowOf_graySnapKey).bind fun _ => okOr_within _ _).bind fun _ => ?_
      exact (structureVersionOf_within id).bind fun _ => (configState_within id b).bind fun _ => trivial

theorem versionHistory_within : (versionHistory id b).Within (RowOf id) :=
  (getPrefixMerged_within fun _ h => rowOf_of_version h).bind fun _ => trivial

end

end

end Defing
