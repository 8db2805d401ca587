import Defing.Core.Exec
import Defing.Core.Paths

/-!
# Readers write nothing

The readers of the state machine, and the parts of commands that only read.
-/

namespace Defing

open KV (Prog)

variable {α β : Type} [SerdeJson]

theorem listProjects_readOnly : listProjects.ReadOnly :=
  (getPrefixMerged_readOnly _).bind fun _ => trivial

omit [SerdeJson] in
theorem listBranches_readOnly (id : ProjectId) : (listBranches id).ReadOnly :=
  (getPrefixMerged_readOnly _).bind fun _ => trivial

theorem listSharedDrafts_readOnly : listSharedDrafts.ReadOnly :=
  (getPrefixMerged_readOnly _).bind fun _ => trivial

theorem listProjectAdmins_readOnly (id : ProjectId) : (listProjectAdmins id).ReadOnly :=
  (getPrefixMerged_readOnly _).bind fun _ => trivial

omit [SerdeJson] in
theorem usernameTaken_readOnly (stem username : String) : (usernameTaken stem username).ReadOnly :=
  (getPrefixMerged_readOnly _).bind fun _ => trivial


theorem branchUsage_readOnly (key : String) (id : ProjectId) (b : BranchName) : (branchUsage key id b).ReadOnly := by
  refine (loadMerged_readOnly _).bind fun st => ?_
  cases st <;> trivial

theorem projectUsage_readOnly (key : String) (p : Project) : (projectUsage key p).ReadOnly :=
  (listBranches_readOnly _).bind fun _ => collect_readOnly (branchUsage_readOnly key p.id) _

theorem sharedUsage_readOnly (key : String) : (sharedUsage key).ReadOnly := by
  exact listProjects_readOnly.bind fun _ => collect_readOnly (projectUsage_readOnly key) _

section
variable {D : String → Prop} {id : ProjectId} {b : BranchName} (hsnap : ∀ v, D (snapshotKey id b v)) (hdiff : ∀ v, D (diffKey id b v))
include hsnap

theorem fullSnapshot_within (v : Nat) : (fullSnapshot id b v).Within D :=
  (readAs_within _ (hsnap v)).bind fun _ => okOr_within _ _

include hdiff

theorem replay_within (n : Nat) : ∀ (v : Nat) (snap : SnapshotMap), (replay id b n v snap).Within D := by
  induction n with
  | zero => exact fun _ _ => trivial
  | succ n ih =>
    intro v snap
    unfold replay
    split
    · exact (readAs_within _ (hsnap v)).bind fun _ => (okOr_within _ _).bind fun _ => ih _ _
    · refine (readAs_within _ (hdiff v)).bind fun diff => ?_
      cases diff with
      | none => exact fullSnapshot_within hsnap v
      | some diff => exact ih _ _

theorem snapshotOf_within (v : Nat) : (snapshotOf id b v).Within D := by
  refine (ensure_within _ _).bind fun _ => (readAs_within _ (hsnap _)).bind fun base => ?_
  cases base with
  | none => exact fullSnapshot_within hsnap v
  | some snap => exact replay_within hsnap hdiff _ _ _

end

theorem snapshotOf_readOnly (id : ProjectId) (b : BranchName) (v : Nat) : (snapshotOf id b v).ReadOnly :=
  (snapshotOf_within (D := fun _ => True) (fun _ => trivial) (fun _ => trivial) v).readOnly

theorem activeSnapshot_readOnly (id : ProjectId) (b : BranchName) (st : BranchState) :
    (activeSnapshot id b st).ReadOnly := by
  unfold activeSnapshot
  split
  · trivial
  · exact snapshotOf_readOnly id b _

theorem graySnapshotOf_readOnly (id : ProjectId) (b : BranchName) (seq : Nat) :
    (graySnapshotOf id b seq).ReadOnly :=
  (readAs_readOnly _ _).bind fun _ => okOr_readOnly _ _

theorem cloneGroups_readOnly (name : String) (src : Option String) : (cloneGroups name src).ReadOnly := by
  cases src with
  | none => trivial
  | some src =>
    refine (ensure_readOnly _ _).bind fun _ => (ensure_readOnly _ _).bind fun _ => ?_
    refine (loadMerged_readOnly _).bind fun _ => (okOr_readOnly _ _).bind fun _ => ?_
    exact (ensure_readOnly _ _).bind fun _ => trivial

theorem bindingFits_readOnly (shared : StrMap (StrMap ValueType)) (g k rk : String) :
    (bindingFits shared g k rk).ReadOnly := by
  unfold bindingFits
  split
  · trivial
  · exact (tryLoadMerged_readOnly _).bind fun _ => trivial

theorem retainBindings_readOnly (struct : Structure) (bindings : Bindings) :
    (retainBindings struct bindings).ReadOnly := by
  refine foldlM_readOnly (fun out e => ?_) _ _
  refine (foldlM_readOnly (fun kept e' => ?_) _ _).bind fun _ => trivial
  exact (bindingFits_readOnly _ _ _ _).bind fun _ => trivial

omit [SerdeJson] in
theorem checkDraftRev_readOnly (st : BranchState) (rev : Option Nat) : (checkDraftRev st rev).ReadOnly := by
  cases rev with
  | none => trivial
  | some => exact ensure_readOnly _ _

theorem checkUpdate_readOnly (index : StrMap (StrMap ItemDef)) (draft : ValueDraft) (total : Nat)
    (u : DraftUpdateItem) : (checkUpdate index draft total u).ReadOnly := by
  refine (okOr_readOnly _ _).bind fun d => (ensure_readOnly _ _).bind fun _ => ?_
  refine (ensure_readOnly _ _).bind fun _ => (ensure_readOnly _ _).bind fun _ => ?_
  split
  · exact (ensure_readOnly _ _).bind fun _ => trivial
  · trivial

theorem bindOne_readOnly (index : StrMap (StrMap ItemDef)) (acc : Bindings × Bool) (b : SharedBinding) :
    (bindOne index acc b).ReadOnly := by
  refine (okOr_readOnly _ _).bind fun d => (ensure_readOnly _ _).bind fun _ => ?_
  split
  · trivial
  · refine (ensure_readOnly _ _).bind fun _ => (loadMerged_readOnly _).bind fun _ => ?_
    exact (okOr_readOnly _ _).bind fun _ => (ensure_readOnly _ _).bind fun _ => trivial

theorem resolveShared_readOnly (bindings : Bindings) (acc : SnapshotMap × List String) (e : String × ItemDef) :
    (resolveShared bindings acc e).ReadOnly := by
  obtain ⟨g, item⟩ := e
  dsimp only [resolveShared]
  split
  · cases item? bindings g item.key with
    | none => trivial
    | some rk =>
      refine (loadMerged_readOnly _).bind fun shared => ?_
      cases shared with
      | none => trivial
      | some shared => dsimp only; split <;> trivial
  · trivial

theorem materializeResolved_readOnly (st : BranchState) (struct : Structure) (old : SnapshotMap)
    (policy : PublishPolicy) : (materializeResolved st struct old policy).ReadOnly := by
  refine (foldlM_readOnly (resolveShared_readOnly _) _ _).bind fun _ => ?_
  exact (ensure_readOnly _ _).bind fun _ => trivial

omit [SerdeJson] in
theorem validateGrayRule_within (rule : GrayRule) : (validateGrayRule rule).Within fun _ => False := by
  refine (ensure_within _ _).bind fun _ => (KV.Prog.within_forM _ fun _ _ => ensure_within _ _).bind fun _ => ?_
  refine (KV.Prog.within_forM _ fun _ _ => ensure_within _ _).bind fun _ => ?_
  split
  · exact ensure_within _ _
  · trivial

omit [SerdeJson] in
theorem validateGrayRule_readOnly (rule : GrayRule) : (validateGrayRule rule).ReadOnly := (validateGrayRule_within rule).readOnly

end Defing
