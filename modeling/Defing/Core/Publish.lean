import Defing.Core.Cidr
import Defing.Core.Project

/-! # Commands that make versions of a branch -/

namespace Defing

open KV (Prog)

variable [SerdeJson]

/-! ## Materialisation -/

def keepSecrets (struct : Structure) (old : SnapshotMap) (draft : ValueDraft) : ValueDraft :=
  struct.allItems.foldl (fun m (g, item) =>
    if item.shared ∨ item.ty ≠ .secret then m
    else if (item? m g item.key).isSome then m
    else
      match item? old g item.key with
      | some v => setItem m g item.key { value := v, updatedAt := 0 }
      | none => m) draft

/-- One shared item of the structure: its value goes into the snapshot, or an error to the list. -/
def resolveShared (bindings : Bindings) (acc : SnapshotMap × List String) (e : String × ItemDef) :
    M (SnapshotMap × List String) :=
  let (g, item) := e
  if item.shared then
    match item? bindings g item.key with
    | none => pure (acc.1, acc.2 ++ [s!"{g}/{item.key}: 未选择引用共享项"])
    | some rk => do
      match ← getShared rk with
      | some shared =>
        if shared.ty ≠ item.ty then
          pure (acc.1, acc.2 ++
            [s!"{g}/{item.key}: 共享项 {rk} 类型 {shared.ty.debug} 与结构声明 {item.ty.debug} 不一致"])
        else pure (setItem acc.1 g item.key shared.value, acc.2)
      | none => pure (acc.1, acc.2 ++ [s!"{g}/{item.key}: shared item {rk} 缺失（悬空引用）"])
  else pure acc

/-- The snapshot a draft stands for, and the warnings. -/
def materializeResolved (st : BranchState) (struct : Structure) (old : SnapshotMap)
    (policy : PublishPolicy) : M (SnapshotMap × List String) := do
  let draft := keepSecrets struct old st.valueDraft
  let resolved : SnapshotMap := draft.map fun _ items => items.map fun _ dv => dv.value
  let (resolved, errs) ← struct.allItems.foldlM (resolveShared st.sharedBindings)
    (resolved, validatePublish draft struct)
  ensure (¬ (errs ≠ [] ∧ policy = .block)) (Error.publishBlocked errs)
  pure (resolved, errs)

/-! ## Publish and rollback -/

def applyPublish (id : ProjectId) (branch : BranchName) (comment requestId : String) (nowMs : Int)
    (operator : String) (policy : PublishPolicy) : M (List PublishEvent) := do
  let st ← okOr (← getBranchState id branch) (Error.notFound s!"branch {branch} of {id}")
  let struct ← okOr (← getStructure id) (Error.notFound s!"project {id}")
  if st.lastRequestId = some requestId then
    pure []
  else do
    ensure (¬ (st.valueDraft = ∅ ∧ st.bindingsDirty = false)) (Error.new .noDraft "no pending draft")
    let old ← activeSnapshot id branch st
    let (resolved, _) ← materializeResolved st struct old policy
    let vno := st.activeVersion + 1
    writeVersionSnapshot id branch vno old resolved
      { no := vno, structureVersion := struct.version, createdAt := nowMs, operator := operatorId operator,
        comment, rollbackOf := none, kind := .full, snapshotRef := none, diffRef := none,
        eventTy := some .valuePublish, gray := false }
    savePending (branchStateKey id branch)
      { st with activeVersion := vno, lastRequestId := some requestId, valueDraft := ∅, bindingsDirty := false }
    pure [{ project := id, branch, version := vno, ty := .valuePublish, structureVersion := struct.version,
            comment, requestId, changes := computeDiff old resolved, gray := false }]

def applyRollback (project : ProjectId) (branch : BranchName) (toVersion : Nat) (comment requestId : String)
    (nowMs : Int) (operator : String) : M (List PublishEvent) := do
  let st ← okOr (← getBranchState project branch) (Error.notFound s!"branch {branch} of {project}")
  if st.lastRequestId = some requestId then
    pure []
  else do
    ensure (¬ (toVersion = 0 ∨ toVersion ≥ st.activeVersion))
      (Error.validation s!"to_version {toVersion} must be 0 < v < active {st.activeVersion}")
    let snap ← snapshotOf project branch toVersion
    let old ← activeSnapshot project branch st
    let vno := st.activeVersion + 1
    writeVersionSnapshot project branch vno old snap
      { no := vno, structureVersion := st.structureVersion, createdAt := nowMs, operator := operatorId operator,
        comment, rollbackOf := some toVersion, kind := .full, snapshotRef := none, diffRef := none,
        eventTy := some .rollback, gray := false }
    savePending (branchStateKey project branch)
      { st with activeVersion := vno, lastRequestId := some requestId }
    pure [{ project, branch, version := vno, ty := .rollback, structureVersion := st.structureVersion,
            comment, requestId, changes := computeDiff old snap, gray := false }]

/-! ## Gray releases -/

def applyGrayPublish (id : ProjectId) (branch : BranchName) (rule : GrayRule) (comment requestId : String)
    (_nowMs : Int) (_operator : String) (policy : PublishPolicy) : M (List PublishEvent) := do
  validateGrayRule rule
  let st ← okOr (← getBranchState id branch) (Error.notFound s!"branch {branch} of {id}")
  let struct ← okOr (← getStructure id) (Error.notFound s!"project {id}")
  if st.lastRequestId = some requestId then
    pure []
  else do
    ensure (¬ (st.valueDraft = ∅ ∧ st.bindingsDirty = false)) (Error.new .noDraft "no pending draft")
    let old ← activeSnapshot id branch st
    let (graySnap, _) ← materializeResolved st struct old policy
    savePending (graySnapKey id branch (st.graySeq + 1)) graySnap
    if st.graySeq > 0 then deletePending (graySnapKey id branch st.graySeq)
    savePending (branchStateKey id branch)
      { st with graySeq := st.graySeq + 1, grayRule := some rule, lastRequestId := some requestId,
                valueDraft := ∅, bindingsDirty := false }
    pure [{ project := id, branch, version := st.activeVersion, ty := .valuePublish,
            structureVersion := struct.version, comment, requestId,
            changes := computeDiff old graySnap, gray := true }]

def applyGrayPromote (id : ProjectId) (branch : BranchName) (comment requestId : String) (nowMs : Int)
    (operator : String) : M (List PublishEvent) := do
  let st ← okOr (← getBranchState id branch) (Error.notFound s!"branch {branch} of {id}")
  if st.lastRequestId = some requestId then
    pure []
  else do
    ensure (¬ (st.graySeq = 0 ∨ st.grayRule = none)) (Error.validation s!"no active gray on branch {branch}")
    let graySnap ← graySnapshotOf id branch st.graySeq
    let old ← activeSnapshot id branch st
    let vno := nextMonotonic st.activeVersion st.graySeq
    writeVersionSnapshot id branch vno old graySnap
      { no := vno, structureVersion := st.structureVersion, createdAt := nowMs, operator := operatorId operator,
        comment, rollbackOf := none, kind := .full, snapshotRef := none, diffRef := none,
        eventTy := some .valuePublish, gray := true }
    deletePending (graySnapKey id branch st.graySeq)
    savePending (branchStateKey id branch)
      { st with activeVersion := vno, graySeq := 0, grayRule := none, lastRequestId := some requestId }
    pure [{ project := id, branch, version := vno, ty := .valuePublish, structureVersion := st.structureVersion,
            comment, requestId, changes := computeDiff old graySnap, gray := true }]

def applyGrayAbort (id : ProjectId) (branch : BranchName) (comment requestId : String) (_nowMs : Int)
    (_operator : String) : M (List PublishEvent) := do
  let st ← okOr (← getBranchState id branch) (Error.notFound s!"branch {branch} of {id}")
  if st.lastRequestId = some requestId then
    pure []
  else do
    ensure (¬ (st.graySeq = 0 ∨ st.grayRule = none)) (Error.validation s!"no active gray on branch {branch}")
    deletePending (graySnapKey id branch st.graySeq)
    savePending (branchStateKey id branch)
      { st with graySeq := 0, grayRule := none, lastRequestId := some requestId }
    pure [{ project := id, branch, version := st.activeVersion, ty := .valuePublish,
            structureVersion := st.structureVersion, comment, requestId, changes := [], gray := true }]

/-! ## Shared items -/

def applySharedDraftUpdate (item : SharedItem) (_operator : String) : M (List PublishEvent) := do
  ensure (item.key ≠ "" ∧ validKeyName item.key) (Error.validation "shared key 须为 1-128 位 [A-Za-z0-9._-]")
  ensure (¬ (item.secret ∧ item.ty ≠ .secret)) (Error.validation "secret 共享项 type 必须为 secret")
  ensure (¬ (¬ item.secret ∧ item.ty = .secret)) (Error.validation "type=secret 的共享项必须标记 secret=true")
  ensure (SerdeJson.sharedItemBytes item ≤ maxValueBytes) (Error.limitExceeded "shared item too large")
  savePending (sharedDraftKey item.key) item
  pure []

def cascadeToBranch (project : ProjectId) (branch : BranchName) (group key : String) (value : Value)
    (comment requestId : String) (nowMs : Int) : M PublishEvent := do
  let st ← okOr (← getBranchState project branch) (Error.internal "branch state missing")
  let old ← activeSnapshot project branch st
  let new := setItem old group key value
  let vno := st.activeVersion + 1
  writeVersionSnapshot project branch vno old new
    { no := vno, structureVersion := st.structureVersion, createdAt := nowMs, operator := "shared",
      comment, rollbackOf := none, kind := .full, snapshotRef := none, diffRef := none,
      eventTy := some .sharedCascade, gray := false }
  savePending (branchStateKey project branch) { st with activeVersion := vno }
  pure { project, branch, version := vno, ty := .sharedCascade, structureVersion := st.structureVersion,
         comment, requestId, changes := computeDiff old new, gray := false }

def cascadeShared (comment requestId : String) (nowMs : Int) (cascade : SharedCascadeMode) (item : SharedItem) :
    M (List PublishEvent) := do
  if cascade = .manual then
    pure []
  else do
    let usage ← sharedUsage item.key
    usage.mapM fun (project, branch, group, key) =>
      cascadeToBranch project branch group key item.value comment requestId nowMs

/-- The pass of `applySharedPublish` over one draft. The delete of the draft goes past the buffer. -/
def publishShared (comment requestId : String) (nowMs : Int) (cascade : SharedCascadeMode)
    (item : SharedItem) : M (List PublishEvent) := do
  let prev ← getShared item.key
  let version := ((prev.map (·.version)).getD 0) + 1
  savePending (sharedKey item.key) { item with version }
  storeDelete (sharedDraftKey item.key)
  cascadeShared comment requestId nowMs cascade item

def applySharedPublish (comment requestId : String) (nowMs : Int) (_operator : String)
    (cascade : SharedCascadeMode) (_policy : PublishPolicy) : M (List PublishEvent) := do
  let drafts ← listSharedDrafts
  ensure (drafts ≠ []) (Error.new .noDraft "no shared draft")
  collect (publishShared comment requestId nowMs cascade) drafts

def applySharedDelete (key : String) (_operator : String) : M (List PublishEvent) := do
  ensure (validKeyName key) (Error.validation "shared key 须为 1-128 位 [A-Za-z0-9._-]")
  let published ← getShared key
  if published.isSome then do
    let refs ← sharedUsage key
    let detail := ", ".intercalate (refs.map fun (p, b, g, k) => s!"{p}/{b}/{g}/{k}")
    ensure (refs = []) (Error.conflict s!"shared item {key} 被 {refs.length} 处分支配置引用：{detail}；请先移除引用")
    deletePending (sharedKey key)
  deletePending (sharedDraftKey key)
  pure []

end Defing
