import Defing.Core.Read

/-! # Commands on projects, branches, structures and drafts -/

namespace Defing

open KV (Prog)

variable [SerdeJson]

/-! ## Projects -/

def cloneGroups (name : String) : Option String → M (List GroupDef)
  | none => pure []
  | some src => do
    ensure (src ≠ name) (Error.validation "clone source must differ from new project name")
    ensure (validName src) (Error.validation s!"invalid clone source: {debugStr src}")
    let srcStruct ← okOr (← getStructure src) (Error.validation s!"clone source {debugStr src} not found")
    let errs := validateStructure srcStruct
    ensure (errs = []) (Error.publishBlocked errs)
    pure srcStruct.groups

def applyProjectCreate (name : String) (nowMs : Int) (_operator : String) (cloneFrom : Option String) :
    M (List PublishEvent) := do
  ensure (validName name) (Error.validation s!"invalid project name: {debugStr name}")
  let projects ← listProjects
  ensure (projects.length < maxProjects) (Error.limitExceeded "too many projects")
  let existing ← getProject name
  ensure (existing = none) (Error.conflict s!"project {name} already exists")
  let groups ← cloneGroups name cloneFrom
  savePending (projectKey name) ({ id := name, name, createdAt := nowMs } : Project)
  savePending (idxPname name) "1"
  savePending (structKey name) ({ version := 1, groups } : Structure)
  [BranchName.DEV, BranchName.TEST, BranchName.PROD].forM fun branch =>
    savePending (branchStateKey name branch) (BranchState.new 1)
  pure []

/-- Every session of a project administrator: the single one of old logs, then the stem. -/
def deleteAllPaSessions (username : String) : M Unit := do
  deletePending (paSessionKey username)
  let rows ← getPrefixMerged (paSessionPrefix username)
  deleteRows rows

def deleteAccounts (id : ProjectId) : M Unit := do
  let admins ← listProjectAdmins id
  admins.forM fun acct => do
    deleteAllPaSessions acct.username
    deletePending (projectAdminKey acct.username)
  let tokens ← getPrefixMerged kDataToken
  deleteRows (tokens.filter fun row =>
    match (Codec.decode row.2 : Option ProjectTokenRecord) with
    | some rec => rec.project = id
    | none => false)

def applyProjectDelete (id : ProjectId) (_operator : String) : M (List PublishEvent) := do
  let project ← okOr (← getProject id) (Error.notFound s!"project {id}")
  let rows ← getPrefixMerged (projectKey id)
  deleteRows rows
  deletePending (idxPname project.name)
  deleteAccounts id
  pure []

/-! ## Branches -/

/-- The items of a structure marked as shared, by group and key; a later one hides an earlier one. -/
def sharedItems (struct : Structure) : StrMap (StrMap ValueType) :=
  (struct.allItems.filter fun e => e.2.shared).foldl (fun m e => setItem m e.1 e.2.key e.2.ty) ∅

/-- The draft a branch starts with: the values of a snapshot, without the shared items. -/
def draftOf (struct : Structure) (nowMs : Int) (snap : SnapshotMap) : ValueDraft :=
  let shared := sharedItems struct
  snap.filterMap fun g items =>
    let m := (items.filter fun k _ => (item? shared g k).isNone).map fun _ value =>
      ({ value, updatedAt := nowMs } : DraftValue)
    if m.isEmpty then none else some m

def applyBranchCreate (id : ProjectId) (name : BranchName) (source : Option BranchName) (nowMs : Int)
    (_operator : String) : M (List PublishEvent) := do
  ensure (validBranch name) (Error.validation s!"invalid branch name: BranchName({debugStr name})")
  let _ ← okOr (← getProject id) (Error.notFound s!"project {id}")
  let existing ← getBranchState id name
  ensure (existing = none) (Error.conflict s!"branch {name} exists")
  let branches ← listBranches id
  ensure (branches.length < maxBranchesPerProject) (Error.limitExceeded "too many branches")
  let struct := (← getStructure id).getD { version := 1, groups := [] }
  let state := BranchState.new struct.version
  let state ← match source with
    | none => pure state
    | some src => do
      let srcState ← okOr (← getBranchState id src) (Error.validation s!"source branch {src} not found")
      ensure (srcState.activeVersion ≠ 0) (Error.validation s!"source branch {src} has no published version")
      let snap ← snapshotOf id src srcState.activeVersion
      pure { state with valueDraft := draftOf struct nowMs snap, sharedBindings := srcState.sharedBindings, bindingsDirty := false }
  savePending (branchStateKey id name) state
  pure []

def applyBranchDelete (id : ProjectId) (name : BranchName) (_operator : String) : M (List PublishEvent) := do
  let st ← okOr (← getBranchState id name) (Error.notFound s!"branch {name} of {id}")
  ensure (¬ (st.activeVersion > 0 ∨ st.valueDraft ≠ ∅)) (Error.conflict "branch has published versions or pending draft")
  let rows ← getPrefixMerged (branchPrefix id name)
  deleteRows rows
  pure []

/-! ## Structures -/

def applyStructureDraftSet (id : ProjectId) (baseVersion : Nat) (groups : List GroupDef)
    (_operator : String) : M (List PublishEvent) := do
  let struct ← okOr (← getStructure id) (Error.notFound s!"project {id}")
  ensure (baseVersion = struct.version)
    (Error.conflict s!"base_version {baseVersion} != current structure version {struct.version}")
  let errs := validateStructure { version := baseVersion, groups }
  ensure (errs = []) (Error.publishBlocked errs)
  savePending (structDraftKey id) ({ baseVersion, groups } : StructureDraft)
  pure []

/-- `BTreeMap::retain` on the items of every group; groups left without items go. -/
def retainItems {β : Type} (keep : String → String → Bool) (m : StrMap (StrMap β)) : StrMap (StrMap β) :=
  m.filterMap fun g items =>
    let items := items.filter fun k _ => keep g k
    if items.isEmpty then none else some items

/-- `m.get_mut(group)` and `remove(key)`; the group stays, even without items. -/
def removeItem {β : Type} (m : StrMap (StrMap β)) (group key : String) : StrMap (StrMap β) :=
  match m[group]? with
  | some items => m.insert group (items.erase key)
  | none => m

def pruneDraft (struct : Structure) (draft : ValueDraft) : ValueDraft :=
  let known := retainItems (fun g k => struct.allItems.any fun e => e.1 = g ∧ e.2.key = k) draft
  (struct.allItems.filter fun e => e.2.shared).foldl (fun m e => removeItem m e.1 e.2.key) known

/-- Whether a binding survives a new structure: the item is still shared, and the shared item it is
bound to is there and of its type. -/
def bindingFits (shared : StrMap (StrMap ValueType)) (g k rk : String) : M Bool :=
  match item? shared g k with
  | none => pure false
  | some ty => do
    let s ← tryGetShared rk
    pure (s.any fun s => s.ty = ty)

def retainBindings (struct : Structure) (bindings : Bindings) : M Bindings := do
  let shared := sharedItems struct
  bindings.toList.foldlM (fun (out : Bindings) (g, m) => do
    let kept ← m.toList.foldlM (fun (kept : StrMap String) (k, rk) => do
      let fits ← bindingFits shared g k rk
      pure (if fits then kept.insert k rk else kept)) ∅
    pure (if kept.isEmpty then out else out.insert g kept)) ∅

def operatorId (operator : String) : String := if operator = "" then "admin" else operator

/-- A gray release under way is copied to the number after the one of the new version. -/
def bumpGray (id : ProjectId) (branch : BranchName) (graySeq grayNext : Nat) : M Nat :=
  if graySeq > 0 then do
    let graySnap ← graySnapshotOf id branch graySeq
    savePending (graySnapKey id branch grayNext) graySnap
    deletePending (graySnapKey id branch graySeq)
    pure grayNext
  else pure graySeq

/-- The pass of `applyPublishStructure` over one branch. -/
def publishStructureOn (id : ProjectId) (struct : Structure) (comment requestId : String) (nowMs : Int)
    (operator : String) (branch : BranchName) : M PublishEvent := do
  let st ← okOr (← getBranchState id branch) (Error.internal "branch state missing")
  let vno := nextMonotonic st.activeVersion st.graySeq
  let values ← activeSnapshot id branch st
  writeVersionSnapshot id branch vno values values
    { no := vno, structureVersion := struct.version, createdAt := nowMs, operator := operatorId operator,
      comment, rollbackOf := none, kind := .full, snapshotRef := none, diffRef := none,
      eventTy := some .structurePublish, gray := false }
  let graySeq ← bumpGray id branch st.graySeq (vno + 1)
  let bindings ← retainBindings struct st.sharedBindings
  savePending (branchStateKey id branch)
    { st with activeVersion := vno, structureVersion := struct.version, graySeq,
              valueDraft := pruneDraft struct st.valueDraft, sharedBindings := bindings }
  pure { project := id, branch, version := vno, ty := .structurePublish, structureVersion := struct.version,
         comment, requestId, changes := [], gray := false }

def applyPublishStructure (id : ProjectId) (comment requestId : String) (nowMs : Int) (operator : String)
    (policy : PublishPolicy) : M (List PublishEvent) := do
  let struct ← okOr (← getStructure id) (Error.notFound s!"project {id}")
  let draft ← okOr (← getStructureDraft id) (Error.new .noDraft "no structure draft")
  ensure (draft.baseVersion = struct.version) (Error.conflict "structure draft base_version mismatch")
  let errs := validateStructure { version := struct.version, groups := draft.groups }
  ensure (¬ (errs ≠ [] ∧ policy = .block)) (Error.publishBlocked errs)
  let newStruct : Structure := { version := struct.version + 1, groups := draft.groups }
  let branches ← listBranches id
  let events ← branches.mapM (publishStructureOn id newStruct comment requestId nowMs operator)
  savePending (structKey id) newStruct
  deletePending (structDraftKey id)
  pure events

/-! ## Value drafts -/

/-- The item definitions of a structure, by group and key; a later one hides an earlier one. -/
def itemIndex (struct : Structure) : StrMap (StrMap ItemDef) :=
  struct.allItems.foldl (fun m e => setItem m e.1 e.2.key e.2) ∅

/-- The check of one update; `total` counts the items of the draft. -/
def checkUpdate (index : StrMap (StrMap ItemDef)) (draft : ValueDraft) (total : Nat) (u : DraftUpdateItem) :
    M Nat := do
  let d ← okOr (item? index u.group u.key) (Error.validation s!"unknown item {u.group}/{u.key}")
  ensure (d.shared = false) (Error.validation s!"item {u.group}/{u.key} 引用共享项，不可设置本地值")
  let errs := validateValue d u.value
  ensure (errs = []) (Error.validation ("; ".intercalate errs))
  ensure (SerdeJson.valueBytes u.value ≤ maxValueBytes) (Error.limitExceeded "value too large")
  if (item? draft u.group u.key).isNone then do
    ensure (total + 1 ≤ maxItemsPerProject) (Error.limitExceeded "too many draft items")
    pure (total + 1)
  else pure total

def bindOne (index : StrMap (StrMap ItemDef)) (acc : Bindings × Bool) (b : SharedBinding) :
    M (Bindings × Bool) := do
  let d ← okOr (item? index b.group b.key) (Error.validation s!"unknown item {b.group}/{b.key}")
  ensure (d.shared = true) (Error.validation s!"item {b.group}/{b.key} 未标记为引用共享，不可绑定共享项")
  let cur := item? acc.1 b.group b.key
  if b.sharedKey = "" then
    pure (if cur.isSome then
      (match acc.1[b.group]? with
        | some m => if (m.erase b.key).isEmpty then acc.1.erase b.group else acc.1.insert b.group (m.erase b.key)
        | none => acc.1, true) else acc)
  else do
    ensure (validKeyName b.sharedKey)
      (Error.validation s!"invalid shared key {debugStr b.sharedKey}: only [A-Za-z0-9._-] allowed")
    let shared ← okOr (← getShared b.sharedKey) (Error.validation s!"shared item {b.sharedKey} 未发布")
    ensure (shared.ty = d.ty) (Error.validation
      s!"{b.group}/{b.key}: type {d.ty.debug} 与共享项 {b.sharedKey} 的 {shared.ty.debug} 不一致")
    pure (setItem acc.1 b.group b.key b.sharedKey, acc.2 || cur ≠ some b.sharedKey)

def checkDraftRev (st : BranchState) : Option Nat → M Unit
  | some exp => ensure (exp = st.draftRev)
      (Error.conflict s!"草稿已被他人修改（draft_rev {st.draftRev} != expected {exp}），请刷新后重试")
  | none => pure ()

def applyDraftUpdate (id : ProjectId) (branch : BranchName) (updates : List DraftUpdateItem)
    (deletes : List (String × String)) (bindings : List SharedBinding) (nowMs : Int) (_operator : String)
    (expectedDraftRev : Option Nat) : M (List PublishEvent) := do
  let st ← okOr (← getBranchState id branch) (Error.notFound s!"branch {branch} of {id}")
  checkDraftRev st expectedDraftRev
  let struct ← okOr (← getStructure id) (Error.notFound s!"project {id}")
  let index := itemIndex struct
  let _ ← updates.foldlM (checkUpdate index st.valueDraft) (st.valueDraft.toList.map fun e => e.2.size).sum
  let (sharedBindings, changed) ← bindings.foldlM (bindOne index) (st.sharedBindings, false)
  let draft := deletes.foldl (fun m (g, key) => removeItem m g key) st.valueDraft
  let draft := updates.foldl (fun m u =>
    setItem m u.group u.key ({ value := u.value, updatedAt := nowMs } : DraftValue)) draft
  savePending (branchStateKey id branch)
    { st with valueDraft := draft, sharedBindings, bindingsDirty := st.bindingsDirty || changed,
              draftRev := st.draftRev + 1 }
  pure []

end Defing
