import Defing.Core.Access

/-! # Readers of the state machine -/

namespace Defing

open KV (Prog)

variable [SerdeJson]

/-! ## Entities -/

def getProject (id : ProjectId) : M (Option Project) := loadMerged (projectKey id)

/-- The project of a row of the stem `p/`; rows with a slash in the rest are parts of a project. -/
def projectRow (row : String × Stored) : Option Project :=
  if '/' ∈ row.1.toList.drop kProject.toList.length then none else Codec.decode row.2

def listProjects : M (List Project) := do
  let rows ← getPrefixMerged kProject
  pure ((rows.filterMap projectRow).insertionSort fun a b => a.name ≤ b.name)

def getStructure (id : ProjectId) : M (Option Structure) := loadMerged (structKey id)

def getStructureDraft (id : ProjectId) : M (Option StructureDraft) := loadMerged (structDraftKey id)

def getBranchState (id : ProjectId) (branch : BranchName) : M (Option BranchState) :=
  loadMerged (branchStateKey id branch)

/-- The branch a key below `stem` belongs to: the text up to the next slash. -/
def branchOfKey (stem key : String) : Option BranchName :=
  let rest := key.toList.drop stem.toList.length
  if '/' ∈ rest then
    let name := rest.takeWhile (· ≠ '/')
    if name = [] then none else some (String.ofList name)
  else none

def listBranches (id : ProjectId) : M (List BranchName) := do
  let stem := kProject ++ id ++ kBranch
  let rows ← getPrefixMerged stem
  pure ((rows.filterMap fun row => branchOfKey stem row.1).insertionSort (· ≤ ·)).dedup

def getShared (key : String) : M (Option SharedItem) := loadMerged (sharedKey key)

def tryGetShared (key : String) : M (Option SharedItem) := tryLoadMerged (sharedKey key)

def listSharedDrafts : M (List SharedItem) := do
  let rows ← getPrefixMerged kSharedDraft
  pure ((parsed rows).insertionSort fun (a b : SharedItem) => a.key ≤ b.key)

def boundTo (key : String) (bindings : Bindings) : List (String × String) :=
  bindings.toList.flatMap fun (g, m) => m.toList.filterMap fun (k, rk) => if rk = key then some (g, k) else none

/-- The passes of `sharedUsage` over one branch, and over the branches of one project. -/
def branchUsage (key : String) (id : ProjectId) (branch : BranchName) :
    M (List (ProjectId × BranchName × String × String)) := do
  match ← getBranchState id branch with
  | some st => pure ((boundTo key st.sharedBindings).map fun (g, k) => (id, branch, g, k))
  | none => pure []

def projectUsage (key : String) (p : Project) : M (List (ProjectId × BranchName × String × String)) := do
  let branches ← listBranches p.id
  collect (branchUsage key p.id) branches

def sharedUsage (key : String) : M (List (ProjectId × BranchName × String × String)) := do
  let projects ← listProjects
  collect (projectUsage key) projects

def getSession : M (Option AdminSession) := loadMerged sessionKey

def getProjectAdmin (username : String) : M (Option ProjectAdminAccount) :=
  loadMerged (projectAdminKey username)

def listProjectAdmins (project : ProjectId) : M (List ProjectAdminAccount) := do
  let rows ← getPrefixMerged kPaAccount
  pure (((parsed rows).filter fun (a : ProjectAdminAccount) => a.project = project).insertionSort
    fun a b => a.username ≤ b.username)

def getGlobalAdmin (username : String) : M (Option GlobalAdminAccount) :=
  loadMerged (globalAdminKey username)

/-! ## Versions -/

def checkpointOf (version : Nat) : Nat :=
  if checkpointInterval ∣ version then version
  else
    let base := (version - 1) / checkpointInterval * checkpointInterval
    if base = 0 then 1 else base

def fullSnapshot (id : ProjectId) (branch : BranchName) (v : Nat) : M SnapshotMap := do
  let key := snapshotKey id branch v
  okOr (← readAs s!"snapshot {key}" key) (Error.notFound s!"version {v} of {branch}")

/-- The loop of `snapshotOf`: `n` versions from `v` on, on top of `snap`. -/
def replay (id : ProjectId) (branch : BranchName) : (n v : Nat) → SnapshotMap → M SnapshotMap
  | 0, _, snap => pure snap
  | n + 1, v, snap =>
    if v % checkpointInterval = 0 then do
      let key := snapshotKey id branch v
      let snap ← okOr (← readAs s!"snapshot {key}" key) (Error.notFound s!"snapshot {v} of {branch}")
      replay id branch n (v + 1) snap
    else do
      let key := diffKey id branch v
      match ← readAs (α := List DiffEntry) s!"diff {key}" key with
      | some diff => replay id branch n (v + 1) (applyDiff snap diff)
      | none => fullSnapshot id branch v

/-- The snapshot of a version: its checkpoint, and the diffs up to it. -/
def snapshotOf (id : ProjectId) (branch : BranchName) (version : Nat) : M SnapshotMap := do
  ensure (version ≠ 0) (Error.notFound s!"version 0 of {branch}")
  let start := checkpointOf version
  let key := snapshotKey id branch start
  match ← readAs s!"snapshot {key}" key with
  | some snap => replay id branch (version - start) (start + 1) snap
  | none => fullSnapshot id branch version

/-- The snapshot a branch is at; empty before its first version. -/
def activeSnapshot (id : ProjectId) (branch : BranchName) (st : BranchState) : M SnapshotMap :=
  if st.activeVersion = 0 then pure ∅ else snapshotOf id branch st.activeVersion

def isCheckpoint (vno : Nat) : Prop := vno = 1 ∨ checkpointInterval ∣ vno

instance (vno : Nat) : Decidable (isCheckpoint vno) := inferInstanceAs (Decidable (_ ∨ _))

def writeVersionSnapshot (id : ProjectId) (branch : BranchName) (vno : Nat) (old new : SnapshotMap)
    (record : VersionRecord) : M Unit := do
  Prog.note ⟨id, branch, vno, old, new⟩ (pure ())
  if isCheckpoint vno then
    savePending (snapshotKey id branch vno) new
    savePending (versionKey id branch vno) { record with kind := .full }
  else
    savePending (diffKey id branch vno) (computeDiff old new)
    savePending (versionKey id branch vno) { record with kind := .diff }

def graySnapshotOf (id : ProjectId) (branch : BranchName) (seq : Nat) : M SnapshotMap := do
  let key := graySnapKey id branch seq
  okOr (← readAs s!"gray snapshot {key}" key) (Error.notFound s!"gray snapshot {seq} of {branch}")

def nextMonotonic (active gray : Nat) : Nat := max active gray + 1

end Defing
