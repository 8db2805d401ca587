import Defing.Core.Command
import Defing.Core.Diff
import Defing.Core.Keys

/-!
# Access to the store

Commands and readers are programs over the rows of the store. `getMerged` and
`getPrefixMerged` see the writes the command has buffered; `load` and
`storeDelete` go to the store at once.
-/

namespace Defing

open KV (Prog)

/-- A version that a command materialised, as a history variable: `old` and `new` are the snapshots
handed to the writer of versions. -/
structure VersionWrite where
  project : ProjectId
  branch : BranchName
  no : Nat
  old : SnapshotMap
  new : SnapshotMap
  deriving DecidableEq

abbrev M := Prog String Stored Error VersionWrite

/-! ## Texts

The text of a double is exact, but parsing it may end at a neighbour; all other data is read as it
was written.
-/

section
variable [SerdeJson]

def rereadValue : Value → Value
  | .float f => .float (SerdeJson.reread f)
  | v => v

def rereadSnapshot (snap : SnapshotMap) : SnapshotMap := snap.map fun _ items => items.map fun _ => rereadValue

def rereadEntry (e : DiffEntry) : DiffEntry := { e with newValue := e.newValue.map rereadValue }

def rereadDiff (diff : List DiffEntry) : List DiffEntry := diff.map rereadEntry

def rereadShared (item : SharedItem) : SharedItem := { item with value := rereadValue item.value }

def rereadDraftValue (dv : DraftValue) : DraftValue := { dv with value := rereadValue dv.value }

def rereadDraft (draft : ValueDraft) : ValueDraft := draft.map fun _ items => items.map fun _ => rereadDraftValue

def rereadState (st : BranchState) : BranchState := { st with valueDraft := rereadDraft st.valueDraft }

end

/-! ## Rows as entities -/

class Codec (α : Type) where
  /-- The type's name, for messages. -/
  name : String
  encode : α → Stored
  /-- The entity a text was written from. -/
  written : Stored → Option α
  written_encode (a : α) : written (encode a) = some a
  encode_written (s : Stored) (a : α) : written s = some a → encode a = s
  /-- What is read of the text an entity is written as. -/
  reread : [SerdeJson] → α → α := fun a => a

/-- `serde_json::from_slice`. -/
def Codec.decode {α : Type} [Codec α] [SerdeJson] (v : Stored) : Option α := (Codec.written v).map Codec.reread

instance : Codec Project where
  name := "Project"
  encode := .project
  written | .project p => some p | _ => none
  written_encode _ := rfl
  encode_written s _ h := by cases s <;> cases h; rfl

instance : Codec String where
  name := "String"
  encode := .text
  written | .text s => some s | _ => none
  written_encode _ := rfl
  encode_written s _ h := by cases s <;> cases h; rfl

instance : Codec Structure where
  name := "Structure"
  encode := .structure
  written | .structure s => some s | _ => none
  written_encode _ := rfl
  encode_written s _ h := by cases s <;> cases h; rfl

instance : Codec StructureDraft where
  name := "StructureDraft"
  encode := .structureDraft
  written | .structureDraft d => some d | _ => none
  written_encode _ := rfl
  encode_written s _ h := by cases s <;> cases h; rfl

instance : Codec BranchState where
  name := "BranchState"
  encode := .branchState
  written | .branchState st => some st | _ => none
  written_encode _ := rfl
  encode_written s _ h := by cases s <;> cases h; rfl
  reread := rereadState

instance : Codec VersionRecord where
  name := "VersionRecord"
  encode := .version
  written | .version r => some r | _ => none
  written_encode _ := rfl
  encode_written s _ h := by cases s <;> cases h; rfl

instance : Codec SnapshotMap where
  name := "SnapshotMap"
  encode := .snapshot
  written | .snapshot snap => some snap | _ => none
  written_encode _ := rfl
  encode_written s _ h := by cases s <;> cases h; rfl
  reread := rereadSnapshot

instance : Codec (List DiffEntry) where
  name := "Vec<DiffEntry>"
  encode := .diff
  written | .diff d => some d | _ => none
  written_encode _ := rfl
  encode_written s _ h := by cases s <;> cases h; rfl
  reread := rereadDiff

instance : Codec SharedItem where
  name := "SharedItem"
  encode := .shared
  written | .shared item => some item | _ => none
  written_encode _ := rfl
  encode_written s _ h := by cases s <;> cases h; rfl
  reread := rereadShared

instance : Codec AdminSession where
  name := "AdminSession"
  encode := .session
  written | .session s => some s | _ => none
  written_encode _ := rfl
  encode_written s _ h := by cases s <;> cases h; rfl

instance : Codec ProjectAdminAccount where
  name := "ProjectAdminAccount"
  encode := .projectAdmin
  written | .projectAdmin a => some a | _ => none
  written_encode _ := rfl
  encode_written s _ h := by cases s <;> cases h; rfl

instance : Codec GlobalAdminAccount where
  name := "GlobalAdminAccount"
  encode := .globalAdmin
  written | .globalAdmin a => some a | _ => none
  written_encode _ := rfl
  encode_written s _ h := by cases s <;> cases h; rfl

instance : Codec ProjectTokenRecord where
  name := "ProjectTokenRecord"
  encode := .token
  written | .token r => some r | _ => none
  written_encode _ := rfl
  encode_written s _ h := by cases s <;> cases h; rfl

instance : Codec AuditEntry where
  name := "AuditEntry"
  encode := .audit
  written | .audit e => some e | _ => none
  written_encode _ := rfl
  encode_written s _ h := by cases s <;> cases h; rfl

instance : Codec Nat where
  name := "u64"
  encode := .number
  written | .number n => some n | _ => none
  written_encode _ := rfl
  encode_written s _ h := by cases s <;> cases h; rfl

/-- A type without doubles: its texts are read as they were written. -/
class Codec.Exact (α : Type) [Codec α] : Prop where
  reread_eq [SerdeJson] (a : α) : Codec.reread a = a

instance : Codec.Exact Project := ⟨fun _ => rfl⟩
instance : Codec.Exact String := ⟨fun _ => rfl⟩
instance : Codec.Exact Structure := ⟨fun _ => rfl⟩
instance : Codec.Exact StructureDraft := ⟨fun _ => rfl⟩
instance : Codec.Exact VersionRecord := ⟨fun _ => rfl⟩
instance : Codec.Exact AdminSession := ⟨fun _ => rfl⟩
instance : Codec.Exact ProjectAdminAccount := ⟨fun _ => rfl⟩
instance : Codec.Exact GlobalAdminAccount := ⟨fun _ => rfl⟩
instance : Codec.Exact ProjectTokenRecord := ⟨fun _ => rfl⟩
instance : Codec.Exact AuditEntry := ⟨fun _ => rfl⟩
instance : Codec.Exact Nat := ⟨fun _ => rfl⟩

/-! ## Control -/

def fail {α : Type} (e : Error) : M α := .fail e

def ensure (c : Prop) [Decidable c] (e : Error) : M Unit := if c then pure () else fail e

def okOr {α : Type} (o : Option α) (e : Error) : M α :=
  match o with
  | some a => pure a
  | none => fail e

def collect {α β : Type} (f : α → M (List β)) : List α → M (List β)
  | [] => pure []
  | a :: l => do
    let xs ← f a
    let ys ← collect f l
    pure (xs ++ ys)

/-! ## Reads and writes -/

def startsWith (stem key : String) : Bool := stem.toList.isPrefixOf key.toList

def endsWith (suffix key : String) : Bool := suffix.toList.isSuffixOf key.toList

def stripPrefix (stem key : String) : Option String :=
  if startsWith stem key then some (String.ofList (key.toList.drop stem.toList.length)) else none

def getMerged (key : String) : M (Option Stored) := .get key .ofExcept

def getPrefixMerged (stem : String) : M (List (String × Stored)) := .scan (startsWith stem) .ofExcept

def putPending (key : String) (v : Stored) : M Unit := .put key v (pure ())

def deletePending (key : String) : M Unit := .del key (pure ())

def storeDelete (key : String) : M Unit := .storeDel key .ofExcept

variable {α : Type} [Codec α]

def savePending (key : String) (a : α) : M Unit := putPending key (Codec.encode a)

variable [SerdeJson]

/-- What a row read from the store parses as; `what` names it in the message of a failure. -/
def parseRow (what : String) : Option Stored → Except Error (Option α)
  | none => .ok none
  | some raw =>
    match Codec.decode raw with
    | some a => .ok (some a)
    | none => .error (Error.internal s!"corrupt {what}: {SerdeJson.mismatch (Codec.name α) raw}")

def readAs (what key : String) : M (Option α) := do
  let raw ← getMerged key
  Prog.ofExcept (parseRow what raw)

def loadMerged (key : String) : M (Option α) := readAs s!"value at {key}" key

def load (key : String) : M (Option α) :=
  .storeGet key fun r => .ofExcept (r.bind (parseRow s!"value at {key}"))

def tryLoadMerged (key : String) : M (Option α) :=
  .get key fun r => pure (r.bind (parseRow s!"value at {key}")).toOption.join

def parsed (rows : List (String × Stored)) : List α := rows.filterMap fun row => Codec.decode row.2

def deleteRows (rows : List (String × Stored)) : M Unit := rows.forM fun row => deletePending row.1

end Defing
