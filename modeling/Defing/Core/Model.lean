import Mathlib.Algebra.Order.Ring.Nat
import Mathlib.Data.List.Sort
import Defing.Lib.Contract

/-!
# Entities, limits and errors

The entities of the state machine, in the source's words. Timestamps are
64-bit integers and version numbers unsigned ones that only ever grow by small
steps, so they are `Int` and `Nat` here.
-/

namespace Defing

open Std (ExtTreeMap)

/-- `BTreeMap<String, β>`. -/
abbrev StrMap (β : Type) := ExtTreeMap String β

instance {β : Type} [DecidableEq β] : DecidableEq (StrMap β) := inferInstanceAs (DecidableEq (ExtTreeMap String β))

/-! ## Limits -/

def maxProjects : Nat := 10000
def maxBranchesPerProject : Nat := 100
def maxGroupsPerProject : Nat := 500
def maxItemsPerProject : Nat := 10000
def maxValueBytes : Nat := 64 * 1024
def maxArrayElementBytes : Nat := 8 * 1024
def maxKeyBytes : Nat := 128
def maxGroupNameBytes : Nat := 128
def maxProjectNameBytes : Nat := 128
def checkpointInterval : Nat := 100

/-! ## Errors -/

inductive ErrorKind
  | leaderRedirect | notFound | validation | publishBlocked | versionPruned | sessionInUse
  | sessionExpired | forbidden | cycleRef | conflict | noDraft | limitExceeded | internal
  | storage | raft | crypto
  deriving DecidableEq, Repr

/-- An error. `detail` holds the list of a detail object of the form `errors: [..]`, the only
form the state machine produces. -/
structure Error where
  kind : ErrorKind
  message : String
  detail : Option (List String) := none
  deriving DecidableEq, Repr

namespace Error

def new (kind : ErrorKind) (message : String) : Error := { kind, message }

def notFound (what : String) : Error := new .notFound s!"not found: {what}"

def validation (message : String) : Error := new .validation message

def publishBlocked (errors : List String) : Error :=
  { kind := .publishBlocked, message := "publish blocked by integrity checks", detail := some errors }

def conflict (message : String) : Error := new .conflict message

def limitExceeded (message : String) : Error := new .limitExceeded message

def internal (message : String) : Error := new .internal message

end Error

def hexDigits (n : Nat) : String := String.ofList (Nat.toDigits 16 n)

/-- `char::escape_debug` inside a string: quotes, backslashes and control characters. -/
def escapeDebug (c : Char) : String :=
  if c = '"' then "\\\""
  else if c = '\\' then "\\\\"
  else if c = '\n' then "\\n"
  else if c = '\r' then "\\r"
  else if c = '\t' then "\\t"
  else if c.toNat = 0 then "\\0"
  else if c.toNat < 32 ∨ (127 ≤ c.toNat ∧ c.toNat < 160) then "\\u\x7b" ++ hexDigits c.toNat ++ "\x7d"
  else String.ofList [c]

def debugStr (s : String) : String :=
  "\"" ++ (s.toList.map escapeDebug).foldl (· ++ ·) "" ++ "\""

/-! ## Entities -/

abbrev ProjectId := String

abbrev BranchName := String

namespace BranchName

def DEV : BranchName := "dev"
def TEST : BranchName := "test"
def PROD : BranchName := "prod"

end BranchName

inductive ValueType
  | string | int | float | bool | json | array | secret
  deriving DecidableEq, Repr

def ValueType.debug : ValueType → String
  | string => "String"
  | int => "Int"
  | float => "Float"
  | bool => "Bool"
  | json => "Json"
  | array => "Array"
  | secret => "Secret"

structure Ciphertext where
  enc : String
  v : Nat
  dekV : Nat
  nonce : String
  ct : String
  edek : String
  edekNonce : String
  deriving DecidableEq, Repr

/-- A configuration value. A float is finite (NaN and the infinities become `0.0` in the JSON of
the store), and equality of doubles is that of the numbers they stand for. -/
inductive Value
  | string (s : String)
  | int (i : Int)
  | float (f : Rat)
  | bool (b : Bool)
  | json (s : String)
  | array (items : List String)
  | secret (c : Ciphertext)
  deriving DecidableEq, Repr

def Value.valueType : Value → ValueType
  | string _ => .string
  | int _ => .int
  | float _ => .float
  | bool _ => .bool
  | json _ => .json
  | array _ => .array
  | secret _ => .secret

structure ItemDef where
  key : String
  ty : ValueType
  required : Bool := false
  secret : Bool := false
  validate : Option String := none
  description : Option String := none
  /-- The value comes from the shared item a branch binds this one to. -/
  shared : Bool := false
  deriving DecidableEq, Repr

structure GroupDef where
  name : String
  items : List ItemDef
  deriving DecidableEq, Repr

structure Structure where
  version : Nat
  groups : List GroupDef
  deriving DecidableEq, Repr

structure StructureDraft where
  baseVersion : Nat
  groups : List GroupDef
  deriving DecidableEq, Repr

structure Project where
  id : ProjectId
  name : String
  createdAt : Int
  deriving DecidableEq, Repr

structure DraftValue where
  value : Value
  updatedAt : Int
  deriving DecidableEq, Repr

structure LabelSelector where
  key : String
  value : String
  deriving DecidableEq, Repr

structure GrayRule where
  matchLabels : List LabelSelector := []
  ipCidrs : List String := []
  percentage : Option Nat := none
  deriving DecidableEq, Repr

abbrev ValueDraft := StrMap (StrMap DraftValue)

abbrev Bindings := StrMap (StrMap String)

structure BranchState where
  activeVersion : Nat
  structureVersion : Nat
  lastRequestId : Option String := none
  valueDraft : ValueDraft := ∅
  draftRev : Nat := 0
  /-- `0` means no gray release. -/
  graySeq : Nat := 0
  grayRule : Option GrayRule := none
  sharedBindings : Bindings := ∅
  bindingsDirty : Bool := false
  deriving DecidableEq

def BranchState.new (structureVersion : Nat) : BranchState :=
  { activeVersion := 0, structureVersion }

inductive VersionKind
  | full | diff
  deriving DecidableEq, Repr

inductive EventType
  | valuePublish | structurePublish | sharedCascade | rollback
  deriving DecidableEq, Repr

structure VersionRecord where
  no : Nat
  structureVersion : Nat
  createdAt : Int
  operator : String
  comment : String
  rollbackOf : Option Nat
  kind : VersionKind
  snapshotRef : Option String
  diffRef : Option String
  eventTy : Option EventType
  gray : Bool
  deriving DecidableEq, Repr

inductive ChangeKind
  | upsert | delete
  deriving DecidableEq, Repr

structure DiffEntry where
  group : String
  key : String
  kind : ChangeKind
  newValue : Option Value
  deriving DecidableEq, Repr

structure PublishEvent where
  project : ProjectId
  branch : BranchName
  version : Nat
  ty : EventType
  structureVersion : Nat
  comment : String
  requestId : String
  changes : List DiffEntry
  gray : Bool
  deriving DecidableEq, Repr

inductive PublishPolicy
  | block | warn
  deriving DecidableEq, Repr

inductive SharedCascadeMode
  | auto | manual
  deriving DecidableEq, Repr

structure SharedItem where
  key : String
  ty : ValueType
  secret : Bool := false
  required : Bool := false
  value : Value
  version : Nat
  description : Option String := none
  deriving DecidableEq, Repr

inductive Principal
  | admin
  | projectAdmin (username : String) (project : ProjectId)
  | globalAdmin (username : String)
  deriving DecidableEq, Repr

structure ProjectAdminAccount where
  username : String
  project : ProjectId
  salt : String
  passwordHash : String
  createdAt : Int
  deriving DecidableEq, Repr

structure GlobalAdminAccount where
  username : String
  salt : String
  passwordHash : String
  createdAt : Int
  deriving DecidableEq, Repr

structure ProjectTokenRecord where
  id : String
  name : String
  project : ProjectId
  hash : String
  createdAt : Nat
  createdBy : String
  revoked : Bool
  deriving DecidableEq, Repr

structure AdminSession where
  tokenHash : String
  issuedAt : Int
  expiresAt : Option Int
  deviceId : String
  principal : Principal
  deriving DecidableEq, Repr

structure AuditEntry where
  seq : Nat
  ts : Int
  operator : String
  action : String
  project : Option String := none
  branch : Option String := none
  version : Option Nat := none
  requestId : Option String := none
  detail : String := "null"
  deriving DecidableEq, Repr

abbrev SnapshotMap := StrMap (StrMap Value)

/-! ## Rows -/

/-- The value of a row. The store keeps JSON texts; a text stands here for the entity it was
written from, which for doubles need not be what it is read as. No text of one entity reads as
another one: a field the other requires is missing. -/
inductive Stored
  | project (p : Project)
  | text (s : String)
  | structure (s : Structure)
  | structureDraft (d : StructureDraft)
  | branchState (st : BranchState)
  | version (r : VersionRecord)
  | snapshot (snap : SnapshotMap)
  | diff (d : List DiffEntry)
  | shared (item : SharedItem)
  | session (s : AdminSession)
  | projectAdmin (a : ProjectAdminAccount)
  | globalAdmin (a : GlobalAdminAccount)
  | token (r : ProjectTokenRecord)
  | audit (e : AuditEntry)
  | number (n : Nat)
  deriving DecidableEq

end Defing
