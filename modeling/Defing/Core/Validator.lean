import Defing.Core.Model

/-!
# Validation of values, publishes and structures

`SerdeJson` is what the state machine asks of the JSON library: whether a text
parses, how many bytes a value takes when written, what it says of a row that
is not of the type asked for, and which double it reads in the text of one.
-/

namespace Defing

/-- The JSON library, as far as the checks of the state machine consult it. -/
class SerdeJson where
  /-- `serde_json::from_str::<serde_json::Value>` accepts the text. -/
  parses : String → Bool
  /-- The length of `serde_json::to_vec` of a value. -/
  valueBytes : Value → Nat
  /-- The length of `serde_json::to_vec` of a shared item. -/
  sharedItemBytes : SharedItem → Nat
  /-- The message of `serde_json::from_slice::<ty>` for a row of another type. -/
  mismatch : (ty : String) → Stored → String
  /-- The double that the text of a double is parsed as. Without the feature `float_roundtrip`
  that may be a neighbour of the one it was printed from. -/
  reread : Rat → Rat

variable [SerdeJson]

/-- The errors of a value against its definition; none means it passes. -/
def validateValue (d : ItemDef) (value : Value) : List String :=
  match d.ty, value with
  | .string, .string s => if s.utf8ByteSize > maxValueBytes then [s!"{d.key}: string too long"] else []
  | .int, .int _ => []
  | .float, .float _ => []
  | .bool, .bool _ => []
  | .json, .json s => if SerdeJson.parses s then [] else [s!"{d.key}: invalid json"]
  | .array, .array items =>
    if items.any fun i => i.utf8ByteSize > maxArrayElementBytes then [s!"{d.key}: array element too long"] else []
  | .secret, .secret _ => []
  | _, _ => [s!"{d.key}: type mismatch (expected {d.ty.debug})"]

def Structure.allItems (struct : Structure) : List (String × ItemDef) :=
  struct.groups.flatMap fun g => g.items.map fun item => (g.name, item)

def item? {β : Type} (m : StrMap (StrMap β)) (group key : String) : Option β :=
  (m[group]?).bind fun items => items[key]?

def validatePublish (draft : ValueDraft) (struct : Structure) : List String :=
  struct.allItems.flatMap fun (group, item) =>
    if item.shared then []
    else
      match (item? draft group item.key).map (·.value) with
      | none => if item.required then [s!"{group}/{item.key}: required but unset"] else []
      | some v => validateValue item v

omit [SerdeJson]

/-- Non-empty, at most 128 bytes, letters, digits, dots, underscores and dashes. -/
def validKeyName (name : String) : Bool :=
  name ≠ "" && name.utf8ByteSize ≤ 128 &&
    name.toList.all fun c => c.isAlphanum || c = '.' || c = '_' || c = '-'

/-- The errors of one group; `seen` are the groups before it. -/
def validateGroup (seen : List String) (g : GroupDef) : List String :=
  (if g.name.utf8ByteSize > maxGroupNameBytes ∨ g.name = "" then ["invalid group name length"] else []) ++
  (if validKeyName g.name then []
    else [s!"invalid group name {debugStr g.name}: only [A-Za-z0-9._-] allowed"]) ++
  (if g.name ∈ seen then [s!"duplicate group: {g.name}"] else []) ++
  go [] g.items
where
  go (keys : List String) : List ItemDef → List String
    | [] => []
    | item :: items =>
      (if item.key.utf8ByteSize > maxKeyBytes ∨ item.key = "" then [s!"{item.key}: invalid key length"] else []) ++
      (if validKeyName item.key then []
        else [s!"{item.key}: invalid key name: only [A-Za-z0-9._-] allowed"]) ++
      (if item.key ∈ keys then [s!"{g.name}/{item.key}: duplicate item key"] else []) ++
      (if item.secret ∧ item.ty ≠ .secret then [s!"{g.name}/{item.key}: secret flag requires secret type"]
        else []) ++
      go (item.key :: keys) items

def validateGroups (seen : List String) : List GroupDef → List String
  | [] => []
  | g :: groups => validateGroup seen g ++ validateGroups (g.name :: seen) groups

def validateStructure (struct : Structure) : List String :=
  (if struct.groups.length > maxGroupsPerProject then [s!"too many groups (max {maxGroupsPerProject})"] else []) ++
  validateGroups [] struct.groups ++
  (if (struct.groups.map fun g => g.items.length).sum > maxItemsPerProject
    then [s!"too many items (max {maxItemsPerProject})"] else [])

def validName (name : String) : Bool :=
  name ≠ "" && name.utf8ByteSize ≤ maxProjectNameBytes &&
    (name.toList.all fun c => c.isLower || c.isDigit || c = '-') &&
    name.toList.head? ≠ some '-' && name.toList.getLast? ≠ some '-'

def validBranch (name : String) : Bool :=
  name ≠ "" && name.utf8ByteSize ≤ 64 &&
    (name.toList.all fun c => c.isLower || c.isDigit || c = '-') &&
    name.toList.head? ≠ some '-' && name.toList.getLast? ≠ some '-'

end Defing
