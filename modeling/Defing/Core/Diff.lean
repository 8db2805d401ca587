import Defing.Core.Validator

/-! # Diffs between snapshots -/

namespace Defing

/-- The changes from `old` to `new`: upserts in the order of `new`, then deletes in the order of
`old`. Secrets are compared as ciphertexts. -/
def computeDiff (old new : SnapshotMap) : List DiffEntry :=
  (new.toList.flatMap fun (group, items) =>
    items.toList.filterMap fun (key, value) =>
      if item? old group key ≠ some value then
        some { group, key, kind := .upsert, newValue := some value }
      else none) ++
  (old.toList.flatMap fun (group, items) =>
    items.toList.filterMap fun (key, _) =>
      if (item? new group key).isNone then
        some { group, key, kind := .delete, newValue := none }
      else none)

/-- `map.entry(group).or_default().insert(key, value)`. -/
def setItem {β : Type} (m : StrMap (StrMap β)) (group key : String) (value : β) : StrMap (StrMap β) :=
  m.insert group (((m[group]?).getD ∅).insert key value)

def applyEntry (snap : SnapshotMap) (entry : DiffEntry) : SnapshotMap :=
  match entry.kind with
  | .upsert =>
    match entry.newValue with
    | some v => setItem snap entry.group entry.key v
    | none => snap
  | .delete =>
    match snap[entry.group]? with
    | some items =>
      let items := items.erase entry.key
      if items.isEmpty then snap.erase entry.group else snap.insert entry.group items
    | none => snap

def applyDiff (snap : SnapshotMap) (diff : List DiffEntry) : SnapshotMap :=
  diff.foldl applyEntry snap

end Defing
