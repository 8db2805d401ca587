import Mathlib.Data.List.Infix
import Defing.Core.Read
import Defing.Lib.Pass

/-!
# Renewal of secrets

After a rotation of the master key every ciphertext of an old generation is
wrapped anew. The store is gone through as a whole, and what a row is read as
is decided by its key.
-/

namespace Defing

open KV (Prog passList passMap)

def contains (part key : String) : Bool := part.toList <:+: key.toList

abbrev Renewal := Ciphertext → Option (Except Error Ciphertext)

variable (f : Renewal)

/-! ## The values of a row -/

def rewrapValue : Value → Except Error (Value × Bool)
  | .secret ct =>
    match f ct with
    | some res => do
      let ct ← res
      pure (.secret ct, true)
    | none => pure (.secret ct, false)
  | v => pure (v, false)

def rewrapSnapshot (snap : SnapshotMap) : Except Error (SnapshotMap × Bool) := passMap (passMap (rewrapValue f)) snap

def rewrapEntry (e : DiffEntry) : Except Error (DiffEntry × Bool) :=
  match e.kind, e.newValue with
  | .upsert, some nv => (rewrapValue f nv).map fun r => ({ e with newValue := some r.1 }, r.2)
  | _, _ => pure (e, false)

def rewrapDiff (diff : List DiffEntry) : Except Error (List DiffEntry × Bool) := passList (rewrapEntry f) diff

def rewrapShared (item : SharedItem) : Except Error (SharedItem × Bool) :=
  (rewrapValue f item.value).map fun r => ({ item with value := r.1 }, r.2)

def rewrapDraftValue (dv : DraftValue) : Except Error (DraftValue × Bool) :=
  (rewrapValue f dv.value).map fun r => ({ dv with value := r.1 }, r.2)

def rewrapDraft (st : BranchState) : Except Error (BranchState × Bool) :=
  (passMap (passMap (rewrapDraftValue f)) st.valueDraft).map fun r => ({ st with valueDraft := r.1 }, r.2)

/-! ## The rows of the store -/

def saveStore {α : Type} [Codec α] (key : String) (a : α) : M Unit := .storePut key (Codec.encode a) .ofExcept

variable [SerdeJson]

/-- A row read as an entity, and saved if the pass has changed it; what does not parse is skipped. -/
def rewrapAs {α : Type} [Codec α] (pass : α → Except Error (α × Bool)) (key : String) (raw : Stored) (n : Nat) : M Nat :=
  match Codec.decode raw with
  | none => pure n
  | some a => do
    let (a, changed) ← Prog.ofExcept (pass a)
    if changed then do
      saveStore key a
      pure (n + 1)
    else pure n

def rewrapRow (n : Nat) (row : String × Stored) : M Nat :=
  let (key, raw) := row
  if endsWith "/snap" key then rewrapAs (rewrapSnapshot f) key raw n
  else if endsWith "/diff" key then rewrapAs (rewrapDiff f) key raw n
  else if startsWith kShared key || startsWith kSharedDraft key then rewrapAs (rewrapShared f) key raw n
  else if contains kGraySnap key then rewrapAs (rewrapSnapshot f) key raw n
  else
    match stripPrefix kProject key with
    | some rest => if contains kBranch rest && endsWith kState key then rewrapAs (rewrapDraft f) key raw n else pure n
    | none => pure n

def rewrapDeks : M Nat := do
  let rows ← getPrefixMerged ""
  rows.foldlM (rewrapRow f) 0

/-- What `RewrapDeks` renews: the ciphertexts of generations before `gen`. -/
def renewOld (gen : Nat) (rewrapDek : Ciphertext → Except Error Ciphertext) : Renewal := fun ct =>
  if ct.dekV ≥ gen then none else some (rewrapDek ct)

end Defing
