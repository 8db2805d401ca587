import Defing.Raft.Crc32
import Defing.Lib.Result

/-!
# Payloads of snapshots

A payload is a file with all pairs of a store: a header and MessagePack, or
JSON without one from before. It is read as a whole, or in batches.
-/

namespace Defing

abbrev Pair := Bytes × Bytes

/-! ## Libraries -/

/-- MessagePack: what is written for the length of an array and for binary data, and how both are read off the front
of a stream, the data after its length left there. -/
class Rmp where
  writeArrayLen (n : UInt32) : Bytes
  writeBin (data : Bytes) : Bytes
  readArrayLen (r : Bytes) : Except String (UInt32 × Bytes)
  readBinLen (r : Bytes) : Except String (UInt32 × Bytes)

/-- What is written is read, whatever comes after it. -/
structure Rmp.Lawful [Rmp] : Prop where
  arrayLen (n : UInt32) (rest : Bytes) : readArrayLen (writeArrayLen n ++ rest) = .ok (n, rest)
  bin (data rest : Bytes) (h : data.length < 2 ^ 32) :
    readBinLen (writeBin data ++ rest) = .ok (UInt32.ofNat data.length, data ++ rest)

/-- The JSON library at lists of pairs, read from a whole stream. -/
class PairJson where
  toVec (pairs : List Pair) : Bytes
  fromReader (r : Bytes) : Except String (List Pair)

/-- What is written for some pairs is an array, and is read as these pairs. -/
structure PairJson.Reads [PairJson] (pairs : List Pair) : Prop where
  array : (toVec pairs).head? = some 0x5B
  read : fromReader (toVec pairs) = .ok pairs

section
variable [Rmp] [PairJson]

/-! ## The header -/

def payloadMagic : Bytes := [0x44, 0x53, 0x48, 0x53, 0x4E, 0x50]
def payloadHeaderLen : Nat := 20
def payloadVersionJson : UInt8 := 1
def payloadVersionMsgpack : UInt8 := 2
def u32Max : Nat := 0xFFFFFFFF

def encodePayloadHeader (version flags : UInt8) (totalLen : UInt64) (crc : UInt32) : Bytes :=
  payloadMagic ++ [version, flags] ++ Bytes.le 8 totalLen.toNat ++ Bytes.le 4 crc.toNat

def decodePayloadHeader (head : Bytes) : Except String (UInt8 × UInt8 × UInt64 × UInt32) :=
  if head.take 6 ≠ payloadMagic then .error "snapshot payload header: bad magic"
  else .ok (head.getD 6 0, head.getD 7 0, UInt64.ofNat (Bytes.ofLe ((head.drop 8).take 8)),
    UInt32.ofNat (Bytes.ofLe ((head.drop 16).take 4)))

/-! ## The writer -/

def writeMsgpackPair (k v : Bytes) : Except String Bytes :=
  if k.length > u32Max ∨ v.length > u32Max then
    .error "snapshot pair key/value exceeds msgpack bin32 length limit"
  else .ok (Rmp.writeArrayLen 2 ++ Rmp.writeBin k ++ Rmp.writeBin v)

def writePairs : List Pair → Except String Bytes
  | [] => .ok []
  | (k, v) :: pairs => do
    let item ← writeMsgpackPair k v
    let rest ← writePairs pairs
    .ok (item ++ rest)

def writePages : List (List Pair) → Except String Bytes
  | [] => .ok []
  | page :: pages => do
    let items ← writePairs page
    let rest ← writePages pages
    .ok (items ++ rest)

def writeBody (total : Nat) (pages : List (List Pair)) : Except String Bytes :=
  if total > u32Max then .error "snapshot too many pairs for msgpack array length"
  else do
    let items ← writePages pages
    .ok (Rmp.writeArrayLen (UInt32.ofNat total) ++ items)

/-- `write_payload_v2_streamed`: the bytes of the file. The header is filled in when the body has been counted. -/
def writePayloadV2 (total : Nat) (pages : List (List Pair)) : Except String Bytes := do
  let body ← writeBody total pages
  .ok (encodePayloadHeader payloadVersionMsgpack 0 (UInt64.ofNat body.length) (crc32 body) ++ body)

def writePayloadV1 (pairs : List Pair) : Bytes := PairJson.toVec pairs

/-! ## The readers -/

/-- One field of an item. The data of a file may end before its length is reached. -/
def decodeMsgpackBin (r : Bytes) (item : Nat) : Except String (Bytes × Bytes) :=
  match Rmp.readBinLen r with
  | .error e => .error s!"payload msgpack item {item} bin length: {e}"
  | .ok (len, r) =>
    let slot := r.take len.toNat
    if slot.length ≠ len.toNat then
      .error s!"payload msgpack item {item}: truncated bin (declared {len}, got {slot.length})"
    else .ok (slot, r.drop len.toNat)

def decodeMsgpackPair (r : Bytes) (item : Nat) : Except String (Pair × Bytes) :=
  match Rmp.readArrayLen r with
  | .error e => .error s!"payload msgpack item {item} header: {e}"
  | .ok (fields, r) =>
    if fields ≠ 2 then .error s!"payload msgpack item {item}: expected [bin,bin] (2 fields), got {fields}"
    else do
      let (k, r) ← decodeMsgpackBin r item
      let (v, r) ← decodeMsgpackBin r item
      .ok ((k, v), r)

def decodeItems : (n item : Nat) → Bytes → Except String (List Pair)
  | 0, _, _ => .ok []
  | n + 1, item, r => do
    let (pair, r) ← decodeMsgpackPair r item
    let rest ← decodeItems n (item + 1) r
    .ok (pair :: rest)

def decodeMsgpackPairs (r : Bytes) : Except String (List Pair) :=
  match Rmp.readArrayLen r with
  | .error e => .error s!"payload msgpack array header: {e}"
  | .ok (n, r) => decodeItems n.toNat 0 r

def hex (n : Nat) : String := "0x" ++ String.ofList (Nat.toDigits 16 n)

def hex08 (n : UInt32) : String :=
  let digits := Nat.toDigits 16 n.toNat
  String.ofList (List.replicate (8 - digits.length) '0' ++ digits)

def headerTruncated (n : Nat) : String := s!"snapshot payload header truncated: {n}/{payloadHeaderLen} bytes"

def unsupportedFlags (flags : UInt8) : String :=
  s!"unsupported snapshot payload flags {hex flags.toNat} (this binary only knows flags=0)"

def unsupportedVersion (version : UInt8) : String :=
  s!"unsupported snapshot payload version {version}（本 binary 只认 v1=JSON / v2=msgpack）"

def lengthMismatch (totalLen fileLen : UInt64) : String :=
  s!"snapshot payload body length mismatch: header says {totalLen}, file has {fileLen}"

def crcMismatch (crc bodyCrc : UInt32) : String :=
  s!"snapshot payload CRC mismatch: header 0x{hex08 crc}, body 0x{hex08 bodyCrc}"

def checkBody (totalLen : UInt64) (crc : UInt32) (body : Bytes) : Except String Unit :=
  if UInt64.ofNat body.length ≠ totalLen then .error (lengthMismatch totalLen (UInt64.ofNat body.length))
  else if crc32 body ≠ crc then .error (crcMismatch crc (crc32 body))
  else .ok ()

/-- `n >= PAYLOAD_MAGIC.len() && &head[..PAYLOAD_MAGIC.len()] == PAYLOAD_MAGIC`. -/
def hasMagic (file : Bytes) : Prop := file.take 6 = payloadMagic

instance (file : Bytes) : Decidable (hasMagic file) := inferInstanceAs (Decidable (_ = _))

def readPayloadBody (version : UInt8) (body : Bytes) : Except String (List Pair) :=
  if version = payloadVersionJson then PairJson.fromReader body
  else if version = payloadVersionMsgpack then decodeMsgpackPairs body
  else .error (unsupportedVersion version)

def readPayloadPairs (file : Bytes) : Except String (List Pair) :=
  let head := file.take payloadHeaderLen
  if hasMagic file then
    if head.length < payloadHeaderLen then .error (headerTruncated head.length)
    else do
      let (version, flags, totalLen, crc) ← decodePayloadHeader head
      if flags ≠ 0 then .error (unsupportedFlags flags)
      else do
        let body := file.drop payloadHeaderLen
        let pairs ← readPayloadBody version body
        checkBody totalLen crc body
        .ok pairs
  else PairJson.fromReader file

def verifyPayloadFile (path : String) (file : Bytes) : Except String Unit :=
  let head := file.take payloadHeaderLen
  if ¬ hasMagic file then .ok ()
  else if head.length < payloadHeaderLen then .error s!"{headerTruncated head.length} ({path})"
  else do
    let (version, _, totalLen, crc) ← decodePayloadHeader head
    if version ≠ payloadVersionJson ∧ version ≠ payloadVersionMsgpack then
      .error s!"unsupported snapshot payload version {version} ({path})"
    else (checkBody totalLen crc (file.drop payloadHeaderLen)).mapError fun e => s!"{e} ({path})"

/-! ## Batches -/

inductive PayloadSource
  | msgpack (r : Bytes) (remaining nextItem : Nat) (path : String)
  | whole (pairs : List Pair)

structure PayloadBatches where
  source : PayloadSource
  budget : Nat

/-- The loop of `next` over pairs at hand: those of the batch, and those after it. -/
def takeBatch (budget : Nat) : (bytes : Nat) → List Pair → List Pair × List Pair
  | _, [] => ([], [])
  | bytes, (k, v) :: pairs =>
    let bytes := bytes + (k.length + v.length)
    if bytes ≥ budget then ([(k, v)], pairs)
    else
      let (batch, rest) := takeBatch budget bytes pairs
      ((k, v) :: batch, rest)

/-- The loop of `next` over items of a file, on top of the batch so far. -/
def decodeBatch (budget : Nat) (path : String) :
    (remaining item bytes : Nat) → Bytes → List Pair → Except String (List Pair × Nat × Nat × Bytes)
  | 0, item, _, r, batch => .ok (batch, 0, item, r)
  | n + 1, item, bytes, r, batch =>
    if bytes < budget ∨ batch = [] then
      match decodeMsgpackPair r item with
      | .error e => .error s!"payload msgpack decode failed ({path}): {e}"
      | .ok ((k, v), r) => decodeBatch budget path n (item + 1) (bytes + (k.length + v.length)) r (batch ++ [(k, v)])
    else .ok (batch, n + 1, item, r)

/-- `Iterator::next`: the next batch, and the iterator after it. -/
def PayloadBatches.next (b : PayloadBatches) : Option (Except String (List Pair × PayloadBatches)) :=
  match b.source with
  | .whole pairs =>
    let (batch, rest) := takeBatch b.budget 0 pairs
    if batch = [] then none else some (.ok (batch, { b with source := .whole rest }))
  | .msgpack r remaining nextItem path =>
    if remaining = 0 then none
    else some do
      let (batch, remaining, nextItem, r) ← decodeBatch b.budget path remaining nextItem 0 r []
      .ok (batch, { b with source := .msgpack r remaining nextItem path })

def readPayloadBatches (path : String) (file : Bytes) (budget : Nat) : Except String PayloadBatches :=
  let budget := max budget 1
  let head := file.take payloadHeaderLen
  if hasMagic file then
    if head.length < payloadHeaderLen then .error (headerTruncated head.length)
    else do
      let (version, flags, totalLen, _) ← decodePayloadHeader head
      if flags ≠ 0 then .error (unsupportedFlags flags)
      else if version = payloadVersionMsgpack then do
        verifyPayloadFile path file
        if UInt64.ofNat file.length ≠ UInt64.ofNat payloadHeaderLen + totalLen then
          .error (lengthMismatch totalLen (UInt64.ofNat (file.length - payloadHeaderLen)))
        else
          match Rmp.readArrayLen (file.drop payloadHeaderLen) with
          | .error e => .error s!"payload msgpack array header: {e}"
          | .ok (remaining, r) => .ok { source := .msgpack r remaining.toNat 0 path, budget }
      else if version = payloadVersionJson then do
        let pairs ← readPayloadPairs file
        .ok { source := .whole pairs, budget }
      else .error (unsupportedVersion version)
  else do
    let pairs ← readPayloadPairs file
    .ok { source := .whole pairs, budget }

end

/-! ## All batches -/

section
variable {budget bytes n n' item item' : Nat} {path : String} {r r' : Bytes} {batch batch' : List Pair}

theorem takeBatch_append (budget bytes : Nat) (pairs : List Pair) :
    (takeBatch budget bytes pairs).1 ++ (takeBatch budget bytes pairs).2 = pairs := by
  induction pairs generalizing bytes with
  | nil => rfl
  | cons pair pairs ih =>
    obtain ⟨k, v⟩ := pair
    simp only [takeBatch]
    split
    · rfl
    · rw [List.cons_append, ih]

theorem takeBatch_eq_nil {pairs : List Pair} (h : (takeBatch budget bytes pairs).1 = []) : pairs = [] := by
  cases pairs with
  | nil => rfl
  | cons pair pairs =>
    simp only [takeBatch] at h
    split at h <;> cases h

variable [Rmp]

/-- The loop decodes the items in order: as many as the batch has grown by. -/
theorem decodeBatch_ok (h : decodeBatch budget path n item bytes r batch = .ok (batch', n', item', r')) :
    ∃ pairs, batch' = batch ++ pairs ∧ n = n' + pairs.length ∧ (batch = [] → 0 < n → n' < n) ∧
      decodeItems n item r = (decodeItems n' item' r').map (pairs ++ ·) := by
  induction n generalizing item bytes r batch with
  | zero =>
    simp only [decodeBatch, Except.ok.injEq, Prod.mk.injEq] at h
    obtain ⟨rfl, rfl, rfl, rfl⟩ := h
    exact ⟨[], by simp, rfl, by omega, rfl⟩
  | succ n ih =>
    rw [decodeBatch] at h
    by_cases hgo : bytes < budget ∨ batch = []
    · rw [if_pos hgo] at h
      cases hd : decodeMsgpackPair r item with
      | error e => simp [hd] at h
      | ok res =>
        obtain ⟨⟨k, v⟩, rest⟩ := res
        simp only [hd] at h
        obtain ⟨pairs, rfl, rfl, -, hitems⟩ := ih h
        refine ⟨(k, v) :: pairs, by simp, by simp [Nat.add_assoc], fun _ _ => by omega, ?_⟩
        rw [decodeItems, hd]
        change (decodeItems _ (item + 1) rest >>= fun rest => .ok ((k, v) :: rest)) = _
        rw [hitems]
        cases decodeItems n' item' r' <;> rfl
    · rw [if_neg hgo, Except.ok.injEq, Prod.mk.injEq, Prod.mk.injEq, Prod.mk.injEq] at h
      obtain ⟨rfl, rfl, rfl, rfl⟩ := h
      refine ⟨[], by simp, rfl, fun hb => absurd (.inr hb) hgo, ?_⟩
      cases decodeItems (n + 1) item r <;> rfl

theorem decodeBatch_error {e : String} (h : decodeBatch budget path n item bytes r batch = .error e) :
    ∃ e, decodeItems n item r = .error e := by
  induction n generalizing item bytes r batch with
  | zero => simp [decodeBatch] at h
  | succ n ih =>
    rw [decodeBatch] at h
    by_cases hgo : bytes < budget ∨ batch = []
    · rw [if_pos hgo] at h
      rw [decodeItems]
      cases hd : decodeMsgpackPair r item with
      | error e => exact ⟨e, rfl⟩
      | ok res =>
        obtain ⟨⟨k, v⟩, rest⟩ := res
        simp only [hd] at h
        obtain ⟨e, he⟩ := ih h
        refine ⟨e, ?_⟩
        change (decodeItems n (item + 1) rest >>= fun rest => .ok ((k, v) :: rest)) = _
        rw [he]
        rfl
    · rw [if_neg hgo] at h
      cases h

def PayloadBatches.left (b : PayloadBatches) : Nat :=
  match b.source with
  | .whole pairs => pairs.length
  | .msgpack _ remaining _ _ => remaining

theorem left_next {b b' : PayloadBatches} (h : b.next = some (.ok (batch, b'))) : b'.left < b.left := by
  obtain ⟨source, budget⟩ := b
  cases source with
  | whole pairs =>
    have happ := congrArg List.length (takeBatch_append budget 0 pairs)
    rw [List.length_append] at happ
    simp only [PayloadBatches.next] at h
    split at h
    · cases h
    · rename_i hne
      obtain ⟨rfl, rfl⟩ := Prod.mk.inj (Except.ok.inj (Option.some.inj h))
      have := List.length_pos_iff.mpr hne
      simp only [PayloadBatches.left]
      omega
  | msgpack r remaining nextItem path =>
    simp only [PayloadBatches.next] at h
    split at h
    · cases h
    · rename_i hne
      cases hd : decodeBatch budget path remaining nextItem 0 r [] with
      | error e =>
        rw [hd] at h
        cases h
      | ok res =>
        obtain ⟨batch', n', item', r'⟩ := res
        obtain ⟨pairs, -, -, hlt, -⟩ := decodeBatch_ok hd
        simp only [hd] at h
        obtain ⟨rfl, rfl⟩ := Prod.mk.inj (Except.ok.inj (Option.some.inj h))
        exact hlt rfl (Nat.pos_of_ne_zero hne)

def PayloadBatches.collect (b : PayloadBatches) : Except String (List (List Pair)) :=
  match _hb : b.next with
  | none => .ok []
  | some (.error e) => .error e
  | some (.ok (batch, b')) => do
    let rest ← b'.collect
    .ok (batch :: rest)
termination_by b.left
decreasing_by exact left_next _hb

/-- All batches of a file, one after the other. -/
def readPayloadAll [PairJson] (path : String) (file : Bytes) (budget : Nat) : Except String (List Pair) := do
  let b ← readPayloadBatches path file budget
  let batches ← b.collect
  .ok batches.flatten

end

end Defing
