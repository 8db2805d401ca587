import Defing.Core.Access
import Defing.Raft.Payload

/-!
# Frames of a snapshot transfer

A snapshot goes to a follower as one stream of frames, each a length and a
body: a header, the payload in chunks, and an end with its length and checksum.
-/

namespace Defing

def maxChunkBytes : Nat := 1024 * 1024
def maxFrameBytes : Nat := maxChunkBytes + 4096
def maxSnapshotBytes : Nat := 2 * 1024 * 1024 * 1024

/-- A frame; the vote and the metadata of a snapshot are those of the consensus library. -/
inductive Frame (V M : Type) where
  | header (vote : V) (metadata : M)
  | chunk (seq : Nat) (data : Bytes)
  | «end» (totalLen : Nat) (crc : UInt32)

class FrameCodec (V M : Type) where
  serialize (frame : Frame V M) : Except String Bytes
  fromSlice (body : Bytes) : Except String (Frame V M)

def Frame.Fits {V M : Type} : Frame V M → Prop
  | .header _ _ => True
  | .chunk seq data => seq < 2 ^ 64 ∧ data.length < 2 ^ 32
  | .end totalLen _ => totalLen < 2 ^ 64

/-- Every frame has a body, which is read as the frame, and which is little more than its data. -/
structure FrameCodec.Lawful (V M : Type) [FrameCodec V M] : Prop where
  round (frame : Frame V M) (h : frame.Fits) : ∃ body, serialize frame = .ok body ∧ fromSlice body = .ok frame
  chunk (seq : Nat) (data body : Bytes) (h : serialize (.chunk seq data : Frame V M) = .ok body) :
    body.length ≤ data.length + 4096
  «end» (totalLen : Nat) (crc : UInt32) (body : Bytes) (h : serialize (.end totalLen crc : Frame V M) = .ok body) :
    body.length ≤ 4096

section
variable {V M : Type} [FrameCodec V M]

/-! ## One frame -/

def encodeFrame (frame : Frame V M) : Except String Bytes :=
  match FrameCodec.serialize frame with
  | .error e => .error s!"msgpack encode: {e}"
  | .ok wr => .ok (Bytes.be 4 (wr.length % 2 ^ 32) ++ wr)

def decodeFrame (body : Bytes) : Except String (Frame V M) :=
  match FrameCodec.fromSlice body with
  | .error e => .error s!"msgpack decode: {e}"
  | .ok f => .ok f

/-- `FrameDecoder::next_frame`: the first frame of the buffer and what comes after it, if it is there as a whole. -/
def nextFrame (buf : Bytes) : Except String (Option (Frame V M × Bytes)) :=
  if buf.length < 4 then .ok none
  else
    let n := Bytes.ofBe (buf.take 4)
    if n > maxFrameBytes then .error s!"frame too large: {n} > {maxFrameBytes}"
    else if buf.length < 4 + n then .ok none
    else
      match decodeFrame ((buf.drop 4).take n) with
      | .error e => .error e
      | .ok f => .ok (some (f, buf.drop (4 + n)))

/-! ## The sender -/

/-- The frame pump: what has been read and not sent, and what has been sent. -/
structure FrameEmitter where
  headerFrame : Bytes
  chunkSize : Nat
  chunkSize_pos : 0 < chunkSize
  carry : Bytes := []
  seq : Nat := 0
  total : Nat := 0
  crc : Crc32 := .init

def clampChunkSize (chunkSize : Nat) : Nat :=
  if chunkSize = 0 ∨ chunkSize > maxChunkBytes then maxChunkBytes else chunkSize

theorem clampChunkSize_pos (n : Nat) : 0 < clampChunkSize n := by
  unfold clampChunkSize
  split
  · decide
  · omega

theorem clampChunkSize_le (n : Nat) : clampChunkSize n ≤ maxChunkBytes := by
  unfold clampChunkSize
  split
  · exact Nat.le_refl _
  · omega

def FrameEmitter.open (vote : V) (metadata : M) (chunkSize : Nat) : Except String FrameEmitter := do
  let header ← encodeFrame (.header vote metadata : Frame V M)
  .ok { headerFrame := header, chunkSize := clampChunkSize chunkSize, chunkSize_pos := clampChunkSize_pos chunkSize }

namespace FrameEmitter

/-- The emitter after a chunk of the first `n` bytes it carries. -/
def sent (e : FrameEmitter) (n : Nat) : FrameEmitter :=
  { e with
    seq := e.seq + 1, carry := e.carry.drop n, crc := e.crc.update (e.carry.take n),
    total := e.total + (e.carry.take n).length }

variable (V M) in
/-- The chunks that are complete, as frames, up to one that cannot be encoded. -/
def cut (e : FrameEmitter) : FrameEmitter × List Bytes × Option String :=
  if _h : e.chunkSize ≤ e.carry.length then
    match encodeFrame (.chunk (e.seq + 1) (e.carry.take e.chunkSize) : Frame V M) with
    | .error msg => (e, [], some msg)
    | .ok frame =>
      let (e', frames, err) := (e.sent e.chunkSize).cut
      (e', frame :: frames, err)
  else (e, [], none)
termination_by e.carry.length
decreasing_by
  have := e.chunkSize_pos
  simp only [sent, List.length_drop]
  omega

variable (V M) in
/-- At the end of the file: a last chunk of what is left, and the end. An error overtakes what is queued. -/
def finish (e : FrameEmitter) : List (Except String Bytes) :=
  let last : Except String (FrameEmitter × List Bytes) :=
    if e.carry = [] then .ok (e, [])
    else (encodeFrame (.chunk (e.seq + 1) e.carry : Frame V M)).map fun frame => (e.sent e.carry.length, [frame])
  match last with
  | .error msg => [.error msg]
  | .ok (e, queue) =>
    match encodeFrame (.end e.total e.crc.finish : Frame V M) with
    | .error msg => .error msg :: queue.map .ok
    | .ok frame => queue.map .ok ++ [.ok frame]

variable (V M) in
/-- `poll_next` over and over, after the header: the items of the stream, given what each read of the file yields. -/
def pump (e : FrameEmitter) : List (Except String Bytes) → List (Except String Bytes)
  | [] => e.finish V M
  | .error err :: _ => [.error err]
  | .ok part :: reads =>
    if part = [] then e.finish V M
    else
      let e := { e with carry := e.carry ++ part }
      if e.total + e.carry.length > maxSnapshotBytes then [.error "snapshot exceeds MAX_SNAPSHOT_BYTES"]
      else
        match e.cut V M with
        | (_, frames, some msg) => .error msg :: frames.map .ok
        | (e, frames, none) => frames.map .ok ++ e.pump reads

variable (V M) in
def stream (e : FrameEmitter) (reads : List (Except String Bytes)) : List (Except String Bytes) :=
  .ok e.headerFrame :: e.pump V M reads

end FrameEmitter

end

/-! ## The receiver -/

structure Failure where
  status : Nat
  text : String

structure SnapshotRequest where
  authorization : Option String
  contentType : Option String
  /-- The parts of the body as they arrive. -/
  body : List (Except String Bytes)

/-- What the handler has of the stream; `part` is what it has written to the `.part` file. -/
structure Receiver (V M : Type) where
  crc : Crc32 := .init
  total : Nat := 0
  lastSeq : Nat := 0
  header : Option (V × M) := none
  endSeen : Option (Nat × UInt32) := none
  part : Bytes := []

def authed (token authorization : Option String) : Except Failure Unit :=
  match token with
  | some token => if authorization = some s!"Bearer {token}" then .ok () else .error ⟨401, "unauthorized"⟩
  | none => .ok ()

def isMsgpack (contentType : Option String) : Bool := contentType.any (startsWith "application/msgpack")

def checkTotal (total : Nat) : Except String Unit :=
  if total > maxSnapshotBytes then .error s!"snapshot too large: {total} > {maxSnapshotBytes}" else .ok ()

namespace Receiver

variable {V M : Type}

/-- One frame. A chunk is looked at without regard to an end before it. -/
def step (st : Receiver V M) : Frame V M → Except Failure (Receiver V M)
  | .header vote metadata =>
    if st.header.isSome then .error ⟨400, "Header frame twice"⟩
    else .ok { st with header := some (vote, metadata) }
  | .chunk seq data =>
    if st.header.isNone then .error ⟨400, "Header frame must be first"⟩
    else if data = [] then .error ⟨400, "empty Chunk payload"⟩
    else if data.length > maxChunkBytes then .error ⟨400, s!"Chunk {data.length} exceeds MAX_CHUNK_BYTES"⟩
    else if seq ≠ st.lastSeq + 1 then
      .error ⟨400, s!"Chunk seq out of order: got {seq}, expected {st.lastSeq + 1}"⟩
    else
      match checkTotal (st.total + data.length) with
      | .error msg => .error ⟨413, msg⟩
      | .ok () => .ok { st with
          lastSeq := seq, total := st.total + data.length, crc := st.crc.update data, part := st.part ++ data }
  | .end totalLen crc =>
    if st.endSeen.isSome then .error ⟨400, "End frame twice"⟩
    else if st.header.isNone then .error ⟨400, "Header frame must be first"⟩
    else .ok { st with endSeen := some (totalLen, crc) }

variable [FrameCodec V M]

theorem length_nextFrame {buf rest : Bytes} {f : Frame V M} (h : nextFrame buf = .ok (some (f, rest))) :
    rest.length < buf.length := by
  unfold nextFrame at h
  split at h
  · cases h
  · dsimp only at h
    split at h
    · cases h
    · split at h
      · cases h
      · split at h
        · cases h
        · obtain ⟨rfl, rfl⟩ := Prod.mk.inj (Option.some.inj (Except.ok.inj h))
          rw [List.length_drop]
          omega

def drain (st : Receiver V M) (buf : Bytes) : Except Failure (Receiver V M × Bytes) :=
  match _h : (nextFrame buf : Except String (Option (Frame V M × Bytes))) with
  | .error msg => .error ⟨400, msg⟩
  | .ok none => .ok (st, buf)
  | .ok (some (frame, rest)) =>
    match st.step frame with
    | .error e => .error e
    | .ok st => st.drain rest
termination_by buf.length
decreasing_by exact length_nextFrame _h

def receive (st : Receiver V M) (buf : Bytes) : List (Except String Bytes) → Except Failure (Receiver V M × Bytes)
  | [] => .ok (st, buf)
  | .error e :: _ => .error ⟨400, s!"body stream: {e}"⟩
  | .ok part :: parts => do
    let (st, buf) ← st.drain (buf ++ part)
    st.receive buf parts

omit [FrameCodec V M] in
/-- The checks after the stream: what is to be installed. -/
def finish (st : Receiver V M) : Except Failure (V × M × Bytes) :=
  match st.endSeen with
  | none => .error ⟨400, "stream ended without End frame (truncated transfer)"⟩
  | some (endTotal, endCrc) =>
    if st.total ≠ endTotal then
      .error ⟨400, s!"End total_len mismatch: received {st.total}, declared {endTotal}"⟩
    else if st.crc.finish ≠ endCrc then
      .error ⟨400, s!"crc mismatch: received {hex08 st.crc.finish}, declared {hex08 endCrc}"⟩
    else
      match st.header with
      | none => .error ⟨400, "Header frame missing"⟩
      | some (vote, metadata) => .ok (vote, metadata, st.part)

/-- The handler up to the installation: the vote, the metadata and the payload it hands over. -/
def fullSnapshot (token : Option String) (req : SnapshotRequest) : Except Failure (V × M × Bytes) := do
  authed token req.authorization
  if ¬ isMsgpack req.contentType then .error ⟨415, "expected Content-Type: application/msgpack"⟩
  else do
    let (st, _) ← receive {} [] req.body
    st.finish

end Receiver

end Defing
