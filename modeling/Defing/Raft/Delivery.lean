import Defing.Raft.Transfer

/-!
# Streams that are taken

The handler takes the streams of snapshots, and also those in which something
follows the end: chunks that the end counts already, or bytes that are no whole
frame.
-/

namespace Defing

section
variable {V M : Type} [FrameCodec V M] {bytes bytes' x left payload : Bytes} {before after datas : List Bytes}
  {fs : List (Frame V M)} {v v' : V} {m m' : M} {token : Option String} {req : SnapshotRequest}

/-- A header, chunks from one on, and the end as the last frame, with nothing after it. -/
def Exact (bytes : Bytes) (v : V) (m : M) (payload : Bytes) : Prop :=
  ∃ datas, Legal 0 datas ∧ datas.flatten = payload ∧ Parses bytes (transfer v m datas []) []

variable (V M) in
/-- The end is followed by chunks, numbered on, that it counts already, or by the beginning of a frame. -/
def Stray (bytes : Bytes) : Prop :=
  ∃ (v : V) (m : M) (before after : List Bytes) (left : Bytes), Legal 0 (before ++ after) ∧
    Parses bytes (transfer v m before after) left ∧ (after ≠ [] ∨ left ≠ [])

omit [FrameCodec V M] in
theorem Sends.unique (h : Sends token req bytes) (h' : Sends token req bytes') : bytes = bytes' := by
  obtain ⟨parts, hp, rfl⟩ := h.body
  obtain ⟨parts', hp', rfl⟩ := h'.body
  rw [hp] at hp'
  have hinj : Function.Injective (Except.ok : Bytes → Except String Bytes) := fun _ _ => Except.ok.inj
  rw [List.map_injective_iff.mpr hinj hp']

theorem fullSnapshot_iff (hs : Sends token req bytes) :
    Receiver.fullSnapshot token req = .ok (v, m, payload) ↔ Exact bytes v m payload ∨
      ∃ before after left, Legal 0 (before ++ after) ∧ (before ++ after).flatten = payload ∧
        Parses bytes (transfer v m before after) left ∧ (after ≠ [] ∨ left ≠ []) := by
  rw [fullSnapshot_ok]
  constructor
  · intro ⟨bytes', before, after, left, hs', hl, hpay, hp⟩
    obtain rfl := hs.unique hs'
    by_cases hexact : after = [] ∧ left = []
    · obtain ⟨rfl, rfl⟩ := hexact
      rw [List.append_nil] at hl hpay
      exact .inl ⟨before, hl, hpay, hp⟩
    · exact .inr ⟨before, after, left, hl, hpay, hp, not_and_or.mp hexact⟩
  · intro h
    rcases h with ⟨datas, hl, hpay, hp⟩ | ⟨before, after, left, hl, hpay, hp, _⟩
    · refine ⟨bytes, datas, [], [], hs, ?_, ?_, hp⟩
      · rwa [List.append_nil]
      · rwa [List.append_nil]
    · exact ⟨bytes, before, after, left, hs, hl, hpay, hp⟩

theorem taken_iff (hs : Sends token req bytes) :
    (∃ v m payload, Receiver.fullSnapshot token req = .ok ((v, m, payload) : V × M × Bytes)) ↔
      (∃ (v : V) (m : M) (payload : Bytes), Exact bytes v m payload) ∨ Stray V M bytes := by
  constructor
  · intro ⟨v, m, payload, h⟩
    rcases (fullSnapshot_iff hs).mp h with h | ⟨before, after, left, hl, _, hp, hne⟩
    · exact .inl ⟨v, m, payload, h⟩
    · exact .inr ⟨v, m, before, after, left, hl, hp, hne⟩
  · intro h
    rcases h with ⟨v, m, payload, h⟩ | ⟨v, m, before, after, left, hl, hp, hne⟩
    · exact ⟨v, m, payload, (fullSnapshot_iff hs).mpr (.inl h)⟩
    · exact ⟨v, m, _, (fullSnapshot_iff hs).mpr (.inr ⟨before, after, left, hl, rfl, hp, hne⟩)⟩

/-! ## Streams that are no longer right -/

omit [FrameCodec V M] in
theorem mem_chunksFrom {k seq : Nat} {data : Bytes} :
    (.chunk seq data : Frame V M) ∈ chunksFrom k datas ↔ ∃ i, seq = k + i ∧ datas[i]? = some data := by
  induction datas generalizing k with
  | nil => simp [chunksFrom]
  | cons d datas ih =>
    rw [chunksFrom, List.mem_cons, ih]
    constructor
    · intro h
      rcases h with h | ⟨i, rfl, hi⟩
      · obtain ⟨rfl, rfl⟩ := Frame.chunk.inj h
        exact ⟨0, rfl, rfl⟩
      · exact ⟨i + 1, by omega, hi⟩
    · intro h
      obtain ⟨i, hseq, hi⟩ := h
      cases i with
      | zero =>
        obtain rfl := Option.some.inj hi
        exact .inl (by rw [hseq, Nat.add_zero])
      | succ i => exact .inr ⟨i, by omega, hi⟩

omit [FrameCodec V M] in
theorem chunk_of_mem {k : Nat} {f : Frame V M} (h : f ∈ chunksFrom k datas) : ∃ seq data, f = .chunk seq data := by
  induction datas generalizing k with
  | nil => cases h
  | cons d datas ih =>
    rcases List.mem_cons.mp h with rfl | h
    · exact ⟨k, d, rfl⟩
    · exact ih h

omit [FrameCodec V M] in
theorem chunksFrom_inj {k : Nat} {datas' : List Bytes} (h : (chunksFrom k datas : List (Frame V M)) = chunksFrom k datas') :
    datas = datas' := by
  induction datas generalizing k datas' with
  | nil =>
    cases datas' with
    | nil => rfl
    | cons => cases h
  | cons d datas ih =>
    cases datas' with
    | nil => cases h
    | cons d' datas' =>
      obtain ⟨hd, h⟩ := List.cons.inj h
      rw [(Frame.chunk.inj hd).2, ih h]

omit [FrameCodec V M] in
theorem transfer_nil (v : V) (m : M) (datas : List Bytes) :
    transfer v m datas [] = .header v m :: chunksFrom 1 datas ++ [.end datas.flatten.length (crc32 datas.flatten)] := by
  rw [transfer, List.append_nil]
  rfl

omit [FrameCodec V M] in
theorem end_last (gs : List (Frame V M)) {hs : List (Frame V M)} {n : Nat} {c : UInt32} (h : gs ++ .end n c :: hs = transfer v m datas []) : hs = [] := by
  by_contra hne
  rw [transfer_nil, ← List.dropLast_append_getLast hne, ← List.cons_append, ← List.append_assoc] at h
  have hmem : .end n c ∈ (.header v m :: chunksFrom 1 datas : List (Frame V M)) := by
    rw [← List.append_inj_left' h rfl]
    simp
  rcases List.mem_cons.mp hmem with h | h
  · cases h
  · obtain ⟨_, _, h⟩ := chunk_of_mem h
    cases h

omit [FrameCodec V M] in
theorem transfer_append (h : transfer v m before after ++ fs = transfer v' m' datas []) : fs = [] := by
  rw [transfer, List.append_assoc, List.cons_append, List.cons_append, ← List.cons_append] at h
  exact (List.append_eq_nil_iff.mp (end_last (.header v m :: chunksFrom 1 before) h)).2

/-- A stream that is right is neither the beginning of another nor continued by it. -/
theorem not_exact_append {payload' : Bytes} (h : Exact bytes v m payload) (hx : x ≠ []) :
    ¬ Exact (bytes ++ x) v' m' payload' := by
  intro ⟨datas', hl', hpay', hp'⟩
  obtain ⟨datas, _, _, hp⟩ := h
  obtain ⟨fs₁, left₁, fs₂, h₁, h₂, hfs⟩ := hp'.of_append
  obtain ⟨rfl, rfl⟩ := hp.unique h₁
  obtain rfl := transfer_append hfs.symm
  exact hx h₂.nil.2

omit [FrameCodec V M] in
theorem transfer_of_mem {datas' : List Bytes} (hl : Legal 0 datas)
    (h : ∀ f ∈ transfer v' m' datas' [], f ∈ transfer v m datas []) : transfer v' m' datas' [] = transfer v m datas [] := by
  rw [transfer_nil, transfer_nil] at *
  have hheader : (.header v' m' : Frame V M) = .header v m := by
    rcases List.mem_cons.mp (h (.header v' m') (by simp)) with h | h
    · exact h
    · rcases List.mem_append.mp h with h | h
      · obtain ⟨_, _, h⟩ := chunk_of_mem h
        cases h
      · cases List.mem_singleton.mp h
  have hend : (.end datas'.flatten.length (crc32 datas'.flatten) : Frame V M) =
      .end datas.flatten.length (crc32 datas.flatten) := by
    rcases List.mem_cons.mp (h (.end datas'.flatten.length (crc32 datas'.flatten)) (by simp)) with h | h
    · cases h
    · rcases List.mem_append.mp h with h | h
      · obtain ⟨_, _, h⟩ := chunk_of_mem h
        cases h
      · exact List.mem_singleton.mp h
  have hprefix : datas' <+: datas := by
    refine List.prefix_iff_getElem?.mpr ?_
    intro i hi
    have hget := List.getElem?_eq_getElem hi
    have hmem := h (.chunk (1 + i) datas'[i]) (by simp [mem_chunksFrom.mpr ⟨i, rfl, hget⟩])
    rcases List.mem_cons.mp hmem with h | h
    · cases h
    · rcases List.mem_append.mp h with h | h
      · obtain ⟨j, hj, hget'⟩ := mem_chunksFrom.mp h
        obtain rfl := Nat.add_left_cancel hj
        exact hget'
      · cases List.mem_singleton.mp h
  obtain ⟨more, rfl⟩ := hprefix
  have hlen := (Frame.end.inj hend).1
  have hmore : more = [] := by
    by_contra hne
    have hle : more.length ≤ more.flatten.length := length_le_flatten fun d hd => hl.nonempty d (List.mem_append_right _ hd)
    have hpos := List.length_pos_iff.mpr hne
    rw [List.flatten_append, List.length_append] at hlen
    omega
  rw [hmore, List.append_nil, hheader]

variable (V M) in
/-- What can happen to a stream that is right: frames are left out, repeated or put in another order, bytes or frames
are put after it, it is cut short, or the data of chunks no longer have the checksum. -/
inductive Mangled : Bytes → Bytes → Prop
  | frames {bytes bytes' : Bytes} {v : V} {m : M} {datas : List Bytes} {fs' : List (Frame V M)} (hl : Legal 0 datas) (h : Parses bytes (transfer v m datas []) [])
      (h' : Parses bytes' fs' []) (hsub : ∀ f ∈ fs', f ∈ transfer v m datas []) (hne : fs' ≠ transfer v m datas []) :
      Mangled bytes bytes'
  | appended {bytes payload x : Bytes} {v : V} {m : M} (h : Exact bytes v m payload) (hx : x ≠ []) : Mangled bytes (bytes ++ x)
  | truncated {bytes payload x : Bytes} {v : V} {m : M} (h : Exact (bytes ++ x) v m payload) (hx : x ≠ []) : Mangled (bytes ++ x) bytes
  | altered {bytes bytes' : Bytes} {v : V} {m : M} {datas datas' : List Bytes} (hl : Legal 0 datas)
      (h : Parses bytes (transfer v m datas []) [])
      (h' : Parses bytes' (.header v m :: chunksFrom 1 datas' ++ [.end datas.flatten.length (crc32 datas.flatten)]) [])
      (hcrc : crc32 datas'.flatten ≠ crc32 datas.flatten) : Mangled bytes bytes'

theorem Mangled.not_exact (h : Mangled V M bytes bytes') : ¬ Exact bytes' v' m' payload := by
  intro hexact
  cases h with
  | frames hl hp hp' hsub hne =>
    obtain ⟨datas', _, _, hq⟩ := hexact
    obtain ⟨rfl, _⟩ := hp'.unique hq
    exact hne (transfer_of_mem hl hsub)
  | appended h hx =>
    obtain ⟨datas, hl, _, hp⟩ := h
    exact not_exact_append ⟨datas, hl, rfl, hp⟩ hx hexact
  | truncated h hx =>
    obtain ⟨datas, hl, _, hp⟩ := h
    exact not_exact_append hexact hx ⟨datas, hl, rfl, hp⟩
  | altered hl hp hp' hcrc =>
    obtain ⟨datas', _, _, hq⟩ := hexact
    obtain ⟨hfs, _⟩ := hp'.unique hq
    rw [transfer_nil, List.cons_append, List.cons_append] at hfs
    obtain ⟨hinit, hlast⟩ := List.append_inj' (List.cons.inj hfs).2 rfl
    obtain rfl := chunksFrom_inj hinit
    exact hcrc (Frame.end.inj (List.cons.inj hlast).1).2.symm

/-! ## Transfers -/

theorem stray_taken (h : Stray V M bytes) (hs : Sends token req bytes) :
    ∃ (v : V) (m : M) (payload : Bytes), Receiver.fullSnapshot token req = .ok (v, m, payload) ∧ ¬ Exact bytes v m payload := by
  obtain ⟨v, m, before, after, left, hl, hp, hne⟩ := h
  refine ⟨v, m, (before ++ after).flatten, (fullSnapshot_iff hs).mpr (.inr ⟨before, after, left, hl, rfl, hp, hne⟩), ?_⟩
  intro ⟨datas, _, _, hq⟩
  obtain ⟨hfs, rfl⟩ := hp.unique hq
  rcases hne with hne | hne
  · have hnil := end_last (.header v m :: chunksFrom 1 before) hfs
    cases after with
    | nil => exact hne rfl
    | cons => cases hnil
  · exact hne rfl

theorem refused_iff : (∃ e, Receiver.fullSnapshot (V := V) (M := M) token req = .error e) ↔
    ¬ ∃ v m payload, Receiver.fullSnapshot token req = .ok ((v, m, payload) : V × M × Bytes) := by
  cases Receiver.fullSnapshot (V := V) (M := M) token req with
  | error e => simp
  | ok r =>
    obtain ⟨v, m, payload⟩ := r
    simp

theorem stream_spec (hc : FrameCodec.Lawful V M) (chunkSize : Nat) {reads : List Bytes} {header : Bytes}
    (hh : FrameCodec.serialize (.header v m) = .ok header) (hlen : header.length < 2 ^ 32) (hne : ∀ part ∈ reads, part ≠ [])
    (htotal : reads.flatten.length ≤ maxSnapshotBytes) :
    ∃ e sent datas, FrameEmitter.open v m chunkSize = .ok e ∧
      e.stream V M (reads.map .ok) = ((Bytes.be 4 header.length ++ header) :: sent).map .ok ∧ Legal 0 datas ∧
        datas.flatten = reads.flatten ∧
          Parses sent.flatten (chunksFrom 1 datas ++ [.end datas.flatten.length (crc32 datas.flatten)] : List (Frame V M)) [] := by
  have hmod : header.length % 2 ^ 32 = header.length := Nat.mod_eq_of_lt hlen
  let e : FrameEmitter :=
    { headerFrame := Bytes.be 4 header.length ++ header, chunkSize := clampChunkSize chunkSize,
      chunkSize_pos := clampChunkSize_pos chunkSize }
  have hopen : FrameEmitter.open v m chunkSize = .ok e := by
    unfold FrameEmitter.open encodeFrame
    simp only [hh, hmod]
    rfl
  have hsend : Sendable e reads.flatten.length := by
    refine ⟨clampChunkSize_le chunkSize, Nat.le_refl 0, ?_⟩
    simpa [e] using htotal
  obtain ⟨datas, sent, hpump, hflat, hne', hmax, hp⟩ := pump_spec hc e reads hsend (clampChunkSize_pos chunkSize) hne
  have hdata : datas.flatten = reads.flatten := hflat
  refine ⟨e, sent, datas, hopen, ?_, ⟨hne', hmax, ?_⟩, hdata, ?_⟩
  · unfold FrameEmitter.stream
    rw [hpump]
    rfl
  · rw [Nat.zero_add, hdata]
    exact htotal
  · have hzero : e.total + datas.flatten.length = datas.flatten.length := Nat.zero_add _
    rw [hzero] at hp
    exact hp

/-- The transfers of a sender deliver, if their header fits into a frame. The handler takes other streams too: those
that go on after their end. Of the streams that can become of one that is right it refuses all but these. -/
theorem transfer_delivers (hc : FrameCodec.Lawful V M) (token : Option String) :
    (∀ (vote : V) (metadata : M) (chunkSize : Nat) (reads : List Bytes) (header : Bytes),
      FrameCodec.serialize (.header vote metadata) = .ok header → header.length < 2 ^ 32 → (∀ part ∈ reads, part ≠ []) →
        reads.flatten.length ≤ maxSnapshotBytes →
          ∃ (e : FrameEmitter) (sent : List Bytes), FrameEmitter.open vote metadata chunkSize = .ok e ∧
            e.stream V M (reads.map .ok) = sent.map .ok ∧ ∀ req, Sends token req sent.flatten →
              (Receiver.fullSnapshot token req = .ok (vote, metadata, reads.flatten) ↔ header.length ≤ maxFrameBytes)) ∧
    (∀ req, (∀ (v : V) (m : M) payload, Receiver.fullSnapshot token req = .ok (v, m, payload) →
        ∃ bytes, Sends token req bytes ∧ Exact bytes v m payload) ↔ ¬ ∃ bytes, Sends token req bytes ∧ Stray V M bytes) ∧
    (∀ bytes bytes' req, Mangled V M bytes bytes' → Sends token req bytes' →
      ((∃ e, Receiver.fullSnapshot (V := V) (M := M) token req = .error e) ↔ ¬ Stray V M bytes')) ∧
    ∀ bytes req, Sends token req bytes →
      ((∃ e, Receiver.fullSnapshot (V := V) (M := M) token req = .error e) ↔
        ¬ (∃ (v : V) (m : M) (payload : Bytes), Exact bytes v m payload) ∧ ¬ Stray V M bytes) := by
  refine ⟨?_, ?_, ?_, ?_⟩
  · intro vote metadata chunkSize reads header hh hlen hne htotal
    obtain ⟨e, sent, datas, hopen, hstream, hl, hdata, hp⟩ := stream_spec hc chunkSize hh hlen hne htotal
    refine ⟨e, (Bytes.be 4 header.length ++ header) :: sent, hopen, hstream, ?_⟩
    intro req hs
    rw [List.flatten_cons] at hs
    constructor
    · intro h
      -- the header comes first, whatever the handler has made of the rest
      have hfirst : ∃ rest, nextFrame (Bytes.be 4 header.length ++ header ++ sent.flatten) =
          .ok (some ((.header vote metadata : Frame V M), rest)) := by
        rcases (fullSnapshot_iff hs).mp h with ⟨_, _, _, hq⟩ | ⟨_, _, _, _, _, hq, _⟩
        · exact ⟨_, hq.first.choose_spec.1⟩
        · exact ⟨_, hq.first.choose_spec.1⟩
      obtain ⟨rest, hfirst⟩ := hfirst
      obtain ⟨body, hmax, _, hbuf⟩ := nextFrame_some.mp hfirst
      have hhead := congrArg (fun buf => Bytes.ofBe (buf.take 4)) hbuf
      simp only [List.append_assoc, List.take_left' (Bytes.length_be ..), Bytes.ofBe_be] at hhead
      have hbody : body.length < 256 ^ 4 := Nat.lt_of_le_of_lt hmax (by decide)
      rw [Nat.mod_eq_of_lt (b := 256 ^ 4) hlen, Nat.mod_eq_of_lt hbody] at hhead
      rw [hhead]
      exact hmax
    · intro hmax
      obtain ⟨body, hser, hread⟩ := hc.round (.header vote metadata) trivial
      rw [hh] at hser
      obtain rfl := Except.ok.inj hser
      refine (fullSnapshot_iff hs).mpr (.inl ⟨datas, hl, hdata, ?_⟩)
      rw [transfer_nil]
      exact .next hmax hread hp
  · intro req
    constructor
    · intro h ⟨bytes, hs, hstray⟩
      obtain ⟨v, m, payload, htaken, hexact⟩ := stray_taken hstray hs
      obtain ⟨bytes', hs', hexact'⟩ := h v m payload htaken
      obtain rfl := hs.unique hs'
      exact hexact hexact'
    · intro hno v m payload h
      obtain ⟨bytes, _, _, _, hs, _⟩ := fullSnapshot_ok.mp h
      rcases (fullSnapshot_iff hs).mp h with h | ⟨before, after, left, hl, _, hp, hne⟩
      · exact ⟨bytes, hs, h⟩
      · exact absurd ⟨bytes, hs, v, m, before, after, left, hl, hp, hne⟩ hno
  · intro bytes bytes' req hmangled hs
    rw [refused_iff, taken_iff hs, not_iff_not]
    constructor
    · intro h
      rcases h with ⟨v, m, payload, h⟩ | h
      · exact absurd h hmangled.not_exact
      · exact h
    · exact .inr
  · intro bytes req hs
    rw [refused_iff, taken_iff hs, not_or]

end

/-! ## Runs on fixed inputs -/

def sampleWriteUint (n : Nat) : Bytes :=
  if n < 2 ^ 7 then [UInt8.ofNat n]
  else if n < 2 ^ 8 then 0xCC :: Bytes.be 1 n
  else if n < 2 ^ 16 then 0xCD :: Bytes.be 2 n
  else if n < 2 ^ 32 then 0xCE :: Bytes.be 4 n
  else 0xCF :: Bytes.be 8 n

def sampleNat (width : Nat) (r : Bytes) : Except String (Nat × Bytes) :=
  if r.length < width then .error "IO error while reading data: failed to fill whole buffer"
  else .ok (Bytes.ofBe (r.take width), r.drop width)

def sampleReadUint : Bytes → Except String (Nat × Bytes)
  | [] => .error "IO error while reading marker: failed to fill whole buffer"
  | m :: r =>
    if m.toNat < 2 ^ 7 then .ok (m.toNat, r)
    else if m = 0xCC then sampleNat 1 r
    else if m = 0xCD then sampleNat 2 r
    else if m = 0xCE then sampleNat 4 r
    else if m = 0xCF then sampleNat 8 r
    else .error "wrong msgpack marker"

theorem sampleNat_be {w n : Nat} (h : n < 256 ^ w) (rest : Bytes) : sampleNat w (Bytes.be w n ++ rest) = .ok (n, rest) := by
  have hlen : ¬ (Bytes.be w n ++ rest).length < w := by
    rw [List.length_append, Bytes.length_be]
    omega
  rw [sampleNat, if_neg hlen, List.take_left' (Bytes.length_be ..), List.drop_left' (Bytes.length_be ..), Bytes.ofBe_be,
    Nat.mod_eq_of_lt h]

theorem sampleReadUint_write {n : Nat} (h : n < 2 ^ 64) (rest : Bytes) :
    sampleReadUint (sampleWriteUint n ++ rest) = .ok (n, rest) := by
  unfold sampleWriteUint
  by_cases h7 : n < 2 ^ 7
  · have hn : (UInt8.ofNat n).toNat = n := by
      rw [UInt8.toNat_ofNat']
      omega
    rw [if_pos h7, List.singleton_append, sampleReadUint, hn, if_pos h7]
  · by_cases h8 : n < 2 ^ 8
    · rw [if_neg h7, if_pos h8]
      exact sampleNat_be (w := 1) h8 rest
    · by_cases h16 : n < 2 ^ 16
      · rw [if_neg h7, if_neg h8, if_pos h16]
        exact sampleNat_be (w := 2) h16 rest
      · by_cases h32 : n < 2 ^ 32
        · rw [if_neg h7, if_neg h8, if_neg h16, if_pos h32]
          exact sampleNat_be (w := 4) h32 rest
        · rw [if_neg h7, if_neg h8, if_neg h16, if_neg h32]
          exact sampleNat_be (w := 8) h rest

theorem length_sampleWriteUint (n : Nat) : (sampleWriteUint n).length ≤ 9 := by
  unfold sampleWriteUint
  split_ifs <;> simp

def sampleDrop (name r : Bytes) : Except String Bytes :=
  if r.take name.length = name then .ok (r.drop name.length) else .error "unknown field"

theorem sampleDrop_append (name rest : Bytes) : sampleDrop name (name ++ rest) = .ok rest := by
  rw [sampleDrop, List.take_left, if_pos rfl, List.drop_left]

-- the names of the variants and of their fields, each after its length, in maps of one and of two fields
def sampleHeader : Bytes :=
  [0x81, 0xA6, 0x48, 0x65, 0x61, 0x64, 0x65, 0x72, 0x82, 0xA4, 0x76, 0x6F, 0x74, 0x65, 0xC0, 0xA4, 0x6D, 0x65, 0x74, 0x61, 0xC0]
def sampleChunk : Bytes := [0x81, 0xA5, 0x43, 0x68, 0x75, 0x6E, 0x6B, 0x82, 0xA3, 0x73, 0x65, 0x71]
def sampleData : Bytes := [0xA4, 0x64, 0x61, 0x74, 0x61]
def sampleEnd : Bytes :=
  [0x81, 0xA3, 0x45, 0x6E, 0x64, 0x82, 0xA9, 0x74, 0x6F, 0x74, 0x61, 0x6C, 0x5F, 0x6C, 0x65, 0x6E]
def sampleCrc : Bytes := [0xA3, 0x63, 0x72, 0x63]

def sampleSerialize : Frame Unit Unit → Bytes
  | .header _ _ => sampleHeader
  | .chunk seq data => sampleChunk ++ (sampleWriteUint seq ++ (sampleData ++ (sampleWriteBinLen data.length ++ data)))
  | .end totalLen crc => sampleEnd ++ (sampleWriteUint totalLen ++ (sampleCrc ++ (sampleWriteUint crc.toNat ++ [])))

def sampleFromSlice (body : Bytes) : Except String (Frame Unit Unit) :=
  if body.take 3 = sampleChunk.take 3 then do
    let r ← sampleDrop sampleChunk body
    let (seq, r) ← sampleReadUint r
    let r ← sampleDrop sampleData r
    let (n, r) ← sampleReadBinLen r
    if r.length < n.toNat then .error "IO error while reading data: failed to fill whole buffer"
    else .ok (.chunk seq (r.take n.toNat))
  else if body.take 3 = sampleEnd.take 3 then do
    let r ← sampleDrop sampleEnd body
    let (totalLen, r) ← sampleReadUint r
    let r ← sampleDrop sampleCrc r
    let (crc, _) ← sampleReadUint r
    .ok (.end totalLen (UInt32.ofNat crc))
  else do
    let _ ← sampleDrop sampleHeader body
    .ok (.header () ())

@[reducible] def sampleFrames : FrameCodec Unit Unit where
  serialize frame := .ok (sampleSerialize frame)
  fromSlice := sampleFromSlice

section
attribute [local instance] sampleFrames

theorem sampleFrames_lawful : FrameCodec.Lawful Unit Unit where
  round frame h := by
    refine ⟨sampleSerialize frame, rfl, ?_⟩
    cases frame with
    | header v m => rfl
    | chunk seq data =>
      have hn : (UInt32.ofNat data.length).toNat = data.length := by
        rw [UInt32.toNat_ofNat']
        exact Nat.mod_eq_of_lt h.2
      change sampleFromSlice (sampleSerialize (.chunk seq data)) = _
      have htag : (sampleSerialize (.chunk seq data)).take 3 = sampleChunk.take 3 := rfl
      rw [sampleFromSlice, if_pos htag, sampleSerialize]
      simp only [sampleDrop_append, sampleReadUint_write h.1, sampleReadBinLen_write h.2, bind, Except.bind, hn,
        Nat.lt_irrefl, if_false, List.take_length]
    | «end» totalLen crc =>
      change sampleFromSlice (sampleSerialize (.end totalLen crc)) = _
      have hcrc : crc.toNat < 2 ^ 64 := Nat.lt_trans crc.toNat_lt (by decide)
      have htag : (sampleSerialize (.end totalLen crc)).take 3 = sampleEnd.take 3 := rfl
      rw [sampleFromSlice, htag, if_neg (by decide), if_pos rfl, sampleSerialize]
      simp only [sampleDrop_append, sampleReadUint_write h, sampleReadUint_write hcrc, bind, Except.bind, UInt32.ofNat_toNat]
  chunk seq data body h := by
    obtain rfl := Except.ok.inj h
    have hseq := length_sampleWriteUint seq
    have hlen : (sampleWriteBinLen data.length).length ≤ 5 := by
      unfold sampleWriteBinLen
      split_ifs <;> simp
    simp only [sampleSerialize, List.length_append, sampleChunk, sampleData, List.length_cons, List.length_nil]
    omega
  «end» totalLen crc body h := by
    obtain rfl := Except.ok.inj h
    have htotal := length_sampleWriteUint totalLen
    have hcrc := length_sampleWriteUint crc.toNat
    simp only [sampleSerialize, List.length_append, sampleEnd, sampleCrc, List.length_cons, List.length_nil]
    omega

theorem transfer_delivers_sample :
    ∃ (e : FrameEmitter) (sent : List Bytes), FrameEmitter.open () () 2 = .ok e ∧
      e.stream Unit Unit [.ok [1, 2, 3], .ok [4]] = sent.map .ok ∧ ∀ req, Sends (some "t") req sent.flatten →
        Receiver.fullSnapshot (some "t") req = .ok ((), (), [1, 2, 3, 4]) := by
  obtain ⟨e, sent, hopen, hstream, htaken⟩ := (transfer_delivers sampleFrames_lawful (some "t")).1 () () 2 [[1, 2, 3], [4]]
    sampleHeader rfl (by decide) (by simp) (by decide)
  exact ⟨e, sent, hopen, hstream, fun req hs => (htaken req hs).mpr (by decide)⟩

def strayFrames : List (Frame Unit Unit) := [.header () (), .end 1 (crc32 [7]), .chunk 1 [7]]

def strayBytes : Bytes :=
  (strayFrames.map fun f => Bytes.be 4 (sampleSerialize f).length ++ sampleSerialize f).flatten

def strayRequest : SnapshotRequest where
  authorization := none
  contentType := some "application/msgpack"
  body := [.ok strayBytes]

theorem strayBytes_parses : Parses strayBytes (transfer () () [] [[7]]) [] := by
  have hdone : Parses [] ([] : List (Frame Unit Unit)) [] := .done rfl
  have hchunk : Parses (Bytes.be 4 _ ++ sampleSerialize (.chunk 1 [7]) ++ []) [Frame.chunk (V := Unit) (M := Unit) 1 [7]] [] :=
    .next (by decide) rfl hdone
  have hend : FrameCodec.fromSlice (sampleSerialize (.end 1 (crc32 [7]))) = .ok (Frame.end 1 (crc32 [7]) : Frame Unit Unit) := by
    obtain ⟨body, hs, hf⟩ := sampleFrames_lawful.round (.end 1 (crc32 [7])) (show 1 < 2 ^ 64 by decide)
    rw [← Except.ok.inj hs] at hf
    exact hf
  have hlen : (sampleSerialize (.end 1 (crc32 [7]))).length ≤ maxFrameBytes :=
    Nat.le_trans (sampleFrames_lawful.end 1 (crc32 [7]) _ rfl) (by decide)
  exact .next (by decide) rfl (.next hlen hend hchunk)

/-- The handler takes a stream whose end is not the last frame. -/
theorem end_not_last : ¬ ∀ (req : SnapshotRequest) (payload : Bytes),
    Receiver.fullSnapshot none req = .ok ((), (), payload) → ∃ bytes, Sends none req bytes ∧ Exact bytes () () payload := by
  intro h
  have hs : Sends none strayRequest strayBytes := ⟨rfl, by decide, [strayBytes], rfl, by simp⟩
  have hl : Legal 0 ([] ++ [[7]]) := ⟨by simp, by simp [maxChunkBytes], by decide⟩
  have htaken : Receiver.fullSnapshot none strayRequest = .ok ((), (), [7]) :=
    (fullSnapshot_iff hs).mpr (.inr ⟨[], [[7]], [], hl, rfl, strayBytes_parses, .inl (by simp)⟩)
  obtain ⟨bytes, hs', datas, _, _, hp⟩ := h strayRequest [7] htaken
  obtain rfl := hs.unique hs'
  have hnil := end_last [.header () ()] (strayBytes_parses.unique hp).1
  cases hnil

end

end Defing
