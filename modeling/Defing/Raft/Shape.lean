import Defing.Raft.Wire

/-!
# What the receiver takes

The frames of a snapshot are a header, chunks numbered from one, and an end
with the length and the checksum of their data. The handler takes these, but it
does not insist that the end comes last.
-/

namespace Defing

variable {V M : Type} {fs : List (Frame V M)} {st st' : Receiver V M} {datas : List Bytes} {n : Nat} {c : UInt32}

/-! ## The frames of a snapshot -/

def chunksFrom (k : Nat) : List Bytes → List (Frame V M)
  | [] => []
  | data :: datas => .chunk k data :: chunksFrom (k + 1) datas

structure Legal (sent : Nat) (datas : List Bytes) : Prop where
  nonempty : ∀ data ∈ datas, data ≠ []
  chunk : ∀ data ∈ datas, data.length ≤ maxChunkBytes
  total : sent + datas.flatten.length ≤ maxSnapshotBytes

def transfer (v : V) (m : M) (before after : List Bytes) : List (Frame V M) :=
  .header v m :: chunksFrom 1 before ++
    .end (before ++ after).flatten.length (crc32 (before ++ after).flatten) :: chunksFrom (before.length + 1) after

theorem chunksFrom_append (k : Nat) (xs ys : List Bytes) :
    (chunksFrom k (xs ++ ys) : List (Frame V M)) = chunksFrom k xs ++ chunksFrom (k + xs.length) ys := by
  induction xs generalizing k with
  | nil => rfl
  | cons x xs ih =>
    rw [List.cons_append, chunksFrom, ih, chunksFrom, List.cons_append, List.length_cons, Nat.add_right_comm, Nat.add_assoc]

theorem legal_nil {sent : Nat} : Legal sent [] ↔ sent ≤ maxSnapshotBytes := by
  constructor
  · intro h
    exact h.total
  · intro h
    exact ⟨by simp, by simp, h⟩

theorem legal_cons {sent : Nat} {data : Bytes} :
    Legal sent (data :: datas) ↔ data ≠ [] ∧ data.length ≤ maxChunkBytes ∧ Legal (sent + data.length) datas := by
  constructor
  · intro ⟨hne, hc, ht⟩
    rw [List.forall_mem_cons] at hne hc
    rw [List.flatten_cons, List.length_append, ← Nat.add_assoc] at ht
    exact ⟨hne.1, hc.1, hne.2, hc.2, ht⟩
  · intro ⟨hd, hl, hne, hc, ht⟩
    refine ⟨List.forall_mem_cons.mpr ⟨hd, hne⟩, List.forall_mem_cons.mpr ⟨hl, hc⟩, ?_⟩
    rw [List.flatten_cons, List.length_append, ← Nat.add_assoc]
    exact ht

theorem Legal.sent_le {sent : Nat} (h : Legal sent datas) : sent ≤ maxSnapshotBytes :=
  Nat.le_trans (Nat.le_add_right ..) h.total

namespace Receiver

def add (st : Receiver V M) (data : Bytes) : Receiver V M :=
  { st with
    lastSeq := st.lastSeq + 1, total := st.total + data.length, crc := st.crc.update data, part := st.part ++ data }

theorem foldl_add (st : Receiver V M) (datas : List Bytes) : datas.foldl add st =
    { st with
      lastSeq := st.lastSeq + datas.length, total := st.total + datas.flatten.length,
      crc := st.crc.update datas.flatten, part := st.part ++ datas.flatten } := by
  induction datas generalizing st with
  | nil => simp [Crc32.update]
  | cons data datas ih =>
    rw [List.foldl_cons, ih]
    simp [add, Crc32.update_append, Nat.add_assoc, Nat.add_comm 1]

theorem checkTotal_ok {total : Nat} : checkTotal total = .ok () ↔ total ≤ maxSnapshotBytes := by
  unfold checkTotal
  split
  · simp only [reduceCtorEq, false_iff]
    omega
  · simp only [true_iff]
    omega

theorem step_header {v : V} {m : M} : st.step (.header v m) = .ok st' ↔
    st.header = none ∧ st' = { st with header := some (v, m) } := by
  unfold step
  cases st.header <;> simp [eq_comm]

theorem step_end : st.step (.end n c) = .ok st' ↔
    st.endSeen = none ∧ st.header.isSome ∧ st' = { st with endSeen := some (n, c) } := by
  unfold step
  cases st.endSeen <;> cases st.header <;> simp [eq_comm]

theorem step_chunk {seq : Nat} {data : Bytes} : st.step (.chunk seq data) = .ok st' ↔
    st.header.isSome ∧ data ≠ [] ∧ data.length ≤ maxChunkBytes ∧ seq = st.lastSeq + 1 ∧
      st.total + data.length ≤ maxSnapshotBytes ∧ st' = st.add data := by
  unfold step
  cases hh : st.header with
  | none => simp
  | some vm =>
    by_cases hd : data = []
    · simp [hd]
    · by_cases hc : data.length > maxChunkBytes
      · simp [hd, hc]
      · by_cases hs : seq = st.lastSeq + 1
        · cases ht : checkTotal (st.total + data.length) with
          | error msg =>
            have hn : ¬ st.total + data.length ≤ maxSnapshotBytes := by
              intro h
              rw [checkTotal_ok.mpr h] at ht
              cases ht
            simp [hd, hc, hs, hn, ht]
          | ok u =>
            have hle := checkTotal_ok.mp ht
            simp [hd, hc, Nat.not_lt.mp hc, hs, hle, ht, add, hh, eq_comm]
        · simp [hd, hc, hs]

theorem run_ended (st : Receiver V M) (hh : st.header.isSome) (he : st.endSeen.isSome) (ht : st.total ≤ maxSnapshotBytes) :
    fs.foldlM step st = .ok st' ↔
      ∃ after, fs = chunksFrom (st.lastSeq + 1) after ∧ Legal st.total after ∧ st' = after.foldl add st := by
  induction fs generalizing st with
  | nil =>
    constructor
    · intro h
      obtain rfl := Except.ok.inj h
      exact ⟨[], rfl, legal_nil.mpr ht, rfl⟩
    · intro ⟨after, hfs, _, hst⟩
      cases after with
      | nil => rw [hst]; rfl
      | cons => cases hfs
  | cons f fs ih =>
    rw [List.foldlM_cons]
    constructor
    · intro h
      obtain ⟨st₁, hs, hrun⟩ := Result.bind_ok.mp h
      cases f with
      | header v m => rw [(step_header.mp hs).1] at hh; cases hh
      | «end» n c => rw [(step_end.mp hs).1] at he; cases he
      | chunk seq data =>
        obtain ⟨_, hd, hc, rfl, hle, rfl⟩ := step_chunk.mp hs
        obtain ⟨after, rfl, hl, rfl⟩ := (ih (st.add data) hh he hle).mp hrun
        exact ⟨data :: after, rfl, legal_cons.mpr ⟨hd, hc, hl⟩, rfl⟩
    · intro ⟨after, hfs, hl, hst⟩
      cases after with
      | nil => cases hfs
      | cons data after =>
        obtain ⟨rfl, rfl⟩ := List.cons.inj hfs
        obtain ⟨hd, hc, hl⟩ := legal_cons.mp hl
        refine Result.bind_ok.mpr ⟨st.add data, step_chunk.mpr ⟨hh, hd, hc, rfl, hl.sent_le, rfl⟩, ?_⟩
        exact (ih (st.add data) hh he hl.sent_le).mpr ⟨after, rfl, hl, hst⟩

/-- Before the end there are chunks too, and the end comes at most once. -/
theorem run_open (st : Receiver V M) (hh : st.header.isSome) (he : st.endSeen = none) (ht : st.total ≤ maxSnapshotBytes) :
    fs.foldlM step st = .ok st' ∧ st'.endSeen = some (n, c) ↔
      ∃ before after, fs = chunksFrom (st.lastSeq + 1) before ++ .end n c :: chunksFrom (st.lastSeq + 1 + before.length) after ∧
        Legal st.total (before ++ after) ∧ st' = { (before ++ after).foldl add st with endSeen := some (n, c) } := by
  induction fs generalizing st with
  | nil =>
    constructor
    · intro ⟨h, hs⟩
      obtain rfl := Except.ok.inj h
      rw [he] at hs
      cases hs
    · intro ⟨before, after, hfs, _⟩
      cases before <;> cases hfs
  | cons f fs ih =>
    rw [List.foldlM_cons]
    constructor
    · intro ⟨h, hn⟩
      obtain ⟨st₁, hs, hrun⟩ := Result.bind_ok.mp h
      cases f with
      | header v m => rw [(step_header.mp hs).1] at hh; cases hh
      | «end» n' c' =>
        obtain ⟨_, _, rfl⟩ := step_end.mp hs
        obtain ⟨after, rfl, hl, rfl⟩ := (run_ended { st with endSeen := some (n', c') } hh rfl ht).mp hrun
        rw [foldl_add] at hn
        obtain ⟨rfl, rfl⟩ := Prod.mk.inj (Option.some.inj hn)
        refine ⟨[], after, rfl, hl, ?_⟩
        rw [List.nil_append, foldl_add, foldl_add]
      | chunk seq data =>
        obtain ⟨_, hd, hc, rfl, hle, rfl⟩ := step_chunk.mp hs
        obtain ⟨before, after, rfl, hl, rfl⟩ := (ih (st.add data) hh he hle).mp ⟨hrun, hn⟩
        refine ⟨data :: before, after, ?_, legal_cons.mpr ⟨hd, hc, hl⟩, rfl⟩
        rw [chunksFrom, List.cons_append, List.length_cons, Nat.add_comm before.length, ← Nat.add_assoc]
        rfl
    · intro ⟨before, after, hfs, hl, hst⟩
      cases before with
      | nil =>
        obtain ⟨rfl, rfl⟩ := List.cons.inj hfs
        refine ⟨Result.bind_ok.mpr ⟨_, step_end.mpr ⟨he, hh, rfl⟩, ?_⟩, by rw [hst]⟩
        refine (run_ended { st with endSeen := some (n, c) } hh rfl ht).mpr ⟨after, rfl, hl, ?_⟩
        rw [hst, List.nil_append, foldl_add, foldl_add]
      | cons data before =>
        obtain ⟨rfl, rfl⟩ := List.cons.inj hfs
        obtain ⟨hd, hc, hl⟩ := legal_cons.mp hl
        have hseq : st.lastSeq + 1 + (data :: before).length = st.lastSeq + 1 + 1 + before.length := by
          rw [List.length_cons, Nat.add_comm before.length, ← Nat.add_assoc]
        have hrest := (ih (st.add data) hh he hl.sent_le).mpr ⟨before, after, by rw [hseq]; rfl, hl, hst⟩
        exact ⟨Result.bind_ok.mpr ⟨st.add data, step_chunk.mpr ⟨hh, hd, hc, rfl, hl.sent_le, rfl⟩, hrest.1⟩, hrest.2⟩

theorem run_init : fs.foldlM step {} = .ok st' ∧ st'.endSeen = some (n, c) ↔
    ∃ v m before after, fs = .header v m :: chunksFrom 1 before ++ .end n c :: chunksFrom (before.length + 1) after ∧
      Legal 0 (before ++ after) ∧
      st' = { (before ++ after).foldl add { header := some (v, m) } with endSeen := some (n, c) } := by
  cases fs with
  | nil =>
    constructor
    · intro ⟨h, hs⟩
      obtain rfl := Except.ok.inj h
      cases hs
    · intro ⟨v, m, before, after, hfs, _⟩
      cases hfs
  | cons f fs =>
    rw [List.foldlM_cons]
    constructor
    · intro ⟨h, hn⟩
      obtain ⟨st₁, hs, hrun⟩ := Result.bind_ok.mp h
      cases f with
      | header v m =>
        obtain ⟨_, rfl⟩ := step_header.mp hs
        obtain ⟨before, after, rfl, hl, rfl⟩ := (run_open { header := some (v, m) } rfl rfl (Nat.zero_le _)).mp ⟨hrun, hn⟩
        refine ⟨v, m, before, after, ?_, hl, rfl⟩
        rw [Nat.add_comm before.length]
        rfl
      | «end» n' c' => cases (step_end.mp hs).2.1
      | chunk seq data => cases (step_chunk.mp hs).1
    · intro ⟨v, m, before, after, hfs, hl, hst⟩
      obtain ⟨rfl, rfl⟩ := List.cons.inj hfs
      have hrest : (chunksFrom 1 before ++ Frame.end n c :: chunksFrom (before.length + 1) after).foldlM step
          { header := some (v, m) } = .ok st' ∧ st'.endSeen = some (n, c) := by
        rw [Nat.add_comm before.length]
        exact (run_open { header := some (v, m) } rfl rfl (Nat.zero_le _)).mpr ⟨before, after, rfl, hl, hst⟩
      exact ⟨Result.bind_ok.mpr ⟨_, step_header.mpr ⟨rfl, rfl⟩, hrest.1⟩, hrest.2⟩

theorem finish_ok {v : V} {m : M} {payload : Bytes} : st.finish = .ok (v, m, payload) ↔
    ∃ n c, st.endSeen = some (n, c) ∧ st.total = n ∧ st.crc.finish = c ∧ st.header = some (v, m) ∧ st.part = payload := by
  unfold finish
  constructor
  · intro h
    split at h
    · cases h
    · rename_i n c he
      split at h
      · cases h
      · rename_i ht
        split at h
        · cases h
        · rename_i hc
          split at h
          · cases h
          · rename_i hh
            obtain ⟨rfl, hm⟩ := Prod.mk.inj (Except.ok.inj h)
            obtain ⟨rfl, rfl⟩ := Prod.mk.inj hm
            exact ⟨n, c, he, not_not.mp ht, not_not.mp hc, hh, rfl⟩
  · intro ⟨n, c, he, ht, hc, hh, hp⟩
    simp [he, ht, hc, hh, hp]

end Receiver

/-! ## The handler -/

/-- A request that may send a snapshot, and the bytes of its body. -/
structure Sends (token : Option String) (req : SnapshotRequest) (bytes : Bytes) : Prop where
  authed : authed token req.authorization = .ok ()
  msgpack : isMsgpack req.contentType = true
  body : ∃ parts : List Bytes, req.body = parts.map .ok ∧ parts.flatten = bytes

variable [FrameCodec V M] {token : Option String} {req : SnapshotRequest} {v : V} {m : M} {bytes payload : Bytes}

theorem fullSnapshot_ok : Receiver.fullSnapshot token req = .ok (v, m, payload) ↔
    ∃ bytes before after left, Sends token req bytes ∧ Legal 0 (before ++ after) ∧ (before ++ after).flatten = payload ∧
      Parses bytes (transfer v m before after) left := by
  have hnil : (nextFrame [] : Except String (Option (Frame V M × Bytes))) = .ok none := rfl
  constructor
  · intro h
    unfold Receiver.fullSnapshot at h
    obtain ⟨_, ha, h⟩ := Result.bind_ok.mp h
    split at h
    · cases h
    · rename_i hm
      obtain ⟨⟨st, left⟩, hr, hf⟩ := Result.bind_ok.mp h
      obtain ⟨parts, hp⟩ := Receiver.receive_parts hr
      rw [hp, Receiver.receive_map parts hnil, List.nil_append] at hr
      obtain ⟨fs, hfs, hrun⟩ := Receiver.drain_ok.mp hr
      obtain ⟨n, c, he, ht, hc, hh, hpart⟩ := Receiver.finish_ok.mp hf
      obtain ⟨v', m', before, after, rfl, hl, rfl⟩ := Receiver.run_init.mp ⟨hrun, he⟩
      rw [Receiver.foldl_add] at ht hc hh hpart
      obtain ⟨rfl, rfl⟩ := Prod.mk.inj (Option.some.inj hh)
      refine ⟨parts.flatten, before, after, left, ⟨ha, not_not.mp hm, parts, hp, rfl⟩, hl, hpart, ?_⟩
      have hn : (before ++ after).flatten.length = n := (Nat.zero_add _).symm.trans ht
      have hcrc : crc32 (before ++ after).flatten = c := hc
      rw [transfer, hn, hcrc]
      exact hfs
  · intro ⟨bytes, before, after, left, ⟨ha, hm, parts, hp, hbytes⟩, hl, hpay, hparse⟩
    unfold Receiver.fullSnapshot
    have hr : ∃ st, Receiver.receive ({} : Receiver V M) [] req.body = .ok (st, left) ∧ st.finish = .ok (v, m, payload) := by
      rw [hp, Receiver.receive_map parts hnil, List.nil_append, hbytes]
      have hrun := (Receiver.run_init (n := (before ++ after).flatten.length) (c := crc32 (before ++ after).flatten)).mpr
        ⟨v, m, before, after, rfl, hl, rfl⟩
      refine ⟨_, Receiver.drain_ok.mpr ⟨_, hparse, hrun.1⟩, Receiver.finish_ok.mpr ⟨_, _, rfl, ?_⟩⟩
      rw [Receiver.foldl_add]
      exact ⟨Nat.zero_add _, rfl, rfl, hpay⟩
    obtain ⟨st, hr, hf⟩ := hr
    refine Result.bind_ok.mpr ⟨(), ha, ?_⟩
    rw [if_neg (not_not.mpr hm)]
    exact Result.bind_ok.mpr ⟨(st, left), hr, hf⟩

end Defing
