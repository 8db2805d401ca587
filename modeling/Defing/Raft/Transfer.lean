import Defing.Raft.Shape

/-!
# What a transfer delivers

The sender makes streams that the receiver takes, whatever the chunk size and
the reads of its file.
-/

namespace Defing

variable {V M : Type} [FrameCodec V M] {fs : List (Frame V M)} {left sent : Bytes} {datas frames : List Bytes}

/-! ## The sender -/

def Travels (f : Frame V M) (sent : Bytes) : Prop :=
  encodeFrame f = .ok sent ∧ ∀ rest fs left, Parses rest fs left → Parses (sent ++ rest) (f :: fs) left

theorem travels_of_length {f : Frame V M} {body : Bytes} (hs : FrameCodec.serialize f = .ok body)
    (hf : FrameCodec.fromSlice body = .ok f) (hlen : body.length ≤ maxFrameBytes) :
    Travels f (Bytes.be 4 body.length ++ body) := by
  have hmod : body.length % 2 ^ 32 = body.length := by
    refine Nat.mod_eq_of_lt (Nat.lt_of_le_of_lt hlen ?_)
    decide
  constructor
  · unfold encodeFrame
    simp only [hs, hmod]
  · intro rest fs left h
    exact .next hlen hf h

theorem chunk_travels (hc : FrameCodec.Lawful V M) {seq : Nat} {data : Bytes} (hseq : seq < 2 ^ 64)
    (h : data.length ≤ maxChunkBytes) : ∃ sent, Travels (.chunk seq data : Frame V M) sent := by
  obtain ⟨body, hs, hf⟩ := hc.round (.chunk seq data) ⟨hseq, Nat.lt_of_le_of_lt h (by decide)⟩
  exact ⟨_, travels_of_length hs hf (Nat.le_trans (hc.chunk seq data body hs) (Nat.add_le_add_right h 4096))⟩

theorem end_travels (hc : FrameCodec.Lawful V M) {n : Nat} (c : UInt32) (hn : n < 2 ^ 64) :
    ∃ sent, Travels (.end n c : Frame V M) sent := by
  obtain ⟨body, hs, hf⟩ := hc.round (.end n c) hn
  exact ⟨_, travels_of_length hs hf (Nat.le_trans (hc.end n c body hs) (by decide))⟩

omit [FrameCodec V M] in
theorem length_le_flatten (h : ∀ data ∈ datas, data ≠ []) : datas.length ≤ datas.flatten.length := by
  induction datas with
  | nil => exact Nat.le_refl 0
  | cons data datas ih =>
    obtain ⟨hd, h⟩ := List.forall_mem_cons.mp h
    have hpos := List.length_pos_iff.mpr hd
    have hle := ih h
    rw [List.length_cons, List.flatten_cons, List.length_append]
    omega

variable (V M) in
structure Cuts (e e' : FrameEmitter) (datas frames : List Bytes) : Prop where
  chunkSize : e'.chunkSize = e.chunkSize
  carry : datas.flatten ++ e'.carry = e.carry
  seq : e'.seq = e.seq + datas.length
  total : e'.total = e.total + datas.flatten.length
  crc : e'.crc = e.crc.update datas.flatten
  nonempty : ∀ data ∈ datas, data ≠ []
  chunk : ∀ data ∈ datas, data.length ≤ maxChunkBytes
  parses (rest : Bytes) (fs : List (Frame V M)) (left : Bytes) (h : Parses rest fs left) :
    Parses (frames.flatten ++ rest) (chunksFrom (e.seq + 1) datas ++ fs) left

theorem Cuts.nil (e : FrameEmitter) : Cuts V M e e [] [] where
  chunkSize := rfl
  carry := rfl
  seq := rfl
  total := rfl
  crc := rfl
  nonempty := by simp
  chunk := by simp
  parses _ _ _ h := h

theorem Cuts.cons {e e' : FrameEmitter} {n : Nat} (hn : 0 < n) (hmax : n ≤ maxChunkBytes) (hle : n ≤ e.carry.length)
    (ht : Travels (.chunk (e.seq + 1) (e.carry.take n) : Frame V M) sent) (h : Cuts V M (e.sent n) e' datas frames) :
    Cuts V M e e' (e.carry.take n :: datas) (sent :: frames) where
  chunkSize := h.chunkSize
  carry := by
    have hcarry : datas.flatten ++ e'.carry = e.carry.drop n := h.carry
    rw [List.flatten_cons, List.append_assoc, hcarry, List.take_append_drop]
  seq := by
    have hseq : e'.seq = e.seq + 1 + datas.length := h.seq
    rw [hseq, List.length_cons, Nat.add_comm datas.length, Nat.add_assoc]
  total := by
    have htotal : e'.total = e.total + (e.carry.take n).length + datas.flatten.length := h.total
    rw [htotal, List.flatten_cons, List.length_append, Nat.add_assoc]
  crc := by
    have hcrc : e'.crc = (e.crc.update (e.carry.take n)).update datas.flatten := h.crc
    rw [hcrc, List.flatten_cons, Crc32.update_append]
  nonempty := by
    refine List.forall_mem_cons.mpr ⟨?_, h.nonempty⟩
    intro hnil
    have hlen := congrArg List.length hnil
    rw [List.length_take, List.length_nil] at hlen
    omega
  chunk := by
    refine List.forall_mem_cons.mpr ⟨?_, h.chunk⟩
    rw [List.length_take]
    omega
  parses rest fs left hp := by
    rw [List.flatten_cons, List.append_assoc]
    exact ht.2 _ _ _ (h.parses rest fs left hp)

/-- Every chunk has some bytes, and all bytes together are within the limit. -/
structure Sendable (e : FrameEmitter) (more : Nat) : Prop where
  chunkSize : e.chunkSize ≤ maxChunkBytes
  seq : e.seq ≤ e.total
  total : e.total + e.carry.length + more ≤ maxSnapshotBytes

theorem Cuts.bounded {e e' : FrameEmitter} {more : Nat} (h : Cuts V M e e' datas frames) (hb : Sendable e more) :
    Sendable e' more where
  chunkSize := by
    rw [h.chunkSize]
    exact hb.chunkSize
  seq := by
    have hlen := length_le_flatten h.nonempty
    have hseq := hb.seq
    rw [h.seq, h.total]
    omega
  total := by
    have hlen := congrArg List.length h.carry
    have htotal := hb.total
    rw [List.length_append] at hlen
    rw [h.total]
    omega

theorem Sendable.seq_lt {e : FrameEmitter} {more : Nat} (h : Sendable e more) : e.seq + 1 < 2 ^ 64 := by
  have hmax : maxSnapshotBytes + 1 < 2 ^ 64 := by decide
  have hseq := h.seq
  have htotal := h.total
  omega

theorem cut_spec (hc : FrameCodec.Lawful V M) (e : FrameEmitter) {more : Nat} (hb : Sendable e more) :
    ∃ e' datas frames, e.cut V M = (e', frames, none) ∧ Cuts V M e e' datas frames ∧ e'.carry.length < e'.chunkSize := by
  induction h : e.carry.length using Nat.strong_induction_on generalizing e with
  | _ n ih =>
    by_cases hle : e.chunkSize ≤ e.carry.length
    · have hlen : (e.carry.take e.chunkSize).length ≤ maxChunkBytes := by
        have hmax := hb.chunkSize
        rw [List.length_take]
        omega
      obtain ⟨sent, ht⟩ := chunk_travels (V := V) (M := M) hc hb.seq_lt hlen
      have hpos := e.chunkSize_pos
      have hone : Cuts V M e (e.sent e.chunkSize) [e.carry.take e.chunkSize] [sent] := .cons hpos hb.chunkSize hle ht (.nil _)
      have hlt : (e.sent e.chunkSize).carry.length < n := by
        rw [FrameEmitter.sent, List.length_drop]
        omega
      obtain ⟨e', datas, frames, hcut, hcuts, hshort⟩ := ih _ hlt (e.sent e.chunkSize) (hone.bounded hb) rfl
      refine ⟨e', e.carry.take e.chunkSize :: datas, sent :: frames, ?_, .cons hpos hb.chunkSize hle ht hcuts, hshort⟩
      rw [FrameEmitter.cut, dif_pos hle, ht.1, hcut]
    · refine ⟨e, [], [], ?_, .nil e, Nat.not_le.mp hle⟩
      rw [FrameEmitter.cut, dif_neg hle]

theorem finish_spec (hc : FrameCodec.Lawful V M) (e : FrameEmitter) {more : Nat} (hb : Sendable e more)
    (hshort : e.carry.length < e.chunkSize) :
    ∃ datas sent : List Bytes, e.finish V M = sent.map .ok ∧ datas.flatten = e.carry ∧ (∀ data ∈ datas, data ≠ []) ∧
      (∀ data ∈ datas, data.length ≤ maxChunkBytes) ∧
      Parses sent.flatten (chunksFrom (e.seq + 1) datas ++
        [.end (e.total + datas.flatten.length) (e.crc.update datas.flatten).finish] : List (Frame V M)) [] := by
  have hdone : Parses [] ([] : List (Frame V M)) [] := .done rfl
  have htotal : e.total + e.carry.length < 2 ^ 64 := by
    have hmax : maxSnapshotBytes < 2 ^ 64 := by decide
    have htotal := hb.total
    omega
  have hmax : e.carry.length ≤ maxChunkBytes := Nat.le_of_lt (Nat.lt_of_lt_of_le hshort hb.chunkSize)
  by_cases hnil : e.carry = []
  · obtain ⟨last, hl⟩ := end_travels (V := V) (M := M) (n := e.total) hc e.crc.finish (by omega)
    refine ⟨[], [last], ?_, hnil.symm, by simp, by simp, ?_⟩
    · unfold FrameEmitter.finish
      rw [if_pos hnil]
      simp only [hl.1]
      rfl
    · rw [List.flatten_cons]
      exact hl.2 _ _ _ hdone
  · obtain ⟨sent, hs⟩ := chunk_travels (V := V) (M := M) hc hb.seq_lt hmax
    obtain ⟨last, hl⟩ := end_travels (V := V) (M := M) (n := (e.sent e.carry.length).total) hc
      (e.sent e.carry.length).crc.finish (by simpa [FrameEmitter.sent] using htotal)
    refine ⟨[e.carry], [sent, last], ?_, by simp, by simpa using hnil, by simpa using hmax, ?_⟩
    · unfold FrameEmitter.finish
      rw [if_neg hnil, hs.1]
      simp only [Except.map, hl.1]
      rfl
    · have hp := hs.2 _ _ _ (hl.2 _ _ _ hdone)
      simpa [FrameEmitter.sent, chunksFrom] using hp

theorem pump_spec (hc : FrameCodec.Lawful V M) (e : FrameEmitter) (reads : List Bytes)
    (hb : Sendable e reads.flatten.length) (hshort : e.carry.length < e.chunkSize) (hne : ∀ part ∈ reads, part ≠ []) :
    ∃ datas sent : List Bytes, e.pump V M (reads.map .ok) = sent.map .ok ∧ datas.flatten = e.carry ++ reads.flatten ∧
      (∀ data ∈ datas, data ≠ []) ∧ (∀ data ∈ datas, data.length ≤ maxChunkBytes) ∧
      Parses sent.flatten (chunksFrom (e.seq + 1) datas ++
        [.end (e.total + datas.flatten.length) (e.crc.update datas.flatten).finish] : List (Frame V M)) [] := by
  induction reads generalizing e with
  | nil =>
    rw [List.flatten_nil, List.append_nil]
    exact finish_spec hc e hb hshort
  | cons part reads ih =>
    obtain ⟨hpart, hne⟩ := List.forall_mem_cons.mp hne
    have htotal := hb.total
    rw [List.flatten_cons, List.length_append] at htotal
    have hb' : Sendable { e with carry := e.carry ++ part } reads.flatten.length := by
      refine ⟨hb.chunkSize, hb.seq, ?_⟩
      show e.total + (e.carry ++ part).length + reads.flatten.length ≤ maxSnapshotBytes
      rw [List.length_append]
      omega
    obtain ⟨e', datas, frames, hcut, hcuts, hshort'⟩ := cut_spec (V := V) (M := M) hc _ hb'
    have hcarry : datas.flatten ++ e'.carry = e.carry ++ part := hcuts.carry
    obtain ⟨datas', sent, hpump, hflat, hne', hmax', hp⟩ := ih e' (hcuts.bounded hb') hshort' hne
    refine ⟨datas ++ datas', frames ++ sent, ?_, ?_, ?_, ?_, ?_⟩
    · have hsmall : ¬ e.total + (e.carry ++ part).length > maxSnapshotBytes := by
        rw [List.length_append]
        omega
      rw [List.map_cons, FrameEmitter.pump, if_neg hpart]
      dsimp only
      rw [if_neg hsmall, hcut, List.map_append, ← hpump]
    · rw [List.flatten_append, hflat, ← List.append_assoc, hcarry, List.flatten_cons, List.append_assoc]
    · exact List.forall_mem_append.mpr ⟨hcuts.nonempty, hne'⟩
    · exact List.forall_mem_append.mpr ⟨hcuts.chunk, hmax'⟩
    · have hseq : e'.seq + 1 = e.seq + 1 + datas.length := by
        rw [hcuts.seq]
        exact Nat.add_right_comm ..
      have htot : e'.total + datas'.flatten.length = e.total + (datas ++ datas').flatten.length := by
        rw [hcuts.total, List.flatten_append, List.length_append, Nat.add_assoc]
      have hcrc : e'.crc.update datas'.flatten = e.crc.update (datas ++ datas').flatten := by
        rw [hcuts.crc, List.flatten_append, Crc32.update_append]
      rw [htot, hcrc, hseq] at hp
      rw [List.flatten_append, chunksFrom_append, List.append_assoc]
      exact hcuts.parses _ _ _ hp

end Defing
