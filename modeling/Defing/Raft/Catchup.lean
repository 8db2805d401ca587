import Defing.Raft.Delivery
import Defing.Raft.Recovery

/-!
# Nodes that catch up

A snapshot goes from the file of one node, through the frames of a stream, into
the state of another.
-/

namespace Defing

open Runs (Run Path)

section
variable {M : Type} [Inhabited M] [Rmp] [PairJson] [ApplyBytes] {log : CommittedLog M} {n : Node M}

omit [Inhabited M] [ApplyBytes] in
theorem verifyPayloadFile_of_read {file : Bytes} {pairs : List Pair} (h : readPayloadPairs file = .ok pairs) (path : String) :
    verifyPayloadFile path file = .ok () := by
  by_cases hm : hasMagic file
  · by_cases hl : (file.take payloadHeaderLen).length < payloadHeaderLen
    · simp only [readPayloadPairs, if_pos hm, if_pos hl] at h
      cases h
    · cases hd : decodePayloadHeader (file.take payloadHeaderLen) with
      | error e =>
        simp only [readPayloadPairs, if_pos hm, if_neg hl, hd] at h
        cases h
      | ok res =>
        obtain ⟨version, flags, totalLen, crc⟩ := res
        rw [readPayloadPairs_eq hm hl hd] at h
        by_cases hf : flags ≠ 0
        · rw [if_pos hf] at h
          cases h
        · simp only [if_neg hf, Result.bind_ok] at h
          obtain ⟨pairs', hbody, u, hc, -⟩ := h
          have hv : ¬ (version ≠ payloadVersionJson ∧ version ≠ payloadVersionMsgpack) := by
            intro hv
            rw [readPayloadBody, if_neg hv.1, if_neg hv.2] at hbody
            cases hbody
          rw [verifyPayloadFile, if_neg (not_not.mpr hm), if_neg hl, hd]
          refine (if_neg hv).trans ?_
          rw [hc]
          rfl
  · rw [verifyPayloadFile, if_pos hm]

/-- An installation goes through, if no write fails and no build finishes beside it. -/
theorem path_installed {m : SnapshotMeta M} {bytes : Bytes} (hready : n.ready)
    (hbuilds : ∀ i b, n.builds i = some b → b.commits = false) (hd : log.Delivers m bytes) :
    ∃ n₁ n₂, NodeStep log.entries n (.install m bytes) n₁ ∧ NodePath log n₁ n₂ ∧ n₂.power = .on ∧ n₂.poisoned = false ∧
      n₂.restore = none ∧ n₂.applying = none ∧ n₂.disk.contents.snapMeta = m ∧ n₂.current = some (m, n.names) := by
  have ⟨k, c, _, _, hreads⟩ := hd
  obtain ⟨b, hb⟩ := hreads.opens (snapPath n.names) 1
  obtain ⟨batches, hall, -⟩ := hreads.batches hb
  have ⟨pairs, hpairs, _⟩ := hreads
  let r : Restore M := ⟨false, ⟨m, n.names⟩, .copied b⟩
  let n₁ : Node M := { n.addFile bytes with restore := some r }
  have hcopied : NodeStep log.entries n (.install m bytes) n₁ := .copy hready (verifyPayloadFile_of_read hpairs _) hb
  have hbegun : NodePath log n₁ _ := Path.single (.begin (r := r) rfl rfl) trivial
  obtain ⟨n₂, h₂, hr₂, hpow, hp, happ, hmeta, -⟩ := path_unpoisoned log
    (n := { n₁.setPhase r (.restoring true b) with disk := { n₁.disk with restoreBegin := some r.marker } })
    hbuilds rfl rfl hall
  exact ⟨_, _, hcopied, (hbegun.trans h₂).tail (.installed hr₂ rfl rfl) trivial, hpow.trans hready.1, hp, rfl,
    happ.trans hready.2.2.1, hmeta, rfl⟩

variable {V K : Type} [FrameCodec V K]

omit [Rmp] [PairJson] [ApplyBytes] in
theorem stream_taken (hc : FrameCodec.Lawful V K) {vote : V} {metadata : K} (chunkSize : Nat) {reads : List Bytes}
    {header : Bytes} (hh : FrameCodec.serialize (.header vote metadata) = .ok header) (hmax : header.length ≤ maxFrameBytes)
    (hne : ∀ part ∈ reads, part ≠ []) (htotal : reads.flatten.length ≤ maxSnapshotBytes) :
    ∃ (e : FrameEmitter) (sent : List Bytes), FrameEmitter.open vote metadata chunkSize = .ok e ∧
      e.stream V K (reads.map .ok) = sent.map .ok ∧ ∀ token req, Sends token req sent.flatten →
        Receiver.fullSnapshot token req = .ok (vote, metadata, reads.flatten) := by
  have hlen : header.length < 2 ^ 32 := Nat.lt_of_le_of_lt hmax (by decide)
  obtain ⟨e, sent, datas, hopen, hstream, hl, hdata, hp⟩ := stream_spec hc chunkSize hh hlen hne htotal
  refine ⟨e, _, hopen, hstream, fun token req hs => (fullSnapshot_iff hs).mpr (.inl ⟨datas, hl, hdata, ?_⟩)⟩
  obtain ⟨body, hser, hread⟩ := hc.round (.header vote metadata) trivial
  obtain rfl := Except.ok.inj (hh.symm.trans hser)
  rw [transfer_nil, List.flatten_cons]
  exact .next hmax hread hp

/-- The snapshot that one node has registered, streamed in any chunks and cut in any way underway, is taken whole. Another
node of the log, not past it, can install it, and then holds and offers what the log makes up to there. -/
theorem snapshot_replicated (snapMeta : K → SnapshotMeta M) (hr : Rmp.Lawful) (hj : ∀ pairs, PairJson.Reads pairs)
    (hc : FrameCodec.Lawful V K) (h : NodeRun log n) {reg : SnapshotMeta M × SnapName} {reads : List Bytes}
    (hreg : n.disk.registry = some reg) (hf : n.disk.files reg.2 = some reads.flatten) (hne : ∀ part ∈ reads, part ≠ [])
    (htotal : reads.flatten.length ≤ maxSnapshotBytes) (vote : V) (metadata : K) (hmeta : snapMeta metadata = reg.1)
    {header : Bytes} (hh : FrameCodec.serialize (.header vote metadata) = .ok header) (hmax : header.length ≤ maxFrameBytes)
    (chunkSize : Nat) :
    ∃ (e : FrameEmitter) (sent : List Bytes), FrameEmitter.open vote metadata chunkSize = .ok e ∧
      e.stream V K (reads.map .ok) = sent.map .ok ∧ ∀ token req, Sends token req sent.flatten →
        Receiver.fullSnapshot token req = .ok (vote, metadata, reads.flatten) ∧
          ∀ n' : Node M, NodeRun log n' → n'.ready → (∀ i b, n'.builds i = some b → b.commits = false) →
            n'.disk.contents.next ≤ reg.1.next →
              ∃ n₁ n₂, NodeStep log.entries n' (.install (snapMeta metadata) reads.flatten) n₁ ∧ NodePath log n₁ n₂ ∧
                Settled log n₂.disk.contents ∧ n₂.disk.contents.snapMeta = reg.1 ∧
                  n₂.getCurrentSnapshot = some (reg.1, n'.names) ∧
                    applyEntries n₂.disk.contents (log.entries.drop reg.1.next) = log.after log.entries.length := by
  obtain ⟨bytes, hf', hd⟩ := (NodeRun.kept hr hj h).registryFile reg hreg
  obtain rfl : bytes = reads.flatten := Option.some.inj (hf'.symm.trans hf)
  obtain ⟨e, sent, hopen, hstream, htaken⟩ := stream_taken hc chunkSize hh hmax hne htotal
  refine ⟨e, sent, hopen, hstream, fun token req hs => ⟨htaken token req hs, fun n' hn' hready hbuilds hle => ?_⟩⟩
  obtain ⟨n₁, n₂, hstep, hpath, hon, hp, hr₂, happ, hsame, hcur⟩ := path_installed hready hbuilds hd
  have hk := NodeRun.kept hr hj (Run.append (.step hn' hstep ⟨hd, hle⟩) hpath)
  have hidle : ∀ r, n₂.restore ≠ some r := fun r hr => by cases hr₂.symm.trans hr
  obtain ⟨k, hs⟩ := hk.settled_unlocked hon ⟨happ, fun r hr => absurd hr (hidle r)⟩ hp fun r hr => absurd hr (hidle r)
  have hnext : nextIndex n₂.disk.contents.lastApplied = reg.1.next := by
    rw [← hsame]
    rfl
  refine ⟨n₁, n₂, hmeta ▸ hstep, hpath, ⟨k, hs⟩, hsame, ?_, hnext ▸ hs.catchesUp⟩
  rw [Node.getCurrentSnapshot, hp, hcur]
  rfl

end

/-! ## Two reads -/

section
attribute [local instance] sampleRmp tallyJson accountApply sampleFrames

/-- The dump of two rows, read in two pieces, reaches a node that has just started. -/
theorem snapshot_replicated_sample :
    ∃ (e : FrameEmitter) (sent : List Bytes), FrameEmitter.open () () 2 = .ok e ∧
      e.stream Unit Unit [.ok (accountText.take 1), .ok (accountText.drop 1)] = sent.map .ok ∧
        ∀ req, Sends (some "t") req sent.flatten → Receiver.fullSnapshot (some "t") req = .ok ((), (), accountText) ∧
          ∃ n : Node Unit, NodeRun accountCommitted n ∧ n.disk.contents.snapMeta = accountMarker.snapMeta := by
  obtain ⟨n, hn, hreg, hf⟩ := path_registered
  have hflat : [accountText.take 1, accountText.drop 1].flatten = accountText := by
    rw [List.flatten_cons, List.flatten_singleton, List.take_append_drop]
  have hne : ∀ part ∈ [accountText.take 1, accountText.drop 1], part ≠ [] := by decide +kernel
  have htotal : [accountText.take 1, accountText.drop 1].flatten.length ≤ maxSnapshotBytes := by decide +kernel
  have hfile : n.disk.files accountMarker.payload = some [accountText.take 1, accountText.drop 1].flatten := by rw [hf, hflat]
  obtain ⟨e, sent, hopen, hstream, htaken⟩ := snapshot_replicated (fun _ : Unit => accountMarker.snapMeta) sampleRmp_lawful
    tallyJson_reads sampleFrames_lawful hn hreg hfile hne htotal () () rfl
    (rfl : FrameCodec.serialize (.header () () : Frame Unit Unit) = .ok sampleHeader) (by decide) 2
  refine ⟨e, sent, hopen, hstream, fun req hs => ?_⟩
  obtain ⟨htaken, hinstall⟩ := htaken _ req hs
  rw [hflat] at htaken
  have h₁ : NodeRun accountCommitted _ := .step (.start rfl) (.boot (fun _ => false) false rfl) trivial
  have h₂ := Run.step h₁ (.noMarker rfl rfl rfl) trivial
  obtain ⟨n₁, n₂, hstep, hpath, -, hsame, -⟩ := hinstall _ h₂ ⟨rfl, rfl, rfl, rfl⟩ (fun i b hb => by cases hb) (Nat.zero_le _)
  have hdelivers := delivers_account
  rw [← hflat] at hdelivers
  exact ⟨htaken, n₂, Run.append (.step h₂ hstep ⟨hdelivers, Nat.zero_le _⟩) hpath, hsame⟩

end

end Defing
