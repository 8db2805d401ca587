import Mathlib.Logic.Equiv.List
import Defing.Core.Keys
import Defing.Raft.NodeKept

/-!
# Nodes that come back

A node that has lost its power in the middle of an installation repeats it at
the next start, and serves nothing in between. The snapshots it offers are never
without their files, and never of a state that a log does not make.
-/

namespace Defing

open Runs (Run Path)

section
variable {M : Type}

def registeredNext (registry : Option (SnapshotMeta M × SnapName)) : Nat := (registry.map fun reg => reg.1.next + 1).getD 0

variable [Inhabited M]

def Node.new : Node M where
  disk := { contents := .new, restoreBegin := none, restorePoison := false, registry := none, files := fun _ => none }
  power := .off
  poisoned := false
  current := none
  restore := none
  applying := none
  stopped := false
  builds := fun _ => none
  names := 0

variable [Rmp] [PairJson] [ApplyBytes] {log : CommittedLog M} {n : Node M}

abbrev NodeRun (log : CommittedLog M) : Node M → Prop := Run (NodeStep log.entries) (· = Node.new) (RegularStep log)

abbrev NodePath (log : CommittedLog M) : Node M → Node M → Prop := Path (NodeStep log.entries) (RegularStep log)

theorem nodeInv_new : NodeInv log (Node.new : Node M) := by
  have hheld : ∀ a, (Node.new : Node M).held a = none := fun a => by cases a <;> rfl
  exact {
    settled := fun _ _ => ⟨0, settledAt_after (Nat.zero_le _)⟩
    written := fun e he => by cases he
    guarded := fun hon => by cases hon
    poison := fun hc => by cases hc
    ahead := fun m hm => by cases hm
    restore := fun r hr => by cases hr
    registryOld := fun reg hreg => by cases hreg
    leftover := fun m reg hm => by cases hm
    builds := fun i b hb => by cases hb
    named := fun f hf => absurd rfl hf
    registryFile := fun reg hreg => by cases hreg
    markerFile := fun m hm => by cases hm
    heldFile := fun a p ha => by cases (hheld a).symm.trans ha
    apart := fun a b p q ha => by cases (hheld a).symm.trans ha
    registryApart := fun a p reg ha => by cases (hheld a).symm.trans ha
    markerApart := fun i p m ha => by cases (hheld (some i)).symm.trans ha
    deleted := fun f hd => by
      rcases hd with ⟨r, hr, -⟩ | ⟨i, m, g, hi⟩
      · cases hr
      · cases hi
    current := fun _ _ => .inl rfl
    unpowered := fun _ => rfl }

section
variable (hr : Rmp.Lawful) (hj : ∀ pairs, PairJson.Reads pairs)
include hr hj

theorem NodeRun.kept (h : NodeRun log n) : NodeInv log n :=
  Run.invariant h (fun _ hn => hn ▸ nodeInv_new) fun _ _ _ hn hs ha => hs.kept hr hj hn ha

end

/-! ## Starts that succeed -/

variable (log) in
/-- The batches of a payload that reads are written to the end. -/
theorem path_restored (batches : List (List Pair)) : ∀ {n : Node M} {r : Restore M} {first : Bool} {b : PayloadBatches},
    n.restore = some r → r.phase = .restoring first b → b.collect = .ok batches →
    ∃ t, NodePath log n ((n.setContents { n.disk.contents with table := t }).setPhase r .restored) := by
  induction batches with
  | nil =>
    intro n r first b hr hp hb
    have hnext : b.next = none := by
      cases hn : b.next with
      | none => rfl
      | some res =>
        cases res with
        | error e => rw [batches_error hn] at hb; cases hb
        | ok res =>
          rw [batches_ok hn, Result.map_ok] at hb
          obtain ⟨rest, -, hc⟩ := hb
          cases hc
    exact ⟨_, Path.single (.lastBatch hr hp hnext) trivial⟩
  | cons batch batches ih =>
    intro n r first b hr hp hb
    cases hn : b.next with
    | none => rw [batches_none hn] at hb; cases hb
    | some res =>
      cases res with
      | error e => rw [batches_error hn] at hb; cases hb
      | ok res =>
        obtain ⟨batch', b'⟩ := res
        rw [batches_ok hn, Result.map_ok] at hb
        obtain ⟨rest, hrest, hc⟩ := hb
        obtain ⟨rfl, rfl⟩ := List.cons.inj hc
        obtain ⟨t, ht⟩ := ih (n := (n.setContents { n.disk.contents with
          table := (StateMachine.restoreFrom n.disk.contents.table first [.ok batch']).2 }).setPhase r (.restoring false b'))
          rfl rfl hrest
        exact ⟨t, (Path.single (.batch hr hp hn) trivial).trans ht⟩

variable (log) in
/-- A restore goes through, if no write fails. -/
theorem path_unpoisoned {r : Restore M} {b : PayloadBatches} {batches : List (List Pair)}
    (hbuilds : ∀ i b, n.builds i = some b → b.commits = false) (hr : n.restore = some r) (hp : r.phase = .restoring true b)
    (hb : b.collect = .ok batches) :
    ∃ n', NodePath log n n' ∧ n'.restore = some { r with phase := .unpoisoned } ∧ n'.power = n.power ∧ n'.poisoned = false ∧
      n'.applying = n.applying ∧ n'.disk.contents.snapMeta = r.marker.snapMeta ∧
      n'.disk.registry = some (r.marker.snapMeta, r.marker.payload) := by
  obtain ⟨t, h₁⟩ := path_restored log batches hr hp hb
  have h₂ := h₁.tail (.putLastApplied rfl rfl) trivial
  have h₃ := h₂.tail (.putMembership rfl rfl) trivial
  have h₄ := h₃.tail (.readOld rfl rfl) trivial
  have h₅ := h₄.tail (.register rfl rfl) hbuilds
  have h₆ := h₅.tail (.deleteOld false rfl rfl) trivial
  have h₇ := h₆.tail (.clear rfl rfl) trivial
  exact ⟨_, h₇.tail (.unpoison rfl rfl) trivial, rfl, rfl, rfl, rfl, rfl, rfl⟩

/-- A node without power can be started: where it stands, or with the snapshot it was about to install. -/
theorem NodeInv.restarts (h : NodeInv log n) (hoff : n.power = .off) :
    ∃ n', NodePath log n n' ∧ n'.power = .on ∧ n'.poisoned = false ∧ n'.restore = none ∧ n'.applying = none ∧
      (n.disk.restoreBegin = none → n'.disk.contents = n.disk.contents) ∧
      ∀ m, n.disk.restoreBegin = some m → n'.disk.contents.snapMeta = m.snapMeta := by
  have hne : n.power ≠ .on := by simp [hoff]
  have hboot : NodePath log n (n.boot (fun _ => false) false) := Path.single (.boot _ _ hoff) trivial
  have h₁ := h.boot hoff (fun _ => false) false
  have happ : (n.boot (fun _ => false) false).applying = none := h.not_written hne
  cases hm : n.disk.restoreBegin with
  | none =>
    have hp : n.disk.restorePoison = false := by
      by_contra hc
      exact h.poison (Bool.eq_true_of_not_eq_false hc) hm
    exact ⟨_, hboot.tail (.noMarker rfl (h.off_restore hoff) hm) trivial, rfl, hp, h.off_restore hoff, happ, fun _ => rfl,
      fun m hc => (by cases hc)⟩
  | some m =>
    obtain ⟨bytes, hf, hd⟩ := h₁.markerFile m hm
    have ⟨k, target, _, _, hreads⟩ := hd
    obtain ⟨b, hb⟩ := hreads.opens (snapPath m.payload) 1
    obtain ⟨batches, hall, -⟩ := hreads.batches hb
    have hreplay := hboot.tail (.replay rfl (h.off_restore hoff) hm hf hb) trivial
    obtain ⟨n', hpath, hr, -, hp, ha, hmeta, -⟩ := path_unpoisoned log
      (n := { n.boot (fun _ => false) false with restore := some ⟨true, m, .restoring true b⟩ })
      (fun i b hi => by cases (h.no_builds hne i).symm.trans hi) rfl rfl hall
    refine ⟨_, (hreplay.trans hpath).tail (.recovered (fun _ => false) hr rfl rfl) trivial, rfl, hp, rfl, ha.trans happ,
      fun hc => (by cases hc), fun m' hm' => ?_⟩
    obtain rfl := Option.some.inj hm'
    exact hmeta

/-! ## Safety -/

section
variable (hr : Rmp.Lawful) (hj : ∀ pairs, PairJson.Reads pairs)
include hr hj

/-- What a node serves is what the log makes of it, also after any number of crashes inside installations and inside
their repetition at the start; and from wherever it lost its power it can start again. -/
theorem restart_safe (h : NodeRun log n) :
    (n.power = .on → n.unlocked → n.poisoned = false → (∀ r, n.restore = some r → r.phase ≠ .failed) →
      Settled log n.disk.contents ∧
        applyEntries n.disk.contents (log.entries.drop n.disk.contents.next) = log.after log.entries.length) ∧
    (∀ m, n.disk.restoreBegin = some m → (n.power = .on → n.poisoned = true ∨ n.restore.isSome) ∧
      n.disk.contents.next ≤ m.snapMeta.next ∧ ∃ bytes, n.disk.files m.payload = some bytes ∧ log.Delivers m.snapMeta bytes ∧
        ∀ path budget, ∃ batches, readPayloadBatches path bytes budget = .ok batches) ∧
    (n.disk.restorePoison = true → n.disk.restoreBegin.isSome) ∧
    (n.power = .off → ∃ n', NodePath log n n' ∧ n'.power = .on ∧ n'.poisoned = false ∧ n'.restore = none ∧
      Settled log n'.disk.contents ∧ (n.disk.restoreBegin = none → n'.disk.contents = n.disk.contents) ∧
      ∀ m, n.disk.restoreBegin = some m → n'.disk.contents.snapMeta = m.snapMeta) := by
  have hk := NodeRun.kept hr hj h
  refine ⟨fun hon hl hp hfail => ?_, fun m hm => ⟨fun hon => ?_, hk.ahead m hm, ?_⟩, fun hp => ?_, fun hoff => ?_⟩
  · obtain ⟨k, hs⟩ := hk.settled_unlocked hon hl hp hfail
    exact ⟨⟨k, hs⟩, hs.catchesUp⟩
  · rcases hk.guarded hon m hm with hp | ⟨r, hr', -⟩
    · exact .inl hp
    · exact .inr (by rw [hr']; rfl)
  · obtain ⟨bytes, hf, hd⟩ := hk.markerFile m hm
    have ⟨k, target, _, _, hreads⟩ := hd
    exact ⟨bytes, hf, hd, hreads.opens⟩
  · exact Option.isSome_iff_ne_none.mpr (hk.poison hp)
  · obtain ⟨n', hpath, hon, hp, hr', ha, hsame, hmeta⟩ := hk.restarts hoff
    have hk' := NodeRun.kept hr hj (Run.append h hpath)
    refine ⟨n', hpath, hon, hp, hr', ?_, hsame, hmeta⟩
    refine hk'.settled_unlocked hon ⟨ha, fun r hc => ?_⟩ hp fun r hc => ?_
    · cases hr'.symm.trans hc
    · cases hr'.symm.trans hc

end

end

/-! ## An installation that is cut off -/

section

def pairNats (p : Pair) : List ℕ × List ℕ := (p.1.map UInt8.toNat, p.2.map UInt8.toNat)

def natsPair (p : List ℕ × List ℕ) : Pair := (p.1.map UInt8.ofNat, p.2.map UInt8.ofNat)

theorem natsPair_pairNats (p : Pair) : natsPair (pairNats p) = p := by
  simp [natsPair, pairNats, Function.comp_def]

def hashText (hash : String) : Bytes := ("\"" ++ hash ++ "\"").toUTF8.toList

def sessionText (tokenHash : String) : Bytes :=
  ("\x7b\"token_hash\":\"" ++ tokenHash ++ "\",\"issued_at\":0,\"expires_at\":null,\"device_id\":\"cli\"," ++
    "\"principal\":\x7b\"kind\":\"Admin\"\x7d\x7d").toUTF8.toList

def accountPairs : List Pair :=
  [(kAdminPw.toUTF8.toList, hashText "h"), ((sessionKeyWith "s").toUTF8.toList, sessionText "t")]

def accountText : Bytes := sampleArray (accountPairs.map fun p => sampleArray [sampleText p.1, sampleText p.2])

/-- The text of the dump, and of other lists texts that are as long as tells them apart. -/
@[reducible] def tallyJson : PairJson where
  toVec pairs :=
    if pairs = accountPairs then accountText else 0x5B :: List.replicate (Encodable.encode (pairs.map pairNats)) 0x20
  fromReader r :=
    if r = accountText then .ok accountPairs
    else ((Encodable.decode (r.length - 1)).map (List.map natsPair)).elim (.error "expected value") .ok

attribute [local instance] sampleRmp tallyJson

theorem tallyJson_reads (pairs : List Pair) : PairJson.Reads pairs := by
  by_cases hne : pairs = accountPairs
  · exact ⟨by simp only [PairJson.toVec, if_pos hne]; rfl, by simp only [PairJson.toVec, PairJson.fromReader, hne, if_true]⟩
  · have hother : ∀ k, (0x5B : UInt8) :: List.replicate k 0x20 ≠ accountText := fun k hk => by
      have hmem : (0x5D : UInt8) ∈ List.replicate k 0x20 := by
        rw [(List.cons.inj hk).2]
        exact List.mem_append_right _ (List.mem_singleton_self _)
      exact absurd (List.eq_of_mem_replicate hmem) (by decide)
    refine ⟨by simp [PairJson.toVec, hne], ?_⟩
    simp only [PairJson.toVec, PairJson.fromReader, if_neg hne, if_neg (hother _), List.length_cons, List.length_replicate,
      Nat.add_sub_cancel, Encodable.encodek, Option.map_some, Option.elim_some, List.map_map]
    rw [show natsPair ∘ pairNats = id from funext natsPair_pairNats, List.map_id]

@[reducible] def accountApply : ApplyBytes where
  apply cmd _ t :=
    match cmd with
    | .adminSetPassword hash => t.insert kAdminPw.toUTF8.toList (hashText hash)
    | .multiSessionLogin tokenHash 0 none sid => t.insert (sessionKeyWith sid).toUTF8.toList (sessionText tokenHash)
    | _ => t

attribute [local instance] accountApply

def accountEntries : List (LogEntry (EntryPayload Unit)) := [
  ⟨⟨⟨1, 1⟩, 0⟩, .blank⟩,
  ⟨⟨⟨1, 1⟩, 1⟩, .normal (.adminSetPassword "h")⟩,
  ⟨⟨⟨1, 1⟩, 2⟩, .normal (.multiSessionLogin "t" 0 none "s")⟩]

def accountCommitted : CommittedLog Unit where
  entries := accountEntries
  index k e he := by
    have hall : ∀ k : Fin 3, accountEntries[k].logId.index.val = k := by decide
    obtain ⟨hk, rfl⟩ := List.getElem?_eq_some_iff.mp he
    exact hall ⟨k, hk⟩
  ordered j k e e' he he' hjk := by
    have hall : ∀ j k : Fin 3, j < k → accountEntries[j].logId.Before accountEntries[k].logId := by decide
    obtain ⟨hj, rfl⟩ := List.getElem?_eq_some_iff.mp he
    obtain ⟨hk, rfl⟩ := List.getElem?_eq_some_iff.mp he'
    exact hall ⟨j, hj⟩ ⟨k, hk⟩ hjk

def accountMarker : RestoreBegin Unit := ⟨⟨some ⟨⟨1, 1⟩, 2⟩, ⟨none, ()⟩⟩, 0⟩

theorem account_read : readPayloadPairs accountText = .ok accountPairs := by
  have h := readPayloadPairs_json (tallyJson_reads accountPairs)
  simp only [writePayloadV1, PairJson.toVec, if_true] at h
  exact h

theorem delivers_account : accountCommitted.Delivers accountMarker.snapMeta accountText :=
  ⟨3, accountCommitted.after 3, settledAt_after (Nat.le_refl 3), rfl, accountPairs, account_read, rfl⟩

theorem account_batches : (⟨.whole accountPairs, 1⟩ : PayloadBatches).next =
      some (.ok (accountPairs.take 1, ⟨.whole (accountPairs.drop 1), 1⟩)) ∧
    (⟨.whole (accountPairs.drop 1), 1⟩ : PayloadBatches).next = some (.ok (accountPairs.drop 1, ⟨.whole [], 1⟩)) := by
  have hfirst : takeBatch 1 0 accountPairs = (accountPairs.take 1, accountPairs.drop 1) := by decide +kernel
  have hsecond : takeBatch 1 0 (accountPairs.drop 1) = (accountPairs.drop 1, []) := by decide +kernel
  have hne : accountPairs.take 1 ≠ [] ∧ accountPairs.drop 1 ≠ [] := by decide +kernel
  constructor
  · simp only [PayloadBatches.next, hfirst, if_neg hne.1]
  · simp only [PayloadBatches.next, hsecond, if_neg hne.2]

/-- An installation of two batches, of which one is written. -/
theorem path_half :
    ∃ n : Node Unit, NodeRun accountCommitted n ∧ n.disk.restoreBegin = some accountMarker ∧ n.applying = none ∧
      n.builds = (fun _ => none) ∧ n.restore = some ⟨false, accountMarker, .restoring false ⟨.whole (accountPairs.drop 1), 1⟩⟩ ∧
      n.disk.files accountMarker.payload = some accountText ∧ n.disk.contents.table.toList = accountPairs.take 1 := by
  have hmagic : ¬ hasMagic accountText := by decide +kernel
  have hb : readPayloadBatches (snapPath 0) accountText 1 = .ok ⟨.whole accountPairs, 1⟩ := by
    rw [readPayloadBatches, if_neg hmagic, account_read]
    rfl
  have hhalf : (StateMachine.restoreFrom ∅ true [.ok (accountPairs.take 1)]).2.toList = accountPairs.take 1 := by
    decide +kernel
  have h₁ : NodeRun accountCommitted _ := .step (.start rfl) (.boot (fun _ => false) false rfl) trivial
  have h₂ := Run.step h₁ (.noMarker rfl rfl rfl) trivial
  have h₃ := Run.step h₂ (.copy ⟨rfl, rfl, rfl, rfl⟩ rfl hb) ⟨delivers_account, Nat.zero_le _⟩
  have h₄ := Run.step h₃ (.begin rfl rfl) trivial
  exact ⟨_, .step h₄ (.batch rfl rfl account_batches.1) trivial, rfl, rfl, rfl, rfl, rfl,
    hhalf⟩

/-- The power is lost between the two batches; the next start writes both. -/
theorem restart_safe_sample :
    ∃ n : Node Unit, NodeRun accountCommitted n ∧ n.disk.restoreBegin = some accountMarker ∧
      n.disk.contents.table.toList = accountPairs.take 1 ∧ ∃ n', NodePath accountCommitted n n' ∧
        n'.power = .on ∧ Settled accountCommitted n'.disk.contents ∧ n'.disk.contents.snapMeta = accountMarker.snapMeta := by
  obtain ⟨n, hn, hm, ha, -, -, -, hhalf⟩ := path_half
  have hcut : NodeRun accountCommitted n.lostPower := .step hn .cut fun e he => by cases ha.symm.trans he
  obtain ⟨n', hpath, hon, -, -, hsettled, -, hmeta⟩ := (restart_safe sampleRmp_lawful tallyJson_reads hcut).2.2.2 rfl
  exact ⟨_, hcut, hm, hhalf, n', hpath, hon, hsettled, hmeta _ hm⟩

end

/-! ## The snapshots that are offered -/

section
variable {M : Type} [Inhabited M] [Rmp] [PairJson] [ApplyBytes] {log : CommittedLog M} {n : Node M}

omit [Rmp] [PairJson] [ApplyBytes] [Inhabited M] in
theorem registeredNext_le {registry : Option (SnapshotMeta M × SnapName)} {reg : SnapshotMeta M × SnapName}
    (h : ∀ reg', registry = some reg' → reg'.1.next ≤ reg.1.next) : registeredNext registry ≤ registeredNext (some reg) := by
  unfold registeredNext
  cases hreg : registry with
  | none => simp
  | some reg' => simpa using h reg' hreg

/-- No step registers a snapshot that goes less far, and none is lost at a start. -/
theorem NodeInv.registeredNext_le {event : NodeEvent M} {n' : Node M} (h : NodeInv log n)
    (hs : NodeStep log.entries n event n') : registeredNext n.disk.registry ≤ registeredNext n'.disk.registry := by
  cases hs with
  | @register r old hr hp =>
    refine Defing.registeredNext_le fun reg hreg => ?_
    obtain ⟨k, target, -, hsame, hreach⟩ := (h.restore r hr).1.reaches
    rw [hp] at hreach
    have hc : n.disk.contents = target := hreach
    have hnext : n.disk.contents.next = r.marker.snapMeta.next := by
      rw [Contents.next, SnapshotMeta.next, ← hsame, hc]
      rfl
    exact hnext ▸ h.registryOld reg hreg
  | @buildRegister i m f old hi =>
    obtain ⟨-, hnewer, -⟩ := (h.builds i _ hi).2
    exact Defing.registeredNext_le fun reg hreg => Nat.le_of_lt (hnewer reg hreg)
  | boot swept healed hoff => exact Nat.le_of_eq (congrArg registeredNext (h.resetRegistry swept healed).symm)
  | _ => exact Nat.le_refl _

theorem NodeInv.getCurrentSnapshot (h : NodeInv log n) (hf : ¬ n.finishes) :
    n.getCurrentSnapshot = if n.poisoned then none else n.disk.registry := by
  unfold Node.getCurrentSnapshot
  by_cases hp : n.poisoned = true
  · simp [hp]
  · have hkept : (n.disk.registry.filter fun r => (n.disk.files r.2).isSome) = n.disk.registry := by
      cases hreg : n.disk.registry with
      | none => rfl
      | some reg =>
        obtain ⟨bytes, hb, -⟩ := h.registryFile reg hreg
        simp [Option.filter_some, hb]
    rw [if_neg hp, if_neg hp, hkept]
    rcases h.current (Bool.eq_false_of_not_eq_true hp) hf with hc | hc
    · rw [hc, Option.none_or]
    · rw [hc, Option.or_self]

section
variable (hr : Rmp.Lawful) (hj : ∀ pairs, PairJson.Reads pairs)
include hr hj

/-- A node offers the snapshot it has registered, or none while it is poisoned; its payload is there, of a state that
the log makes and the node has reached, and from then on no snapshot is registered that goes less far. -/
theorem snapshots_sound (h : NodeRun log n) :
    (∀ reg, n.disk.registry = some reg → log.Stored n.disk.files reg ∧ reg.1.next ≤ n.disk.contents.next) ∧
    (∀ a p, n.held a = some p → log.Stored n.disk.files p) ∧
    (¬ n.finishes → n.getCurrentSnapshot = if n.poisoned then none else n.disk.registry) ∧
    ∀ n', NodePath log n n' → registeredNext n.disk.registry ≤ registeredNext n'.disk.registry := by
  have hk := NodeRun.kept hr hj h
  refine ⟨fun reg hreg => ⟨hk.registryFile reg hreg, hk.registryOld reg hreg⟩, hk.heldFile, hk.getCurrentSnapshot,
    fun n' hpath => ?_⟩
  exact Path.grows (f := fun n : Node M => registeredNext n.disk.registry) hpath hk
    fun _ _ _ hs hstep ha => ⟨hstep.kept hr hj hs ha, hs.registeredNext_le hstep⟩

end

end

section
attribute [local instance] sampleRmp tallyJson accountApply

theorem path_registered :
    ∃ n : Node Unit, NodeRun accountCommitted n ∧ n.disk.registry = some (accountMarker.snapMeta, accountMarker.payload) ∧
      n.disk.files accountMarker.payload = some accountText := by
  obtain ⟨n, hn, -, -, hb, hr, hf, -⟩ := path_half
  have h₀ := Run.step hn (.batch hr rfl account_batches.2) trivial
  have h₁ := Run.step h₀ (.lastBatch rfl rfl rfl) trivial
  have h₂ := Run.step h₁ (.putLastApplied rfl rfl) trivial
  have h₃ := Run.step h₂ (.putMembership rfl rfl) trivial
  have h₄ := Run.step h₃ (.readOld rfl rfl) trivial
  have h₅ := Run.step h₄ (.register rfl rfl) fun i b hi => by cases (congrFun hb i).symm.trans hi
  exact ⟨_, h₅, rfl, hf⟩

/-- The snapshot of an installation whose payload comes in two batches. -/
theorem snapshots_sound_sample :
    ∃ n : Node Unit, NodeRun accountCommitted n ∧ n.disk.registry = some (accountMarker.snapMeta, accountMarker.payload) ∧
      accountCommitted.Stored n.disk.files (accountMarker.snapMeta, accountMarker.payload) ∧
      accountMarker.snapMeta.next ≤ n.disk.contents.next := by
  obtain ⟨n, hn, hreg, -⟩ := path_registered
  exact ⟨n, hn, hreg, (snapshots_sound sampleRmp_lawful tallyJson_reads hn).1 _ hreg⟩

end

end Defing
