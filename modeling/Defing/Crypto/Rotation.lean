import Defing.Crypto.Lifecycle

/-!
# Rotation of the master key

The ring is saved before it is switched, in place. A node that starts puts the
key of its key file before what it reads of the ring file, and goes on with
this key alone if the file cannot be read.
-/

namespace Defing

section
variable [Aead] [Base64]

/-! ## The two rotations -/

/-- `rotate_master_key` of a single node, as far as the ring file: a key that the ring has is no new one. -/
def rotateMasterKey (ring : KeyRing) (kek : Kek) : Option Kek := if kek ∈ ring.entries then none else some kek

def wrapMasterKey (kek newKek : Kek) (nonce : Nonce) : Except Fault Bytes := do
  let ct ← aeadEncrypt kek.1 nonce.1 newKek.1
  .ok (nonce.1 ++ ct)

def unwrapMasterKey (kek : Kek) (enc : Bytes) : Except Fault Kek :=
  if enc.length < 13 then .error (.err "wrap_master_key: payload too short")
  else do
    let plain ← aeadDecrypt kek.1 (enc.take 12) (enc.drop 12)
    if h : plain.length = 32 then .ok ⟨plain, h⟩ else .error (.err "wrap_master_key: bad plaintext length")

/-- The new key in the clear; commands of old logs have it so, in others it is unwrapped, newest key first. -/
def plainKek (ring : KeyRing) (kek kekEnc : Bytes) : Option Bytes :=
  if kekEnc ≠ [] then ring.entries.reverse.findSome? fun k => (unwrapMasterKey k kekEnc).toOption.map (·.1) else some kek

def clusterRotationHook (ring : KeyRing) (kek kekEnc : Bytes) : Option Kek :=
  match plainKek ring kek kekEnc with
  | none => none
  | some plain => if h : plain.length = 32 then rotateMasterKey ring ⟨plain, h⟩ else none

omit [Aead] [Base64] in
theorem rotateMasterKey_eq_some {ring : KeyRing} {kek new : Kek} :
    rotateMasterKey ring kek = some new ↔ kek = new ∧ new ∉ ring.entries := by
  unfold rotateMasterKey
  split
  · rename_i hmem
    constructor
    · intro h
      cases h
    · intro ⟨e, hout⟩
      exact absurd (e ▸ hmem) hout
  · rename_i hout
    constructor
    · intro h
      obtain rfl := Option.some.inj h
      exact ⟨rfl, hout⟩
    · intro ⟨e, _⟩
      rw [e]

omit [Base64] in
/-- Only what the ring does not have is added. -/
theorem clusterRotationHook_new {ring : KeyRing} {kek kekEnc : Bytes} {new : Kek}
    (h : clusterRotationHook ring kek kekEnc = some new) : new ∉ ring.entries := by
  unfold clusterRotationHook at h
  split at h
  · cases h
  · split at h
    · exact (rotateMasterKey_eq_some.mp h).2
    · cases h

end

/-! ## Start-up -/

section
variable [Base64] [RingJson]

/-- The ring that `main` starts with; a ring file that does not load counts as an empty one. -/
def startRing (k : Kek) (file : Option Bytes) : KeyRing :=
  let ringEntries := match loadRing file with
    | .ok entries => entries
    | .error _ => []
  .fromEntries (k :: ringEntries.filter (· ≠ k))

/-- What a save of the ring leaves when it is interrupted: the file as it was, or a beginning of what was to be written. -/
inductive Left (old : Option Bytes) (new : Bytes) : Option Bytes → Prop
  | untouched : Left old new old
  | cut (n : Nat) : Left old new (some (new.take n))

def KeyRing.Begins (ring : KeyRing) (k : Kek) : Prop := ∃ rest, ring.entries = k :: rest ∧ k ∉ rest

omit [Base64] [RingJson] in
theorem KeyRing.Begins.push {ring : KeyRing} {k kek : Kek} (h : ring.Begins k) (hnew : kek ∉ ring.entries) :
    (ring.push kek).Begins k := by
  obtain ⟨rest, hring, hk⟩ := h
  refine ⟨rest ++ [kek], by rw [KeyRing.push, hring, List.cons_append], ?_⟩
  intro hmem
  rcases List.mem_append.mp hmem with hmem | hmem
  · exact hk hmem
  · obtain rfl := List.mem_singleton.mp hmem
    exact hnew (by rw [hring]; exact List.mem_cons_self ..)

omit [Base64] [RingJson] in
theorem KeyRing.Begins.generation_eq {ring : KeyRing} {k : Kek} (h : ring.Begins k) : ring.generation = 1 ↔ ring = .new k := by
  obtain ⟨rest, hring, _⟩ := h
  obtain ⟨entries⟩ := ring
  obtain rfl : entries = k :: rest := hring
  constructor
  · intro hlen
    have hrest : rest = [] := List.length_eq_zero_iff.mp (Nat.add_eq_right.mp hlen)
    rw [hrest]
    rfl
  · intro h
    rw [h]
    rfl

omit [Base64] [RingJson] in
theorem KeyRing.push_ne (ring : KeyRing) (kek : Kek) : ring.push kek ≠ ring := by
  intro h
  have hlen := congrArg KeyRing.generation h
  simp [KeyRing.generation, KeyRing.push] at hlen

theorem startRing_none (k : Kek) : startRing k none = .new k := rfl

theorem startRing_saveRing (hb : Base64.Lawful) (hj : RingJson.Lawful) {ring : KeyRing} {k : Kek} (h : ring.Begins k) :
    startRing k (some (saveRing ring)) = ring := by
  obtain ⟨rest, hring, hk⟩ := h
  have hrest : rest.filter (· ≠ k) = rest := by
    refine List.filter_eq_self.mpr fun a ha => ?_
    have : a ≠ k := fun e => hk (e ▸ ha)
    simpa using this
  unfold startRing
  rw [loadRing_saveRing hb hj]
  simp only
  rw [hring, List.filter_cons_of_neg (by simp), hrest, KeyRing.fromEntries, ← hring]

theorem startRing_cut (hj : RingJson.Lawful) {ring : KeyRing} {n : Nat} (k : Kek) (h : n < (saveRing ring).length) :
    startRing k (some ((saveRing ring).take n)) = .new k := by
  have hraw : saveRing ring = RingJson.toVec ((ring.entries.map (·.1)).map Base64.encode) := by
    rw [List.map_map]
    rfl
  rw [hraw] at h ⊢
  obtain ⟨e, he⟩ := hj.cut _ n h
  unfold startRing loadRing
  simp only [he]
  rfl

/-- What a start makes of the file of a save that has been interrupted. -/
theorem startRing_left (hb : Base64.Lawful) (hj : RingJson.Lawful) {ring : KeyRing} {k new : Kek} {old file : Option Bytes}
    (hring : ring.Begins k) (hold : startRing k old = ring) (hnew : new ∉ ring.entries)
    (hleft : Left old (saveRing (ring.push new)) file) :
    file = old ∧ startRing k file = ring ∨ file = some (saveRing (ring.push new)) ∧ startRing k file = ring.push new ∨
      file ≠ some (saveRing (ring.push new)) ∧ startRing k file = .new k := by
  cases hleft with
  | untouched => exact .inl ⟨rfl, hold⟩
  | cut n =>
    by_cases h : n < (saveRing (ring.push new)).length
    · refine .inr (.inr ⟨?_, startRing_cut hj k h⟩)
      intro hwhole
      have hlen := congrArg List.length (Option.some.inj hwhole)
      rw [List.length_take] at hlen
      omega
    · rw [List.take_of_length_le (Nat.le_of_not_lt h)]
      exact .inr (.inl ⟨rfl, startRing_saveRing hb hj (hring.push hnew)⟩)

end

/-! ## Runs -/

section
variable [Aead] [Base64] [RingJson]

/-- A node, with the secrets that it has encrypted and their plaintexts. -/
structure KeyNode where
  ring : KeyRing
  file : Option Bytes
  made : List (Ciphertext × Bytes)

def KeyNode.start (k : Kek) : KeyNode := ⟨startRing k none, none, []⟩

def KeyNode.switch (s : KeyNode) (kek : Kek) : KeyNode :=
  { s with ring := s.ring.push kek, file := some (saveRing (s.ring.push kek)) }

/-- What can happen, where `may` says how a save may be interrupted. -/
inductive KeyStep (k : Kek) (may : KeyNode → Kek → Option Bytes → Prop) : KeyNode → KeyNode → Prop
  | encrypt {s : KeyNode} {draw : Draw} {plain : Bytes} {c : Ciphertext} (h : encryptSecret s.ring draw plain = .ok c) :
      KeyStep k may s { s with made := (c, plain) :: s.made }
  | rewrap {s : KeyNode} {edekNonce : Nonce} {plain : Bytes} {c c' : Ciphertext} (hc : (c, plain) ∈ s.made)
      (h : rewrapDek s.ring edekNonce c = .ok c') : KeyStep k may s { s with made := (c', plain) :: s.made }
  | rotate {s : KeyNode} {kek new : Kek} (h : rotateMasterKey s.ring kek = some new) : KeyStep k may s (s.switch new)
  | hook {s : KeyNode} {kek kekEnc : Bytes} {new : Kek} (h : clusterRotationHook s.ring kek kekEnc = some new) :
      KeyStep k may s (s.switch new)
  | restart {s : KeyNode} : KeyStep k may s { s with ring := startRing k s.file }
  | crash {s : KeyNode} {new : Kek} {file : Option Bytes} (hnew : new ∉ s.ring.entries)
      (hleft : Left s.file (saveRing (s.ring.push new)) file) (h : may s new file) :
      KeyStep k may s { s with ring := startRing k file, file }

/-- Nothing or everything has been written, or it is the first rotation. -/
def KeyNode.Survives (s : KeyNode) (new : Kek) (file : Option Bytes) : Prop :=
  file = s.file ∨ file = some (saveRing (s.ring.push new)) ∨ s.ring.generation = 1

structure KeyNode.Kept (k : Kek) (s : KeyNode) : Prop where
  begins : s.ring.Begins k
  file : startRing k s.file = s.ring
  made : ∀ c plain, (c, plain) ∈ s.made → ∃ kek, s.ring.get c.dekV = some kek ∧ Opens kek c plain

variable {k : Kek} {s s' : KeyNode}

theorem KeyNode.kept_start (k : Kek) : (KeyNode.start k).Kept k where
  begins := ⟨[], rfl, by simp⟩
  file := rfl
  made _ _ h := by cases h

theorem KeyNode.Kept.get_push (hs : s.Kept k) (new : Kek) (c : Ciphertext) (plain : Bytes) (hc : (c, plain) ∈ s.made) :
    ∃ kek, (s.ring.push new).get c.dekV = some kek ∧ Opens kek c plain := by
  obtain ⟨kek, hget, ho⟩ := hs.made c plain hc
  exact ⟨kek, KeyRing.get_of_prefix (List.prefix_append ..) hget, ho⟩

theorem KeyNode.Kept.switch (hb : Base64.Lawful) (hj : RingJson.Lawful) {new : Kek} (hs : s.Kept k) (hnew : new ∉ s.ring.entries) :
    (s.switch new).Kept k where
  begins := hs.begins.push hnew
  file := startRing_saveRing hb hj (hs.begins.push hnew)
  made c plain hc := hs.get_push new c plain hc

/-- After a crash there is the ring before or the ring after, exactly if the crash can be survived. -/
theorem KeyNode.Kept.crash_iff (hb : Base64.Lawful) (hj : RingJson.Lawful) {new : Kek} {file : Option Bytes} (hs : s.Kept k)
    (hnew : new ∉ s.ring.entries) (hleft : Left s.file (saveRing (s.ring.push new)) file) :
    (startRing k file = s.ring ∨ startRing k file = s.ring.push new) ↔ s.Survives new file := by
  have hcases := startRing_left hb hj hs.begins hs.file hnew hleft
  constructor
  · intro h
    rcases hcases with ⟨hfile, _⟩ | ⟨hfile, _⟩ | ⟨_, hstart⟩
    · exact .inl hfile
    · exact .inr (.inl hfile)
    · refine .inr (.inr ?_)
      rw [hstart] at h
      rcases h with h | h
      · rw [← h]
        rfl
      · -- a ring with a new key has two
        obtain ⟨rest, hring, _⟩ := hs.begins
        have hlen := congrArg KeyRing.generation h
        simp [KeyRing.generation, KeyRing.new, KeyRing.push, hring] at hlen
  · intro h
    rcases hcases with ⟨_, hstart⟩ | ⟨_, hstart⟩ | ⟨hcut, hstart⟩
    · exact .inl hstart
    · exact .inr hstart
    · rcases h with rfl | h | h
      · exact .inl hs.file
      · exact absurd h hcut
      · exact .inl (hstart.trans (hs.begins.generation_eq.mp h).symm)

theorem KeyStep.kept (ha : Aead.Ideal) (hb : Base64.Lawful) (hj : RingJson.Lawful) (h : KeyStep k KeyNode.Survives s s')
    (hs : s.Kept k) : s'.Kept k ∧ s.ring.entries <+: s'.ring.entries := by
  cases h with
  | @encrypt draw plain c h =>
    refine ⟨⟨hs.begins, hs.file, ?_⟩, List.prefix_refl _⟩
    intro d data hd
    rcases List.mem_cons.mp hd with hd | hd
    · obtain ⟨rfl, rfl⟩ := Prod.mk.inj hd
      exact encryptSecret_opens ha hb h
    · exact hs.made d data hd
  | @rewrap edekNonce plain c c' hmem h =>
    refine ⟨⟨hs.begins, hs.file, ?_⟩, List.prefix_refl _⟩
    intro d data hd
    rcases List.mem_cons.mp hd with hd | hd
    · obtain ⟨rfl, rfl⟩ := Prod.mk.inj hd
      obtain ⟨kek, hget, ho⟩ := hs.made c data hmem
      exact rewrapDek_opens ha hb h hget ho
    · exact hs.made d data hd
  | rotate h => exact ⟨hs.switch hb hj (rotateMasterKey_eq_some.mp h).2, List.prefix_append ..⟩
  | hook h => exact ⟨hs.switch hb hj (clusterRotationHook_new h), List.prefix_append ..⟩
  | restart =>
    rw [hs.file]
    exact ⟨hs, List.prefix_refl _⟩
  | @crash new file hnew hleft hmay =>
    rcases (hs.crash_iff hb hj hnew hleft).mpr hmay with hstart | hstart
    · refine ⟨⟨?_, rfl, ?_⟩, ?_⟩
      · exact hstart ▸ hs.begins
      · exact hstart ▸ hs.made
      · simp only [hstart, List.prefix_refl]
    · refine ⟨⟨?_, rfl, ?_⟩, ?_⟩
      all_goals rw [hstart]
      · exact hs.begins.push hnew
      · exact hs.get_push new
      · exact List.prefix_append ..

theorem KeyNode.kept_of_run (ha : Aead.Ideal) (hb : Base64.Lawful) (hj : RingJson.Lawful) (hs : s.Kept k)
    (h : Relation.ReflTransGen (KeyStep k KeyNode.Survives) s s') : s'.Kept k ∧ s.ring.entries <+: s'.ring.entries := by
  induction h with
  | refl => exact ⟨hs, List.prefix_refl _⟩
  | tail _ hstep ih =>
    obtain ⟨hkept, hgrow⟩ := hstep.kept ha hb hj ih.1
    exact ⟨hkept, ih.2.trans hgrow⟩

/-- A run whose crashes can all be survived: every secret decrypts and generations keep their keys; and of the next
crash there comes back the ring before or the ring after, exactly if it can be survived. -/
theorem rotation_crash_safe (ha : Aead.Ideal) (hb : Base64.Lawful) (hj : RingJson.Lawful) (k : Kek) (s : KeyNode)
    (h : Relation.ReflTransGen (KeyStep k KeyNode.Survives) (.start k) s) :
    (∀ c plain, (c, plain) ∈ s.made → decryptSecret s.ring c = .ok plain) ∧ startRing k s.file = s.ring ∧
      (∀ s', Relation.ReflTransGen (KeyStep k KeyNode.Survives) s s' → ∀ g kek, s.ring.get g = some kek → s'.ring.get g = some kek) ∧
      ∀ new file, new ∉ s.ring.entries → Left s.file (saveRing (s.ring.push new)) file →
        ((startRing k file = s.ring ∨ startRing k file = s.ring.push new) ↔ s.Survives new file) := by
  have hs := (KeyNode.kept_of_run ha hb hj (KeyNode.kept_start k) h).1
  refine ⟨?_, hs.file, ?_, fun new file hnew hleft => hs.crash_iff hb hj hnew hleft⟩
  · intro c plain hc
    obtain ⟨kek, hget, ho⟩ := hs.made c plain hc
    exact decryptSecret_ok.mpr ⟨kek, kekOf_get hget, ho⟩
  · intro s' hrun g kek hget
    exact KeyRing.get_of_prefix (KeyNode.kept_of_run ha hb hj hs hrun).2 hget

end

section
attribute [local instance] sampleBase64 sampleRingJson sampleAead

/-- The first rotation is cut off after it has truncated the file, and is made again; the second one is cut off before
it writes anything. The secret made before them decrypts with what the last start reads. -/
theorem rotation_crash_safe_sample : ∃ c, encryptSecret (.new (sampleKek 1)) sampleDraw [1, 2, 3] = .ok c ∧
    decryptSecret (startRing (sampleKek 1) (some (saveRing ((KeyRing.new (sampleKek 1)).push (sampleKek 2))))) c = .ok [1, 2, 3] := by
  obtain ⟨c, hc, -⟩ := encryptSecret_total sampleAead_ideal sampleDraw [1, 2, 3] current_sample
  have hsecond : sampleKek 2 ∉ (KeyRing.new (sampleKek 1)).entries := by decide
  have hthird : sampleKek 3 ∉ ((KeyRing.new (sampleKek 1)).push (sampleKek 2)).entries := by decide
  have hmade : KeyStep (sampleKek 1) KeyNode.Survives (.start (sampleKek 1)) _ := .encrypt hc
  have htorn : KeyStep (sampleKek 1) KeyNode.Survives ⟨.new (sampleKek 1), none, [(c, [1, 2, 3])]⟩
      ⟨.new (sampleKek 1), some [], [(c, [1, 2, 3])]⟩ :=
    .crash hsecond (.cut 0) (.inr (.inr rfl))
  have hagain : KeyStep (sampleKek 1) KeyNode.Survives ⟨.new (sampleKek 1), some [], [(c, [1, 2, 3])]⟩ _ :=
    .rotate (rotateMasterKey_eq_some.mpr ⟨rfl, hsecond⟩)
  have hkept : KeyStep (sampleKek 1) KeyNode.Survives
      (KeyNode.switch ⟨.new (sampleKek 1), some [], [(c, [1, 2, 3])]⟩ (sampleKek 2)) _ :=
    .crash hthird .untouched (.inl rfl)
  have hrun := (((Relation.ReflTransGen.single hmade).tail htorn).tail hagain).tail hkept
  exact ⟨c, hc, (rotation_crash_safe sampleAead_ideal sampleBase64_lawful sampleRingJson_lawful (sampleKek 1) _ hrun).1 c _
    (List.mem_cons_self ..)⟩

theorem rotated_sample (may : KeyNode → Kek → Option Bytes → Prop) :
    Relation.ReflTransGen (KeyStep (sampleKek 1) may) (.start (sampleKek 1)) ((KeyNode.start (sampleKek 1)).switch (sampleKek 2)) :=
  .single (.rotate (rotateMasterKey_eq_some.mpr ⟨rfl, by decide⟩))

/-- The second rotation truncates the file that has the key of the first one. -/
theorem torn_ring_lost : ¬ ∀ (k : Kek) (s : KeyNode), Relation.ReflTransGen (KeyStep k fun _ _ _ => True) (.start k) s →
    ∀ new file, new ∉ s.ring.entries → Left s.file (saveRing (s.ring.push new)) file →
      startRing k file = s.ring ∨ startRing k file = s.ring.push new := by
  intro h
  have hcut : Left ((KeyNode.start (sampleKek 1)).switch (sampleKek 2)).file
      (saveRing (((KeyNode.start (sampleKek 1)).switch (sampleKek 2)).ring.push (sampleKek 3))) (some []) := .cut 0
  have hback := h _ _ (rotated_sample _) (sampleKek 3) (some []) (by decide) hcut
  have hempty : startRing (sampleKek 1) (some []) = .new (sampleKek 1) := rfl
  rw [hempty] at hback
  rcases hback with hback | hback
  · exact absurd (congrArg KeyRing.generation hback) (by decide)
  · exact absurd (congrArg KeyRing.generation hback) (by decide)

end

end Defing
