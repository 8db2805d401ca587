import Defing.Core.Command
import Defing.Crypto.Rotation

/-!
# Rings of a cluster

Each member adds keys to its own ring when it applies a rotation. As long as
it applies every rotation of the log and loses none, its ring is a function of
the log up to where it has applied it.
-/

namespace Defing

section
variable [Aead] [Base64]

/-- The key that `apply_entry` adds to the ring: entries that are no rotation, commands or none, add nothing. -/
def rotationHook (ring : KeyRing) : Option Command → Option Kek
  | some (.rotateMasterKey kek kekEnc) => clusterRotationHook ring kek kekEnc
  | _ => none

/-- The ring that the first entries of a log make of a master key. -/
def ringAt (k : Kek) (log : Nat → Option Command) : Nat → KeyRing
  | 0 => .new k
  | n + 1 =>
    match rotationHook (ringAt k log n) (log n) with
    | some kek => (ringAt k log n).push kek
    | none => ringAt k log n

variable {k : Kek} {log : Nat → Option Command} {m n : Nat}

omit [Base64]

theorem rotationHook_new {ring : KeyRing} {entry : Option Command} {new : Kek} (h : rotationHook ring entry = some new) :
    new ∉ ring.entries := by
  unfold rotationHook at h
  split at h
  · exact clusterRotationHook_new h
  · cases h

theorem ringAt_some {new : Kek} (h : rotationHook (ringAt k log n) (log n) = some new) :
    ringAt k log (n + 1) = (ringAt k log n).push new := by
  rw [ringAt, h]

theorem ringAt_none (h : rotationHook (ringAt k log n) (log n) = none) : ringAt k log (n + 1) = ringAt k log n := by
  rw [ringAt, h]

theorem begins_ringAt (k : Kek) (log : Nat → Option Command) (n : Nat) : (ringAt k log n).Begins k := by
  induction n with
  | zero => exact ⟨[], rfl, by simp⟩
  | succ n ih =>
    cases h : rotationHook (ringAt k log n) (log n) with
    | none => rwa [ringAt_none h]
    | some new =>
      rw [ringAt_some h]
      exact ih.push (rotationHook_new h)

theorem generation_mono (h : m ≤ n) : (ringAt k log m).generation ≤ (ringAt k log n).generation := by
  induction h with
  | refl => exact Nat.le_refl _
  | @step n h ih =>
    refine ih.trans ?_
    cases hadd : rotationHook (ringAt k log n) (log n) with
    | none => rw [ringAt_none hadd]
    | some new =>
      rw [ringAt_some hadd]
      simp [KeyRing.generation, KeyRing.push]

/-- The ring stays the same over entries that add nothing to it, and only over those. -/
theorem ringAt_eq_iff (h : m ≤ n) :
    ringAt k log n = ringAt k log m ↔ ∀ i, m ≤ i → i < n → rotationHook (ringAt k log m) (log i) = none := by
  induction h with
  | refl =>
    constructor
    · intro _ i hm hn
      omega
    · intro _
      rfl
  | @step n h ih =>
    constructor
    · intro hsame
      have hgen : (ringAt k log n).generation = (ringAt k log m).generation := by
        have hle : (ringAt k log n).generation ≤ (ringAt k log n.succ).generation := generation_mono (Nat.le_succ n)
        rw [Nat.succ_eq_add_one, hsame] at hle
        exact Nat.le_antisymm hle (generation_mono h)
      cases hadd : rotationHook (ringAt k log n) (log n) with
      | none =>
        have hback : ringAt k log n = ringAt k log m := by rw [← ringAt_none hadd, hsame]
        intro i hm hi
        rcases Nat.lt_succ_iff_lt_or_eq.mp hi with hi | rfl
        · exact ih.mp hback i hm hi
        · rw [← hback, hadd]
      | some new =>
        -- a key that is added would show in the generation
        rw [ringAt_some hadd] at hsame
        have hlen := congrArg KeyRing.generation hsame
        simp only [KeyRing.generation, KeyRing.push, List.length_append, List.length_singleton] at hlen hgen
        omega
    · intro hnone
      have hback := ih.mpr fun i hm hi => hnone i hm (by omega)
      have hlast := hnone n h (by omega)
      rw [← hback] at hlast
      rw [ringAt_none hlast, hback]

end

/-! ## Members -/

section
variable [Aead] [Base64] [RingJson]

/-- A member, which keeps its ring in a file if it has its master key from one. -/
structure Member where
  ringPath : Bool
  ring : KeyRing
  file : Option Bytes
  lastApplied : Nat

def Member.start (k : Kek) (ringPath : Bool) : Member := ⟨ringPath, startRing k none, none, 0⟩

def Member.switch (s : Member) (new : Kek) : Member :=
  { s with ring := s.ring.push new, file := if s.ringPath then some (saveRing (s.ring.push new)) else s.file }

inductive Applies (log : Nat → Option Command) : Member → Member → Prop
  | other {s : Member} (h : rotationHook s.ring (log s.lastApplied) = none) : Applies log s { s with lastApplied := s.lastApplied + 1 }
  | rotation {s : Member} {new : Kek} (h : rotationHook s.ring (log s.lastApplied) = some new) :
      Applies log s { s.switch new with lastApplied := s.lastApplied + 1 }

inductive Trouble
  /-- The ring file cannot be written, and the ring is not switched. -/
  | unsaved (file : Option Bytes)
  /-- `last_applied` cannot be written after a rotation. -/
  | unrecorded
  /-- A crash in the rotation. -/
  | crash (file : Option Bytes)
  | restart
  /-- A snapshot is installed. -/
  | install (n : Nat)

inductive Meets (k : Kek) (log : Nat → Option Command) : Trouble → Member → Member → Prop
  | unsaved {s : Member} {new : Kek} {file : Option Bytes} (h : rotationHook s.ring (log s.lastApplied) = some new)
      (hpath : s.ringPath = true) (hleft : Left s.file (saveRing (s.ring.push new)) file) :
      Meets k log (.unsaved file) s { s with file, lastApplied := s.lastApplied + 1 }
  | unrecorded {s : Member} {new : Kek} (h : rotationHook s.ring (log s.lastApplied) = some new) :
      Meets k log .unrecorded s (s.switch new)
  | crash {s : Member} {new : Kek} {file : Option Bytes} (h : rotationHook s.ring (log s.lastApplied) = some new)
      (hpath : s.ringPath = true) (hleft : Left s.file (saveRing (s.ring.push new)) file) :
      Meets k log (.crash file) s { s with ring := startRing k file, file }
  | restart {s : Member} : Meets k log .restart s { s with ring := startRing k s.file }
  | install {s : Member} {n : Nat} (h : s.lastApplied ≤ n) : Meets k log (.install n) s { s with lastApplied := n }

/-- What leaves a member with the ring of its place in the log. -/
def Member.Bears (log : Nat → Option Command) (s : Member) : Trouble → Prop
  | .unsaved _ => False
  | .unrecorded => False
  | .crash file => file = s.file ∨ s.ring.generation = 1 ∧ ∀ new, rotationHook s.ring (log s.lastApplied) = some new →
      file ≠ some (saveRing (s.ring.push new))
  | .restart => s.ringPath = true ∨ s.ring.generation = 1
  | .install n => ∀ i, s.lastApplied ≤ i → i < n → rotationHook s.ring (log i) = none

/-- A step of a member, with trouble only where `may` says so. -/
inductive MemberStep (k : Kek) (log : Nat → Option Command) (may : Member → Trouble → Prop) (s s' : Member) : Prop
  | applies (h : Applies log s s')
  | meets (trouble : Trouble) (hmay : may s trouble) (h : Meets k log trouble s s')

structure Member.Kept (k : Kek) (log : Nat → Option Command) (s : Member) : Prop where
  ring : s.ring = ringAt k log s.lastApplied
  file : s.ringPath = true → startRing k s.file = s.ring
  bare : s.ringPath = false → s.file = none

variable {k : Kek} {log : Nat → Option Command} {s s' : Member}

theorem Member.kept_start (k : Kek) (log : Nat → Option Command) (ringPath : Bool) : (Member.start k ringPath).Kept k log :=
  ⟨rfl, fun _ => rfl, fun _ => rfl⟩

theorem Member.Kept.begins (hs : s.Kept k log) : s.ring.Begins k := hs.ring ▸ begins_ringAt k log s.lastApplied

theorem Applies.kept (hb : Base64.Lawful) (hj : RingJson.Lawful) (h : Applies log s s') (hs : s.Kept k log) : s'.Kept k log := by
  cases h with
  | other h =>
    refine ⟨?_, hs.file, hs.bare⟩
    rw [hs.ring] at h
    exact hs.ring.trans (ringAt_none h).symm
  | @rotation new h =>
    have hnew := rotationHook_new h
    refine ⟨?_, ?_, ?_⟩
    · rw [hs.ring] at h
      change s.ring.push new = _
      rw [ringAt_some h, hs.ring]
    · intro hpath
      have hpath : s.ringPath = true := hpath
      change startRing k (if s.ringPath then _ else _) = s.ring.push new
      rw [if_pos hpath]
      exact startRing_saveRing hb hj (hs.begins.push hnew)
    · intro hpath
      have hpath : s.ringPath = false := hpath
      change (if s.ringPath then _ else s.file) = none
      rw [hpath]
      exact hs.bare hpath

theorem Meets.ring_iff (hb : Base64.Lawful) (hj : RingJson.Lawful) {trouble : Trouble} (h : Meets k log trouble s s')
    (hs : s.Kept k log) : s'.ring = ringAt k log s'.lastApplied ↔ s.Bears log trouble := by
  cases h with
  | unsaved h hpath hleft =>
    rw [hs.ring] at h
    refine iff_of_false ?_ id
    change s.ring ≠ ringAt k log (s.lastApplied + 1)
    rw [ringAt_some h, hs.ring]
    exact (KeyRing.push_ne _ _).symm
  | @unrecorded _ new h =>
    refine iff_of_false ?_ id
    change s.ring.push new ≠ ringAt k log s.lastApplied
    rw [← hs.ring]
    exact KeyRing.push_ne _ _
  | @crash _ new file h hpath hleft =>
    change startRing k file = ringAt k log s.lastApplied ↔ _
    rw [← hs.ring]
    rcases startRing_left hb hj hs.begins (hs.file hpath) (rotationHook_new h) hleft with
      ⟨hfile, hstart⟩ | ⟨hfile, hstart⟩ | ⟨hcut, hstart⟩
    · exact iff_of_true hstart (.inl hfile)
    · refine iff_of_false (hstart ▸ KeyRing.push_ne _ _) ?_
      intro hbears
      rcases hbears with hsame | ⟨_, hcut⟩
      · rw [hsame, hs.file hpath] at hstart
        exact KeyRing.push_ne _ _ hstart.symm
      · exact hcut new h hfile
    · rw [hstart]
      constructor
      · intro hring
        refine .inr ⟨hs.begins.generation_eq.mpr hring.symm, ?_⟩
        intro new' h'
        obtain rfl := Option.some.inj (h.symm.trans h')
        exact hcut
      · intro hbears
        rcases hbears with hsame | ⟨hgen, _⟩
        · rw [← hstart, hsame, hs.file hpath]
        · exact (hs.begins.generation_eq.mp hgen).symm
  | restart =>
    change startRing k s.file = ringAt k log s.lastApplied ↔ _
    rw [← hs.ring]
    cases hpath : s.ringPath with
    | true => exact iff_of_true (hs.file hpath) (.inl hpath)
    | false =>
      rw [hs.bare hpath, startRing_none]
      constructor
      · intro hring
        exact .inr (hs.begins.generation_eq.mpr hring.symm)
      · intro hbears
        rcases hbears with hpath' | hgen
        · rw [hpath] at hpath'
          cases hpath'
        · exact (hs.begins.generation_eq.mp hgen).symm
  | @install _ n h =>
    change s.ring = ringAt k log n ↔ ∀ i, s.lastApplied ≤ i → i < n → rotationHook s.ring (log i) = none
    rw [hs.ring, eq_comm]
    exact ringAt_eq_iff h

theorem Meets.kept (hb : Base64.Lawful) (hj : RingJson.Lawful) {trouble : Trouble} (h : Meets k log trouble s s')
    (hbears : s.Bears log trouble) (hs : s.Kept k log) : s'.Kept k log := by
  have hring := (h.ring_iff hb hj hs).mpr hbears
  cases h with
  | unsaved => exact hbears.elim
  | unrecorded => exact hbears.elim
  | crash h hpath hleft =>
    refine ⟨hring, fun _ => rfl, ?_⟩
    intro hno
    have hno : s.ringPath = false := hno
    rw [hpath] at hno
    cases hno
  | restart => exact ⟨hring, fun _ => rfl, hs.bare⟩
  | install => exact ⟨hring, hs.file, hs.bare⟩

theorem Member.kept_of_run (hb : Base64.Lawful) (hj : RingJson.Lawful) {ringPath : Bool}
    (h : Relation.ReflTransGen (MemberStep k log (Member.Bears log)) (.start k ringPath) s) : s.Kept k log := by
  induction h with
  | refl => exact Member.kept_start k log ringPath
  | tail _ hstep ih =>
    cases hstep with
    | applies h => exact h.kept hb hj ih
    | meets trouble hmay h => exact h.kept hb hj hmay ih

/-- Members that have borne all trouble, and have applied the same part of the log, have the same ring, and decrypt what
the other encrypts; the next trouble leaves a member with the ring of the log exactly if it is borne. -/
theorem keyring_agreement (ha : Aead.Ideal) (hb : Base64.Lawful) (hj : RingJson.Lawful) (k : Kek) (log : Nat → Option Command)
    (p p' : Bool) (s s' : Member) (hs : Relation.ReflTransGen (MemberStep k log (Member.Bears log)) (.start k p) s)
    (hs' : Relation.ReflTransGen (MemberStep k log (Member.Bears log)) (.start k p') s') :
    (s.lastApplied = s'.lastApplied → s.ring = s'.ring ∧
      ∀ draw plain c, encryptSecret s.ring draw plain = .ok c → decryptSecret s'.ring c = .ok plain) ∧
    ∀ trouble t, Meets k log trouble s t → (t.ring = ringAt k log t.lastApplied ↔ s.Bears log trouble) := by
  have hkept := Member.kept_of_run hb hj hs
  refine ⟨?_, fun trouble t h => h.ring_iff hb hj hkept⟩
  intro hsame
  have hring : s.ring = s'.ring := by rw [hkept.ring, hsame, (Member.kept_of_run hb hj hs').ring]
  refine ⟨hring, ?_⟩
  intro draw plain c hc
  obtain ⟨kek, hget, ho⟩ := encryptSecret_opens ha hb hc
  rw [← hring]
  exact decryptSecret_ok.mpr ⟨kek, kekOf_get hget, ho⟩

end

section
attribute [local instance] sampleBase64 sampleRingJson sampleAead

def wrappedKek : Bytes :=
  match wrapMasterKey (sampleKek 1) (sampleKek 2) sampleNonce with
  | .ok enc => enc
  | .error _ => []

def rotationLog (n : Nat) : Option Command := if n = 0 then some (.rotateMasterKey [] wrappedKek) else none

theorem hook_sample : rotationHook (.new (sampleKek 1)) (rotationLog 0) = some (sampleKek 2) := by decide +kernel

theorem applied_sample (may : Member → Trouble → Prop) :
    Relation.ReflTransGen (MemberStep (sampleKek 1) rotationLog may) (.start (sampleKek 1) true)
      { (Member.start (sampleKek 1) true).switch (sampleKek 2) with lastApplied := 1 } :=
  .single (.applies (.rotation hook_sample))

/-- A member that has been restarted decrypts what one encrypts that has not. -/
theorem keyring_agreement_sample : ∃ plain c,
    encryptSecret ((KeyRing.new (sampleKek 1)).push (sampleKek 2)) sampleDraw plain = .ok c ∧
    decryptSecret (startRing (sampleKek 1) (some (saveRing ((KeyRing.new (sampleKek 1)).push (sampleKek 2))))) c = .ok plain := by
  have hcurrent : ((KeyRing.new (sampleKek 1)).push (sampleKek 2)).current = .ok (sampleKek 2) := rfl
  obtain ⟨c, hc, _⟩ := encryptSecret_total sampleAead_ideal sampleDraw [1, 2, 3] hcurrent
  have hrestarted := (applied_sample (Member.Bears rotationLog)).tail (.meets .restart (.inl rfl) .restart)
  have hagree := (keyring_agreement sampleAead_ideal sampleBase64_lawful sampleRingJson_lawful (sampleKek 1) rotationLog
    true true _ _ (applied_sample _) hrestarted).1 rfl
  exact ⟨[1, 2, 3], c, hc, hagree.2 _ _ _ hc⟩

/-- A member that a snapshot has brought over the rotation does not have the key. -/
theorem snapshot_skips_rotation : ¬ ∀ (k : Kek) (log : Nat → Option Command) (s s' : Member),
    Relation.ReflTransGen (MemberStep k log fun _ _ => True) (.start k true) s →
    Relation.ReflTransGen (MemberStep k log fun _ _ => True) (.start k true) s' →
    s.lastApplied = s'.lastApplied → s.ring = s'.ring := by
  intro h
  have hinstalled : Relation.ReflTransGen (MemberStep (sampleKek 1) rotationLog fun _ _ => True) (.start (sampleKek 1) true)
      { Member.start (sampleKek 1) true with lastApplied := 1 } :=
    .single (.meets (.install 1) trivial (.install (Nat.zero_le 1)))
  have hring := h _ _ _ _ (applied_sample _) hinstalled rfl
  exact absurd (congrArg KeyRing.generation hring) (by decide)

end

end Defing
