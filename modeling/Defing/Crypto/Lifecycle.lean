import Defing.Crypto.Envelope
import Defing.Lib.Base64
import Defing.Lib.JsonStrings
import Defing.Lib.Result
import Mathlib.Logic.Relation

/-!
# The life of a ciphertext

A ciphertext names its master key by a position. It opens as long as this
position stays that of the key: whenever the ring that is rotated is the
longest that there has been.
-/

namespace Defing

section
variable [Aead] [Base64] {ring : KeyRing} {kek : Kek} {c c' : Ciphertext} {plain data : Bytes}

/-! ## What a key opens -/

omit [Aead] in
theorem b64_encode (hb : Base64.Lawful) (data : Bytes) : b64 (Base64.encode data) = .ok data := by
  rw [b64, hb]
  rfl

def Opens (kek : Kek) (c : Ciphertext) (plain : Bytes) : Prop :=
  ∃ (dek : Kek) (nonce : Nonce) (ct : Bytes), unwrapDek kek c = .ok dek.1 ∧ b64 c.nonce = .ok nonce.1 ∧ b64 c.ct = .ok ct ∧
    aeadDecrypt dek.1 nonce.1 ct = .ok plain

theorem unwrapDek_ok : unwrapDek kek c = .ok data ↔
    ∃ (nonce : Nonce) (edek : Bytes), b64 c.edekNonce = .ok nonce.1 ∧ b64 c.edek = .ok edek ∧
      aeadDecrypt kek.1 nonce.1 edek = .ok data := by
  unfold unwrapDek nonceFromSlice
  constructor
  · intro h
    obtain ⟨raw, hraw, h⟩ := Result.bind_ok.mp h
    obtain ⟨nonce, hnonce, h⟩ := Result.bind_ok.mp h
    obtain ⟨edek, hedek, h⟩ := Result.bind_ok.mp h
    split at hnonce
    · rename_i hlen
      obtain rfl := Except.ok.inj hnonce
      exact ⟨⟨raw, hlen⟩, edek, hraw, hedek, h⟩
    · cases hnonce
  · intro ⟨nonce, edek, hraw, hedek, h⟩
    exact Result.bind_ok.mpr ⟨nonce.1, hraw, Result.bind_ok.mpr ⟨nonce.1, if_pos nonce.2, Result.bind_ok.mpr ⟨edek, hedek, h⟩⟩⟩

theorem unwrapDek_wrapDek (ha : Aead.Ideal) (hb : Base64.Lawful) {edekNonce : Nonce} {w : String × String}
    (h : wrapDek kek data edekNonce = .ok w) (he : c.edek = w.1) (hn : c.edekNonce = w.2) : unwrapDek kek c = .ok data := by
  obtain ⟨edek, hseal, hw⟩ := Result.bind_ok.mp h
  obtain rfl := Except.ok.inj hw
  refine unwrapDek_ok.mpr ⟨edekNonce, edek, ?_, ?_, ?_⟩
  · rw [hn, b64_encode hb]
  · rw [he, b64_encode hb]
  · exact Result.mapError_ok.mpr ((ha.decrypt _ _ _ _ kek.2 edekNonce.2).mpr (Result.mapError_ok.mp hseal))

theorem decryptSecret_ok : decryptSecret ring c = .ok plain ↔ ∃ kek, kekOf ring c.dekV = some kek ∧ Opens kek c plain := by
  unfold decryptSecret
  cases hk : kekOf ring c.dekV with
  | none => simp
  | some kek =>
    constructor
    · intro h
      obtain ⟨dek, hdek, h⟩ := Result.bind_ok.mp h
      obtain ⟨dek', hlen, h⟩ := Result.bind_ok.mp h
      obtain ⟨raw, hraw, h⟩ := Result.bind_ok.mp h
      obtain ⟨nonce, hnonce, h⟩ := Result.bind_ok.mp h
      obtain ⟨ct, hct, h⟩ := Result.bind_ok.mp h
      unfold newFromSlice at hlen
      unfold nonceFromSlice at hnonce
      split at hlen
      · rename_i hd
        split at hnonce
        · rename_i hn
          obtain rfl := Except.ok.inj hlen
          obtain rfl := Except.ok.inj hnonce
          exact ⟨kek, rfl, ⟨dek, hd⟩, ⟨raw, hn⟩, ct, hdek, hraw, hct, h⟩
        · cases hnonce
      · cases hlen
    · intro ⟨kek', hkek, dek, nonce, ct, hdek, hraw, hct, h⟩
      obtain rfl := Option.some.inj hkek
      refine Result.bind_ok.mpr ⟨dek.1, hdek, Result.bind_ok.mpr ⟨dek.1, if_pos dek.2, Result.bind_ok.mpr ⟨nonce.1, hraw, ?_⟩⟩⟩
      exact Result.bind_ok.mpr ⟨nonce.1, if_pos nonce.2, Result.bind_ok.mpr ⟨ct, hct, h⟩⟩

omit [Aead] [Base64] in
theorem kekOf_get {g : Nat} (h : ring.get g = some kek) : kekOf ring g = some kek := by
  rw [kekOf, h]
  rfl

omit [Aead] [Base64] in
theorem current_ok : ring.current = .ok kek ↔ ring.get ring.generation = some kek := by
  unfold KeyRing.current KeyRing.get KeyRing.generation
  rw [← List.getLast?_eq_getElem?]
  by_cases hnil : ring.entries = []
  · simp [hnil]
  · have hlen : ring.entries.length ≠ 0 := fun h => hnil (List.length_eq_zero_iff.mp h)
    rw [if_neg hlen]
    cases ring.entries.getLast? <;> simp

theorem unwrapDek_key (ha : Aead.Ideal) {kek' : Kek} {data' : Bytes} (h : unwrapDek kek c = .ok data)
    (h' : unwrapDek kek' c = .ok data') : kek = kek' := by
  obtain ⟨nonce, edek, hn, he, hd⟩ := unwrapDek_ok.mp h
  obtain ⟨nonce', edek', hn', he', hd'⟩ := unwrapDek_ok.mp h'
  obtain rfl := Except.ok.inj (he.symm.trans he')
  have hseal := (ha.decrypt _ _ _ _ kek.2 nonce.2).mp (Result.mapError_ok.mp hd)
  have hseal' := (ha.decrypt _ _ _ _ kek'.2 nonce'.2).mp (Result.mapError_ok.mp hd')
  exact Subtype.ext (ha.key_inj _ _ _ _ _ _ _ kek.2 kek'.2 nonce.2 nonce'.2 hseal hseal')

theorem wrapDek_total (ha : Aead.Ideal) (kek : Kek) (data : Bytes) (edekNonce : Nonce) :
    ∃ w, wrapDek kek data edekNonce = .ok w := by
  obtain ⟨edek, hseal⟩ := ha.encrypt kek.1 edekNonce.1 data kek.2 edekNonce.2
  exact ⟨_, Result.bind_ok.mpr ⟨edek, Result.mapError_ok.mpr hseal, rfl⟩⟩

theorem encryptSecret_dekV {draw : Draw} (h : encryptSecret ring draw plain = .ok c) : c.dekV = ring.generation := by
  obtain ⟨_, _, h⟩ := Result.bind_ok.mp h
  obtain ⟨_, _, h⟩ := Result.bind_ok.mp h
  obtain ⟨_, _, h⟩ := Result.bind_ok.mp h
  obtain rfl := Except.ok.inj h
  rfl

theorem encryptSecret_total (ha : Aead.Ideal) {ring : KeyRing} (draw : Draw) (plain : Bytes) (h : ring.current = .ok kek) :
    ∃ c, encryptSecret ring draw plain = .ok c ∧ c.dekV = ring.generation := by
  obtain ⟨ct, hseal⟩ := ha.encrypt draw.dek.1 draw.nonce.1 plain draw.dek.2 draw.nonce.2
  obtain ⟨w, hw⟩ := wrapDek_total ha kek draw.dek.1 draw.edekNonce
  have hsome : ∃ c, encryptSecret ring draw plain = .ok c :=
    ⟨_, Result.bind_ok.mpr ⟨ct, Result.mapError_ok.mpr hseal, Result.bind_ok.mpr ⟨kek, h, Result.bind_ok.mpr ⟨w, hw, rfl⟩⟩⟩⟩
  obtain ⟨c, hc⟩ := hsome
  exact ⟨c, hc, encryptSecret_dekV hc⟩

theorem encryptSecret_opens (ha : Aead.Ideal) (hb : Base64.Lawful) {draw : Draw} (h : encryptSecret ring draw plain = .ok c) :
    ∃ kek, ring.get c.dekV = some kek ∧ Opens kek c plain := by
  obtain ⟨ct, hseal, h⟩ := Result.bind_ok.mp h
  obtain ⟨kek, hkek, h⟩ := Result.bind_ok.mp h
  obtain ⟨w, hw, h⟩ := Result.bind_ok.mp h
  obtain rfl := Except.ok.inj h
  refine ⟨kek, current_ok.mp hkek, draw.dek, draw.nonce, ct, ?_, b64_encode hb _, b64_encode hb _, ?_⟩
  · exact unwrapDek_wrapDek ha hb hw rfl rfl
  · exact Result.mapError_ok.mpr ((ha.decrypt _ _ _ _ draw.dek.2 draw.nonce.2).mpr (Result.mapError_ok.mp hseal))

theorem rewrapDek_body {edekNonce : Nonce} (h : rewrapDek ring edekNonce c = .ok c') :
    c'.dekV = ring.generation ∧ c' = { c with dekV := c'.dekV, edek := c'.edek, edekNonce := c'.edekNonce } := by
  unfold rewrapDek at h
  split at h
  · cases h
  · obtain ⟨_, _, h⟩ := Result.bind_ok.mp h
    obtain ⟨_, _, h⟩ := Result.bind_ok.mp h
    obtain ⟨_, _, h⟩ := Result.bind_ok.mp h
    obtain rfl := Except.ok.inj h
    exact ⟨rfl, rfl⟩

/-- A rewrapped secret is one of the newest key, if it was one of the key that it named. -/
theorem rewrapDek_opens (ha : Aead.Ideal) (hb : Base64.Lawful) {edekNonce : Nonce} (h : rewrapDek ring edekNonce c = .ok c')
    (hget : ring.get c.dekV = some kek) (ho : Opens kek c plain) : ∃ kek', ring.get c'.dekV = some kek' ∧ Opens kek' c' plain := by
  obtain ⟨dek, nonce, ct, hdek, hnonce, hct, hplain⟩ := ho
  unfold rewrapDek at h
  rw [hget] at h
  obtain ⟨data, hdata, h⟩ := Result.bind_ok.mp h
  rw [hdek] at hdata
  obtain rfl := Except.ok.inj hdata
  obtain ⟨kek', hkek', h⟩ := Result.bind_ok.mp h
  obtain ⟨w, hw, h⟩ := Result.bind_ok.mp h
  obtain rfl := Except.ok.inj h
  exact ⟨kek', current_ok.mp hkek', dek, nonce, ct, unwrapDek_wrapDek ha hb hw rfl rfl, hnonce, hct, hplain⟩

end

/-! ## Rings and their file -/

section
variable [Base64] [RingJson] {ring ring' : KeyRing} {kek : Kek}

omit [Base64] [RingJson] in
theorem KeyRing.get_of_prefix (h : ring.entries <+: ring'.entries) {g : Nat} (hg : ring.get g = some kek) :
    ring'.get g = some kek := by
  obtain ⟨more, hmore⟩ := h
  unfold KeyRing.get at hg ⊢
  split at hg
  · cases hg
  · rename_i hzero
    rw [if_neg hzero, ← hmore, List.getElem?_append_left]
    · exact hg
    · exact (List.getElem?_eq_some_iff.mp hg).choose

omit [RingJson] in
theorem ringKey_encode (hb : Base64.Lawful) (kek : Kek) : ringKey (Base64.encode kek.1) = .ok kek := by
  unfold ringKey
  rw [hb]
  exact dif_pos kek.2

theorem loadRing_saveRing (hb : Base64.Lawful) (hj : RingJson.Lawful) (ring : KeyRing) :
    loadRing (some (saveRing ring)) = .ok ring.entries := by
  have hround := hj.round (ring.entries.map (·.1))
  rw [List.map_map] at hround
  have hraw : RingJson.fromSlice (saveRing ring) = .ok (ring.entries.map fun kek => Base64.encode kek.1) := hround
  unfold loadRing
  simp only [hraw]
  refine Result.mapM_ok.mpr (List.forall₂_map_left_iff.mpr ?_)
  exact List.forall₂_same.mpr fun kek _ => ringKey_encode hb kek

/-! ## Runs -/

variable [Aead]

/-- A ring with its file, and the secrets that have been encrypted, with their plaintexts. -/
structure Vault where
  ring : KeyRing
  /-- The longest ring that there has been. -/
  longest : KeyRing
  file : Option Bytes
  made : List (Ciphertext × Bytes)

def Vault.start (initial : Kek) : Vault where
  ring := .new initial
  longest := .new initial
  file := none
  made := []

/-- What is done with a ring, in any order; it is rotated where it may be. -/
inductive VaultStep (may : Vault → Prop) : Vault → Vault → Prop
  | encrypt {s : Vault} {draw : Draw} {plain : Bytes} {c : Ciphertext} (h : encryptSecret s.ring draw plain = .ok c) :
      VaultStep may s { s with made := (c, plain) :: s.made }
  | rewrap {s : Vault} {edekNonce : Nonce} {plain : Bytes} {c c' : Ciphertext} (hc : (c, plain) ∈ s.made)
      (h : rewrapDek s.ring edekNonce c = .ok c') : VaultStep may s { s with made := (c', plain) :: s.made }
  | rotate {s : Vault} (kek : Kek) (h : may s) :
      VaultStep may s { s with
        ring := s.ring.push kek
        longest := if s.longest.generation ≤ (s.ring.push kek).generation then s.ring.push kek else s.longest }
  | save {s : Vault} : VaultStep may s { s with file := some (saveRing s.ring) }
  | load {s : Vault} {entries : List Kek} (h : loadRing s.file = .ok entries) :
      VaultStep may s { s with ring := .fromEntries entries }

def Vault.AtLongest (s : Vault) : Prop := s.ring = s.longest

/-- Every ring is a beginning of the longest, in which every secret has its key. -/
structure Vault.Kept (s : Vault) : Prop where
  ring : s.ring.entries <+: s.longest.entries
  file : ∀ entries, loadRing s.file = .ok entries → entries <+: s.longest.entries
  made : ∀ c plain, (c, plain) ∈ s.made → ∃ kek, s.longest.get c.dekV = some kek ∧ Opens kek c plain

theorem Vault.kept_start (initial : Kek) : (Vault.start initial).Kept where
  ring := List.prefix_refl _
  file := by
    intro entries h
    obtain rfl := Except.ok.inj h
    exact List.nil_prefix
  made _ _ h := by cases h

theorem VaultStep.kept (ha : Aead.Ideal) (hb : Base64.Lawful) (hj : RingJson.Lawful) {s s' : Vault}
    (h : VaultStep Vault.AtLongest s s') (hs : s.Kept) : s'.Kept := by
  cases h with
  | encrypt h =>
    refine ⟨hs.ring, hs.file, ?_⟩
    intro c plain hc
    rcases List.mem_cons.mp hc with hc | hc
    · obtain ⟨rfl, rfl⟩ := Prod.mk.inj hc
      obtain ⟨kek, hget, ho⟩ := encryptSecret_opens ha hb h
      exact ⟨kek, KeyRing.get_of_prefix hs.ring hget, ho⟩
    · exact hs.made c plain hc
  | @rewrap edekNonce plain c c' hmem h =>
    refine ⟨hs.ring, hs.file, ?_⟩
    intro d data hd
    rcases List.mem_cons.mp hd with hd | hd
    · obtain ⟨rfl, rfl⟩ := Prod.mk.inj hd
      obtain ⟨kek, hget, ho⟩ := hs.made c data hmem
      have hring : s.ring.get c.dekV = some kek := by
        cases hr : s.ring.get c.dekV with
        | none =>
          unfold rewrapDek at h
          rw [hr] at h
          cases h
        | some kek' => rw [← hget, KeyRing.get_of_prefix hs.ring hr]
      obtain ⟨kek', hget', ho'⟩ := rewrapDek_opens ha hb h hring ho
      exact ⟨kek', KeyRing.get_of_prefix hs.ring hget', ho'⟩
    · exact hs.made d data hd
  | @rotate kek hmay =>
    have hmay : s.ring = s.longest := hmay
    have hgrow : s.longest.entries <+: (s.ring.push kek).entries := by
      rw [hmay]
      exact List.prefix_append ..
    have hlong : (if s.longest.generation ≤ (s.ring.push kek).generation then s.ring.push kek else s.longest) = s.ring.push kek :=
      if_pos hgrow.length_le
    refine ⟨?_, ?_, ?_⟩
    · simp only [hlong, List.prefix_refl]
    · intro entries h
      rw [hlong]
      exact (hs.file entries h).trans hgrow
    · intro c plain hc
      rw [hlong]
      obtain ⟨kek, hget, ho⟩ := hs.made c plain hc
      exact ⟨kek, KeyRing.get_of_prefix hgrow hget, ho⟩
  | save =>
    refine ⟨hs.ring, ?_, hs.made⟩
    intro entries h
    rw [loadRing_saveRing hb hj] at h
    obtain rfl := Except.ok.inj h
    exact hs.ring
  | load h => exact ⟨hs.file _ h, hs.file, hs.made⟩

theorem Vault.kept_of_run (ha : Aead.Ideal) (hb : Base64.Lawful) (hj : RingJson.Lawful) {initial : Kek} {s : Vault}
    (h : Relation.ReflTransGen (VaultStep Vault.AtLongest) (Vault.start initial) s) : s.Kept := by
  induction h with
  | refl => exact Vault.kept_start initial
  | tail _ hstep ih => exact hstep.kept ha hb hj ih

/-- Whatever has been encrypted, and rewrapped since, is decrypted by every ring that has its generation, if only the
longest ring is rotated; and rewrapping leaves what is encrypted as it is. -/
theorem secret_lifecycle (ha : Aead.Ideal) (hb : Base64.Lawful) (hj : RingJson.Lawful) (initial : Kek) :
    (∀ s, Relation.ReflTransGen (VaultStep Vault.AtLongest) (Vault.start initial) s → ∀ c plain, (c, plain) ∈ s.made →
      s.ring.get c.dekV ≠ none → decryptSecret s.ring c = .ok plain) ∧
    ∀ (ring : KeyRing) (edekNonce : Nonce) (c c' : Ciphertext), rewrapDek ring edekNonce c = .ok c' →
      c'.dekV = ring.generation ∧ c' = { c with dekV := c'.dekV, edek := c'.edek, edekNonce := c'.edekNonce } := by
  refine ⟨?_, fun ring edekNonce c c' h => rewrapDek_body h⟩
  intro s hrun c plain hc hknown
  have hs := Vault.kept_of_run ha hb hj hrun
  obtain ⟨kek, hget, ho⟩ := hs.made c plain hc
  obtain ⟨kek', hring⟩ := Option.ne_none_iff_exists'.mp hknown
  have hsame := KeyRing.get_of_prefix hs.ring hring
  rw [hget] at hsame
  obtain rfl := Option.some.inj hsame
  exact decryptSecret_ok.mpr ⟨kek, kekOf_get hring, ho⟩

end

/-! ## Runs on fixed inputs -/

@[reducible] def sampleBase64 : Base64 where
  encode data := String.ofList (Base64Text.encode data)
  decode text :=
    match Base64Text.decode text.toList with
    | some data => .ok data
    | none => .error "Invalid symbol"

theorem sampleBase64_lawful : @Base64.Lawful sampleBase64 := by
  intro data
  change (match Base64Text.decode (String.ofList (Base64Text.encode data)).toList with | some data => _ | none => _) = _
  rw [String.toList_ofList, Base64Text.decode_encode]

@[reducible] def sampleRingJson : RingJson where
  toVec list := JsonStrings.write (list.map String.toList)
  fromSlice raw :=
    match JsonStrings.read raw with
    | some list => .ok (list.map String.ofList)
    | none => .error "EOF while parsing"

@[reducible] def sampleAead : Aead where
  encrypt key nonce plain := .ok (key ++ nonce ++ plain)
  decrypt key nonce ct := if ct.take 44 = key ++ nonce then .ok (ct.drop 44) else .error "aead::Error"

theorem mem_encode {data : Bytes} {c : Char} (h : c ∈ Base64Text.encode data) : JsonStrings.Plain c := by
  have hdigit (n i : Nat) : JsonStrings.Plain (Base64Text.sextet n i) := by
    have hall : ∀ i : Fin 64, (Base64Text.digit i).toNat < 128 ∧ Base64Text.digit i ≠ '"' := by decide +kernel
    exact hall ⟨n / 64 ^ i % 64, Nat.mod_lt _ (by decide)⟩
  have hpad : JsonStrings.Plain '=' := ⟨by decide, by decide⟩
  induction data using Base64Text.encode.induct with
  | case1 => cases h
  | case2 a =>
    simp only [Base64Text.encode, List.mem_cons, List.not_mem_nil, or_false] at h
    rcases h with rfl | rfl | rfl | rfl <;> first | exact hdigit _ _ | exact hpad
  | case3 a b =>
    simp only [Base64Text.encode, List.mem_cons, List.not_mem_nil, or_false] at h
    rcases h with rfl | rfl | rfl | rfl <;> first | exact hdigit _ _ | exact hpad
  | case4 a b d data ih =>
    simp only [Base64Text.encode, List.mem_cons] at h
    rcases h with rfl | rfl | rfl | rfl | h
    · exact hdigit _ _
    · exact hdigit _ _
    · exact hdigit _ _
    · exact hdigit _ _
    · exact ih h

section
attribute [local instance] sampleBase64 sampleRingJson sampleAead

theorem sampleRingJson_lawful : RingJson.Lawful := by
  have hplain (keys : List Bytes) : ∀ s ∈ (keys.map Base64.encode).map String.toList, ∀ c ∈ s, JsonStrings.Plain c := by
    intro s hs c hc
    rw [List.map_map] at hs
    obtain ⟨key, _, rfl⟩ := List.mem_map.mp hs
    rw [Function.comp_apply] at hc
    change c ∈ (String.ofList (Base64Text.encode key)).toList at hc
    rw [String.toList_ofList] at hc
    exact mem_encode hc
  refine ⟨?_, ?_⟩
  · intro keys
    change (match JsonStrings.read (JsonStrings.write _) with | some list => _ | none => _) = _
    rw [JsonStrings.read_write (hplain keys)]
    simp [List.map_map]
  · intro keys n h
    refine ⟨"EOF while parsing", ?_⟩
    change (match JsonStrings.read ((JsonStrings.write _).take n) with | some list => _ | none => _) = _
    rw [JsonStrings.read_cut (hplain keys) h]

theorem sampleAead_ideal : Aead.Ideal where
  encrypt key nonce plain _ _ := ⟨_, rfl⟩
  decrypt key nonce plain ct hk hn := by
    have hlen : (key ++ nonce).length = 44 := by rw [List.length_append, hk, hn]
    change (if ct.take 44 = key ++ nonce then Except.ok (ct.drop 44) else _) = _ ↔ Except.ok (key ++ nonce ++ plain) = Except.ok ct
    constructor
    · intro h
      split at h
      · rename_i htake
        obtain rfl := Except.ok.inj h
        rw [← htake, List.take_append_drop]
      · cases h
    · intro h
      obtain rfl := Except.ok.inj h
      rw [if_pos (List.take_left' hlen), List.drop_left' hlen]
  key_inj key key' nonce nonce' plain plain' ct hk hk' hn hn' h h' := by
    have hsame : key ++ nonce ++ plain = key' ++ nonce' ++ plain' := (Except.ok.inj h).trans (Except.ok.inj h').symm
    rw [List.append_assoc, List.append_assoc] at hsame
    exact (List.append_inj hsame (hk.trans hk'.symm)).1

def sampleKek (b : UInt8) : Kek := ⟨List.replicate 32 b, List.length_replicate⟩

def sampleNonce : Nonce := ⟨List.replicate 12 0, rfl⟩

def sampleDraw : Draw := ⟨sampleKek 9, sampleNonce, sampleNonce⟩

theorem current_sample : (KeyRing.new (sampleKek 1)).current = .ok (sampleKek 1) := rfl

theorem secret_lifecycle_sample : ∃ c, encryptSecret (.new (sampleKek 1)) sampleDraw [1, 2, 3] = .ok c ∧
    decryptSecret ((KeyRing.new (sampleKek 1)).push (sampleKek 2)) c = .ok [1, 2, 3] := by
  obtain ⟨c, hc, hgen⟩ := encryptSecret_total sampleAead_ideal sampleDraw [1, 2, 3] current_sample
  have hfirst : VaultStep Vault.AtLongest (.start (sampleKek 1)) _ := .encrypt hc
  have hrun := (Relation.ReflTransGen.single hfirst).tail (.rotate (sampleKek 2) rfl)
  refine ⟨c, hc, (secret_lifecycle sampleAead_ideal sampleBase64_lawful sampleRingJson_lawful (sampleKek 1)).1 _ hrun c _ ?_ ?_⟩
  · exact List.mem_cons_self ..
  · rw [hgen]
    intro h
    cases h

/-- A ring that is loaded from before a rotation, and rotated again, names another key by the generation of a secret. -/
theorem stale_ring_misleads : ¬ ∀ initial s, Relation.ReflTransGen (VaultStep fun _ => True) (Vault.start initial) s →
    ∀ c plain, (c, plain) ∈ s.made → s.ring.get c.dekV ≠ none → decryptSecret s.ring c = .ok plain := by
  intro h
  have hcurrent : ((KeyRing.new (sampleKek 1)).push (sampleKek 2)).current = .ok (sampleKek 2) := rfl
  obtain ⟨c, hc, hgen⟩ := encryptSecret_total sampleAead_ideal sampleDraw [1, 2, 3] hcurrent
  obtain ⟨kek, hkek, dek, _, _, hdek, _⟩ := encryptSecret_opens sampleAead_ideal sampleBase64_lawful hc
  rw [hgen] at hkek
  obtain rfl := Option.some.inj hkek
  have hload := loadRing_saveRing sampleBase64_lawful sampleRingJson_lawful (KeyRing.new (sampleKek 1))
  have hsave : VaultStep (fun _ => True) (.start (sampleKek 1)) _ := .save
  have hrun := ((((Relation.ReflTransGen.single hsave).tail (.rotate (sampleKek 2) trivial)).tail (.encrypt hc)).tail
    (.load hload)).tail (.rotate (sampleKek 3) trivial)
  have hdecrypt := h _ _ hrun c [1, 2, 3] (List.mem_cons_self ..) (by rw [hgen]; intro hnone; cases hnone)
  obtain ⟨kek', hkek', dek', _, _, hdek', _⟩ := decryptSecret_ok.mp hdecrypt
  have hget : ((KeyRing.new (sampleKek 1)).push (sampleKek 3)).get c.dekV = some (sampleKek 3) := by rw [hgen]; rfl
  obtain rfl := Option.some.inj ((kekOf_get hget).symm.trans hkek')
  have hsame := congrArg Subtype.val (unwrapDek_key sampleAead_ideal hdek hdek')
  exact absurd hsame (by decide)

end

end Defing
