import Defing.Raft.Payload

/-!
# What is written is read

Both readers take every file alike, and what the writer makes of pairs that
fit into its format they read as these pairs.
-/

namespace Defing

section
variable [Rmp] {path : String} {file body rest r : Bytes} {budget n item : Nat} {pairs : List Pair}

/-! ## Two readers -/

theorem batches_none {b : PayloadBatches} (h : b.next = none) : b.collect = .ok [] := by
  rw [PayloadBatches.collect.eq_def]
  split <;> simp_all

theorem batches_error {b : PayloadBatches} {e : String} (h : b.next = some (.error e)) : b.collect = .error e := by
  rw [PayloadBatches.collect.eq_def]
  split <;> simp_all

theorem batches_ok {b b' : PayloadBatches} {batch : List Pair} (h : b.next = some (.ok (batch, b'))) :
    b.collect = b'.collect.map (batch :: ·) := by
  rw [PayloadBatches.collect.eq_def]
  split
  · simp_all
  · simp_all
  · rename_i heq
    rw [h] at heq
    obtain ⟨rfl, rfl⟩ := Prod.mk.inj (Except.ok.inj (Option.some.inj heq))
    cases b'.collect <;> rfl

theorem batches_whole (budget : Nat) (pairs : List Pair) :
    ∃ batches, (PayloadBatches.mk (.whole pairs) budget).collect = .ok batches ∧ batches.flatten = pairs := by
  induction h : pairs.length using Nat.strong_induction_on generalizing pairs with
  | _ n ih =>
    have happ := takeBatch_append budget 0 pairs
    by_cases he : (takeBatch budget 0 pairs).1 = []
    · have hnone : (PayloadBatches.mk (.whole pairs) budget).next = none := by
        simp only [PayloadBatches.next]
        exact if_pos he
      exact ⟨[], batches_none hnone, (takeBatch_eq_nil he).symm⟩
    · have hsome : (PayloadBatches.mk (.whole pairs) budget).next =
          some (.ok ((takeBatch budget 0 pairs).1, ⟨.whole (takeBatch budget 0 pairs).2, budget⟩)) := by
        simp only [PayloadBatches.next]
        exact if_neg he
      have hlt : (takeBatch budget 0 pairs).2.length < n := by
        have hlen := congrArg List.length happ
        rw [List.length_append] at hlen
        have hpos := List.length_pos_iff.mpr he
        omega
      obtain ⟨batches, hb, hflat⟩ := ih _ hlt _ rfl
      refine ⟨(takeBatch budget 0 pairs).1 :: batches, ?_, ?_⟩
      · rw [batches_ok hsome, hb]
        rfl
      · rw [List.flatten_cons, hflat, happ]

/-- Items come out of the batches as they are decoded one after the other. -/
theorem batches_msgpack (budget n item : Nat) (r : Bytes) (pairs : List Pair) :
    (∃ batches, (PayloadBatches.mk (.msgpack r n item path) budget).collect = .ok batches ∧ batches.flatten = pairs) ↔
      decodeItems n item r = .ok pairs := by
  induction n using Nat.strong_induction_on generalizing item r pairs with
  | _ n ih =>
    rcases Nat.eq_zero_or_pos n with rfl | hn
    · rw [batches_none (b := ⟨.msgpack r 0 item path, budget⟩) rfl, decodeItems]
      simp [eq_comm]
    · have hnext : (PayloadBatches.mk (.msgpack r n item path) budget).next =
          some (decodeBatch budget path n item 0 r [] >>= fun next =>
            .ok (next.1, ⟨.msgpack next.2.2.2 next.2.1 next.2.2.1 path, budget⟩)) := if_neg (by omega)
      cases hd : decodeBatch budget path n item 0 r [] with
      | error e =>
        obtain ⟨e', he'⟩ := decodeBatch_error hd
        rw [hd] at hnext
        rw [batches_error hnext, he']
        simp
      | ok res =>
        obtain ⟨batch, n', item', r'⟩ := res
        obtain ⟨batch', hbatch, -, hlt, hitems⟩ := decodeBatch_ok hd
        obtain rfl : batch = batch' := hbatch
        rw [hd] at hnext
        rw [batches_ok hnext, hitems]
        have hrest := fun pairs => ih n' (hlt rfl hn) item' r' pairs
        constructor
        · intro h
          obtain ⟨batches, hb, hflat⟩ := h
          obtain ⟨rest, hrun, rfl⟩ := Result.map_ok.mp hb
          exact Result.map_ok.mpr ⟨rest.flatten, (hrest _).mp ⟨rest, hrun, rfl⟩, hflat⟩
        · intro h
          obtain ⟨tail, htail, rfl⟩ := Result.map_ok.mp h
          obtain ⟨batches, hrun, rfl⟩ := (hrest tail).mpr htail
          exact ⟨batch :: batches, Result.map_ok.mpr ⟨batches, hrun, rfl⟩, rfl⟩

section
variable [PairJson]

theorem readPayloadAll_ok :
    readPayloadAll path file budget = .ok pairs ↔
      ∃ b, readPayloadBatches path file budget = .ok b ∧ ∃ batches, b.collect = .ok batches ∧ batches.flatten = pairs := by
  simp only [readPayloadAll, Result.bind_ok, Except.ok.injEq]

/-- An iterator over pairs at hand gives what the other reader gives. -/
theorem all_of_whole (h : readPayloadBatches path file budget =
    (readPayloadPairs file >>= fun pairs => .ok ⟨.whole pairs, max budget 1⟩)) :
    readPayloadAll path file budget = .ok pairs ↔ readPayloadPairs file = .ok pairs := by
  rw [readPayloadAll_ok, h]
  cases hp : readPayloadPairs file with
  | error e =>
    constructor
    · intro ⟨b, hb, _⟩
      cases hb
    · intro hb
      cases hb
  | ok pairs' =>
    obtain ⟨batches, hrun, hflat⟩ := batches_whole (max budget 1) pairs'
    constructor
    · intro ⟨b, hb, batches', hrun', hflat'⟩
      obtain rfl := Except.ok.inj hb
      rw [hrun] at hrun'
      obtain rfl := Except.ok.inj hrun'
      rw [← hflat', hflat]
    · intro hb
      obtain rfl := Except.ok.inj hb
      exact ⟨_, rfl, batches, hrun, hflat⟩

omit [Rmp] [PairJson] in
theorem checkBody_ok {totalLen : UInt64} {crc : UInt32} :
    checkBody totalLen crc body = .ok () ↔ UInt64.ofNat body.length = totalLen ∧ crc32 body = crc := by
  unfold checkBody
  split
  · rename_i hne
    exact ⟨fun h => (by cases h), fun h => absurd h.1 hne⟩
  · rename_i heq
    rw [not_not] at heq
    split
    · rename_i hne
      exact ⟨fun h => (by cases h), fun h => absurd h.2 hne⟩
    · rename_i hcrc
      exact ⟨fun _ => ⟨heq, not_not.mp hcrc⟩, fun _ => rfl⟩

omit [Rmp] [PairJson] in
/-- A body that is checked makes up the whole file together with its header. -/
theorem file_length {totalLen : UInt64} {crc : UInt32} (hl : ¬ (file.take payloadHeaderLen).length < payloadHeaderLen)
    (hc : checkBody totalLen crc (file.drop payloadHeaderLen) = .ok ()) :
    UInt64.ofNat file.length = UInt64.ofNat payloadHeaderLen + totalLen := by
  rw [List.length_take] at hl
  have hlen : file.length = payloadHeaderLen + (file.drop payloadHeaderLen).length := by
    rw [List.length_drop]
    omega
  rw [← (checkBody_ok.mp hc).1, hlen, UInt64.ofNat_add]

section
variable {version flags : UInt8} {totalLen : UInt64} {crc : UInt32} (hm : hasMagic file)
  (hl : ¬ (file.take payloadHeaderLen).length < payloadHeaderLen)
  (hd : decodePayloadHeader (file.take payloadHeaderLen) = .ok (version, flags, totalLen, crc))
include hm hl hd

theorem readPayloadPairs_eq : readPayloadPairs file =
    if flags ≠ 0 then .error (unsupportedFlags flags)
    else
      readPayloadBody version (file.drop payloadHeaderLen) >>= fun pairs =>
      checkBody totalLen crc (file.drop payloadHeaderLen) >>= fun _ => .ok pairs := by
  simp only [readPayloadPairs, if_pos hm, if_neg hl, hd]
  rfl

theorem readPayloadBatches_eq : readPayloadBatches path file budget =
    if flags ≠ 0 then .error (unsupportedFlags flags)
    else if version = payloadVersionMsgpack then
      verifyPayloadFile path file >>= fun _ =>
      if UInt64.ofNat file.length ≠ UInt64.ofNat payloadHeaderLen + totalLen then
        .error (lengthMismatch totalLen (UInt64.ofNat (file.length - payloadHeaderLen)))
      else
        match Rmp.readArrayLen (file.drop payloadHeaderLen) with
        | .error e => .error s!"payload msgpack array header: {e}"
        | .ok (remaining, r) => .ok ⟨.msgpack r remaining.toNat 0 path, max budget 1⟩
    else if version = payloadVersionJson then readPayloadPairs file >>= fun pairs => .ok ⟨.whole pairs, max budget 1⟩
    else .error (unsupportedVersion version) := by
  simp only [readPayloadBatches, if_pos hm, if_neg hl, hd]
  rfl

omit [Rmp] [PairJson] in
theorem verifyPayloadFile_eq (hv : version = payloadVersionMsgpack) : verifyPayloadFile path file =
    (checkBody totalLen crc (file.drop payloadHeaderLen)).mapError fun e => s!"{e} ({path})" := by
  have hno : ¬ (version ≠ payloadVersionJson ∧ version ≠ payloadVersionMsgpack) := fun h => h.2 hv
  rw [verifyPayloadFile, if_neg (not_not.mpr hm), if_neg hl, hd]
  exact if_neg hno

theorem readers_agree_body : readPayloadPairs file = .ok pairs ↔ readPayloadAll path file budget = .ok pairs := by
  by_cases hf : flags ≠ 0
  · have hbatches : readPayloadBatches path file budget = .error (unsupportedFlags flags) := by
      rw [readPayloadBatches_eq hm hl hd, if_pos hf]
    rw [readPayloadPairs_eq hm hl hd, if_pos hf, readPayloadAll, hbatches]
    exact Iff.rfl
  · by_cases hj : version = payloadVersionJson
    · have hne : version ≠ payloadVersionMsgpack := by rw [hj]; decide
      refine (all_of_whole ?_).symm
      rw [readPayloadBatches_eq hm hl hd, if_neg hf, if_neg hne, if_pos hj]
    · by_cases hv : version = payloadVersionMsgpack
      · have hbody : readPayloadBody version (file.drop payloadHeaderLen) = decodeMsgpackPairs (file.drop payloadHeaderLen) := by
          rw [readPayloadBody, if_neg hj, if_pos hv]
        rw [readPayloadPairs_eq hm hl hd, if_neg hf, hbody, readPayloadAll_ok, readPayloadBatches_eq hm hl hd, if_neg hf,
          if_pos hv, verifyPayloadFile_eq hm hl hd hv, Result.bind_ok]
        cases hc : checkBody totalLen crc (file.drop payloadHeaderLen) with
        | error e =>
          constructor
          · intro ⟨_, _, h⟩
            cases h
          · intro ⟨_, h, _⟩
            cases h
        | ok u =>
          change _ ↔ ∃ b, (if UInt64.ofNat file.length ≠ UInt64.ofNat payloadHeaderLen + totalLen then _ else _) = Except.ok b ∧ _
          rw [if_neg (not_not.mpr (file_length hl hc)), decodeMsgpackPairs]
          cases Rmp.readArrayLen (file.drop payloadHeaderLen) with
          | error e =>
            constructor
            · intro ⟨_, h, _⟩
              cases h
            · intro ⟨_, h, _⟩
              cases h
          | ok res =>
            obtain ⟨n, r⟩ := res
            constructor
            · intro ⟨_, hp, h⟩
              obtain rfl := Except.ok.inj h
              exact ⟨_, rfl, (batches_msgpack _ _ _ _ _).mpr hp⟩
            · intro ⟨b, hb, hall⟩
              obtain rfl := Except.ok.inj hb
              exact ⟨pairs, (batches_msgpack _ _ _ _ _).mp hall, rfl⟩
      · have hbatches : readPayloadBatches path file budget = .error (unsupportedVersion version) := by
          rw [readPayloadBatches_eq hm hl hd, if_neg hf, if_neg hv, if_neg hj]
        rw [readPayloadPairs_eq hm hl hd, if_neg hf, readPayloadBody, if_neg hj, if_neg hv, readPayloadAll, hbatches]
        exact ⟨fun h => (by cases h), fun h => (by cases h)⟩

end

/-- Both readers take the same files, and read the same pairs off them. -/
theorem readers_agree (path : String) (file : Bytes) (budget : Nat) (pairs : List Pair) :
    readPayloadPairs file = .ok pairs ↔ readPayloadAll path file budget = .ok pairs := by
  by_cases hm : hasMagic file
  · by_cases hl : (file.take payloadHeaderLen).length < payloadHeaderLen
    · simp only [readPayloadAll, readPayloadPairs, readPayloadBatches, if_pos hm, if_pos hl]
      exact Iff.rfl
    · cases hd : decodePayloadHeader (file.take payloadHeaderLen) with
      | error e =>
        simp only [readPayloadAll, readPayloadPairs, readPayloadBatches, if_pos hm, if_neg hl, hd]
        exact Iff.rfl
      | ok res =>
        obtain ⟨version, flags, totalLen, crc⟩ := res
        exact readers_agree_body hm hl hd
  · refine (all_of_whole ?_).symm
    simp only [readPayloadBatches, if_neg hm]

end

/-! ## What the writer makes -/

def SmallPair (pair : Pair) : Prop := pair.1.length ≤ u32Max ∧ pair.2.length ≤ u32Max

def WithinLimits (pairs : List Pair) : Prop := pairs.length ≤ u32Max ∧ ∀ pair ∈ pairs, SmallPair pair

def items (pairs : List Pair) : Bytes :=
  pairs.flatMap fun (k, v) => Rmp.writeArrayLen 2 ++ Rmp.writeBin k ++ Rmp.writeBin v

theorem writeMsgpackPair_ok {k v : Bytes} :
    writeMsgpackPair k v = .ok r ↔ SmallPair (k, v) ∧ r = Rmp.writeArrayLen 2 ++ Rmp.writeBin k ++ Rmp.writeBin v := by
  unfold writeMsgpackPair SmallPair
  split
  · rename_i h
    constructor
    · intro h
      cases h
    · intro ⟨⟨hk, hv⟩, _⟩
      exact absurd h (not_or.mpr ⟨not_lt.mpr hk, not_lt.mpr hv⟩)
  · rename_i h
    rw [not_or, not_lt, not_lt] at h
    rw [Except.ok.injEq, eq_comm]
    exact ⟨fun e => ⟨h, e⟩, fun hs => hs.2⟩

theorem writePairs_ok : writePairs pairs = .ok r ↔ (∀ pair ∈ pairs, SmallPair pair) ∧ r = items pairs := by
  induction pairs generalizing r with
  | nil => simp [writePairs, items, eq_comm]
  | cons pair pairs ih =>
    obtain ⟨k, v⟩ := pair
    rw [writePairs, Result.bind_ok]
    simp only [Result.bind_ok, writeMsgpackPair_ok, ih, List.forall_mem_cons, Except.ok.injEq, items, List.flatMap_cons]
    constructor
    · intro ⟨item, ⟨hs, hitem⟩, rest, ⟨hall, hrest⟩, hr⟩
      exact ⟨⟨hs, hall⟩, by rw [← hr, hitem, hrest]⟩
    · intro ⟨⟨hs, hall⟩, hr⟩
      exact ⟨_, ⟨hs, rfl⟩, _, ⟨hall, rfl⟩, hr.symm⟩

theorem writePages_ok {pages : List (List Pair)} :
    writePages pages = .ok r ↔ (∀ pair ∈ pages.flatten, SmallPair pair) ∧ r = items pages.flatten := by
  induction pages generalizing r with
  | nil => simp [writePages, items, eq_comm]
  | cons page pages ih =>
    rw [writePages, Result.bind_ok]
    simp only [Result.bind_ok, writePairs_ok, ih, List.flatten_cons, List.forall_mem_append, Except.ok.injEq, items,
      List.flatMap_append]
    constructor
    · intro ⟨item, ⟨hs, hitem⟩, rest, ⟨hall, hrest⟩, hr⟩
      exact ⟨⟨hs, hall⟩, by rw [← hr, hitem, hrest]⟩
    · intro ⟨⟨hs, hall⟩, hr⟩
      exact ⟨_, ⟨hs, rfl⟩, _, ⟨hall, rfl⟩, hr.symm⟩

def payloadBody (pairs : List Pair) : Bytes := Rmp.writeArrayLen (UInt32.ofNat pairs.length) ++ items pairs

theorem writeBody_ok {pages : List (List Pair)} :
    writeBody pages.flatten.length pages = .ok body ↔ WithinLimits pages.flatten ∧ body = payloadBody pages.flatten := by
  unfold writeBody WithinLimits
  split
  · exact ⟨fun h => (by cases h), fun h => by omega⟩
  · rename_i hlen
    rw [not_lt] at hlen
    simp only [Result.bind_ok, writePages_ok, Except.ok.injEq, payloadBody, hlen, true_and]
    constructor
    · intro ⟨r, ⟨hs, hr⟩, hb⟩
      exact ⟨hs, by rw [← hb, hr]⟩
    · intro ⟨hs, hb⟩
      exact ⟨_, ⟨hs, rfl⟩, hb.symm⟩

def payloadFile (body : Bytes) : Bytes :=
  encodePayloadHeader payloadVersionMsgpack 0 (UInt64.ofNat body.length) (crc32 body) ++ body

theorem writePayloadV2_ok {pages : List (List Pair)} :
    writePayloadV2 pages.flatten.length pages = .ok file ↔
      WithinLimits pages.flatten ∧ file = payloadFile (payloadBody pages.flatten) := by
  rw [writePayloadV2, Result.bind_ok]
  simp only [writeBody_ok, Except.ok.injEq]
  constructor
  · intro ⟨body, ⟨hs, hb⟩, hf⟩
    exact ⟨hs, by rw [← hf, hb]; rfl⟩
  · intro ⟨hs, hf⟩
    exact ⟨_, ⟨hs, rfl⟩, hf.symm⟩

/-! ## And how it is read -/

omit [Rmp] in
theorem length_encodePayloadHeader (version flags : UInt8) (totalLen : UInt64) (crc : UInt32) :
    (encodePayloadHeader version flags totalLen crc).length = payloadHeaderLen := by
  simp [encodePayloadHeader, payloadMagic, payloadHeaderLen]

omit [Rmp] in
theorem decodePayloadHeader_encode (version flags : UInt8) (totalLen : UInt64) (crc : UInt32) :
    decodePayloadHeader (encodePayloadHeader version flags totalLen crc) = .ok (version, flags, totalLen, crc) := by
  have hlen : UInt64.ofNat (Bytes.ofLe (Bytes.le 8 totalLen.toNat)) = totalLen := by
    have hlt : totalLen.toNat < 256 ^ 8 := totalLen.toNat_lt
    rw [Bytes.ofLe_le, Nat.mod_eq_of_lt hlt, UInt64.ofNat_toNat]
  have hcrc : UInt32.ofNat (Bytes.ofLe (Bytes.le 4 crc.toNat)) = crc := by
    have hlt : crc.toNat < 256 ^ 4 := crc.toNat_lt
    rw [Bytes.ofLe_le, Nat.mod_eq_of_lt hlt, UInt32.ofNat_toNat]
  have h8 : (encodePayloadHeader version flags totalLen crc).drop 8 = Bytes.le 8 totalLen.toNat ++ Bytes.le 4 crc.toNat := rfl
  have h16 : (encodePayloadHeader version flags totalLen crc).drop 16 = Bytes.le 4 crc.toNat := rfl
  have htake : (Bytes.le 8 totalLen.toNat ++ Bytes.le 4 crc.toNat).take 8 = Bytes.le 8 totalLen.toNat :=
    List.take_left' (Bytes.length_le 8 _)
  have htake' : (Bytes.le 4 crc.toNat).take 4 = Bytes.le 4 crc.toNat := List.take_of_length_le (by simp)
  have hmagic : (encodePayloadHeader version flags totalLen crc).take 6 = payloadMagic := rfl
  rw [decodePayloadHeader, if_neg (not_not.mpr hmagic), h8, h16, htake, htake', hlen, hcrc]
  rfl

theorem decodeMsgpackBin_written (hr : Rmp.Lawful) {data : Bytes} (h : data.length ≤ u32Max) (rest : Bytes) (item : Nat) :
    decodeMsgpackBin (Rmp.writeBin data ++ rest) item = .ok (data, rest) := by
  have hlt : data.length < 2 ^ 32 := Nat.lt_succ_of_le h
  have hlen : (UInt32.ofNat data.length).toNat = data.length := by
    rw [UInt32.toNat_ofNat']
    exact Nat.mod_eq_of_lt hlt
  have htake : (data ++ rest).take data.length = data := List.take_left
  have hdrop : (data ++ rest).drop data.length = rest := List.drop_left
  rw [decodeMsgpackBin, hr.bin data rest hlt]
  simp only [hlen, htake, hdrop]
  exact if_neg (not_not.mpr rfl)

theorem decodeMsgpackPair_written (hr : Rmp.Lawful) {k v : Bytes} (h : SmallPair (k, v)) (rest : Bytes) (item : Nat) :
    decodeMsgpackPair (Rmp.writeArrayLen 2 ++ Rmp.writeBin k ++ Rmp.writeBin v ++ rest) item = .ok ((k, v), rest) := by
  rw [List.append_assoc, List.append_assoc, decodeMsgpackPair, hr.arrayLen]
  simp only [ne_eq, not_true_eq_false, if_false]
  rw [decodeMsgpackBin_written hr h.1]
  change (decodeMsgpackBin (Rmp.writeBin v ++ rest) item >>= fun read => Except.ok ((k, read.1), read.2)) = _
  rw [decodeMsgpackBin_written hr h.2]
  rfl

theorem decodeItems_items (hr : Rmp.Lawful) (h : ∀ pair ∈ pairs, SmallPair pair) (item : Nat) :
    decodeItems pairs.length item (items pairs) = .ok pairs := by
  induction pairs generalizing item with
  | nil => rfl
  | cons pair pairs ih =>
    obtain ⟨k, v⟩ := pair
    rw [List.forall_mem_cons] at h
    have hitems : items ((k, v) :: pairs) = Rmp.writeArrayLen 2 ++ Rmp.writeBin k ++ Rmp.writeBin v ++ items pairs := rfl
    rw [List.length_cons, decodeItems, hitems, decodeMsgpackPair_written hr h.1]
    change (decodeItems pairs.length (item + 1) (items pairs) >>= fun rest => Except.ok ((k, v) :: rest)) = _
    rw [ih h.2]
    rfl

theorem decodeMsgpackPairs_body (hr : Rmp.Lawful) (h : WithinLimits pairs) :
    decodeMsgpackPairs (payloadBody pairs) = .ok pairs := by
  have hlen : (UInt32.ofNat pairs.length).toNat = pairs.length := by
    rw [UInt32.toNat_ofNat']
    exact Nat.mod_eq_of_lt (Nat.lt_succ_of_le h.1)
  rw [decodeMsgpackPairs, payloadBody, hr.arrayLen]
  simp only [hlen]
  exact decodeItems_items hr h.2 0

section
variable [PairJson]

theorem readPayloadPairs_file (hr : Rmp.Lawful) (h : WithinLimits pairs) :
    readPayloadPairs (payloadFile (payloadBody pairs)) = .ok pairs := by
  have hhead := length_encodePayloadHeader payloadVersionMsgpack 0 (UInt64.ofNat (payloadBody pairs).length)
    (crc32 (payloadBody pairs))
  have htake : (payloadFile (payloadBody pairs)).take payloadHeaderLen =
      encodePayloadHeader payloadVersionMsgpack 0 (UInt64.ofNat (payloadBody pairs).length) (crc32 (payloadBody pairs)) :=
    List.take_left' hhead
  have hdrop : (payloadFile (payloadBody pairs)).drop payloadHeaderLen = payloadBody pairs := List.drop_left' hhead
  have hm : hasMagic (payloadFile (payloadBody pairs)) := rfl
  rw [readPayloadPairs_eq hm (by rw [htake, hhead]; exact lt_irrefl _) (by rw [htake]; exact decodePayloadHeader_encode ..),
    if_neg (by simp), hdrop, readPayloadBody, if_neg (by decide), if_pos rfl, decodeMsgpackPairs_body hr h,
    checkBody_ok.mpr ⟨rfl, rfl⟩]
  rfl

theorem readPayloadPairs_json (hj : PairJson.Reads pairs) : readPayloadPairs (writePayloadV1 pairs) = .ok pairs := by
  have hm : ¬ hasMagic (writePayloadV1 pairs) := by
    intro h
    have hhead := hj.array
    rw [hasMagic, writePayloadV1] at h
    cases hv : PairJson.toVec pairs with
    | nil =>
      rw [hv] at h
      cases h
    | cons b r =>
      rw [hv] at h hhead
      obtain rfl := Option.some.inj hhead
      exact absurd (List.cons.inj h).1 (by decide)
  rw [readPayloadPairs, if_neg hm]
  exact hj.read

/-- The payload of any pairs, in any pages, reads back in both ways; one that the format has no room for is not
written; the JSON of before reads back, too; and no file is read in one way that is not in the other. -/
theorem payload_codec (pairs : List Pair) (hr : Rmp.Lawful) (hj : PairJson.Reads pairs) :
    (∀ pages : List (List Pair), pages.flatten = pairs →
      (WithinLimits pairs → ∃ file, writePayloadV2 pairs.length pages = .ok file ∧ readPayloadPairs file = .ok pairs ∧
        ∀ path budget, readPayloadAll path file budget = .ok pairs) ∧
      (¬ WithinLimits pairs → ∃ e, writePayloadV2 pairs.length pages = .error e)) ∧
    (readPayloadPairs (writePayloadV1 pairs) = .ok pairs ∧
      ∀ path budget, readPayloadAll path (writePayloadV1 pairs) budget = .ok pairs) ∧
    ∀ path file budget pairs', readPayloadPairs file = .ok pairs' ↔ readPayloadAll path file budget = .ok pairs' := by
  have hjson := readPayloadPairs_json hj
  refine ⟨fun pages hpages => ⟨fun h => ?_, fun h => ?_⟩, ⟨hjson, fun path budget => (readers_agree ..).mp hjson⟩, readers_agree⟩
  · have hread := readPayloadPairs_file hr h
    refine ⟨_, ?_, hread, fun path budget => (readers_agree ..).mp hread⟩
    subst hpages
    exact writePayloadV2_ok.mpr ⟨h, rfl⟩
  · subst hpages
    cases hw : writePayloadV2 pages.flatten.length pages with
    | error e => exact ⟨e, rfl⟩
    | ok file => exact absurd (writePayloadV2_ok.mp hw).1 h

end

end

/-! ## Runs on fixed inputs -/

def sampleLen (width : Nat) (r : Bytes) : Except String (UInt32 × Bytes) :=
  if r.length < width then .error "failed to fill whole buffer"
  else .ok (UInt32.ofNat (Bytes.ofBe (r.take width)), r.drop width)

def sampleWriteArrayLen (n : UInt32) : Bytes :=
  if n.toNat < 16 then [UInt8.ofNat (0x90 + n.toNat)]
  else if n.toNat < 2 ^ 16 then 0xDC :: Bytes.be 2 n.toNat
  else 0xDD :: Bytes.be 4 n.toNat

def sampleWriteBinLen (n : Nat) : Bytes :=
  if n < 2 ^ 8 then 0xC4 :: Bytes.be 1 n
  else if n < 2 ^ 16 then 0xC5 :: Bytes.be 2 n
  else 0xC6 :: Bytes.be 4 n

def sampleReadArrayLen : Bytes → Except String (UInt32 × Bytes)
  | [] => .error "failed to read MessagePack marker"
  | m :: r =>
    if 0x90 ≤ m.toNat ∧ m.toNat < 0xA0 then .ok (UInt32.ofNat (m.toNat - 0x90), r)
    else if m = 0xDC then sampleLen 2 r
    else if m = 0xDD then sampleLen 4 r
    else .error "the type decoded isn't match with the expected one"

def sampleReadBinLen : Bytes → Except String (UInt32 × Bytes)
  | [] => .error "failed to read MessagePack marker"
  | m :: r =>
    if m = 0xC4 then sampleLen 1 r
    else if m = 0xC5 then sampleLen 2 r
    else if m = 0xC6 then sampleLen 4 r
    else .error "the type decoded isn't match with the expected one"

/-- The lengths of MessagePack, each after the smallest marker that has room for it. -/
@[reducible] def sampleRmp : Rmp where
  writeArrayLen := sampleWriteArrayLen
  writeBin data := sampleWriteBinLen data.length ++ data
  readArrayLen := sampleReadArrayLen
  readBinLen := sampleReadBinLen

theorem sampleLen_be {w n : Nat} (h : n < 256 ^ w) (rest : Bytes) :
    sampleLen w (Bytes.be w n ++ rest) = .ok (UInt32.ofNat n, rest) := by
  have hlen : ¬ (Bytes.be w n ++ rest).length < w := by
    rw [List.length_append, Bytes.length_be]
    omega
  have htake : (Bytes.be w n ++ rest).take w = Bytes.be w n := List.take_left' (Bytes.length_be ..)
  have hdrop : (Bytes.be w n ++ rest).drop w = rest := List.drop_left' (Bytes.length_be ..)
  rw [sampleLen, if_neg hlen, htake, hdrop, Bytes.ofBe_be, Nat.mod_eq_of_lt h]

theorem sampleReadArrayLen_write (n : UInt32) (rest : Bytes) :
    sampleReadArrayLen (sampleWriteArrayLen n ++ rest) = .ok (n, rest) := by
  have hn : UInt32.ofNat n.toNat = n := UInt32.ofNat_toNat
  unfold sampleWriteArrayLen
  by_cases h4 : n.toNat < 16
  · have hm : (UInt8.ofNat (0x90 + n.toNat)).toNat = 0x90 + n.toNat := by
      rw [UInt8.toNat_ofNat']
      omega
    rw [if_pos h4, List.cons_append, sampleReadArrayLen, hm, if_pos (by omega), Nat.add_sub_cancel_left, hn]
    rfl
  · by_cases h16 : n.toNat < 2 ^ 16
    · rw [if_neg h4, if_pos h16]
      exact (sampleLen_be (w := 2) h16 rest).trans (by rw [hn])
    · rw [if_neg h4, if_neg h16]
      exact (sampleLen_be (w := 4) n.toNat_lt rest).trans (by rw [hn])

theorem sampleReadBinLen_write {n : Nat} (h : n < 2 ^ 32) (rest : Bytes) :
    sampleReadBinLen (sampleWriteBinLen n ++ rest) = .ok (UInt32.ofNat n, rest) := by
  unfold sampleWriteBinLen
  by_cases h8 : n < 2 ^ 8
  · rw [if_pos h8]
    exact sampleLen_be (w := 1) h8 rest
  · by_cases h16 : n < 2 ^ 16
    · rw [if_neg h8, if_pos h16]
      exact sampleLen_be (w := 2) h16 rest
    · rw [if_neg h8, if_neg h16]
      exact sampleLen_be (w := 4) h rest

section
attribute [local instance] sampleRmp

theorem sampleRmp_lawful : Rmp.Lawful where
  arrayLen := sampleReadArrayLen_write
  bin data rest h := by
    change sampleReadBinLen (sampleWriteBinLen data.length ++ data ++ rest) = _
    rw [List.append_assoc]
    exact sampleReadBinLen_write h (data ++ rest)

def sampleArray (texts : List Bytes) : Bytes := 0x5B :: (texts.intersperse [0x2C]).flatten ++ [0x5D]

def sampleText (data : Bytes) : Bytes :=
  sampleArray (data.map fun b => (Nat.toDigits 10 b.toNat).map fun c => UInt8.ofNat c.toNat)

def samplePairs : List Pair := [([0x6B], [1, 2]), ([0x6C], [])]

@[reducible] def samplePairJson : PairJson where
  toVec pairs := sampleArray (pairs.map fun (k, v) => sampleArray [sampleText k, sampleText v])
  fromReader r :=
    if r = sampleArray (samplePairs.map fun (k, v) => sampleArray [sampleText k, sampleText v]) then .ok samplePairs
    else .error "expected value"

attribute [local instance] samplePairJson

theorem samplePairs_read : PairJson.Reads samplePairs where
  array := rfl
  read := if_pos rfl

theorem payload_codec_sample :
    ∃ file, writePayloadV2 2 [[([0x6B], [1, 2])], [], [([0x6C], [])]] = .ok file ∧ readPayloadPairs file = .ok samplePairs ∧
      ∀ path budget, readPayloadAll path file budget = .ok samplePairs := by
  have hsmall : WithinLimits samplePairs := by
    refine ⟨by decide, fun pair hpair => ?_⟩
    simp only [samplePairs, List.mem_cons, List.not_mem_nil, or_false] at hpair
    rcases hpair with rfl | rfl
    · exact ⟨by decide, by decide⟩
    · exact ⟨by decide, by decide⟩
  exact ((payload_codec samplePairs sampleRmp_lawful samplePairs_read).1 [[([0x6B], [1, 2])], [], [([0x6C], [])]] rfl).1 hsmall

/-- A list of pairs that is too long for the format is not written. -/
theorem payload_too_long : ¬ ∀ (pairs : List Pair) (pages : List (List Pair)), pages.flatten = pairs →
    ∃ file, writePayloadV2 pairs.length pages = .ok file ∧ readPayloadPairs file = .ok pairs := by
  intro h
  have hlong : ∀ pages : List (List Pair), u32Max < pages.flatten.length → ∀ file,
      writePayloadV2 pages.flatten.length pages ≠ .ok file := by
    intro pages hlen file hw
    exact absurd (writePayloadV2_ok.mp hw).1.1 (by omega)
  obtain ⟨file, hfile, -⟩ := h _ [List.replicate (2 ^ 32) ([], [])] rfl
  refine hlong _ ?_ file hfile
  rw [List.flatten_singleton, List.length_replicate, u32Max]
  omega

end

end Defing
