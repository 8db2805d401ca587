import Defing.Lib.Lfsr
import Defing.Raft.Crc32

/-!
# The checksum is the bitwise one

The table of a `Crc32` does eight clocks of the reflected register at once, so
the checksum depends on the bits of the payload alone and not on the pieces it
came in, and no change inside 32 consecutive bits goes unseen. The bits of a
payload stand in the order in which the register takes them, the lowest bit of
each byte first.
-/

namespace Defing

def crcPoly : BitVec 32 := 0xEDB88320#32

def bitsOfByte (b : UInt8) : List Bool := (List.range 8).map b.toBitVec.getLsbD

def bitsOf (data : Bytes) : List Bool := data.flatMap bitsOfByte

def bitwiseCrc32 (data : Bytes) : BitVec 32 := Lfsr.run crcPoly 0xFFFFFFFF#32 (bitsOf data) ^^^ 0xFFFFFFFF#32

variable {a b data : Bytes} {c : Crc32}

/-! ## Bits -/

theorem length_bitsOfByte (x : UInt8) : (bitsOfByte x).length = 8 := by
  unfold bitsOfByte
  simp

theorem bitsOf_cons (x : UInt8) (data : Bytes) : bitsOf (x :: data) = bitsOfByte x ++ bitsOf data := by
  unfold bitsOf
  simp

theorem length_bitsOf (data : Bytes) : (bitsOf data).length = 8 * data.length := by
  induction data with
  | nil => rfl
  | cons x data ih => rw [bitsOf_cons, List.length_append, length_bitsOfByte, ih, List.length_cons]; omega

theorem word_bitsOfByte (x : UInt8) : (Lfsr.word (bitsOfByte x) : BitVec 32) = x.toBitVec.setWidth 32 := by
  apply BitVec.eq_of_getLsbD_eq
  intro i hi
  rw [Lfsr.getLsbD_word _ hi, BitVec.getLsbD_setWidth, bitsOfByte]
  by_cases h : i < 8
  · simp [h, hi, List.getD_eq_getElem?_getD]
  · rw [BitVec.getLsbD_of_ge _ i (by omega)]
    simp [List.getD_eq_getElem?_getD, List.getElem?_eq_none (l := (List.range 8).map x.toBitVec.getLsbD) (i := i)
      (by simpa using h)]

theorem bitsOfByte_inj {x y : UInt8} (h : bitsOfByte x = bitsOfByte y) : x = y := by
  have hw := congrArg (Lfsr.word : List Bool → BitVec 32) h
  rw [word_bitsOfByte, word_bitsOfByte] at hw
  apply UInt8.toBitVec_inj.mp
  apply BitVec.eq_of_getLsbD_eq
  intro i hi
  have hb := congrArg (·.getLsbD i) hw
  simpa [BitVec.getLsbD_setWidth, show i < 32 by omega] using hb

theorem bitsOf_inj (h : bitsOf a = bitsOf b) : a = b := by
  induction a generalizing b with
  | nil =>
    have hl := congrArg List.length h
    rw [length_bitsOf, length_bitsOf] at hl
    exact (List.length_eq_zero_iff.mp (by simpa using hl.symm)).symm
  | cons x a ih =>
    cases b with
    | nil =>
      have hl := congrArg List.length h
      rw [length_bitsOf, length_bitsOf] at hl
      simp at hl
    | cons y b =>
      rw [bitsOf_cons, bitsOf_cons] at h
      obtain ⟨hx, hrest⟩ := List.append_inj h (by rw [length_bitsOfByte, length_bitsOfByte])
      rw [bitsOfByte_inj hx, ih hrest]

/-! ## The table -/

namespace Crc32

theorem shift_toBitVec (r : UInt32) : (shift r).toBitVec = Lfsr.shift crcPoly r.toBitVec := by
  have hlow : r &&& 1 ≠ 0 ↔ r.toBitVec.getLsbD 0 = true := by
    have he : (r &&& 1).toBitVec = BitVec.setWidth 32 (BitVec.ofBool (r.toBitVec.getLsbD 0)) := by
      rw [UInt32.toBitVec_and]
      exact BitVec.and_one_eq_setWidth_ofBool_getLsbD
    rw [ne_eq, ← UInt32.toBitVec_inj, he]
    cases r.toBitVec.getLsbD 0 <;> simp
  unfold shift Lfsr.shift
  by_cases h : r &&& 1 ≠ 0
  · rw [if_pos h, if_pos (hlow.mp h), UInt32.toBitVec_xor]
    rfl
  · rw [if_neg h, if_neg (mt hlow.mpr h)]
    rfl

theorem iterate_shift_toBitVec (n : Nat) (r : UInt32) : (shift^[n] r).toBitVec = (Lfsr.shift crcPoly)^[n] r.toBitVec := by
  induction n generalizing r with
  | zero => rfl
  | succ n ih => rw [Function.iterate_succ_apply, Function.iterate_succ_apply, ih, shift_toBitVec]

theorem entry_toBitVec (x : UInt8) :
    (init.table.get ⟨x.toNat, UInt8.toNat_lt _⟩).toBitVec = (Lfsr.shift crcPoly)^[8] (x.toBitVec.setWidth 32) := by
  have he : init.table.get ⟨x.toNat, UInt8.toNat_lt _⟩ = shift^[8] (UInt32.ofNat x.toNat) := Vector.getElem_ofFn _
  have hx : (UInt32.ofNat x.toNat).toBitVec = x.toBitVec.setWidth 32 := by
    apply BitVec.eq_of_toNat_eq
    simp
  rw [he, iterate_shift_toBitVec, hx]

/-- One byte through the table is its eight bits through the register. -/
theorem step_toBitVec (hc : c.table = init.table) (x : UInt8) :
    (c.step x).crc.toBitVec = Lfsr.run crcPoly c.crc.toBitVec (bitsOfByte x) := by
  rw [Lfsr.run_eq _ _ _ (by rw [length_bitsOfByte]; decide), length_bitsOfByte, word_bitsOfByte,
    Lfsr.iterate_shift_table]
  unfold step
  rw [hc, UInt32.toBitVec_xor, entry_toBitVec]
  have hrest : (x.toBitVec.setWidth 32 : BitVec 32) >>> 8 = 0#32 := by
    apply BitVec.eq_of_getLsbD_eq
    intro i _
    rw [BitVec.getLsbD_ushiftRight, BitVec.getLsbD_setWidth, BitVec.getLsbD_of_ge x.toBitVec (8 + i) (by omega)]
    simp
  rw [BitVec.ushiftRight_xor_distrib, hrest, BitVec.xor_zero, BitVec.setWidth_xor, BitVec.setWidth_setWidth_of_le _ (by decide)]
  simp

theorem update_toBitVec (hc : c.table = init.table) (data : Bytes) :
    (c.update data).table = init.table ∧
      (c.update data).crc.toBitVec = Lfsr.run crcPoly c.crc.toBitVec (bitsOf data) := by
  induction data generalizing c with
  | nil => exact ⟨hc, rfl⟩
  | cons x data ih =>
    obtain ⟨ht, hrun⟩ := ih (c := c.step x) hc
    refine ⟨ht, ?_⟩
    rw [bitsOf_cons, Lfsr.run_append, ← step_toBitVec hc x]
    exact hrun

theorem update_flatten (c : Crc32) (chunks : List Bytes) : chunks.foldl update c = c.update chunks.flatten := by
  induction chunks generalizing c with
  | nil => rfl
  | cons chunk chunks ih => rw [List.foldl_cons, ih, List.flatten_cons, update_append]

theorem finish_toBitVec (chunks : List Bytes) :
    (chunks.foldl update init).finish.toBitVec = bitwiseCrc32 chunks.flatten := by
  rw [update_flatten, finish, UInt32.toBitVec_xor, (update_toBitVec rfl _).2]
  rfl

end Crc32

/-! ## Windows -/

theorem cut_window {x y : List Bool} {i n : Nat} (hl : x.length = y.length)
    (h : ∀ j, j < i ∨ i + n ≤ j → x[j]? = y[j]?) :
    ∃ before after u v, x = before ++ u ++ after ∧ y = before ++ v ++ after ∧ u.length = v.length ∧ u.length ≤ n := by
  refine ⟨x.take i, x.drop (i + n), (x.drop i).take n, (y.drop i).take n, ?_, ?_, ?_, ?_⟩
  · rw [← List.drop_drop, List.append_assoc, List.take_append_drop, List.take_append_drop]
  · have htake : x.take i = y.take i := by
      apply List.ext_getElem?
      intro j
      simp only [List.getElem?_take]
      by_cases hj : j < i
      · rw [if_pos hj, if_pos hj, h j (.inl hj)]
      · rw [if_neg hj, if_neg hj]
    have hdrop : x.drop (i + n) = y.drop (i + n) := by
      apply List.ext_getElem?
      intro j
      rw [List.getElem?_drop, List.getElem?_drop, h _ (.inr (by omega))]
    rw [htake, hdrop, ← List.drop_drop, List.append_assoc, List.take_append_drop, List.take_append_drop]
  · simp [hl]
  · simp

/-- The checksum is the bitwise one whatever pieces a payload comes in, so two sides with the same payload agree, and
payloads of one length that differ inside a window of 32 bits have different checksums. -/
theorem crc32_bitwise :
    (∀ chunks : List Bytes, (chunks.foldl Crc32.update Crc32.init).finish.toBitVec = bitwiseCrc32 chunks.flatten) ∧
      (∀ sent received : List Bytes, sent.flatten = received.flatten →
        (sent.foldl Crc32.update Crc32.init).finish = (received.foldl Crc32.update Crc32.init).finish) ∧
      ∀ (sent received : List Bytes) (i : Nat), sent.flatten.length = received.flatten.length →
        sent.flatten ≠ received.flatten →
        (∀ j, j < i ∨ i + 32 ≤ j → (bitsOf sent.flatten)[j]? = (bitsOf received.flatten)[j]?) →
        (sent.foldl Crc32.update Crc32.init).finish ≠ (received.foldl Crc32.update Crc32.init).finish := by
  refine ⟨Crc32.finish_toBitVec, ?_, ?_⟩
  · intro sent received h
    rw [Crc32.update_flatten, Crc32.update_flatten, h]
  · intro sent received i hl hne hout hcrc
    have hlen : (bitsOf sent.flatten).length = (bitsOf received.flatten).length := by
      rw [length_bitsOf, length_bitsOf, hl]
    obtain ⟨before, after, u, v, hu, hv, huv, hn⟩ := cut_window hlen hout
    have hbits := congrArg UInt32.toBitVec hcrc
    rw [Crc32.finish_toBitVec, Crc32.finish_toBitVec, bitwiseCrc32, bitwiseCrc32, hu, hv] at hbits
    have hrun := (BitVec.xor_left_inj _).mp hbits
    have huvne : u ≠ v := by
      intro he
      apply hne
      apply bitsOf_inj
      rw [hu, hv, he]
    have htop : crcPoly.getLsbD (32 - 1) = true := by decide
    exact Lfsr.run_ne htop _ before after huv hn huvne hrun

/-- Two payloads that differ in one bit, each in other pieces. -/
theorem crc32_bitwise_sample :
    ([[0x31], [0x32, 0x33]].foldl Crc32.update Crc32.init).finish = ([[0x31, 0x32], [0x33]].foldl Crc32.update Crc32.init).finish ∧
      ([[0x31], [0x32, 0x33]].foldl Crc32.update Crc32.init).finish ≠
        ([[0x31, 0x33], [0x33]].foldl Crc32.update Crc32.init).finish := by
  refine ⟨crc32_bitwise.2.1 _ _ rfl, crc32_bitwise.2.2 _ _ 8 rfl (by decide) ?_⟩
  have hbefore : ∀ j < 8, (bitsOf [0x31, 0x32, 0x33])[j]? = (bitsOf [0x31, 0x33, 0x33])[j]? := by decide
  intro j hj
  rcases hj with hj | hj
  · exact hbefore j hj
  · rw [List.getElem?_eq_none (by rw [length_bitsOf]; exact Nat.le_trans (by decide) hj),
      List.getElem?_eq_none (by rw [length_bitsOf]; exact Nat.le_trans (by decide) hj)]

end Defing
