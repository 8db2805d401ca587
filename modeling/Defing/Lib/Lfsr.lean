import Mathlib.Data.List.Basic
import Mathlib.Logic.Function.Iterate

/-!
# Shift registers with feedback

A register of `w` bits that takes its input bit by bit at the low end and feeds
a polynomial back, as reflected checksums do. The feedback is linear, so a few
bits can be added all at once before the register is clocked (`run_eq`); where
the polynomial has its top bit no clock loses anything, and inputs that differ
in one window no longer than the register end in different states (`run_ne`).
-/

namespace Lfsr

variable {w : Nat} (poly : BitVec w)

def shift (r : BitVec w) : BitVec w := if r.getLsbD 0 then (r >>> 1) ^^^ poly else r >>> 1

def bit (b : Bool) : BitVec w := if b then 1#w else 0#w

def clock (r : BitVec w) (b : Bool) : BitVec w := shift poly (r ^^^ bit b)

def run (r : BitVec w) (bits : List Bool) : BitVec w := bits.foldl (clock poly) r

def word : List Bool → BitVec w
  | [] => 0#w
  | b :: bits => bit b ^^^ (word bits <<< 1)

theorem run_append (r : BitVec w) (a b : List Bool) : run poly r (a ++ b) = run poly (run poly r a) b :=
  List.foldl_append

/-! ## Linearity -/

theorem xor_cancel (a b p : BitVec w) : a ^^^ p ^^^ (b ^^^ p) = a ^^^ b := by
  apply BitVec.eq_of_getLsbD_eq
  intro i _
  simp only [BitVec.getLsbD_xor]
  cases a.getLsbD i <;> cases b.getLsbD i <;> cases p.getLsbD i <;> rfl

theorem shift_xor (a b : BitVec w) : shift poly (a ^^^ b) = shift poly a ^^^ shift poly b := by
  unfold shift
  simp only [BitVec.getLsbD_xor, BitVec.ushiftRight_xor_distrib]
  by_cases ha : a.getLsbD 0
  · by_cases hb : b.getLsbD 0
    · simp only [ha, hb, Bool.xor_self, Bool.false_eq_true, if_false, if_true, xor_cancel]
    · simp only [ha, hb, Bool.xor_false, Bool.false_eq_true, if_false, if_true]
      ac_rfl
  · by_cases hb : b.getLsbD 0
    · simp only [ha, hb, Bool.false_xor, Bool.false_eq_true, if_false, if_true]
      ac_rfl
    · simp only [ha, hb, Bool.xor_self, Bool.false_eq_true, if_false]

theorem iterate_shift_xor (n : Nat) (a b : BitVec w) :
    (shift poly)^[n] (a ^^^ b) = (shift poly)^[n] a ^^^ (shift poly)^[n] b := by
  induction n with
  | zero => rfl
  | succ n ih => rw [Function.iterate_succ_apply', ih, shift_xor, Function.iterate_succ_apply',
      Function.iterate_succ_apply']

theorem shift_of_low (r : BitVec w) (h : r.getLsbD 0 = false) : shift poly r = r >>> 1 := by
  unfold shift
  rw [h]
  simp

theorem iterate_shift_of_low (r : BitVec w) (n : Nat) (h : ∀ i < n, r.getLsbD i = false) :
    (shift poly)^[n] r = r >>> n := by
  induction n with
  | zero => simp
  | succ n ih =>
    rw [Function.iterate_succ_apply', ih fun i hi => h i (by omega), shift_of_low, BitVec.shiftRight_add]
    rw [BitVec.getLsbD_ushiftRight]
    exact h n (by omega)

/-- Clocks by a table: the entry of the low bits, and the others moved down. -/
theorem iterate_shift_table (r : BitVec w) (n : Nat) :
    (shift poly)^[n] r = (shift poly)^[n] ((r.setWidth n).setWidth w) ^^^ (r >>> n) := by
  have hsplit : r = (r.setWidth n).setWidth w ^^^ ((r >>> n) <<< n) := by
    apply BitVec.eq_of_getLsbD_eq
    intro i hi
    simp only [BitVec.getLsbD_xor, BitVec.getLsbD_setWidth, BitVec.getLsbD_shiftLeft, BitVec.getLsbD_ushiftRight]
    by_cases h : i < n
    · simp [h, hi]
    · simp [h, hi, Nat.add_sub_cancel' (Nat.le_of_not_lt h)]
  have hlow : ∀ i < n, ((r >>> n) <<< n).getLsbD i = false := by
    intro i hi
    rw [BitVec.getLsbD_shiftLeft]
    simp [hi]
  have hback : ((r >>> n) <<< n) >>> n = r >>> n := by
    apply BitVec.eq_of_getLsbD_eq
    intro i _
    simp only [BitVec.getLsbD_shiftLeft, BitVec.getLsbD_ushiftRight]
    by_cases h : n + i < w
    · simp [h]
    · simp [h, BitVec.getLsbD_of_ge r (n + i) (by omega)]
  conv_lhs => rw [hsplit]
  rw [iterate_shift_xor, iterate_shift_of_low poly _ n hlow, hback]

/-! ## Words -/

theorem getLsbD_bit (b : Bool) (i : Nat) : (bit b : BitVec w).getLsbD i = (b && decide (i = 0) && decide (i < w)) := by
  unfold bit
  cases b
  · simp
  · simp only [if_true, Bool.true_and, BitVec.getLsbD_one]
    by_cases hi : i = 0
    · subst hi; simp
    · simp [hi]

theorem getLsbD_word (bits : List Bool) {i : Nat} (hi : i < w) :
    (word bits : BitVec w).getLsbD i = bits.getD i false := by
  induction bits generalizing i with
  | nil => simp [word]
  | cons b bits ih =>
    rw [word, BitVec.getLsbD_xor, getLsbD_bit, BitVec.getLsbD_shiftLeft]
    cases i with
    | zero => simp [hi]
    | succ i => simp [hi, ih (i := i) (by omega)]

theorem word_inj {a b : List Bool} (hl : a.length = b.length) (hw : a.length ≤ w)
    (h : (word a : BitVec w) = word b) : a = b := by
  apply List.ext_getElem hl
  intro i ha hb
  have hi : i < w := by omega
  have := congrArg (·.getLsbD i) h
  simp only [getLsbD_word _ hi] at this
  simpa [List.getD_eq_getElem?_getD, ha, hb] using this

/-- Up to as many bits as the register has are added before the clocks as well as one by one. -/
theorem run_eq (r : BitVec w) (bits : List Bool) (h : bits.length ≤ w) :
    run poly r bits = (shift poly)^[bits.length] (r ^^^ word bits) := by
  induction bits generalizing r with
  | nil => simp [run, word]
  | cons b bits ih =>
    simp only [List.length_cons] at h
    have hlow : (word bits <<< 1 : BitVec w).getLsbD 0 = false := by
      rw [BitVec.getLsbD_shiftLeft]
      simp
    have hback : (word bits <<< 1 : BitVec w) >>> 1 = word bits := by
      apply BitVec.eq_of_getLsbD_eq
      intro i hi
      rw [BitVec.getLsbD_ushiftRight, BitVec.getLsbD_shiftLeft]
      by_cases hn : 1 + i < w
      · simp [hn]
      · have hout : bits.getD i false = false := by
          simp [List.getD_eq_getElem?_getD, List.getElem?_eq_none (show bits.length ≤ i by omega)]
        rw [getLsbD_word _ hi, hout]
        simp [hn]
    have hstep : run poly r (b :: bits) = run poly (clock poly r b) bits := rfl
    rw [hstep, ih _ (by omega), List.length_cons, Function.iterate_succ_apply, clock, word, ← BitVec.xor_assoc,
      shift_xor poly (r ^^^ bit b), shift_of_low poly _ hlow, hback]

/-! ## Windows -/

section
variable {poly} (hp : poly.getLsbD (w - 1) = true)
include hp

theorem shift_injective : Function.Injective (shift poly) := by
  have hw : 0 < w := by
    by_contra h
    have : w = 0 := by omega
    subst this
    simp at hp
  -- the top bit of the result says whether the polynomial was fed back
  have htop : ∀ r : BitVec w, (shift poly r).getLsbD (w - 1) = r.getLsbD 0 := by
    intro r
    have hout : (r >>> 1).getLsbD (w - 1) = false := by
      rw [BitVec.getLsbD_ushiftRight]
      exact BitVec.getLsbD_of_ge _ _ (by omega)
    unfold shift
    by_cases h : r.getLsbD 0
    · rw [if_pos h, BitVec.getLsbD_xor, hout, hp, h]
      rfl
    · rw [if_neg h, hout]
      simpa using h
  intro a b h
  have h0 : a.getLsbD 0 = b.getLsbD 0 := by rw [← htop, h, htop]
  have h1 : a >>> 1 = b >>> 1 := by
    unfold shift at h
    rw [h0] at h
    by_cases hb : b.getLsbD 0
    · rw [if_pos hb, if_pos hb] at h
      exact (BitVec.xor_left_inj poly).mp h
    · rwa [if_neg hb, if_neg hb] at h
  apply BitVec.eq_of_getLsbD_eq
  intro i hi
  cases i with
  | zero => exact h0
  | succ i =>
    have := congrArg (·.getLsbD i) h1
    simp only [BitVec.getLsbD_ushiftRight] at this
    rwa [Nat.add_comm] at this

theorem run_injective (bits : List Bool) : Function.Injective fun r => run poly r bits := by
  induction bits with
  | nil => exact Function.injective_id
  | cons b bits ih =>
    intro r r' h
    have hclock : clock poly r b = clock poly r' b := ih h
    exact (BitVec.xor_left_inj _).mp (shift_injective hp hclock)

/-- Different bits in one window that the register is wide enough for leave different states. -/
theorem run_ne (r : BitVec w) {x y : List Bool} (before after : List Bool) (hl : x.length = y.length)
    (hw : x.length ≤ w) (hne : x ≠ y) : run poly r (before ++ x ++ after) ≠ run poly r (before ++ y ++ after) := by
  intro h
  rw [run_append, run_append, run_append, run_append] at h
  have hx := run_injective hp after h
  rw [run_eq poly _ x hw, run_eq poly _ y (by omega), hl] at hx
  have hword := (BitVec.xor_right_inj _).mp ((shift_injective hp).iterate _ hx)
  exact hne (word_inj hl hw hword)

end

end Lfsr
