import Defing.Lib.Bytes
import Mathlib.Data.List.Basic

/-!
# Lists of plain strings in JSON

The compact JSON of a list of strings of ASCII characters that need no escape.
No proper beginning of such a text is the text of a list.
-/

namespace JsonStrings

def byte (c : Char) : UInt8 := UInt8.ofNat c.toNat

/-- A character that stands for itself. -/
def Plain (c : Char) : Prop := c.toNat < 128 ∧ c ≠ '"'

def writeRest : List (List Char) → Bytes
  | [] => [0x5D]
  | s :: l => 0x2C :: 0x22 :: s.map byte ++ 0x22 :: writeRest l

def write : List (List Char) → Bytes
  | [] => [0x5B, 0x5D]
  | s :: l => 0x5B :: 0x22 :: s.map byte ++ 0x22 :: writeRest l

def readChars : Bytes → Option (List Char × Bytes)
  | [] => none
  | b :: bs => if b = 0x22 then some ([], bs) else (readChars bs).map fun r => (Char.ofNat b.toNat :: r.1, r.2)

def readRest : (fuel : Nat) → Bytes → Option (List (List Char))
  | 0, _ => none
  | _ + 1, [0x5D] => some []
  | fuel + 1, 0x2C :: 0x22 :: bs => do
    let (s, bs) ← readChars bs
    let l ← readRest fuel bs
    some (s :: l)
  | _ + 1, _ => none

def read : Bytes → Option (List (List Char))
  | [0x5B, 0x5D] => some []
  | 0x5B :: 0x22 :: bs => do
    let (s, bs) ← readChars bs
    let l ← readRest bs.length bs
    some (s :: l)
  | _ => none

theorem toNat_byte {c : Char} (h : Plain c) : (byte c).toNat = c.toNat := by
  rw [byte, UInt8.toNat_ofNat']
  exact Nat.mod_eq_of_lt (Nat.lt_trans h.1 (by decide))

theorem byte_ne {c : Char} (h : Plain c) : byte c ≠ 0x22 := by
  intro hb
  have hn := toNat_byte h
  rw [hb] at hn
  refine h.2 (Char.ext (UInt32.toNat_inj.mp ?_))
  exact hn.symm

theorem ofNat_byte {c : Char} (h : Plain c) : Char.ofNat (byte c).toNat = c := by
  rw [toNat_byte h, Char.ofNat_toNat]

theorem readChars_write {s : List Char} (hs : ∀ c ∈ s, Plain c) (bs : Bytes) :
    readChars (s.map byte ++ 0x22 :: bs) = some (s, bs) := by
  induction s with
  | nil => rfl
  | cons c s ih =>
    obtain ⟨hc, hs⟩ := List.forall_mem_cons.mp hs
    rw [List.map_cons, List.cons_append, readChars, if_neg (byte_ne hc), ih hs, ofNat_byte hc]
    rfl

theorem readChars_cut {s : List Char} (hs : ∀ c ∈ s, Plain c) (n : Nat) : readChars ((s.map byte).take n) = none := by
  induction s generalizing n with
  | nil =>
    rw [List.map_nil, List.take_nil]
    rfl
  | cons c s ih =>
    obtain ⟨hc, hs⟩ := List.forall_mem_cons.mp hs
    cases n with
    | zero => rfl
    | succ n =>
      rw [List.map_cons, List.take_succ_cons, readChars, if_neg (byte_ne hc), ih hs]
      rfl

variable {l : List (List Char)}

theorem readRest_write (hl : ∀ s ∈ l, ∀ c ∈ s, Plain c) (fuel : Nat) (h : (writeRest l).length ≤ fuel) :
    readRest fuel (writeRest l) = some l := by
  induction l generalizing fuel with
  | nil =>
    obtain ⟨fuel, rfl⟩ := Nat.exists_eq_add_of_lt (Nat.lt_of_lt_of_le Nat.one_pos h)
    rw [Nat.zero_add]
    rfl
  | cons s l ih =>
    obtain ⟨hs, hl⟩ := List.forall_mem_cons.mp hl
    simp only [writeRest, List.length_cons, List.length_append, List.length_map] at h
    obtain ⟨fuel, rfl⟩ : ∃ k, fuel = k + 1 := ⟨fuel - 1, by omega⟩
    have hread := ih hl fuel (by omega)
    simp only [writeRest, List.cons_append, readRest, readChars_write hs, Option.bind_eq_bind, Option.bind_some, hread]

theorem read_write (hl : ∀ s ∈ l, ∀ c ∈ s, Plain c) : read (write l) = some l := by
  cases l with
  | nil => rfl
  | cons s l =>
    obtain ⟨hs, hl⟩ := List.forall_mem_cons.mp hl
    have hread := readRest_write hl _ (Nat.le_refl _)
    simp only [write, List.cons_append, read, readChars_write hs, Option.bind_eq_bind, Option.bind_some, hread]

/-- A beginning of `s`, a quote and `bs` ends within `s`, or has a beginning of `bs`. -/
theorem take_string (s : List Char) (bs : Bytes) (n : Nat) :
    (s.map byte ++ 0x22 :: bs).take n =
      if n ≤ s.length then (s.map byte).take n else s.map byte ++ 0x22 :: bs.take (n - s.length - 1) := by
  rw [List.take_append, List.length_map]
  split
  · rename_i h
    rw [Nat.sub_eq_zero_of_le h, List.take_zero, List.append_nil]
  · rename_i h
    obtain ⟨k, rfl⟩ : ∃ k, n = s.length + 1 + k := ⟨n - s.length - 1, by omega⟩
    have hk : s.length + 1 + k - s.length = k + 1 := by omega
    rw [List.take_of_length_le (by rw [List.length_map]; omega), hk, List.take_succ_cons]
    rfl

theorem readRest_cut (hl : ∀ s ∈ l, ∀ c ∈ s, Plain c) (fuel : Nat) {n : Nat} (h : n < (writeRest l).length) :
    readRest fuel ((writeRest l).take n) = none := by
  induction l generalizing fuel n with
  | nil =>
    obtain rfl : n = 0 := Nat.lt_one_iff.mp h
    cases fuel <;> rfl
  | cons s l ih =>
    obtain ⟨hs, hl⟩ := List.forall_mem_cons.mp hl
    cases fuel with
    | zero => rfl
    | succ fuel =>
      match n with
      | 0 => rfl
      | 1 => rfl
      | n + 2 =>
        simp only [writeRest, List.cons_append, List.length_cons, List.length_append, List.length_map] at h
        rw [writeRest, List.cons_append, List.cons_append, List.take_succ_cons, List.take_succ_cons, take_string]
        split
        · simp only [readRest, readChars_cut hs, Option.bind_eq_bind, Option.bind_none]
        · have hread := ih hl fuel (n := n - s.length - 1) (by omega)
          simp only [readRest, readChars_write hs, Option.bind_eq_bind, Option.bind_some, hread, Option.bind_none]

theorem read_cut (hl : ∀ s ∈ l, ∀ c ∈ s, Plain c) {n : Nat} (h : n < (write l).length) : read ((write l).take n) = none := by
  cases l with
  | nil =>
    match n, h with
    | 0, _ => rfl
    | 1, _ => rfl
  | cons s l =>
    obtain ⟨hs, hl⟩ := List.forall_mem_cons.mp hl
    match n with
    | 0 => rfl
    | 1 => rfl
    | n + 2 =>
      simp only [write, List.cons_append, List.length_cons, List.length_append, List.length_map] at h
      rw [write, List.cons_append, List.cons_append, List.take_succ_cons, List.take_succ_cons, take_string]
      split
      · simp only [read, readChars_cut hs, Option.bind_eq_bind, Option.bind_none]
      · have hread := readRest_cut hl ((writeRest l).take (n - s.length - 1)).length (n := n - s.length - 1) (by omega)
        simp only [read, readChars_write hs, Option.bind_eq_bind, Option.bind_some, hread, Option.bind_none]

end JsonStrings
