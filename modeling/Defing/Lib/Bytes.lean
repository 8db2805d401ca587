import Mathlib.Data.Nat.Notation
import Mathlib.Tactic.Ring

/-!
# Numbers as bytes

The little-endian and big-endian bytes of a number, of a given width.
-/

abbrev Bytes := List UInt8

namespace Bytes

/-- The `k` lowest bytes of a number, lowest first. -/
def le : (k n : Nat) → Bytes
  | 0, _ => []
  | k + 1, n => UInt8.ofNat (n % 256) :: le k (n / 256)

def ofLe : Bytes → Nat
  | [] => 0
  | b :: bs => b.toNat + 256 * ofLe bs

def be (k n : Nat) : Bytes := (le k n).reverse

def ofBe (bs : Bytes) : Nat := ofLe bs.reverse

@[simp] theorem length_le (k n : Nat) : (le k n).length = k := by
  induction k generalizing n with
  | zero => rfl
  | succ k ih => rw [le, List.length_cons, ih]

@[simp] theorem length_be (k n : Nat) : (be k n).length = k := by rw [be, List.length_reverse, length_le]

theorem ofLe_le (k n : Nat) : ofLe (le k n) = n % 256 ^ k := by
  induction k generalizing n with
  | zero => rw [Nat.pow_zero, Nat.mod_one, le, ofLe]
  | succ k ih =>
    have hb : (UInt8.ofNat (n % 256)).toNat = n % 256 := by
      rw [UInt8.toNat_ofNat']
      omega
    rw [le, ofLe, ih, hb, Nat.pow_succ, Nat.mul_comm (256 ^ k), Nat.mod_mul]

theorem ofBe_be (k n : Nat) : ofBe (be k n) = n % 256 ^ k := by rw [ofBe, be, List.reverse_reverse, ofLe_le]

/-- Any bytes are those of the number that they stand for. -/
theorem le_ofLe (bs : Bytes) : le bs.length (ofLe bs) = bs := by
  induction bs with
  | nil => rfl
  | cons b bs ih =>
    have hb := b.toNat_lt
    have hmod : ofLe (b :: bs) % 256 = b.toNat := by rw [ofLe]; omega
    have hdiv : ofLe (b :: bs) / 256 = ofLe bs := by rw [ofLe]; omega
    rw [List.length_cons, le, hmod, hdiv, ih, UInt8.ofNat_toNat]

theorem be_ofBe (bs : Bytes) : be bs.length (ofBe bs) = bs := by
  rw [be, ofBe, ← List.length_reverse, le_ofLe, List.reverse_reverse]

end Bytes
