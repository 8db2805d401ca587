import Defing.Lib.Bytes
import Mathlib.Data.List.Basic

/-!
# Base64

Three bytes are four characters of the standard alphabet, padded at the end.
-/

namespace Base64Text

def alphabet : List Char :=
  "ABCDEFGHIJKLMNOPQRSTUVWXYZabcdefghijklmnopqrstuvwxyz0123456789+/".toList

def digit (n : Nat) : Char := alphabet.getD n '='

def value (c : Char) : Option Nat := alphabet.findIdx? (· == c)

def sextet (n i : Nat) : Char := digit (n / 64 ^ i % 64)

def encode : Bytes → List Char
  | [] => []
  | [a] => let n := a.toNat * 65536; [sextet n 3, sextet n 2, '=', '=']
  | [a, b] => let n := a.toNat * 65536 + b.toNat * 256; [sextet n 3, sextet n 2, sextet n 1, '=']
  | a :: b :: c :: data =>
    let n := a.toNat * 65536 + b.toNat * 256 + c.toNat
    sextet n 3 :: sextet n 2 :: sextet n 1 :: sextet n 0 :: encode data

def decode : List Char → Option Bytes
  | [] => some []
  | [w, x, '=', '='] => do
    let n := (← value w) * 262144 + (← value x) * 4096
    if n % 65536 = 0 then some [UInt8.ofNat (n / 65536)] else none
  | [w, x, y, '='] => do
    let n := (← value w) * 262144 + (← value x) * 4096 + (← value y) * 64
    if n % 256 = 0 then some [UInt8.ofNat (n / 65536), UInt8.ofNat (n / 256 % 256)] else none
  | w :: x :: y :: z :: text => do
    let n := (← value w) * 262144 + (← value x) * 4096 + (← value y) * 64 + (← value z)
    let data ← decode text
    some (UInt8.ofNat (n / 65536) :: UInt8.ofNat (n / 256 % 256) :: UInt8.ofNat (n % 256) :: data)
  | _ => none

theorem value_digit {n : Nat} (h : n < 64) : value (digit n) = some n := by
  have hall : ∀ i : Fin 64, value (digit i) = some i.1 := by decide +kernel
  exact hall ⟨n, h⟩

theorem digit_ne {n : Nat} (h : n < 64) : digit n ≠ '=' := by
  have hall : ∀ i : Fin 64, digit i ≠ '=' := by decide +kernel
  exact hall ⟨n, h⟩

theorem value_sextet (n i : Nat) : value (sextet n i) = some (n / 64 ^ i % 64) := value_digit (Nat.mod_lt _ (by decide))

theorem sextet_ne (n i : Nat) : sextet n i ≠ '=' := digit_ne (Nat.mod_lt _ (by decide))

theorem ofNat_toNat_of {n : Nat} {a : UInt8} (h : n = a.toNat) : UInt8.ofNat n = a := by
  rw [h, UInt8.ofNat_toNat]

theorem sextets {n : Nat} (h : n < 16777216) :
    n / 64 ^ 3 % 64 * 262144 + n / 64 ^ 2 % 64 * 4096 + n / 64 ^ 1 % 64 * 64 + n / 64 ^ 0 % 64 = n := by
  have h2 : n / 64 ^ 2 = n / 64 / 64 := (Nat.div_div_eq_div_mul n 64 64).symm
  have h3 : n / 64 ^ 3 = n / 64 / 64 / 64 := by rw [Nat.div_div_eq_div_mul, Nat.div_div_eq_div_mul]; rfl
  rw [h2, h3, Nat.pow_one, Nat.pow_zero, Nat.div_one]
  generalize hq : n / 64 = q
  generalize hr : q / 64 = r
  omega

section
variable {a b c : Nat}

theorem first_byte (hb : b < 256) (hc : c < 256) : (a * 65536 + b * 256 + c) / 65536 = a := by omega

theorem second_byte (hb : b < 256) (hc : c < 256) : (a * 65536 + b * 256 + c) / 256 % 256 = b := by omega

theorem third_byte (hc : c < 256) : (a * 65536 + b * 256 + c) % 256 = c := by omega

theorem last_sextet : (a * 65536 + b * 256) / 64 ^ 0 % 64 = 0 := by
  rw [Nat.pow_zero, Nat.div_one]
  omega

theorem third_sextet : a * 65536 / 64 ^ 1 % 64 = 0 := by
  rw [Nat.pow_one]
  omega

end

/-! ## Decoding by length -/

theorem encode_one (a : UInt8) :
    encode [a] = [sextet (a.toNat * 65536) 3, sextet (a.toNat * 65536) 2, '=', '='] := rfl

theorem encode_two (a b : UInt8) : encode [a, b] =
    [sextet (a.toNat * 65536 + b.toNat * 256) 3, sextet (a.toNat * 65536 + b.toNat * 256) 2,
      sextet (a.toNat * 65536 + b.toNat * 256) 1, '='] := rfl

theorem encode_three (a b c : UInt8) (data : Bytes) : encode (a :: b :: c :: data) =
    sextet (a.toNat * 65536 + b.toNat * 256 + c.toNat) 3 :: sextet (a.toNat * 65536 + b.toNat * 256 + c.toNat) 2 ::
      sextet (a.toNat * 65536 + b.toNat * 256 + c.toNat) 1 :: sextet (a.toNat * 65536 + b.toNat * 256 + c.toNat) 0 ::
      encode data := rfl


section
variable {w x y z : Char} {i j k l : Nat}

theorem decode_two (hw : value w = some i) (hx : value x = some j) : decode [w, x, '=', '='] =
    if (i * 262144 + j * 4096) % 65536 = 0 then some [UInt8.ofNat ((i * 262144 + j * 4096) / 65536)] else none := by
  rw [decode, hw, hx]
  -- step by step: comparing the two conditionals at once is slow
  rw [Option.bind_eq_bind, Option.bind_some, Option.bind_some]

theorem decode_three (hw : value w = some i) (hx : value x = some j) (hy : value y = some k) (hpad : y ≠ '=') :
    decode [w, x, y, '='] = if (i * 262144 + j * 4096 + k * 64) % 256 = 0 then
      some [UInt8.ofNat ((i * 262144 + j * 4096 + k * 64) / 65536),
        UInt8.ofNat ((i * 262144 + j * 4096 + k * 64) / 256 % 256)] else none := by
  rw [decode, hw, hx, hy]
  · rw [Option.bind_eq_bind, Option.bind_some, Option.bind_some, Option.bind_some]
  · exact hpad

theorem decode_four (hw : value w = some i) (hx : value x = some j) (hy : value y = some k) (hz : value z = some l)
    (hpady : y ≠ '=') (hpadz : z ≠ '=') {text : List Char} {data : Bytes} (hdata : decode text = some data) :
    decode (w :: x :: y :: z :: text) = some (UInt8.ofNat ((i * 262144 + j * 4096 + k * 64 + l) / 65536) ::
      UInt8.ofNat ((i * 262144 + j * 4096 + k * 64 + l) / 256 % 256) ::
      UInt8.ofNat ((i * 262144 + j * 4096 + k * 64 + l) % 256) :: data) := by
  rw [decode, hw, hx, hy, hz, hdata]
  · rw [Option.bind_eq_bind, Option.bind_some, Option.bind_some, Option.bind_some, Option.bind_some]
    rfl
  · exact fun h _ _ => hpady h
  · exact fun h _ => hpadz h

end

theorem decode_encode (data : Bytes) : decode (encode data) = some data := by
  induction data using encode.induct with
  | case1 => rfl
  | case2 a =>
    have ha := a.toNat_lt
    have hn := sextets (n := a.toNat * 65536) (by omega)
    have hzero := last_sextet (a := a.toNat) (b := 0)
    rw [Nat.zero_mul, Nat.add_zero] at hzero
    rw [third_sextet, hzero, Nat.zero_mul, Nat.add_zero] at hn
    rw [encode_one, decode_two (value_sextet _ _) (value_sextet _ _), hn]
    rw [if_pos (Nat.mul_mod_left _ _), ofNat_toNat_of (Nat.mul_div_cancel _ (by decide))]
  | case3 a b =>
    have ha := a.toNat_lt
    have hb := b.toNat_lt
    have hn := sextets (n := a.toNat * 65536 + b.toNat * 256) (by omega)
    rw [last_sextet, Nat.add_zero] at hn
    rw [encode_two, decode_three (value_sextet _ _) (value_sextet _ _) (value_sextet _ _) (sextet_ne _ _), hn]
    have hfirst := first_byte (a := a.toNat) (c := 0) hb (by decide)
    have hsecond := second_byte (a := a.toNat) (c := 0) hb (by decide)
    rw [Nat.add_zero] at hfirst hsecond
    rw [if_pos (by omega), ofNat_toNat_of hfirst, ofNat_toNat_of hsecond]
  | case4 a b c data ih =>
    have ha := a.toNat_lt
    have hb := b.toNat_lt
    have hc := c.toNat_lt
    have hn := sextets (n := a.toNat * 65536 + b.toNat * 256 + c.toNat) (by omega)
    rw [encode_three, decode_four (value_sextet _ _) (value_sextet _ _) (value_sextet _ _) (value_sextet _ _)
      (sextet_ne _ _) (sextet_ne _ _) ih, hn]
    rw [ofNat_toNat_of (first_byte hb hc), ofNat_toNat_of (second_byte hb hc), ofNat_toNat_of (third_byte hc)]

end Base64Text
