import Defing.Lib.Bytes
import Mathlib.Data.List.Basic

/-! # The checksum of snapshots -/

namespace Defing

structure Crc32 where
  table : Vector UInt32 256
  crc : UInt32

namespace Crc32

def shift (r : UInt32) : UInt32 := if r &&& 1 ≠ 0 then (r >>> 1) ^^^ 0xEDB88320 else r >>> 1

def init : Crc32 where
  table := Vector.ofFn fun i => shift^[8] (UInt32.ofNat i)
  crc := 0xFFFFFFFF

def step (c : Crc32) (b : UInt8) : Crc32 :=
  { c with crc := c.table.get ⟨(c.crc.toUInt8 ^^^ b).toNat, UInt8.toNat_lt _⟩ ^^^ (c.crc >>> 8) }

def update (c : Crc32) (data : Bytes) : Crc32 := data.foldl step c

def finish (c : Crc32) : UInt32 := c.crc ^^^ 0xFFFFFFFF

/-- Parts one after the other have the checksum of the whole. -/
theorem update_append (c : Crc32) (a b : Bytes) : c.update (a ++ b) = (c.update a).update b := List.foldl_append

end Crc32

def crc32 (data : Bytes) : UInt32 := (Crc32.init.update data).finish

example : crc32 [0x31, 0x32, 0x33, 0x34, 0x35, 0x36, 0x37, 0x38, 0x39] = 0xCBF43926 := by decide +kernel

end Defing
