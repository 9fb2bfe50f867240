import Mathlib.Data.Nat.Bitwise
import StraceXv6.Data.Words

namespace StraceXv6.Data

/-! Single bits in a block of bytes, the low bit of each byte first. -/

section

variable {size : Nat}

def bitMask (index : Nat) : UInt8 := 1 <<< UInt8.ofNat (index % 8)

def getBit (block : Fin size → UInt8) (index : Nat) : Bool :=
  byteAt block (index / 8) &&& bitMask index != 0

def setBit (block : Fin size → UInt8) (index : Nat) : Fin size → UInt8 :=
  fun offset =>
    if offset.val = index / 8 then block offset ||| bitMask index else block offset

def clearBit (block : Fin size → UInt8) (index : Nat) : Fin size → UInt8 :=
  fun offset =>
    if offset.val = index / 8 then block offset &&& ~~~bitMask index else block offset

theorem toNat_bitMask (index : Nat) : (bitMask index).toNat = 2 ^ (index % 8) := by
  have small : index % 8 < 8 := Nat.mod_lt _ (by decide)
  have shift : ∀ k : Fin 8, (1 <<< UInt8.ofNat k.val : UInt8).toNat = 2 ^ k.val := by decide
  exact shift ⟨index % 8, small⟩

theorem and_bitMask_bne_zero (byte : UInt8) (index : Nat) :
    (byte &&& bitMask index != 0) = byte.toNat.testBit (index % 8) := by
  have value : (byte &&& bitMask index).toNat =
      (byte.toNat.testBit (index % 8)).toNat * 2 ^ (index % 8) := by
    rw [UInt8.toNat_and, toNat_bitMask, Nat.and_two_pow]
  apply Bool.eq_iff_iff.mpr
  rw [bne_iff_ne, ne_eq, ← UInt8.toNat_inj, value]
  cases byte.toNat.testBit (index % 8) with
  | false | true => simp

theorem or_bitMask_bne_zero (byte : UInt8) (index other : Nat) :
    ((byte ||| bitMask index) &&& bitMask other != 0) =
      (decide (index % 8 = other % 8) || byte &&& bitMask other != 0) := by
  rw [and_bitMask_bne_zero, and_bitMask_bne_zero, UInt8.toNat_or, Nat.testBit_or,
    toNat_bitMask, Nat.testBit_two_pow, Bool.or_comm]

theorem and_not_bitMask_bne_zero (byte : UInt8) (index other : Nat) :
    ((byte &&& ~~~bitMask index) &&& bitMask other != 0) =
      (decide (index % 8 ≠ other % 8) && byte &&& bitMask other != 0) := by
  have small : other % 8 < 8 := Nat.mod_lt _ (by decide)
  have bound : 2 ^ (index % 8) < 2 ^ 8 :=
    Nat.pow_lt_pow_right (by decide) (Nat.mod_lt _ (by decide))
  have complement : (~~~bitMask index).toNat = 2 ^ 8 - (2 ^ (index % 8) + 1) := by
    rw [UInt8.toNat_not, toNat_bitMask]
    change 256 - 1 - _ = 256 - _
    omega
  rw [and_bitMask_bne_zero, and_bitMask_bne_zero, UInt8.toNat_and, Nat.testBit_and,
    complement, Nat.testBit_two_pow_sub_succ bound, Nat.testBit_two_pow, Bool.and_comm]
  simp [small]

variable {index offset : Nat}

theorem getBit_of_byteAt {block other : Fin size → UInt8}
    (same : byteAt block (index / 8) = byteAt other (index / 8)) :
    getBit block index = getBit other index := by
  rw [getBit, getBit, same]

theorem byteAt_setBit (inside : index / 8 < size) (block : Fin size → UInt8) :
    byteAt (setBit block index) (index / 8) =
      byteAt block (index / 8) ||| bitMask index := by
  simp [byteAt, inside, setBit]

theorem byteAt_clearBit (inside : index / 8 < size) (block : Fin size → UInt8) :
    byteAt (clearBit block index) (index / 8) =
      byteAt block (index / 8) &&& ~~~bitMask index := by
  simp [byteAt, inside, clearBit]

theorem byteAt_setBit_of_ne (distinct : offset ≠ index / 8) (block : Fin size → UInt8) :
    byteAt (setBit block index) offset = byteAt block offset := by
  simp [byteAt, setBit, distinct]

theorem byteAt_clearBit_of_ne (distinct : offset ≠ index / 8) (block : Fin size → UInt8) :
    byteAt (clearBit block index) offset = byteAt block offset := by
  simp [byteAt, clearBit, distinct]

theorem getBit_setBit (inside : index / 8 < size) (block : Fin size → UInt8) (other : Nat) :
    getBit (setBit block index) other = (decide (other = index) || getBit block other) := by
  by_cases same : other / 8 = index / 8
  · rw [getBit, same, byteAt_setBit inside, or_bitMask_bne_zero, getBit, same]
    congr 2
    apply propext
    omega
  · rw [getBit_of_byteAt (byteAt_setBit_of_ne same block)]
    have distinct : other ≠ index := fun equal => same (equal ▸ rfl)
    simp [distinct]

theorem getBit_clearBit (inside : index / 8 < size) (block : Fin size → UInt8) (other : Nat) :
    getBit (clearBit block index) other = (decide (other ≠ index) && getBit block other) := by
  by_cases same : other / 8 = index / 8
  · rw [getBit, same, byteAt_clearBit inside, and_not_bitMask_bne_zero, getBit, same]
    congr 2
    apply propext
    omega
  · rw [getBit_of_byteAt (byteAt_clearBit_of_ne same block)]
    have distinct : other ≠ index := fun equal => same (equal ▸ rfl)
    simp [distinct]

end

end StraceXv6.Data
