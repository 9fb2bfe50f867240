import Mathlib.Algebra.Group.Nat.Defs
import Mathlib.Data.List.Basic

namespace StraceXv6.Data

/-! Little-endian 32-bit words in a block of bytes.  A word past the end of the
block reads as zero. -/

section

variable {size : Nat}

def byteAt (block : Fin size → UInt8) (offset : Nat) : UInt8 :=
  if inside : offset < size then block ⟨offset, inside⟩ else 0

def getWord (block : Fin size → UInt8) (index : Nat) : UInt32 :=
  UInt32.ofNat ((byteAt block (4 * index)).toNat +
    2 ^ 8 * (byteAt block (4 * index + 1)).toNat +
    2 ^ 16 * (byteAt block (4 * index + 2)).toNat +
    2 ^ 24 * (byteAt block (4 * index + 3)).toNat)

def setWord (block : Fin size → UInt8) (index : Nat) (word : UInt32) :
    Fin size → UInt8 :=
  fun offset =>
    if offset.val / 4 = index then UInt8.ofNat (word.toNat / 2 ^ (8 * (offset.val % 4)))
    else block offset

variable {index other : Nat} {words : List UInt32}

theorem byteAt_setWord (fits : 4 * index + 4 ≤ size) (block : Fin size → UInt8) (word : UInt32)
    (part : Nat) (small : part < 4) :
    (byteAt (setWord block index word) (4 * index + part)).toNat =
      word.toNat / 2 ^ (8 * part) % 2 ^ 8 := by
  have inside : 4 * index + part < size := by omega
  have quotient : (4 * index + part) / 4 = index := by omega
  have remainder : (4 * index + part) % 4 = part := by omega
  simp only [byteAt, dif_pos inside, setWord, quotient, remainder, if_true,
    UInt8.toNat_ofNat']

theorem byteAt_setWord_of_ne (distinct : other ≠ index) (block : Fin size → UInt8) (word : UInt32)
    (part : Nat) (small : part < 4) :
    byteAt (setWord block index word) (4 * other + part) =
      byteAt block (4 * other + part) := by
  have quotient : (4 * other + part) / 4 = other := by omega
  unfold byteAt
  split
  next => simp only [setWord, quotient, if_neg distinct]
  next => rfl

theorem getWord_setWord (fits : 4 * index + 4 ≤ size) (block : Fin size → UInt8) (word : UInt32) :
    getWord (setWord block index word) index = word := by
  have bound := word.toNat_lt
  have zeroth := byteAt_setWord fits block word 0 (by decide)
  have first := byteAt_setWord fits block word 1 (by decide)
  have second := byteAt_setWord fits block word 2 (by decide)
  have third := byteAt_setWord fits block word 3 (by decide)
  rw [Nat.add_zero] at zeroth
  rw [getWord, zeroth, first, second, third]
  apply UInt32.toNat_inj.mp
  rw [UInt32.toNat_ofNat']
  omega

theorem getWord_setWord_of_ne (distinct : other ≠ index) (block : Fin size → UInt8)
    (word : UInt32) : getWord (setWord block index word) other = getWord block other := by
  have zeroth := byteAt_setWord_of_ne distinct block word 0 (by decide)
  rw [Nat.add_zero] at zeroth
  rw [getWord, zeroth, byteAt_setWord_of_ne distinct block word 1 (by decide),
    byteAt_setWord_of_ne distinct block word 2 (by decide),
    byteAt_setWord_of_ne distinct block word 3 (by decide), getWord]

@[simp] theorem getWord_zero (index : Nat) : getWord (fun _ : Fin size => 0) index = 0 := by
  simp [getWord, byteAt]

theorem getWord_eq_zero {block : Fin size → UInt8} (past : size ≤ 4 * index) :
    getWord block index = 0 := by
  have outside : ∀ part, byteAt block (4 * index + part) = 0 :=
    fun part => dif_neg (by omega)
  have zeroth := outside 0
  rw [Nat.add_zero] at zeroth
  rw [getWord, zeroth, outside 1, outside 2, outside 3]
  rfl

def getWords (block : Fin size → UInt8) (index : Nat) : Nat → List UInt32
  | 0 => []
  | count + 1 => getWord block index :: getWords block (index + 1) count

def setWords (block : Fin size → UInt8) (index : Nat) : List UInt32 → Fin size → UInt8
  | [] => block
  | word :: rest => setWords (setWord block index word) (index + 1) rest

theorem getWord_setWords_of_lt (below : other < index) (block : Fin size → UInt8)
    (words : List UInt32) : getWord (setWords block index words) other = getWord block other := by
  induction words generalizing index block with
  | nil => rfl
  | cons word rest induction =>
    rw [setWords, induction (Nat.lt_succ_of_lt below),
      getWord_setWord_of_ne (Nat.ne_of_lt below)]

theorem getWord_setWords_of_le (block : Fin size → UInt8) (above : index + words.length ≤ other) :
    getWord (setWords block index words) other = getWord block other := by
  induction words generalizing index block with
  | nil => rfl
  | cons word rest induction =>
    rw [List.length_cons] at above
    rw [setWords, induction _ (by omega), getWord_setWord_of_ne (by omega)]

theorem getWord_setWords {offset : Nat} {word : UInt32} (fits : 4 * (index + words.length) ≤ size)
    (block : Fin size → UInt8) (found : words[offset]? = some word) :
    getWord (setWords block index words) (index + offset) = word := by
  induction words generalizing index offset block with
  | nil => cases found
  | cons head rest induction =>
    rw [List.length_cons] at fits
    cases offset with
    | zero =>
      have same : head = word := by simpa using found
      change getWord (setWords (setWord block index head) (index + 1) rest) index = word
      rw [getWord_setWords_of_lt (Nat.lt_succ_self index), getWord_setWord (by omega), same]
    | succ offset =>
      rw [setWords, Nat.add_comm offset 1, ← Nat.add_assoc]
      exact induction (by omega) _ (by simpa using found)

theorem getWords_setWords (fits : 4 * (index + words.length) ≤ size) (block : Fin size → UInt8) :
    getWords (setWords block index words) index words.length = words := by
  induction words generalizing index block with
  | nil => rfl
  | cons word rest induction =>
    rw [List.length_cons] at fits
    rw [setWords, List.length_cons, getWords, getWord_setWords_of_lt (Nat.lt_succ_self index),
      getWord_setWord (by omega), induction (by omega)]

end

end StraceXv6.Data
