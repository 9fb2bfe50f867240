import StraceXv6.Data.Bits

namespace StraceXv6.Kernel

open Data

abbrev bsize : Nat := 512

abbrev maxopblocks : Nat := 10

abbrev logsize : Nat := maxopblocks * 3

abbrev fssize : Nat := 1000

abbrev ndirect : Nat := 12

abbrev nindirect : Nat := bsize / 4

abbrev maxfile : Nat := ndirect + nindirect

abbrev rootino : Nat := 1

abbrev ipb : Nat := bsize / 64

abbrev bpb : Nat := bsize * 8

abbrev dirsiz : Nat := 14

abbrev Block : Type := Fin bsize → UInt8

/-- The disk is divided into the boot block, the super block and the log, the
inode blocks, the bitmap and the data blocks, in this order; `idestart` refuses a
block past `FSSIZE`. -/
structure Superblock where
  size : Nat
  ninodes : Nat
  inodestart : Nat
  bmapstart : Nat
  boots : 2 ≤ inodestart
  inodes : inodestart + (ninodes / ipb + 1) ≤ bmapstart
  bitmap : bmapstart + (size / bpb + 1) ≤ size
  attached : size ≤ fssize

namespace Superblock

variable (sb : Superblock)

def iblock (inum : Nat) : Nat := inum / ipb + sb.inodestart

def bblock (b : Nat) : Nat := b / bpb + sb.bmapstart

def nmeta : Nat := sb.bmapstart + (sb.size / bpb + 1)

end Superblock

abbrev tDir : Int16 := 1

abbrev tFile : Int16 := 2

abbrev tDev : Int16 := 3

structure Dinode where
  type : Int16
  major : Int16
  minor : Int16
  nlink : Int16
  size : UInt32
  addrs : Fin (ndirect + 1) → UInt32

namespace Dinode

def pack (low high : Int16) : UInt32 :=
  UInt32.ofNat (low.toUInt16.toNat + 2 ^ 16 * high.toUInt16.toNat)

def lowHalf (word : UInt32) : Int16 := (UInt16.ofNat word.toNat).toInt16

def highHalf (word : UInt32) : Int16 := (UInt16.ofNat (word.toNat / 2 ^ 16)).toInt16

def words (d : Dinode) : List UInt32 :=
  pack d.type d.major :: pack d.minor d.nlink :: d.size :: List.ofFn d.addrs

def load (block : Block) (position : Nat) : Dinode where
  type := lowHalf (getWord block (16 * position))
  major := highHalf (getWord block (16 * position))
  minor := lowHalf (getWord block (16 * position + 1))
  nlink := highHalf (getWord block (16 * position + 1))
  size := getWord block (16 * position + 2)
  addrs := fun k => getWord block (16 * position + 3 + k)

def store (d : Dinode) (block : Block) (position : Nat) : Block :=
  setWords block (16 * position) d.words

def setAddr (d : Dinode) (k : Fin (ndirect + 1)) (addr : UInt32) : Dinode :=
  { d with addrs := Function.update d.addrs k addr }

theorem addrs_setAddr (d : Dinode) (k : Fin (ndirect + 1)) (addr : UInt32) :
    (d.setAddr k addr).addrs = Function.update d.addrs k addr := rfl

def fresh (type : Int16) : Dinode := ⟨type, 0, 0, 0, 0, fun _ => 0⟩

theorem toNat_pack (low high : Int16) :
    (pack low high).toNat = low.toUInt16.toNat + 2 ^ 16 * high.toUInt16.toNat := by
  have lowBound := low.toUInt16.toNat_lt
  have highBound := high.toUInt16.toNat_lt
  rw [pack, UInt32.toNat_ofNat_of_lt']
  change _ < 2 ^ 32
  omega

@[simp] theorem lowHalf_pack (low high : Int16) : lowHalf (pack low high) = low := by
  have value : UInt16.ofNat (pack low high).toNat = low.toUInt16 := by
    have bound := low.toUInt16.toNat_lt
    apply UInt16.toNat_inj.mp
    rw [toNat_pack, UInt16.toNat_ofNat']
    omega
  rw [lowHalf, value]
  rfl

@[simp] theorem highHalf_pack (low high : Int16) : highHalf (pack low high) = high := by
  have value : UInt16.ofNat ((pack low high).toNat / 2 ^ 16) = high.toUInt16 := by
    have lowBound := low.toUInt16.toNat_lt
    have highBound := high.toUInt16.toNat_lt
    apply UInt16.toNat_inj.mp
    rw [toNat_pack, UInt16.toNat_ofNat']
    omega
  rw [highHalf, value]
  rfl

theorem length_words (d : Dinode) : d.words.length = 16 := by
  simp [words]

variable {position : Nat}

theorem getWord_store (inside : position < ipb) (d : Dinode) (block : Block) (offset : Nat)
    {word : UInt32} (found : d.words[offset]? = some word) :
    getWord (d.store block position) (16 * position + offset) = word := by
  have eight : ipb = 8 := rfl
  apply getWord_setWords _ block found
  change 4 * (16 * position + d.words.length) ≤ 512
  rw [length_words]
  omega

theorem load_store (inside : position < ipb) (d : Dinode) (block : Block) :
    load (d.store block position) position = d := by
  have first := getWord_store inside d block 0 rfl
  have second := getWord_store inside d block 1 rfl
  have third := getWord_store inside d block 2 rfl
  have others : ∀ k : Fin (ndirect + 1),
      getWord (d.store block position) (16 * position + 3 + k) = d.addrs k := by
    intro k
    rw [Nat.add_assoc]
    apply getWord_store inside
    rw [words, Nat.add_comm 3]
    simp only [List.getElem?_cons_succ, List.getElem?_ofFn, k.isLt, dite_true]
  rw [Nat.add_zero] at first
  simp only [load, first, second, third, others, lowHalf_pack, highHalf_pack]

theorem load_store_of_ne {other : Nat} (distinct : other ≠ position) (d : Dinode) (block : Block) :
    load (d.store block position) other = load block other := by
  have same : ∀ offset < 16, getWord (d.store block position) (16 * other + offset) =
      getWord block (16 * other + offset) := by
    intro offset small
    cases Nat.lt_or_gt_of_ne distinct with
    | inl below => exact getWord_setWords_of_lt (by omega) block d.words
    | inr above =>
      apply getWord_setWords_of_le
      rw [length_words]
      omega
  have others : ∀ k : Fin (ndirect + 1),
      getWord (d.store block position) (16 * other + 3 + k) =
        getWord block (16 * other + 3 + k) := by
    intro k
    have bound := k.isLt
    rw [Nat.add_assoc]
    exact same _ (by change k.val < 13 at bound; omega)
  have first := same 0 (by decide)
  have second := same 1 (by decide)
  have third := same 2 (by decide)
  rw [Nat.add_zero] at first
  simp only [load, first, second, third, others]

end Dinode

def Superblock.dinode (sb : Superblock) (disk : Nat → Block) (inum : Nat) : Dinode :=
  Dinode.load (disk (sb.iblock inum)) (inum % ipb)

end StraceXv6.Kernel
