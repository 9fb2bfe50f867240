import StraceXv6.Data.Command
import StraceXv6.Kernel.Fs.Layout

namespace StraceXv6.Kernel

open Data

/-! The block layer.  The buffer cache and the log keep one copy of each block:
`bread` returns it and `log_write` replaces it. -/

abbrev ninode : Nat := 50

/-- The panics of the file system, and a process that waits for a lock of its own. -/
inductive Halt where
  | outOfBlocks
  | freeingFreeBlock
  | noFreeInodes
  | noCacheEntry
  | ilock
  | noType
  | iunlock
  | iputBusy
  | outOfRange
  | notDir
  | dirlinkRead
  | dirlink
  | isdiremptyRead
  | unlinkNlink
  | unlinkWrite
  | createDots
  | createDirlink
  | shortFilewrite
  | asleep
  deriving DecidableEq

structure Inode extends Dinode where
  inum : Nat
  ref : Nat
  busy : Bool
  valid : Bool

structure Fs where
  disk : Nat → Block
  logged : List Nat
  icache : Fin ninode → Inode

namespace Fs

abbrev FsM : Type → Type := Command Fs Halt

def bread (blockno : Nat) : FsM Block := do
  return (← get).disk blockno

def putBlock (fs : Fs) (blockno : Nat) (data : Block) : Fs :=
  { fs with
    disk := Function.update fs.disk blockno data
    logged := fs.logged ++ [blockno] }

@[simp] theorem disk_putBlock (fs : Fs) (blockno : Nat) (data : Block) :
    (fs.putBlock blockno data).disk = Function.update fs.disk blockno data := rfl

@[simp] theorem logged_putBlock (fs : Fs) (blockno : Nat) (data : Block) :
    (fs.putBlock blockno data).logged = fs.logged ++ [blockno] := rfl

@[simp] theorem icache_putBlock (fs : Fs) (blockno : Nat) (data : Block) :
    (fs.putBlock blockno data).icache = fs.icache := rfl

def logWrite (blockno : Nat) (data : Block) : FsM Unit :=
  modify fun fs => fs.putBlock blockno data

def bzero (blockno : Nat) : FsM Unit := logWrite blockno fun _ => 0

section

variable (sb : Superblock)

/-- Both loops visit the bits in the order of the blocks. -/
def balloc : FsM UInt32 := do
  let disk := (← get).disk
  match (List.range sb.size).find? fun b => !getBit (disk (sb.bblock b)) (b % bpb) with
  | none => throw .outOfBlocks
  | some b =>
    logWrite (sb.bblock b) (setBit (← bread (sb.bblock b)) (b % bpb))
    bzero b
    return UInt32.ofNat b

def bfree (b : Nat) : FsM Unit := do
  let data ← bread (sb.bblock b)
  if getBit data (b % bpb) then
    logWrite (sb.bblock b) (clearBit data (b % bpb))
  else
    throw .freeingFreeBlock

end

end Fs

end StraceXv6.Kernel
