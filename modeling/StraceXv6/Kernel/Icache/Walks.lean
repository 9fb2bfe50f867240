import Mathlib.Data.Fintype.Sum
import Mathlib.Tactic.DeriveFintype
import StraceXv6.Kernel.Icache.Machine

namespace StraceXv6.Kernel.Icache

open Data

/-! Processes that call `open`, `chdir`, `fork` and `read`, and who refers to an inode then.
What the directories hold is up to the labels.  With O_CREATE, `open` locks the directory of
the file twice, and `dirlookup` stands for `ialloc` too. -/

abbrev nfile : Nat := 100

abbrev nofile : Nat := 16

abbrev FileIx : Type := Fin nfile

abbrev Fd : Type := Fin nofile

def tDir : Int16 := 1

/-- The pointers to inodes that count: `f->ip`, `p->cwd`, and the variables `ip` and `next`
of the call that a process is in. -/
inductive Holder (P : Type) where
  | file (f : FileIx)
  | cwd (p : P)
  | ip (p : P)
  | next (p : P)
  deriving DecidableEq, Fintype

inductive Goal where
  | open (rdonly : Bool)
  | chdir
  deriving DecidableEq

/-- Where a process is.  In `namex`, `left` is how many elements of the path are left, and
`none` if the lookup fails. -/
inductive Stage where
  | out
  | walk (goal : Goal) (left : Nat)
  | inDir (goal : Goal) (left : Nat)
  | leave (goal : Goal) (left : Option Nat)
  | drop (goal : Goal) (left : Option Nat)
  | final (goal : Goal)
  | swap
  | reading (f : FileIx)
  deriving DecidableEq

structure System (P : Type) where
  cache : Cache P
  fileRef : FileIx → Nat
  ofile : P × Fd → Option FileIx
  pointer : Holder P → Option Ix
  stage : P → Stage

inductive Call (P : Type) where
  | namei (p : P) (goal : Goal) (absolute : Bool) (elements : Nat)
  | ilock (p : P)
  | rescan (p : P)
  | stir (p : P)
  | load (p : P)
  | dirlookup (p : P) (inum : Option UInt32)
  | nameiparent (p : P)
  | iunlock (p : P)
  | iput (p : P)
  | free (p : P)
  | finish (p : P)
  | conclude (p : P)
  | fork (p q : P)
  | fileread (p : P) (fd : Fd)
  | endread (p : P)

namespace System

variable {P : Type} [DecidableEq P]

def setCache (s : System P) (cache : Cache P) : System P := { s with cache := cache }

def setPointer (s : System P) (holder : Holder P) (ip : Option Ix) : System P :=
  { s with pointer := Function.update s.pointer holder ip }

def setStage (s : System P) (p : P) (stage : Stage) : System P :=
  { s with stage := Function.update s.stage p stage }

/-- `*holder = iget(dev, inum)` -/
def iget (s : System P) (p : P) (holder : Holder P) (dev inum : UInt32) : Option (System P) :=
  (s.cache.iget p dev inum).map fun cache =>
    (s.setCache cache).setPointer holder ((s.cache.cached dev inum).or s.cache.empty)

/-- `*holder = idup(ip)` -/
def idup (s : System P) (holder : Holder P) (ip : Ix) : System P :=
  (s.setCache (s.cache.setInode ip
    { s.cache.inode ip with ref := (s.cache.inode ip).ref + 1 })).setPointer holder (some ip)

/-- The beginning of `namex`. -/
def namei (s : System P) (p : P) (goal : Goal) (absolute : Bool) (elements : Nat) :
    Option (System P) :=
  match s.pointer (.cwd p) with
  | none => none
  | some cwd =>
    (if absolute then s.iget p (.ip p) 1 1 else some (s.idup (.ip p) cwd)).map fun s =>
      s.setStage p (.walk goal elements)

/-- `ilock(ip)`, in the loop of `namex` or after it. -/
def ilock (s : System P) (p : P) : Option (System P) :=
  match s.stage p, s.pointer (.ip p) with
  | .walk goal left, some ip =>
    (s.cache.ilock p ip).map fun cache =>
      (s.setCache cache).setStage p
        (match left with
        | 0 => .final goal
        | left + 1 => .inDir goal left)
  | _, _ => none

def dirlookup (s : System P) (p : P) (inum : Option UInt32) : Option (System P) :=
  match s.stage p, s.pointer (.ip p) with
  | .inDir goal left, some ip =>
    if (s.cache.inode ip).type ≠ tDir then some (s.setStage p (.leave goal none))
    else
      match inum with
      | none => some (s.setStage p (.leave goal none))
      | some inum =>
        (s.iget p (.next p) (s.cache.inode ip).dev inum).map fun s =>
          s.setStage p (.leave goal (some left))
  | _, _ => none

/-- `iunlock(ip)` where `nameiparent` stops one level early. -/
def nameiparent (s : System P) (p : P) : Option (System P) :=
  match s.stage p, s.pointer (.ip p) with
  | .inDir goal left, some ip =>
    (s.cache.iunlock p ip).map fun cache =>
      (s.setCache cache).setStage p (.walk goal (left + 1))
  | _, _ => none

/-- The first half of `iunlockput(ip)`. -/
def iunlock (s : System P) (p : P) : Option (System P) :=
  match s.stage p, s.pointer (.ip p) with
  | .leave goal left, some ip =>
    (s.cache.iunlock p ip).map fun cache => (s.setCache cache).setStage p (.drop goal left)
  | _, _ => none

/-- The pointer of which the reference is being dropped, in `namex` or in `sys_chdir`. -/
def dropping (s : System P) (p : P) : Option (Holder P) :=
  match s.stage p with
  | .drop _ _ => some (.ip p)
  | .swap => some (.cwd p)
  | _ => none

/-- What follows `iput`: `ip = next`, or `proc->cwd = ip`. -/
def dropped (s : System P) (p : P) : System P :=
  match s.stage p with
  | .drop goal left =>
    ((s.setPointer (.ip p) (s.pointer (.next p))).setPointer (.next p) none).setStage p
      (match left with
      | none => .out
      | some left => .walk goal left)
  | .swap =>
    ((s.setPointer (.cwd p) (s.pointer (.ip p))).setPointer (.ip p) none).setStage p .out
  | _ => s

def putting (s : System P) (p : P) : Option Ix := (s.dropping p).bind s.pointer

/-- The first section of `iput`; an inode that has no links is freed before the second. -/
def iput (s : System P) (p : P) : Option (System P) :=
  match s.putting p with
  | none => none
  | some ip =>
    (s.cache.iput p ip).map fun cache =>
      match cache.phase p with
      | .freeing _ _ => s.setCache cache
      | _ => (s.setCache cache).dropped p

/-- The second section of `iput`. -/
def finish (s : System P) (p : P) : Option (System P) :=
  (s.putting p).map fun ip => (s.setCache (s.cache.finish p ip)).dropped p

/-- After `ilock` in `sys_open` or `sys_chdir`. -/
def conclude (s : System P) (p : P) : Option (System P) :=
  match s.stage p, s.pointer (.ip p) with
  | .final (.open rdonly), some ip =>
    if (s.cache.inode ip).type = tDir ∧ rdonly = false then
      some (s.setStage p (.leave (.open rdonly) none))
    else
      match (List.finRange nfile).find? fun f => s.fileRef f = 0,
        (List.finRange nofile).find? fun fd => s.ofile (p, fd) = none with
      | some f, some fd =>
        (s.cache.iunlock p ip).map fun cache =>
          (({ s with
              cache := cache
              fileRef := Function.update s.fileRef f 1
              ofile := Function.update s.ofile (p, fd) (some f) }.setPointer (.file f)
            (some ip)).setPointer (.ip p) none).setStage p .out
      | _, _ => some (s.setStage p (.leave (.open rdonly) none))
  | .final .chdir, some ip =>
    if (s.cache.inode ip).type ≠ tDir then some (s.setStage p (.leave .chdir none))
    else (s.cache.iunlock p ip).map fun cache => (s.setCache cache).setStage p .swap
  | _, _ => none

/-- What `fork` copies: `filedup` for each descriptor, and `idup(proc->cwd)`. -/
def fork (s : System P) (p q : P) : Option (System P) :=
  match s.pointer (.cwd p), s.pointer (.cwd q) with
  | some cwd, none =>
    some ({ s with
      fileRef := fun f => s.fileRef f +
        ((List.finRange nofile).filter fun fd => s.ofile (p, fd) = some f).length
      ofile := fun slot => if slot.1 = q then s.ofile (p, slot.2) else s.ofile slot }.idup
        (.cwd q) cwd)
  | _, _ => none

def fileread (s : System P) (p : P) (fd : Fd) : Option (System P) :=
  match s.ofile (p, fd) with
  | none => none
  | some f =>
    match s.pointer (.file f) with
    | none => none
    | some ip =>
      (s.cache.ilock p ip).map fun cache => (s.setCache cache).setStage p (.reading f)

def endread (s : System P) (p : P) : Option (System P) :=
  match s.stage p with
  | .reading f =>
    match s.pointer (.file f) with
    | none => none
    | some ip => (s.cache.iunlock p ip).map fun cache => (s.setCache cache).setStage p .out
  | _ => none

def inCache (s : System P) (cache : Option (Cache P)) : Option (System P) := cache.map s.setCache

/-- A process that waits in `ilock`, reads an inode or frees one does nothing else. -/
def step (s : System P) : Call P → Option (System P)
  | .rescan p =>
    match s.cache.phase p with
    | .awake ip => s.inCache (s.cache.ilock p ip)
    | _ => none
  | .stir p =>
    match s.cache.phase p with
    | .asleep ip => s.inCache (some (s.cache.setPhase p (.awake ip)))
    | _ => none
  | .load p =>
    match s.cache.phase p with
    | .loading ip => s.inCache (s.cache.load p ip)
    | _ => none
  | .free p =>
    match s.cache.phase p with
    | .freeing ip false => s.inCache (some (s.cache.free p ip))
    | _ => none
  | .finish p =>
    match s.cache.phase p with
    | .freeing _ true => s.finish p
    | _ => none
  | .namei p goal absolute elements =>
    if s.cache.phase p = .idle ∧ s.stage p = .out then s.namei p goal absolute elements else none
  | .ilock p => if s.cache.phase p = .idle then s.ilock p else none
  | .dirlookup p inum => if s.cache.phase p = .idle then s.dirlookup p inum else none
  | .nameiparent p => if s.cache.phase p = .idle then s.nameiparent p else none
  | .iunlock p => if s.cache.phase p = .idle then s.iunlock p else none
  | .iput p => if s.cache.phase p = .idle then s.iput p else none
  | .conclude p => if s.cache.phase p = .idle then s.conclude p else none
  | .fork p q => if s.cache.phase p = .idle ∧ s.stage p = .out then s.fork p q else none
  | .fileread p fd =>
    if s.cache.phase p = .idle ∧ s.stage p = .out then s.fileread p fd else none
  | .endread p => if s.cache.phase p = .idle then s.endread p else none

def userinit (p : P) (disk : UInt32 × UInt32 → Dinode) : System P where
  cache := (Cache.iinit disk).setInode 0 ⟨⟨0, 0⟩, 1, 1, 1, false, false⟩
  fileRef := fun _ => 0
  ofile := fun _ => none
  pointer := fun holder => if holder = .cwd p then some 0 else none
  stage := fun _ => .out

end System

end StraceXv6.Kernel.Icache
