import StraceXv6.Data.CString
import StraceXv6.Kernel.Fs.Inode

namespace StraceXv6.Kernel.Fs

open Data

/-- Past its end a name reads as NUL. -/
def strncmp : List UInt8 → List UInt8 → Nat → Int
  | _, _, 0 => 0
  | p, q, n + 1 =>
    let a := p.headD 0
    let b := q.headD 0
    if a ≠ 0 ∧ a = b then strncmp p.tail q.tail n else a.toNat - b.toNat

def strncpy : List UInt8 → Nat → List UInt8
  | _, 0 => []
  | t, n + 1 =>
    let c := t.headD 0
    if c = 0 then 0 :: List.replicate n 0 else c :: strncpy t.tail n

def namecmp (s t : List UInt8) : Int := strncmp s t dirsiz

structure Dirent where
  inum : UInt16
  name : List UInt8
  deriving DecidableEq

namespace Dirent

abbrev bytes : Nat := 16

def load (bytes : List UInt8) : Dirent where
  inum := UInt16.ofNat ((bytes.getD 0 0).toNat + 2 ^ 8 * (bytes.getD 1 0).toNat)
  name := (bytes.drop 2).take dirsiz

def store (de : Dirent) : List UInt8 :=
  UInt8.ofNat de.inum.toNat :: UInt8.ofNat (de.inum.toNat / 2 ^ 8) :: de.name

def clear : Dirent := ⟨0, List.replicate dirsiz 0⟩

end Dirent

section

variable (sb : Superblock)

def readDirent (dp : Fin ninode) (off : Nat) (failure : Halt) : FsM Dirent := do
  let (r, bytes) ← readi sb (fun _ => none) dp (UInt32.ofNat off) 16
  if r ≠ 16 then throw failure else return Dirent.load bytes

def writeDirent (dp : Fin ninode) (off : Nat) (de : Dirent) (failure : Halt) : FsM Unit := do
  let r ← writei sb (fun _ => none) dp (fun k => de.store.getD k 0) (UInt32.ofNat off) 16
  if r ≠ 16 then throw failure else pure ()

def dirlookupFrom (dp : Fin ninode) (name : List UInt8) :
    Nat → Nat → FsM (Option (Fin ninode × Nat))
  | 0, _ => pure none
  | turns + 1, off => do
    if off < (← getInode dp).size.toNat then do
      let de ← readDirent sb dp off .dirlinkRead
      if de.inum ≠ 0 ∧ namecmp name de.name = 0 then do
        let ip ← iget de.inum.toNat
        return some (ip, off)
      else dirlookupFrom dp name turns (off + Dirent.bytes)
    else return none

def dirlookup (dp : Fin ninode) (name : List UInt8) :
    FsM (Option (Fin ninode × Nat)) := do
  let inode ← getInode dp
  if inode.type ≠ tDir then throw .notDir
  else dirlookupFrom sb dp name (inode.size.toNat / Dirent.bytes + 1) 0

def emptyDirent (dp : Fin ninode) : Nat → Nat → FsM Nat
  | 0, off => pure off
  | turns + 1, off => do
    if off < (← getInode dp).size.toNat then do
      let de ← readDirent sb dp off .dirlinkRead
      if de.inum = 0 then return off else emptyDirent dp turns (off + Dirent.bytes)
    else return off

/-- Whether the entry was written. -/
def dirlink (dp : Fin ninode) (name : List UInt8) (inum : Nat) : FsM Bool := do
  match ← dirlookup sb dp name with
  | some (ip, _) => do
    iput sb ip
    return false
  | none => do
    let off ← emptyDirent sb dp ((← getInode dp).size.toNat / Dirent.bytes + 1) 0
    writeDirent sb dp off ⟨UInt16.ofNat inum, strncpy name dirsiz⟩ .dirlink
    return true

def isdiremptyFrom (dp : Fin ninode) : Nat → Nat → FsM Bool
  | 0, _ => pure true
  | turns + 1, off => do
    if off < (← getInode dp).size.toNat then do
      let de ← readDirent sb dp off .isdiremptyRead
      if de.inum ≠ 0 then return false
      else isdiremptyFrom dp turns (off + Dirent.bytes)
    else return true

def isdirempty (dp : Fin ninode) : FsM Bool := do
  isdiremptyFrom sb dp ((← getInode dp).size.toNat / Dirent.bytes + 1) (2 * Dirent.bytes)

/-- The next element of a path and what follows it. -/
def skipelem (path : List UInt8) : Option (List UInt8 × List UInt8) :=
  let slash : UInt8 := 47
  let path := path.dropWhile (· = slash)
  if path = [] then none
  else some ((path.takeWhile (· ≠ slash)).take dirsiz,
    (path.dropWhile (· ≠ slash)).dropWhile (· = slash))

def namexFrom (parent : Bool) :
    Nat → Fin ninode → List UInt8 → FsM (Option (Fin ninode × List UInt8))
  | 0, _, _ => pure none
  | turns + 1, ip, path =>
    match skipelem path with
    | none =>
      if parent then do
        iput sb ip
        return none
      else return some (ip, [])
    | some (name, path) => do
      ilock sb ip
      if (← getInode ip).type ≠ tDir then do
        iunlockput sb ip
        return none
      else if parent ∧ path = [] then do
        iunlock ip
        return some (ip, name)
      else do
        match ← dirlookup sb ip name with
        | none => do
          iunlockput sb ip
          return none
        | some (next, _) => do
          iunlockput sb ip
          namexFrom parent turns next path

/-- Each turn takes an element off the path. -/
def namex (cwd : Fin ninode) (parent : Bool) (path : List UInt8) :
    FsM (Option (Fin ninode × List UInt8)) := do
  let ip ← if path.head? = some 47 then iget rootino else idup cwd
  namexFrom sb parent (path.length + 1) ip path

def namei (cwd : Fin ninode) (path : List UInt8) : FsM (Option (Fin ninode)) := do
  return (← namex sb cwd false path).map Prod.fst

def nameiparent (cwd : Fin ninode) (path : List UInt8) :
    FsM (Option (Fin ninode × List UInt8)) :=
  namex sb cwd true path

def dot : List UInt8 := [46]

def dotdot : List UInt8 := [46, 46]

def makeDots (type : Int16) (dp ip : Fin ninode) : FsM Unit :=
  if type = tDir then do
    updateInode sb dp fun inode => { inode with nlink := inode.nlink + 1 }
    if !(← dirlink sb ip dot (← getInode ip).inum) then throw .createDots
    else if !(← dirlink sb ip dotdot (← getInode dp).inum) then throw .createDots
    else pure ()
  else pure ()

def makeInode (dp : Fin ninode) (name : List UInt8) (type major minor : Int16) :
    FsM (Fin ninode) := do
  let ip ← ialloc sb type
  ilock sb ip
  updateInode sb ip fun inode => { inode with major := major, minor := minor, nlink := 1 }
  makeDots sb type dp ip
  if !(← dirlink sb dp name (← getInode ip).inum) then throw .createDirlink
  else do
    iunlockput sb dp
    return ip

/-- The inode that was found or made, locked. -/
def create (cwd : Fin ninode) (path : List UInt8) (type major minor : Int16) :
    FsM (Option (Fin ninode)) := do
  match ← nameiparent sb cwd path with
  | none => return none
  | some (dp, name) => do
    ilock sb dp
    match ← dirlookup sb dp name with
    | some (ip, _) => do
      iunlockput sb dp
      ilock sb ip
      if type = tFile ∧ (← getInode ip).type = tFile then return some ip
      else do
        iunlockput sb ip
        return none
    | none => do
      let ip ← makeInode sb dp name type major minor
      return some ip

/-- A directory that has entries of its own; only then is `isdirempty` called. -/
def occupied (ip : Fin ninode) : FsM Bool := do
  if (← getInode ip).type = tDir then do
    let empty ← isdirempty sb ip
    return !empty
  else return false

/-- The link of `..` in a directory that is removed. -/
def dropDots (dp ip : Fin ninode) : FsM Unit := do
  if (← getInode ip).type = tDir then
    updateInode sb dp fun inode => { inode with nlink := inode.nlink - 1 }
  else pure ()

def removeEntry (dp ip : Fin ninode) (off : Nat) : FsM Unit := do
  writeDirent sb dp off .clear .unlinkWrite
  dropDots sb dp ip
  iunlockput sb dp
  updateInode sb ip fun inode => { inode with nlink := inode.nlink - 1 }
  iunlockput sb ip

/-- Whether the entry was removed. -/
def unlink (cwd : Fin ninode) (path : List UInt8) : FsM Bool := do
  match ← nameiparent sb cwd path with
  | none => return false
  | some (dp, name) => do
    ilock sb dp
    if namecmp name dot = 0 ∨ namecmp name dotdot = 0 then do
      iunlockput sb dp
      return false
    else do
      match ← dirlookup sb dp name with
      | none => do
        iunlockput sb dp
        return false
      | some (ip, off) => do
        ilock sb ip
        if (← getInode ip).nlink < 1 then throw .unlinkNlink
        else do
          let full ← occupied sb ip
          if full then do
            iunlockput sb ip
            iunlockput sb dp
            return false
          else do
            removeEntry sb dp ip off
            return true

end

end StraceXv6.Kernel.Fs
