import StraceXv6.Kernel.Fs.Blocks

namespace StraceXv6.Kernel.Fs

open Data

/-! The inode layer: the cache of inodes and the content of an inode. -/

abbrev ndev : Nat := 10

def putInode (fs : Fs) (ip : Fin ninode) (inode : Inode) : Fs :=
  { fs with icache := Function.update fs.icache ip inode }

@[simp] theorem disk_putInode (fs : Fs) (ip : Fin ninode) (inode : Inode) :
    (fs.putInode ip inode).disk = fs.disk := rfl

@[simp] theorem logged_putInode (fs : Fs) (ip : Fin ninode) (inode : Inode) :
    (fs.putInode ip inode).logged = fs.logged := rfl

@[simp] theorem icache_putInode (fs : Fs) (ip : Fin ninode) (inode : Inode) :
    (fs.putInode ip inode).icache = Function.update fs.icache ip inode := rfl

def modifyInode (ip : Fin ninode) (change : Inode → Inode) : FsM Unit :=
  modify fun fs => fs.putInode ip (change (fs.icache ip))

def getInode (ip : Fin ninode) : FsM Inode := do
  return (← get).icache ip

def iget (inum : Nat) : FsM (Fin ninode) := do
  let icache := (← get).icache
  match (List.finRange ninode).find? fun ip =>
      0 < (icache ip).ref && (icache ip).inum == inum with
  | some ip =>
    modifyInode ip fun inode => { inode with ref := inode.ref + 1 }
    return ip
  | none =>
    match (List.finRange ninode).find? fun ip => (icache ip).ref == 0 with
    | none => throw .noCacheEntry
    | some empty =>
      modifyInode empty fun inode =>
        { inode with inum := inum, ref := 1, busy := false, valid := false }
      return empty

def idup (ip : Fin ninode) : FsM (Fin ninode) := do
  modifyInode ip fun inode => { inode with ref := inode.ref + 1 }
  return ip

def iunlock (ip : Fin ninode) : FsM Unit := do
  let inode ← getInode ip
  if !inode.busy || inode.ref < 1 then throw .iunlock
  else modifyInode ip fun inode => { inode with busy := false }

section

variable (sb : Superblock)

def ialloc (type : Int16) : FsM (Fin ninode) := do
  let disk := (← get).disk
  match (List.range sb.ninodes).find? fun inum =>
      1 ≤ inum && (sb.dinode disk inum).type == 0 with
  | none => throw .noFreeInodes
  | some inum =>
    logWrite (sb.iblock inum)
      ((Dinode.fresh type).store (← bread (sb.iblock inum)) (inum % ipb))
    iget inum

def iupdate (ip : Fin ninode) : FsM Unit := do
  let inode ← getInode ip
  logWrite (sb.iblock inode.inum)
    (inode.store (← bread (sb.iblock inode.inum)) (inode.inum % ipb))

def updateInode (ip : Fin ninode) (change : Inode → Inode) : FsM Unit := do
  modifyInode ip change
  iupdate sb ip

def ilock (ip : Fin ninode) : FsM Unit := do
  let inode ← getInode ip
  if inode.ref < 1 then throw .ilock
  else if inode.busy then throw .asleep
  else if inode.valid then
    modifyInode ip fun inode => { inode with busy := true }
  else do
    let dip := sb.dinode (← get).disk inode.inum
    modifyInode ip fun inode => { inode with toDinode := dip, busy := true, valid := true }
    if dip.type = 0 then throw .noType else pure ()

/-- The address in a slot of the inode, which is allocated if there is none. -/
def mapAddr (ip : Fin ninode) (k : Fin (ndirect + 1)) : FsM UInt32 := do
  let addr := (← getInode ip).addrs k
  if addr = 0 then do
    let addr ← balloc sb
    modifyInode ip fun inode => { inode with toDinode := inode.setAddr k addr }
    return addr
  else return addr

def bmap (ip : Fin ninode) (bn : Nat) : FsM UInt32 :=
  if direct : bn < ndirect then
    mapAddr sb ip ⟨bn, Nat.lt_succ_of_lt direct⟩
  else if bn - ndirect < nindirect then do
    let indirect ← mapAddr sb ip (Fin.last ndirect)
    let addr := getWord (← bread indirect.toNat) (bn - ndirect)
    if addr = 0 then do
      let addr ← balloc sb
      logWrite indirect.toNat (setWord (← bread indirect.toNat) (bn - ndirect) addr)
      return addr
    else return addr
  else throw .outOfRange

def truncDirect (ip : Fin ninode) (k : Fin ndirect) : FsM Unit := do
  let addr := (← getInode ip).addrs k.castSucc
  if addr = 0 then pure ()
  else do
    bfree sb addr.toNat
    modifyInode ip fun inode =>
      { inode with toDinode := inode.setAddr k.castSucc 0 }

def truncEntry (indirect : UInt32) (j : Fin nindirect) : FsM Unit := do
  let addr := getWord (← bread indirect.toNat) j
  if addr = 0 then pure () else bfree sb addr.toNat

def truncIndirect (ip : Fin ninode) : FsM Unit := do
  let addr := (← getInode ip).addrs (Fin.last ndirect)
  if addr = 0 then pure ()
  else do
    (List.finRange nindirect).forM (truncEntry sb addr)
    bfree sb addr.toNat
    modifyInode ip fun inode =>
      { inode with toDinode := inode.setAddr (Fin.last ndirect) 0 }

def itrunc (ip : Fin ninode) : FsM Unit := do
  (List.finRange ndirect).forM (truncDirect sb ip)
  truncIndirect sb ip
  updateInode sb ip fun inode => { inode with size := 0 }

def iput (ip : Fin ninode) : FsM Unit := do
  let inode ← getInode ip
  if inode.ref = 1 ∧ inode.valid ∧ inode.nlink = 0 then
    if inode.busy then throw .iputBusy
    else do
      modifyInode ip fun inode => { inode with busy := true }
      itrunc sb ip
      updateInode sb ip fun inode => { inode with type := 0 }
      modifyInode ip fun inode => { inode with busy := false, valid := false }
      modifyInode ip fun inode => { inode with ref := inode.ref - 1 }
  else
    modifyInode ip fun inode => { inode with ref := inode.ref - 1 }

def iunlockput (ip : Fin ninode) : FsM Unit := do
  iunlock ip
  iput sb ip

/-- Each turn copies at least one byte, so that `n` turns are enough. -/
def readiLoop (ip : Fin ninode) : Nat → Nat → Nat → FsM (List UInt8)
  | 0, _, _ => pure []
  | turns + 1, off, n =>
    if n = 0 then pure []
    else do
      let addr ← bmap sb ip (off / bsize)
      let data ← bread addr.toNat
      let m := min n (bsize - off % bsize)
      let rest ← readiLoop ip turns (off + m) (n - m)
      return (List.range m).map (fun k => byteAt data (off % bsize + k)) ++ rest

/-- The result of a transfer with a device; `none` if there is no such function. -/
def transfer {A : Type} (device : Int16 → Option A) (refused : A) (major : Int16) : A :=
  if major < 0 ∨ Int16.ofNat ndev ≤ major then refused
  else (device major).getD refused

/-- The result and the bytes copied out. -/
def readi (device : Int16 → Option (Int32 × List UInt8)) (ip : Fin ninode)
    (off n : UInt32) : FsM (Int32 × List UInt8) := do
  let inode ← getInode ip
  if inode.type = tDev then return transfer device (-1, []) inode.major
  else if inode.size < off ∨ off + n < off then return (-1, [])
  else do
    let n := if inode.size < off + n then inode.size - off else n
    let bytes ← readiLoop sb ip n.toNat off.toNat n.toNat
    return (n.toInt32, bytes)

def blit (data : Block) (start : Nat) (src : Nat → UInt8) (m : Nat) : Block :=
  fun k => if start ≤ k.val ∧ k.val < start + m then src (k.val - start) else data k

def writeiLoop (ip : Fin ninode) : Nat → (Nat → UInt8) → Nat → Nat → FsM Unit
  | 0, _, _, _ => pure ()
  | turns + 1, src, off, n =>
    if n = 0 then pure ()
    else do
      let addr ← bmap sb ip (off / bsize)
      let m := min n (bsize - off % bsize)
      logWrite addr.toNat (blit (← bread addr.toNat) (off % bsize) src m)
      writeiLoop ip turns (fun k => src (m + k)) (off + m) (n - m)

def writei (device : Int16 → Option Int32) (ip : Fin ninode) (src : Nat → UInt8)
    (off n : UInt32) : FsM Int32 := do
  let inode ← getInode ip
  if inode.type = tDev then return transfer device (-1) inode.major
  else if inode.size < off ∨ off + n < off then return -1
  else if UInt32.ofNat (maxfile * bsize) < off + n then return -1
  else do
    writeiLoop sb ip n.toNat src off.toNat n.toNat
    if 0 < n ∧ (← getInode ip).size < off + n then do
      updateInode sb ip fun inode => { inode with size := off + n }
      return n.toInt32
    else return n.toInt32

end

end StraceXv6.Kernel.Fs
