import StraceXv6.Data.Command
import StraceXv6.Data.References
import StraceXv6.Kernel.Process.Table

namespace StraceXv6.Kernel.Files

open Data
open Kernel.Process

/-! The table of open files and the descriptors of the processes.  `I` is the type of
pointers to inodes, which are only passed on. -/

abbrev nfile : Nat := 100

abbrev nofile : Nat := 16

abbrev FileIx : Type := Fin nfile

abbrev Fd : Type := Fin nofile

inductive FdType where
  | fdNone
  | fdPipe
  | fdInode
  deriving DecidableEq

structure File (I : Type) where
  type : FdType
  ref : Nat
  readable : Bool
  writable : Bool
  pipe : Option Nat
  ip : Option I
  off : UInt32

structure Pipe where
  readopen : Bool
  writeopen : Bool

/-- `pipe` has the pages that are pipes; `iputs` are the inodes that were put. -/
structure State (I : Type) where
  file : FileIx → File I
  pipe : Nat → Option Pipe
  table : Ptable
  ofile : Slot × Fd → Option FileIx
  cwd : Slot → Option I
  iputs : List I

inductive Panic where
  | filedup
  | fileclose
  | initExiting
  deriving DecidableEq

abbrev FilesM (I : Type) : Type → Type := Command (State I) Panic

variable {I : Type}

namespace State

def setFile (s : State I) (f : FileIx) (file : File I) : State I :=
  { s with file := Function.update s.file f file }

def setOfile (s : State I) (p : Slot) (fd : Fd) (f : Option FileIx) : State I :=
  { s with ofile := Function.update s.ofile (p, fd) f }

def setPipe (s : State I) (page : Nat) (pipe : Option Pipe) : State I :=
  { s with pipe := Function.update s.pipe page pipe }

def setTable (s : State I) (table : Ptable) : State I := { s with table := table }

def iput (s : State I) (ip : Option I) : State I := { s with iputs := s.iputs ++ ip.toList }

end State

def filealloc : FilesM I (Option FileIx) := do
  let s ← get
  match (List.finRange nfile).find? fun f => (s.file f).ref = 0 with
  | none => pure none
  | some f =>
    modify fun s => s.setFile f { s.file f with ref := 1 }
    pure (some f)

def filedup (f : FileIx) : FilesM I PUnit := do
  let s ← get
  if (s.file f).ref < 1 then throw .filedup
  else modify fun s => s.setFile f { s.file f with ref := (s.file f).ref + 1 }

def Pipe.close (pipe : Pipe) (writable : Bool) : Pipe :=
  if writable then { pipe with writeopen := false } else { pipe with readopen := false }

/-- The page is freed when both ends are closed. -/
def pipeclose (page : Nat) (writable : Bool) : FilesM I PUnit := do
  let s ← get
  match (s.pipe page).map fun pipe => pipe.close writable with
  | none => pure ⟨⟩
  | some pipe =>
    if !pipe.readopen && !pipe.writeopen then modify fun s => s.setPipe page none
    else modify fun s => s.setPipe page (some pipe)

def fileclose (f : FileIx) : FilesM I PUnit := do
  let s ← get
  let ff := s.file f
  if ff.ref < 1 then throw .fileclose
  else if ff.ref - 1 > 0 then modify fun s => s.setFile f { ff with ref := ff.ref - 1 }
  else do
    modify fun s => s.setFile f { ff with ref := 0, type := .fdNone }
    match ff.type, ff.pipe with
    | .fdPipe, some page => pipeclose page ff.writable
    | .fdInode, _ => modify fun s => s.iput ff.ip
    | _, _ => pure ⟨⟩

/-- `page` is what `kalloc` returns. -/
def pipealloc (page : Option Nat) : FilesM I (Option (FileIx × FileIx)) := do
  match ← filealloc with
  | none => pure none
  | some f0 =>
    match ← filealloc with
    | none => do
      fileclose f0
      pure none
    | some f1 =>
      match page with
      | none => do
        fileclose f0
        fileclose f1
        pure none
      | some page => do
        modify fun s => s.setPipe page (some ⟨true, true⟩)
        modify fun s => s.setFile f0
          { s.file f0 with type := .fdPipe, readable := true, writable := false,
                           pipe := some page }
        modify fun s => s.setFile f1
          { s.file f1 with type := .fdPipe, readable := false, writable := true,
                           pipe := some page }
        pure (some (f0, f1))

def argfd (p : Slot) (fd : Option Int32) : FilesM I (Option (Fd × FileIx)) := do
  let s ← get
  match fd with
  | none => pure none
  | some fd =>
    if fd < 0 ∨ 16 ≤ fd then pure none
    else
      pure ((s.ofile (p, Fin.ofNat nofile fd.toNatClampNeg)).map fun f =>
        (Fin.ofNat nofile fd.toNatClampNeg, f))

def fdalloc (p : Slot) (f : FileIx) : FilesM I (Option Fd) := do
  let s ← get
  match (List.finRange nofile).find? fun fd => s.ofile (p, fd) = none with
  | none => pure none
  | some fd =>
    modify fun s => s.setOfile p fd (some f)
    pure (some fd)

def sysDup (p : Slot) (fd : Option Int32) : FilesM I Int32 := do
  match ← argfd p fd with
  | none => pure (-1)
  | some (_, f) =>
    match ← fdalloc p f with
    | none => pure (-1)
    | some fd => do
      filedup f
      pure (Int32.ofNat fd)

def sysClose (p : Slot) (fd : Option Int32) : FilesM I Int32 := do
  match ← argfd p fd with
  | none => pure (-1)
  | some (fd, f) => do
    modify fun s => s.setOfile p fd none
    fileclose f
    pure 0

/-- `ip` is the inode that was found or created and may be opened; a failure puts it. -/
def sysOpen (p : Slot) (ip : Option I) (omode : Int32) : FilesM I Int32 := do
  match ip with
  | none => pure (-1)
  | some ip =>
    match ← filealloc with
    | none => do
      modify fun s => s.iput (some ip)
      pure (-1)
    | some f =>
      match ← fdalloc p f with
      | none => do
        fileclose f
        modify fun s => s.iput (some ip)
        pure (-1)
      | some fd => do
        modify fun s => s.setFile f
          { s.file f with type := .fdInode, ip := some ip, off := 0,
                          readable := omode &&& 1 = 0,
                          writable := omode &&& 1 ≠ 0 ∨ omode &&& 2 ≠ 0 }
        pure (Int32.ofNat fd)

def sysPipe (p : Slot) (page : Option Nat) : FilesM I Int32 := do
  match ← pipealloc page with
  | none => pure (-1)
  | some (rf, wf) =>
    match ← fdalloc p rf with
    | none => do
      fileclose rf
      fileclose wf
      pure (-1)
    | some fd0 =>
      match ← fdalloc p wf with
      | none => do
        modify fun s => s.setOfile p fd0 none
        fileclose rf
        fileclose wf
        pure (-1)
      | some _ => pure 0

def dupInto (p c : Slot) (fd : Fd) : FilesM I PUnit := do
  let s ← get
  match s.ofile (p, fd) with
  | none => pure ⟨⟩
  | some f => do
    filedup f
    modify fun s => s.setOfile c fd (some f)

/-- `room` says whether there are pages for the child. -/
def fork (p : Slot) (room : Bool) : FilesM I Int32 := do
  let s ← get
  match s.table.allocproc with
  | none => pure (-1)
  | some (c, t) =>
    if room then do
      modify fun s => s.setTable (t.setParent c p)
      (List.finRange nofile).forM (dupInto p c)
      modify fun s => { s with cwd := Function.update s.cwd c (s.cwd p) }
      modify fun s => s.setTable (s.table.modify c fun e => { e with state := .runnable })
      pure (t.proc c).pid
    else do
      modify fun s => s.setTable (t.modify c fun e => { e with state := .unused })
      pure (-1)

def closeSlot (p : Slot) (fd : Fd) : FilesM I PUnit := do
  let s ← get
  match s.ofile (p, fd) with
  | none => pure ⟨⟩
  | some f => do
    fileclose f
    modify fun s => s.setOfile p fd none

def exit (p : Slot) : FilesM I PUnit := do
  let s ← get
  if p = s.table.initproc then throw .initExiting
  else do
    (List.finRange nofile).forM (closeSlot p)
    modify fun s => s.iput (s.cwd p)
    modify fun s => { s with cwd := Function.update s.cwd p none }
    modify fun s => s.setTable (s.table.exit p)

/-- The turn of the loop of `wait` that finds a child, if there is one. -/
def wait (p : Slot) : FilesM I Int32 := do
  let s ← get
  match s.table.zombieChild p with
  | none => pure (-1)
  | some q => do
    modify fun s => s.setTable (s.table.reap q)
    pure (s.table.proc q).pid

inductive Call (I : Type) where
  | open (p : Slot) (ip : Option I) (omode : Int32)
  | dup (p : Slot) (fd : Option Int32)
  | close (p : Slot) (fd : Option Int32)
  | pipe (p : Slot) (page : Option Nat)
  | fork (p : Slot) (room : Bool)
  | exit (p : Slot)
  | wait (p : Slot)

def perform : Call I → FilesM I Int32
  | .open p ip omode => sysOpen p ip omode
  | .dup p fd => sysDup p fd
  | .close p fd => sysClose p fd
  | .pipe p page => sysPipe p page
  | .fork p room => fork p room
  | .exit p => do
    exit p
    pure 0
  | .wait p => wait p

def Call.caller : Call I → Slot
  | .open p _ _ | .dup p _ | .close p _ | .pipe p _ | .fork p _ | .exit p | .wait p => p

/-- `kalloc` returns no page that is in use. -/
def Call.fresh (s : State I) : Call I → Bool
  | .pipe _ (some page) => (s.pipe page).isNone
  | _ => true

def Enabled (s : State I) (call : Call I) : Prop :=
  (s.table.proc call.caller).state.Live ∧ call.fresh s = true

instance (s : State I) (call : Call I) : Decidable (Enabled s call) :=
  inferInstanceAs (Decidable (_ ∧ _))

def State.step (s : State I) (call : Call I) : Option (State I) :=
  if Enabled s call then
    match perform call s with
    | .ok (_, s') => some s'
    | .error _ => none
  else none

def State.boot (root : I) : State I where
  file := fun _ => ⟨.fdNone, 0, false, false, none, none, 0⟩
  pipe := fun _ => none
  table := .boot
  ofile := fun _ => none
  cwd := fun p => if p = 0 then some root else none
  iputs := []

end StraceXv6.Kernel.Files
