import StraceXv6.Kernel.Fs.ByteArrays
import StraceXv6.Kernel.Vm.Sbrk

namespace StraceXv6.Kernel.Vm

open Data Data.Command

/-! Running a program: the file's headers, the new image, and the arguments. -/

structure File where
  bytes : List UInt8
  fits : bytes.length ≤ maxfile * bsize

namespace File

/-- What `readi` copies out; `none` is the failure. -/
def readi (file : File) (off n : UInt32) : Option (List UInt8) :=
  if file.bytes.length < off.toNat ∨ 2 ^ 32 ≤ off.toNat + n.toNat then none
  else some ((file.bytes.take (off.toNat + n.toNat)).drop off.toNat)

end File

def wordOf (bytes : List UInt8) (index : Nat) : UInt32 :=
  getWord (fun k : Fin bytes.length => bytes.get k) index

abbrev elfMagic : UInt32 := 0x464C457F

structure Elfhdr where
  magic : UInt32
  entry : UInt32
  phoff : UInt32
  phnum : Nat
  deriving DecidableEq

/-- `phnum` is a 16-bit field at offset 44. -/
def elfhdr (bytes : List UInt8) : Elfhdr where
  magic := wordOf bytes 0
  entry := wordOf bytes 6
  phoff := wordOf bytes 7
  phnum := (wordOf bytes 11).toNat % 2 ^ 16

abbrev elfProgLoad : UInt32 := 1

structure Proghdr where
  type : UInt32
  off : UInt32
  vaddr : UInt32
  filesz : UInt32
  memsz : UInt32
  deriving DecidableEq

def proghdr (bytes : List UInt8) : Proghdr where
  type := wordOf bytes 0
  off := wordOf bytes 1
  vaddr := wordOf bytes 2
  filesz := wordOf bytes 4
  memsz := wordOf bytes 5

namespace File

def header (file : File) : Option Elfhdr :=
  let bytes := (file.readi 0 52).getD []
  if bytes.length < 52 then none
  else if (elfhdr bytes).magic ≠ elfMagic then none
  else some (elfhdr bytes)

def segment (file : File) (off : UInt32) : Option Proghdr :=
  match file.readi off 32 with
  | none => none
  | some bytes => if bytes.length = 32 then some (proghdr bytes) else none

end File

/-- What `exec` does to the new image: `allocuvm` has made it `sz` bytes large, `loaduvm` has
written to a page at `va`, the loop goes past a header. -/
inductive Event
  | grown (sz : UInt32)
  | loaded (va : UInt32) (page count : Nat)
  | accepted (ph : Proghdr)

/-- The memory and the events so far, the last one first. -/
abbrev ExecM : Type → Type := Command (Memory × List Event) Panic

def emit (event : Event) : ExecM Unit := modify fun s => (s.1, event :: s.2)

def overwrite (page : Page) (start : Nat) (bytes : List UInt8) : Page :=
  fun k => if start ≤ k.val then (bytes[k.val - start]?).getD (page k) else page k

def writePage (page start : Nat) (bytes : List UInt8) : VmM Unit :=
  modify fun m => m.setPage page (overwrite (m.page page) start bytes)

/-- `readi` into the page at `va`.  Where the entry is not that of a page of the image, the bytes
would go to memory that is not the image's: to the first page of memory or to one that
the kernel maps. -/
def loadPage (pgdir : Nat) (va : UInt32) (bytes : List UInt8) : ExecM Unit := do
  match ← zoom (walkpgdir pgdir va false) with
  | none => throw .addressShouldExist
  | some pte => do
    let entry ← zoom (getEntry pte)
    if bytes = [] then return ()
    else if va < kernbase ∧ present entry then do
      zoom (writePage (frame entry) 0 bytes)
      emit (.loaded va (frame entry) bytes.length)
    else throw .stray

/-- A read that fails copies nothing. -/
def loaduvmLoop (pgdir : Nat) (addr : UInt32) (ip : File) (offset sz : UInt32) :
    Nat → UInt32 → ExecM Bool
  | 0, _ => throw .diverges
  | turns + 1, i =>
    if i < sz then do
      let n := if sz - i < 4096 then sz - i else 4096
      let bytes := (ip.readi (offset + i) n).getD []
      loadPage pgdir (addr + i) bytes
      if bytes.length = n.toNat then
        loaduvmLoop pgdir addr ip offset sz turns (i + 4096)
      else return false
    else return true

def loaduvm (pgdir : Nat) (addr : UInt32) (ip : File) (offset sz : UInt32) : ExecM Bool :=
  if addr.toNat % pgsize ≠ 0 then throw .addressAligned
  else loaduvmLoop pgdir addr ip offset sz (2 ^ 20) 0

/-- The loop over the program headers; `none` is `goto bad`. -/
def loadSegments (kernel : Image) (pgdir : Nat) (ip : File) :
    Nat → UInt32 → UInt32 → ExecM (Option UInt32)
  | 0, _, sz => return some sz
  | n + 1, off, sz =>
    match ip.segment off with
    | none => return none
    | some ph =>
      if ph.type ≠ elfProgLoad then loadSegments kernel pgdir ip n (off + 32) sz
      else if ph.memsz < ph.filesz then return none
      else do
        let sz ← zoom (allocuvm kernel pgdir sz (ph.vaddr + ph.memsz))
        if sz = 0 then return none
        else do
          emit (.grown sz)
          if ← loaduvm pgdir ph.vaddr ip ph.off ph.filesz then do
            emit (.accepted ph)
            loadSegments kernel pgdir ip n (off + 32) sz
          else return none

def copyoutLoop (pgdir : Nat) : Nat → UInt32 → List UInt8 → VmM Bool
  | 0, _, _ => return true
  | turns + 1, va, bytes =>
    if bytes = [] then return true
    else do
      match ← uva2ka pgdir (pgrounddown va) with
      | none => return false
      | some page => do
        let start := (va - pgrounddown va).toNat
        let n := min (pgsize - start) bytes.length
        writePage page start (bytes.take n)
        copyoutLoop pgdir turns (pgrounddown va + 4096) (bytes.drop n)

def copyout (pgdir : Nat) (va : UInt32) (bytes : List UInt8) : VmM Bool :=
  copyoutLoop pgdir bytes.length va bytes

abbrev maxarg : Nat := 32

/-- An argument string, without its NUL.  It was found in the caller's memory, below
`KERNBASE`. -/
structure Argument where
  bytes : List UInt8
  below : bytes.length < kernbase.toNat

def Argument.place (argument : Argument) (sp : UInt32) : UInt32 :=
  (sp - (UInt32.ofNat argument.bytes.length + 1)) &&& ~~~3

def pushArguments (pgdir : Nat) : Nat → UInt32 → List Argument → VmM (Option (UInt32 × List UInt32))
  | _, sp, [] => return some (sp, [])
  | argc, sp, argument :: rest =>
    if maxarg ≤ argc then return none
    else do
      if ← copyout pgdir (argument.place sp) (argument.bytes ++ [0]) then
        match ← pushArguments pgdir (argc + 1) (argument.place sp) rest with
        | none => return none
        | some (sp', pointers) => return some (sp', argument.place sp :: pointers)
      else return none

def wordBytes (word : UInt32) : List UInt8 :=
  (List.range 4).map fun k => UInt8.ofNat (word.toNat / 2 ^ (8 * k))

def ustack (sp : UInt32) (pointers : List UInt32) : List UInt32 :=
  [0xFFFFFFFF, UInt32.ofNat pointers.length, sp - (UInt32.ofNat pointers.length + 1) * 4] ++
    pointers ++ [0]

structure Started where
  pgdir : Nat
  sz : UInt32
  eip : UInt32
  esp : UInt32

section

variable (kernel : Image)

/-- The part of `exec` from the user stack on; `none` is `goto bad`. -/
@[irreducible] def pushStack (pgdir : Nat) (sz : UInt32) (argv : List Argument) :
    VmM (Option (UInt32 × UInt32)) := do
  let sz ← allocuvm kernel pgdir (pgroundup sz) (pgroundup sz + 2 * 4096)
  if sz = 0 then return none
  else do
    clearpteu pgdir (sz - 2 * 4096)
    match ← pushArguments pgdir 0 sz argv with
    | none => return none
    | some (sp, pointers) => do
      let sp' := sp - (3 + UInt32.ofNat pointers.length + 1) * 4
      if ← copyout pgdir sp' ((ustack sp pointers).flatMap wordBytes) then
        return some (sz, sp')
      else return none

/-- The image is committed, or it is freed again. -/
def finishExec (oldpgdir pgdir : Nat) (elf : Elfhdr) (argv : List Argument) :
    Option UInt32 → VmM (Option Started)
  | none => do
    freevm kernel pgdir
    return none
  | some sz => do
    match ← pushStack kernel pgdir sz argv with
    | none => do
      freevm kernel pgdir
      return none
    | some (sz, sp) => do
      freevm kernel oldpgdir
      return some ⟨pgdir, sz, elf.entry, sp⟩

/-- `exec` of the file that `namei` finds; `none` is the result `-1`. -/
def exec (oldpgdir : Nat) (file : Option File) (argv : List Argument) :
    ExecM (Option Started) :=
  match file with
  | none => return none
  | some ip =>
    match ip.header with
    | none => return none
    | some elf => do
      match ← zoom (setupkvm kernel) with
      | none => return none
      | some pgdir => do
        let loaded ← loadSegments kernel pgdir ip elf.phnum elf.phoff 0
        zoom (finishExec kernel oldpgdir pgdir elf argv loaded)

end

end StraceXv6.Kernel.Vm
