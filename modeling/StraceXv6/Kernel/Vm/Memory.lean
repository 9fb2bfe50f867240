import StraceXv6.Data.Command
import StraceXv6.Data.Words
import StraceXv6.Kernel.Vm.Paging

namespace StraceXv6.Kernel.Vm

open Data

/-! Physical memory, and the functions of the kernel that build page tables in it. -/

abbrev Page : Type := Fin pgsize → UInt8

/-- The pages of physical memory, and those on the free list.  A page that the kernel
reaches through `p2v` is named by its number. -/
structure Memory where
  page : Nat → Page
  freelist : List Nat

/-- Where the linker puts the kernel: `data` begins a page, and `end` is the first
address after the kernel. -/
structure Image where
  data : UInt32
  finish : UInt32
  aligned : data.toNat % pgsize = 0
  text : kernlink.toNat < data.toNat
  ordered : data.toNat ≤ finish.toNat
  fits : finish.toNat < kernbase.toNat + phystop.toNat

/-- The panics, the loops that do not end, the reads through a null pointer, and the
writes that `loaduvm` makes to memory which is not a page of the image. -/
inductive Panic
  | kfree
  | remap
  | phystop
  | clearpteu
  | pteShouldExist
  | pageNotPresent
  | addressAligned
  | addressShouldExist
  | nullPte
  | stray
  | diverges
  deriving DecidableEq

abbrev VmM : Type → Type := Command Memory Panic

structure Slot where
  page : Nat
  index : Nat

namespace Memory

def setPage (m : Memory) (page : Nat) (content : Page) : Memory :=
  { m with page := Function.update m.page page content }

def entryAt (m : Memory) (slot : Slot) : UInt32 := getWord (m.page slot.page) slot.index

def setEntryAt (m : Memory) (slot : Slot) (pte : UInt32) : Memory :=
  m.setPage slot.page (setWord (m.page slot.page) slot.index pte)

end Memory

def memset (page : Nat) (byte : UInt8) : VmM Unit := modify (·.setPage page fun _ => byte)

def memmove (page source : Nat) : VmM Unit := modify fun m => m.setPage page (m.page source)

def getEntry (slot : Slot) : VmM UInt32 := do return (← get).entryAt slot

def setEntry (slot : Slot) (pte : UInt32) : VmM Unit := modify (·.setEntryAt slot pte)

def kalloc : VmM (Option Nat) := do
  match (← get).freelist with
  | [] => return none
  | page :: rest => do
    modify fun m => { m with freelist := rest }
    return some page

def p2v (pa : UInt32) : UInt32 := pa + kernbase

def walkpgdir (pgdir : Nat) (va : UInt32) (alloc : Bool) : VmM (Option Slot) := do
  let pde ← getEntry ⟨pgdir, pdx va⟩
  if present pde then return some ⟨frame pde, ptx va⟩
  else if alloc then do
    match ← kalloc with
    | none => return none
    | some pgtab => do
      memset pgtab 0
      setEntry ⟨pgdir, pdx va⟩ (v2p pgtab ||| (pteW ||| pteU) ||| pteP)
      return some ⟨pgtab, ptx va⟩
  else return none

/-- One turn of the loop of `mappages`. -/
def mapPage (pgdir : Nat) (a pa perm : UInt32) : VmM Bool := do
  match ← walkpgdir pgdir a true with
  | none => return false
  | some pte =>
    if present (← getEntry pte) then throw .remap
    else do
      setEntry pte (pa ||| perm ||| pteP)
      return true

def mappagesLoop (pgdir : Nat) (last perm : UInt32) : Nat → UInt32 → UInt32 → VmM Bool
  | 0, _, _ => throw .diverges
  | turns + 1, a, pa => do
    if ← mapPage pgdir a pa perm then
      if a = last then return true
      else mappagesLoop pgdir last perm turns (a + 4096) (pa + 4096)
    else return false

/-- The result tells whether all pages are mapped.  There are `2 ^ 20` page addresses,
so that `a` has met `last` after as many turns. -/
def mappages (pgdir : Nat) (va size pa perm : UInt32) : VmM Bool :=
  mappagesLoop pgdir (pgrounddown (va + size - 1)) perm (2 ^ 20) (pgrounddown va) pa

structure Kmap where
  virt : UInt32
  physStart : UInt32
  physEnd : UInt32
  perm : UInt32

section

variable (kernel : Image)

/-- Every page begins at a multiple of `PGSIZE`. -/
def kfree (page : Nat) : VmM Unit := do
  if p2v (v2p page) < kernel.finish ∨ phystop ≤ v2p page then throw .kfree
  else do
    memset page 1
    modify fun m => { m with freelist := page :: m.freelist }

def kmap : List Kmap :=
  [⟨kernbase, 0, extmem, pteW⟩,
    ⟨kernlink, kernlink - kernbase, kernel.data - kernbase, 0⟩,
    ⟨kernel.data, kernel.data - kernbase, phystop, pteW⟩,
    ⟨devspace, devspace, 0, pteW⟩]

def mapKernel (pgdir : Nat) : List Kmap → VmM Bool
  | [] => return true
  | k :: rest => do
    if ← mappages pgdir k.virt (k.physEnd - k.physStart) k.physStart k.perm then
      mapKernel pgdir rest
    else return false

def setupkvm : VmM (Option Nat) := do
  match ← kalloc with
  | none => return none
  | some pgdir => do
    memset pgdir 0
    if devspace < p2v phystop then throw .phystop
    else if ← mapKernel pgdir (kmap kernel) then return some pgdir
    else return none

def freeEntry (pte : Slot) : VmM Unit := do
  let entry ← getEntry pte
  if present entry then
    if pteAddr entry = 0 then throw .kfree
    else do
      kfree kernel (frame entry)
      setEntry pte 0
  else return ()

/-- Where there is no page table, the loop goes on `NPTENTRIES` pages further. -/
def deallocuvmLoop (pgdir : Nat) (oldsz : UInt32) : Nat → UInt32 → VmM Unit
  | 0, _ => throw .diverges
  | turns + 1, a =>
    if a < oldsz then do
      match ← walkpgdir pgdir a false with
      | none => deallocuvmLoop pgdir oldsz turns (a + (1024 - 1) * 4096 + 4096)
      | some pte => do
        freeEntry kernel pte
        deallocuvmLoop pgdir oldsz turns (a + 4096)
    else return ()

def deallocuvm (pgdir : Nat) (oldsz newsz : UInt32) : VmM UInt32 := do
  if oldsz ≤ newsz then return oldsz
  else do
    deallocuvmLoop kernel pgdir oldsz (2 ^ 20) (pgroundup newsz)
    return newsz

/-- The result of `mappages` is not looked at. -/
def allocuvmLoop (pgdir : Nat) (oldsz newsz : UInt32) : Nat → UInt32 → VmM UInt32
  | 0, _ => throw .diverges
  | turns + 1, a =>
    if a < newsz then do
      match ← kalloc with
      | none => do
        let _ ← deallocuvm kernel pgdir newsz oldsz
        return 0
      | some mem => do
        memset mem 0
        let _ ← mappages pgdir a 4096 (v2p mem) (pteW ||| pteU)
        allocuvmLoop pgdir oldsz newsz turns (a + 4096)
    else return newsz

def allocuvm (pgdir : Nat) (oldsz newsz : UInt32) : VmM UInt32 :=
  if kernbase ≤ newsz then return 0
  else if newsz < oldsz then return oldsz
  else allocuvmLoop kernel pgdir oldsz newsz (2 ^ 20) (pgroundup oldsz)

/-- The entries of the directory are not cleared. -/
def freeTables (pgdir : Nat) : List Nat → VmM Unit
  | [] => return ()
  | i :: rest => do
    let pde ← getEntry ⟨pgdir, i⟩
    if present pde then do
      kfree kernel (frame pde)
      freeTables pgdir rest
    else freeTables pgdir rest

def freevm (pgdir : Nat) : VmM Unit := do
  let _ ← deallocuvm kernel pgdir kernbase 0
  freeTables kernel pgdir (List.range npdentries)
  kfree kernel pgdir

def copyuvmLoop (d pgdir : Nat) (sz : UInt32) : Nat → UInt32 → VmM (Option Nat)
  | 0, _ => throw .diverges
  | turns + 1, i =>
    if i < sz then do
      match ← walkpgdir pgdir i false with
      | none => throw .pteShouldExist
      | some pte => do
        let entry ← getEntry pte
        if ¬present entry then throw .pageNotPresent
        else do
          match ← kalloc with
          | none => do
            freevm kernel d
            return none
          | some mem => do
            memmove mem (frame entry)
            if ← mappages d i 4096 (v2p mem) (pteFlags entry) then
              copyuvmLoop d pgdir sz turns (i + 4096)
            else do
              freevm kernel d
              return none
    else return some d

def copyuvm (pgdir : Nat) (sz : UInt32) : VmM (Option Nat) := do
  match ← setupkvm kernel with
  | none => return none
  | some d => copyuvmLoop kernel d pgdir sz (2 ^ 20) 0

end

def clearpteu (pgdir : Nat) (uva : UInt32) : VmM Unit := do
  match ← walkpgdir pgdir uva false with
  | none => throw .clearpteu
  | some pte => setEntry pte ((← getEntry pte) &&& ~~~pteU)

/-- Where there is no page table, `*pte` is read through a null pointer. -/
def uva2ka (pgdir : Nat) (uva : UInt32) : VmM (Option Nat) := do
  match ← walkpgdir pgdir uva false with
  | none => throw .nullPte
  | some pte => do
    let entry ← getEntry pte
    if entry &&& pteP = 0 then return none
    else if entry &&& pteU = 0 then return none
    else return some (frame entry)

end StraceXv6.Kernel.Vm
