import StraceXv6.Kernel.Vm.Leaks

namespace StraceXv6.Kernel.Exec

open Data Data.Command
open Kernel.Fs (FsM)
open Kernel.Vm (Argument Elfhdr ExecM File Image Memory VmM freevm setupkvm)

/-! `exec` with all that it uses: the file system, the log, the memory and the process. -/

/-- The process; `tf` is the trap frame without `eip` and `esp`, and `ofile` are the open files. -/
structure Caller (T O : Type) where
  pgdir : Nat
  sz : UInt32
  eip : UInt32
  esp : UInt32
  tf : T
  name : List UInt8
  cwd : Fin ninode
  ofile : O

/-- `begun` and `ended` count the calls of `begin_op` and `end_op`. -/
structure State (T O : Type) where
  fs : Fs
  outstanding : Nat
  begun : Nat
  ended : Nat
  memory : Memory
  proc : Caller T O

inductive Failure
  | halt (halt : Halt)
  | panic (panic : Vm.Panic)

section

variable {T O A : Type}

def onFs (command : FsM A) : Command (State T O) Failure A :=
  within State.fs (fun s fs => { s with fs := fs }) .halt command

def onMemory (command : VmM A) : Command (State T O) Failure A :=
  within State.memory (fun s memory => { s with memory := memory }) .panic command

def onImage (command : ExecM A) : Command (State T O) Failure A :=
  within (fun s => (s.memory, [])) (fun s next => { s with memory := next.1 }) .panic command

/-- The log admits the operation, at some time. -/
def beginOp : Command (State T O) Failure Unit :=
  modify fun s => { s with outstanding := s.outstanding + 1, begun := s.begun + 1 }

def endOp : Command (State T O) Failure Unit :=
  modify fun s => { s with outstanding := s.outstanding - 1, ended := s.ended + 1 }

def lastElement (last : List UInt8) : List UInt8 → List UInt8
  | [] => last
  | c :: s => if c = 47 then lastElement s s else lastElement last s

variable (kernel : Image) (sb : Superblock) (device : Int16 → File)

/-- What `readi` gives of a locked inode; `device` is what is read of a device. -/
def fileOf (fs : Fs) (ip : Fin ninode) : File :=
  if (Fs.nodeAt sb fs ip).type = tDev then device (Fs.nodeAt sb fs ip).major
  else
    { bytes := (Fs.nodeAt sb fs ip).read 0 (maxfile * bsize)
      fits := by
        rw [Node.read, List.length_map, List.length_range]
        exact Nat.min_le_left _ _ }

/-- The label `bad`. -/
def bad (pgdir : Option Nat) (ip : Option (Fin ninode)) : Command (State T O) Failure Int32 := do
  match pgdir with
  | none => pure ()
  | some pgdir => onMemory (freevm kernel pgdir)
  match ip with
  | none => pure ()
  | some ip => do
    onFs (Fs.iunlockput sb ip)
    endOp
  return -1

def commit (path : List UInt8) (elf : Elfhdr) (pgdir : Nat) (sz sp : UInt32) :
    Command (State T O) Failure Int32 := do
  let oldpgdir := (← get).proc.pgdir
  modify fun s => { s with proc := { s.proc with
    name := (lastElement path path).take 15, pgdir := pgdir, sz := sz, eip := elf.entry, esp := sp } }
  onMemory (freevm kernel oldpgdir)
  return 0

def exec (path : List UInt8) (argv : List Argument) : Command (State T O) Failure Int32 := do
  beginOp
  match ← onFs (Fs.namei sb (← get).proc.cwd path) with
  | none => do
    endOp
    return -1
  | some ip => do
    onFs (Fs.ilock sb ip)
    let file := fileOf sb device (← get).fs ip
    match file.header with
    | none => bad kernel sb none (some ip)
    | some elf => do
      match ← onMemory (setupkvm kernel) with
      | none => bad kernel sb none (some ip)
      | some pgdir => do
        match ← onImage (Vm.loadSegments kernel pgdir file elf.phnum elf.phoff 0) with
        | none => bad kernel sb (some pgdir) (some ip)
        | some sz => do
          onFs (Fs.iunlockput sb ip)
          endOp
          match ← onMemory (Vm.pushStack kernel pgdir sz argv) with
          | none => bad kernel sb (some pgdir) none
          | some (sz, sp) => commit kernel path elf pgdir sz sp

end

section

variable {T O : Type} {kernel : Image} {sb : Superblock} {device : Int16 → File}
  {held : Multiset (Fin ninode)} {ip : Fin ninode} {s s₁ : State T O}

structure Locked (sb : Superblock) (held : Multiset (Fin ninode)) (ip : Fin ninode)
    (s s₁ : State T O) : Prop where
  settled : Fs.Settled sb s₁.fs (ip ::ₘ held) {ip}
  outstanding : s₁.outstanding = s.outstanding + 1
  begun : s₁.begun = s.begun + 1
  ended : s₁.ended = s.ended
  proc : s₁.proc = s.proc

structure Ended (sb : Superblock) (held : Multiset (Fin ninode)) (s s' : State T O) : Prop where
  settled : Fs.Settled sb s'.fs held ∅
  outstanding : s'.outstanding = s.outstanding
  begun : s'.begun = s.begun + 1
  ended : s'.ended = s.ended + 1

/-- `exec` has returned; if it has failed, it has changed nothing that is in use. -/
structure Returned (sb : Superblock) (held : Multiset (Fin ninode)) (s : State T O)
    (result : Int32) (s' : State T O) : Prop extends Ended sb held s s' where
  proc : result = -1 → s'.proc = s.proc
  untouched : result = -1 → Vm.Untouched s.memory s'.memory

theorem Locked.release (locked : Locked sb held ip s s₁) :
    Ensures (Fs.iunlockput sb ip) s₁.fs
      (fun _ fs => ∀ memory, Ended sb held s { s₁ with
        fs := fs, outstanding := s₁.outstanding - 1, ended := s₁.ended + 1, memory := memory })
      fun _ => True := by
  refine (Fs.iunlockput_released locked.settled (Finset.mem_singleton_self ip)).mono ?_
    fun _ _ => trivial
  rintro _ fs ⟨settled, _⟩ memory
  rw [Finset.erase_singleton] at settled
  exact ⟨settled, by rw [locked.outstanding, Nat.add_sub_cancel], locked.begun,
    congrArg (· + 1) locked.ended⟩

theorem bad_returned {pgdir : Option Nat} (locked : Locked sb held ip s s₁)
    (frees : Ensures (match pgdir with | none => pure () | some pgdir => freevm kernel pgdir)
      s₁.memory (fun _ memory => Vm.Untouched s.memory memory) fun _ => True) :
    Ensures (bad kernel sb pgdir (some ip)) s₁ (Returned sb held s) fun _ => True := by
  have releases : ∀ memory, Vm.Untouched s.memory memory →
      Ensures (do onFs (Fs.iunlockput sb ip); endOp; return -1) { s₁ with memory := memory }
        (Returned sb held s) fun _ => True := by
    intro memory untouched
    simp only [onFs, endOp, ensures_bind, ensures_within, ensures_modify, ensures_pure]
    refine locked.release.weaken fun _ fs ended => ?_
    exact { toEnded := ended memory, proc := fun _ => locked.proc, untouched := fun _ => untouched }
  cases pgdir with
  | none => exact releases s₁.memory frees
  | some pgdir =>
    simp only [bad, ensures_bind, onMemory, ensures_within]
    refine Ensures.weaken frees ?_
    intro _ memory untouched
    have after := releases memory untouched
    simp only [ensures_bind] at after
    exact after

variable {argv : List Argument} {path : List UInt8}

theorem finish_returned {elf : Elfhdr} {pgdir : Nat} {sz : UInt32}
    (ended : ∀ memory, Ended sb held s { s₁ with memory := memory }) (proc : s₁.proc = s.proc)
    (loaded : Vm.Held kernel s.memory (Vm.pages sz) s₁.memory pgdir) (small : sz < kernbase) :
    Ensures (onMemory (Vm.pushStack kernel pgdir sz argv) >>= fun
        | none => bad kernel sb (some pgdir) none
        | some (sz, sp) => commit kernel path elf pgdir sz sp) s₁
      (Returned sb held s) fun _ => True := by
  rw [ensures_bind, onMemory, ensures_within]
  refine (Vm.pushStack_settled loaded small).weaken ?_
  intro result memory settled
  cases result with
  | none =>
    simp only [bad, ensures_bind, onMemory, ensures_within, ensures_pure]
    refine settled.freevm.weaken ?_
    exact fun _ memory' freed => {
      toEnded := ended memory', proc := fun _ => proc, untouched := fun _ => freed.1 }
  | some result =>
    simp only [commit, ensures_bind, ensures_get, ensures_modify, onMemory, ensures_within,
      ensures_pure]
    refine (ensures_trivial _ _).weaken ?_
    intro _ memory' _
    have done := ended memory'
    exact {
      settled := done.settled
      outstanding := done.outstanding
      begun := done.begun
      ended := done.ended
      proc := fun failed => absurd failed (by decide)
      untouched := fun failed => absurd failed (by decide) }

theorem exec_returned (rooted : rootino < sb.ninodes) (settled : Fs.Settled sb s.fs held ∅)
    (member : s.proc.cwd ∈ held) (ranged : sb.Ranged (sb.node s.fs.disk))
    (sound : Vm.Sound kernel s.memory) :
    Ensures (exec kernel sb device path argv) s (Returned sb held s) fun _ => True := by
  simp only [exec, beginOp, endOp, ensures_bind, ensures_modify, ensures_get]
  rw [onFs, ensures_within]
  refine (Fs.namei_ensures rooted settled member ranged).mono ?_ fun _ _ => trivial
  rintro _ fs₁ ⟨found, resolved, rfl⟩
  cases found with
  | none =>
    exact {
      settled := resolved.missing rfl
      outstanding := rfl
      begun := rfl
      ended := rfl
      proc := fun _ => rfl
      untouched := fun _ _ _ => rfl }
  | some reached =>
    obtain ⟨ip, name⟩ := reached
    simp only [Option.map_some, ensures_bind]
    rw [onFs, ensures_within]
    refine (Fs.ilock_passed (resolved.found ip name rfl).1 (Multiset.mem_cons_self ip held)).mono
      ?_ fun _ _ => trivial
    rintro _ fs₂ ⟨_, settled₂, _⟩
    have locked : ∀ memory, Locked sb held ip s { s with
        fs := fs₂, outstanding := s.outstanding + 1, begun := s.begun + 1, memory := memory } :=
      fun _ => ⟨settled₂, rfl, rfl, rfl, rfl⟩
    simp only [ensures_get]
    cases (fileOf sb device fs₂ ip).header with
    | none => exact bad_returned (locked s.memory) fun _ _ => rfl
    | some elf =>
      dsimp only
      rw [ensures_bind, onMemory, ensures_within]
      refine (Vm.setupkvm_ensures sound).weaken ?_
      rintro result m₁ (⟨pgdir, size, rfl, length, built, kept⟩ | ⟨rfl, _, _, kept⟩)
      · dsimp only
        rw [ensures_bind, onImage, ensures_within]
        refine (Vm.loadSegments_held (.full length built.populated kept) (by decide)).mono ?_
          fun _ _ => trivial
        rintro loaded ⟨m₂, trace⟩ ready
        cases loaded with
        | none =>
          refine bad_returned (locked m₂) ?_
          exact (Vm.Settled.freevm ready).weaken fun _ _ freed => freed.1
        | some sz =>
          obtain ⟨image, small, _⟩ := ready
          dsimp only
          rw [ensures_bind, onFs, ensures_within]
          refine (locked m₂).release.weaken fun _ fs₃ ended => ?_
          rw [ensures_bind, ensures_modify]
          exact finish_returned ended rfl image small
      · exact bad_returned (locked m₁) kept

/-- However `exec` returns, it has ended its operation and given back its references and locks; if
it returns -1, the process and every page of its address space are as they were. -/
theorem exec_ends_and_undoes {path : List UInt8} {argv : List Argument}
    (rooted : rootino < sb.ninodes) (settled : Fs.Settled sb s.fs held ∅)
    (member : s.proc.cwd ∈ held) (ranged : sb.Ranged (sb.node s.fs.disk))
    (space : Vm.AddressSpace kernel s.memory s.proc.pgdir) :
    Ensures (exec kernel sb device path argv) s
      (fun result s' => Fs.Settled sb s'.fs held ∅ ∧ s'.outstanding = s.outstanding ∧
        s'.begun = s.begun + 1 ∧ s'.ended = s.ended + 1 ∧
        (result = -1 → s'.proc = s.proc ∧ ∀ holder g,
          s.memory.holds s.proc.pgdir holder = some g → s'.memory.page g = s.memory.page g))
      fun _ => True := by
  refine (exec_returned rooted settled member ranged space.sound).weaken ?_
  intro result s' returned
  refine ⟨returned.settled, returned.outstanding, returned.begun, returned.ended, fun failed => ?_⟩
  refine ⟨returned.proc failed, fun holder g holds => ?_⟩
  exact returned.untouched failed g (space.inUse holder g holds)

theorem exec_missing {fs : Fs} (missing : Fs.namei sb s.proc.cwd path s.fs = .ok (none, fs)) :
    ∃ s', exec kernel sb device path argv s = .ok (-1, s') := by
  have fails : Ensures (exec kernel sb device path argv) s (fun result _ => result = -1)
      fun _ => False := by
    simp only [exec, beginOp, endOp, onFs, ensures_bind, ensures_modify, ensures_get,
      ensures_within]
    rw [Ensures, missing]
    rfl
  obtain ⟨_, s', returned, rfl⟩ := fails.exists_ok
  exact ⟨s', returned⟩

end

def shell (pgdir : Nat) (memory : Memory) : State Unit Unit :=
  ⟨Fs.booted Fs.smallDisk, 0, 0, 0, memory, ⟨pgdir, 0, 0, 0, (), [], 0, ()⟩⟩

/-- There is no such file. -/
theorem exec_ends_and_undoes_missing : ∃ pgdir m s',
    Vm.newProcess Vm.smallKernel 100 Vm.spareMemory = .ok (some pgdir, m) ∧
      exec Vm.smallKernel Fs.smallDisk (fun _ => ⟨[], Nat.zero_le _⟩) (lit "none") []
        (shell pgdir m) = .ok (-1, s') ∧
      s'.begun = 1 ∧ s'.ended = 1 ∧ s'.proc = (shell pgdir m).proc := by
  obtain ⟨pgdir, m, created, process, _⟩ := Vm.exists_newProcess
  have missing : (Fs.namei Fs.smallDisk 0 (lit "none") (Fs.booted Fs.smallDisk)).toOption.map
      Prod.fst = some none := by decide +kernel
  obtain ⟨fs, performed⟩ :
      ∃ fs, Fs.namei Fs.smallDisk 0 (lit "none") (Fs.booted Fs.smallDisk) = .ok (none, fs) := by
    cases performed : Fs.namei Fs.smallDisk 0 (lit "none") (Fs.booted Fs.smallDisk) with
    | error failure =>
      rw [performed] at missing
      cases missing
    | ok result =>
      obtain ⟨found, fs⟩ := result
      rw [performed] at missing
      cases missing
      exact ⟨fs, rfl⟩
  obtain ⟨s', returned⟩ := exec_missing (s := shell pgdir m) performed
  obtain ⟨_, _, begun, ended, undone⟩ := (exec_ends_and_undoes (s := shell pgdir m) (by decide)
    (Fs.settled_booted Fs.roomy_smallDisk) (Multiset.mem_singleton_self 0)
    (Superblock.ranged_mkfs Fs.roomy_smallDisk) process.space).of_ok returned
  exact ⟨pgdir, m, s', created, returned, begun, ended, (undone rfl).1⟩

end StraceXv6.Kernel.Exec
