import StraceXv6.Data.Queue
import StraceXv6.Kernel.Bio.Cache
import StraceXv6.Kernel.Fs.Layout

namespace StraceXv6.Kernel.Ide

open Data
open Kernel.Bio (nbuf BufIx Buf)

/-! The disk driver.  A section under `idelock` is a step, and so is what `iderw` does before
it takes the lock. -/

abbrev sectorSize : Nat := 512

/-- What `idestart` writes to the ports 0x1f2 to 0x1f6, and the data if the command is
IDE_CMD_WRITE. -/
structure Command (D : Type) where
  count : UInt8
  low : UInt8
  mid : UInt8
  high : UInt8
  device : UInt8
  write : Option D
  deriving DecidableEq

/-- Why the kernel goes no further: a `panic`, or the loop over the queue has no end. -/
inductive Stop where
  | bufNotBusy
  | nothingToDo
  | disk1NotPresent
  | idestart
  | incorrectBlockno
  | endless
  deriving DecidableEq

/-- A process is in `iderw` before it has the lock, or in its loop with the number of its
request. -/
inductive Phase where
  | idle
  | entering (b : BufIx)
  | waiting (b : BufIx) (call : Nat) (asleep : Bool)
  deriving DecidableEq

structure Returned where
  call : Nat
  valid : Bool
  dirty : Bool

/-- `active` are the buffers of the calls that have not returned.  Of the run, `queued` are
the requests in the order of the queue, `started` the commands that were given to the disk,
`interrupts` counts the interrupts, and `completed` are the buffers that `ideintr` was done
with. -/
structure State (P D : Type) where
  buf : BufIx → Buf D
  idequeue : Queue BufIx
  havedisk1 : Bool
  phase : P → Phase
  active : List BufIx
  queued : List (BufIx × Command D)
  started : List (BufIx × Command D)
  interrupts : Nat
  completed : List BufIx
  returned : List Returned

/-- `ideintr` comes with what is read from the port 0x1f0, unless the disk reports an error.
With `touch` the holder of a buffer changes it. -/
inductive Label (P D : Type) where
  | iderw (p : P) (b : BufIx)
  | lock (p : P)
  | resume (p : P)
  | stir (p : P)
  | ideintr (reply : Option D)
  | touch (b : BufIx) (buf : Buf D)

/-- The flags that end the loop of `iderw`. -/
def finished {D : Type} (buf : Buf D) : Bool := buf.valid && !buf.dirty

def sectorPerBlock : UInt32 := .ofNat (bsize / sectorSize)

def command {D : Type} (buf : Buf D) : Command D :=
  let sector := buf.blockno * sectorPerBlock
  { count := sectorPerBlock.toUInt8
    low := (sector &&& 0xff).toUInt8
    mid := ((sector >>> 8) &&& 0xff).toUInt8
    high := ((sector >>> 16) &&& 0xff).toUInt8
    device := ((0xe0 : UInt32) ||| ((buf.dev &&& 1) <<< 4) ||| ((sector >>> 24) &&& 0x0f)).toUInt8
    write := if buf.dirty then some buf.data else none }

def Phase.uses : Phase → Option BufIx
  | .idle => none
  | .entering b => some b
  | .waiting b _ _ => some b

def Phase.wake (b : BufIx) : Phase → Phase
  | .waiting b' call asleep => .waiting b' call (asleep && b' ≠ b)
  | phase => phase

namespace State

variable {P D : Type}

def request (s : State P D) (b : BufIx) : BufIx × Command D := (b, command (s.buf b))

def idestart (s : State P D) : Option BufIx → Except Stop (State P D)
  | none => .error .idestart
  | some b =>
    if (s.buf b).blockno.toNat ≥ fssize then .error .incorrectBlockno
    else if sectorPerBlock > 7 then .error .idestart
    else .ok { s with started := s.started ++ [s.request b] }

/-- What `ideintr` does with the buffer at the head of the queue. -/
def complete (s : State P D) (b : BufIx) (reply : Option D) : State P D :=
  let buf := s.buf b
  { s with
    idequeue := s.idequeue.pop b
    buf := Function.update s.buf b
      { buf with
        data := if buf.dirty then buf.data else reply.getD buf.data
        valid := true
        dirty := false }
    phase := fun q => (s.phase q).wake b
    interrupts := s.interrupts + 1
    completed := s.completed ++ [b] }

def ideintr (s : State P D) (reply : Option D) : Except Stop (State P D) :=
  match s.idequeue.head with
  | none => .ok { s with interrupts := s.interrupts + 1 }
  | some b =>
    let s := s.complete b reply
    if s.idequeue.head ≠ none then s.idestart s.idequeue.head else .ok s

section

variable [DecidableEq P]

def setPhase (s : State P D) (p : P) (phase : Phase) : State P D :=
  { s with phase := Function.update s.phase p phase }

/-- `iderw` before it takes the lock. -/
def iderw (s : State P D) (p : P) (b : BufIx) : Except Stop (State P D) :=
  if (s.buf b).busy = false then .error .bufNotBusy
  else if finished (s.buf b) then .error .nothingToDo
  else if (s.buf b).dev ≠ 0 ∧ s.havedisk1 = false then .error .disk1NotPresent
  else .ok { s.setPhase p (.entering b) with active := b :: s.active }

/-- The test of the loop of `iderw`, and what follows. -/
def wait (s : State P D) (p : P) (b : BufIx) (call : Nat) : State P D :=
  if finished (s.buf b) then
    { s.setPhase p .idle with
      active := s.active.erase b
      returned := ⟨call, (s.buf b).valid, (s.buf b).dirty⟩ :: s.returned }
  else s.setPhase p (.waiting b call true)

def enqueue (s : State P D) (b : BufIx) (idequeue : Queue BufIx) : State P D :=
  { s with idequeue := idequeue, queued := s.queued ++ [s.request b] }

/-- `iderw` from `acquire` to `sleep`. -/
def lock (s : State P D) (p : P) (b : BufIx) : Except Stop (State P D) :=
  match s.idequeue.push nbuf b with
  | none => .error .endless
  | some idequeue => do
    let next := s.enqueue b idequeue
    let next ← if idequeue.head = some b then next.idestart (some b) else .ok next
    return next.wait p b s.queued.length

/-- A process calls `iderw` on a buffer that is in no other call, and there is one interrupt
for each command. -/
def step (s : State P D) : Label P D → Option (State P D)
  | .iderw p b =>
    if s.phase p = .idle ∧ b ∉ s.active then (s.iderw p b).toOption else none
  | .lock p =>
    match s.phase p with
    | .entering b => (s.lock p b).toOption
    | _ => none
  | .resume p =>
    match s.phase p with
    | .waiting b call false => some (s.wait p b call)
    | _ => none
  | .stir p =>
    match s.phase p with
    | .waiting b call _ => some (s.setPhase p (.waiting b call false))
    | _ => none
  | .ideintr reply =>
    if s.interrupts < s.started.length then (s.ideintr reply).toOption else none
  | .touch b buf =>
    if b ∉ s.active then some { s with buf := Function.update s.buf b buf } else none

end

def ideinit (buf : BufIx → Buf D) (havedisk1 : Bool) (next : BufIx → Option BufIx) :
    State P D where
  buf := buf
  idequeue := ⟨none, next⟩
  havedisk1 := havedisk1
  phase := fun _ => .idle
  active := []
  queued := []
  started := []
  interrupts := 0
  completed := []
  returned := []

inductive Moved [DecidableEq P] (s : State P D) : State P D → Prop where
  | entered {p : P} {b : BufIx} : s.phase p = .idle → b ∉ s.active →
      finished (s.buf b) = false →
      Moved s { s.setPhase p (.entering b) with active := b :: s.active }
  | locked {p : P} {b : BufIx} {s' : State P D} : s.phase p = .entering b →
      s.lock p b = .ok s' → Moved s s'
  | resumed {p : P} {b : BufIx} {call : Nat} : s.phase p = .waiting b call false →
      Moved s (s.wait p b call)
  | stirred {p : P} {b : BufIx} {call : Nat} {asleep : Bool} :
      s.phase p = .waiting b call asleep → Moved s (s.setPhase p (.waiting b call false))
  | interrupted {reply : Option D} {s' : State P D} : s.interrupts < s.started.length →
      s.ideintr reply = .ok s' → Moved s s'
  | touched {b : BufIx} {buf : Buf D} : b ∉ s.active →
      Moved s { s with buf := Function.update s.buf b buf }

theorem eq_ok_of_toOption {α : Type} {result : Except Stop α} {value : α}
    (done : result.toOption = some value) : result = .ok value := by
  cases result with
  | error stop => cases done
  | ok found => exact congrArg Except.ok (Option.some.inj done)

theorem moved_of_step [DecidableEq P] {s s' : State P D} {label : Label P D}
    (stepped : s.step label = some s') : Moved s s' := by
  cases label with
  | iderw p b =>
    simp only [step] at stepped
    split at stepped
    next enabled =>
      have done := eq_ok_of_toOption stepped
      unfold iderw at done
      split at done
      next => cases done
      next =>
        split at done
        next => cases done
        next unfinished =>
          split at done
          next => cases done
          next =>
            obtain rfl := Except.ok.inj done
            exact .entered enabled.1 enabled.2 (Bool.eq_false_iff.mpr unfinished)
    next => cases stepped
  | lock p =>
    simp only [step] at stepped
    split at stepped
    next entering => exact .locked entering (eq_ok_of_toOption stepped)
    next => cases stepped
  | resume p =>
    simp only [step] at stepped
    split at stepped
    next waiting =>
      cases stepped
      exact .resumed waiting
    next => cases stepped
  | stir p =>
    simp only [step] at stepped
    split at stepped
    next waiting =>
      cases stepped
      exact .stirred waiting
    next => cases stepped
  | ideintr reply =>
    simp only [step] at stepped
    split at stepped
    next due => exact .interrupted due (eq_ok_of_toOption stepped)
    next => cases stepped
  | touch b buf =>
    obtain ⟨outside, rfl⟩ := of_guard stepped
    exact .touched outside

end State

end StraceXv6.Kernel.Ide
