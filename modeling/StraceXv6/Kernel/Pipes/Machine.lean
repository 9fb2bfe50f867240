import StraceXv6.Data.Run

namespace StraceXv6.Kernel.Pipes

open Data

/-! One pipe and the processes that use it.  What a process does while it holds the lock of
the pipe is a step. -/

abbrev pipesize : Nat := 512

structure Pipe where
  data : Fin pipesize → UInt8
  nread : UInt32
  nwrite : UInt32
  readopen : Bool
  writeopen : Bool

namespace Pipe

def full (pipe : Pipe) : Bool := pipe.nwrite = pipe.nread + 512

def empty (pipe : Pipe) : Bool := pipe.nread = pipe.nwrite

def put (pipe : Pipe) (byte : UInt8) : Pipe :=
  { pipe with
    data := Function.update pipe.data (Fin.ofNat pipesize pipe.nwrite.toNat) byte
    nwrite := pipe.nwrite + 1 }

def front (pipe : Pipe) : UInt8 := pipe.data (Fin.ofNat pipesize pipe.nread.toNat)

def drop (pipe : Pipe) : Pipe := { pipe with nread := pipe.nread + 1 }

/-- The loop of `pipewrite` until the pipe is full: the bytes that were stored, and those
that are left. -/
def fill : Pipe → List UInt8 → Pipe × List UInt8 × List UInt8
  | pipe, [] => (pipe, [], [])
  | pipe, byte :: rest =>
    if pipe.full then (pipe, [], byte :: rest)
    else
      let filled := fill (pipe.put byte) rest
      (filled.1, byte :: filled.2.1, filled.2.2)

/-- The loop of `piperead`. -/
def copy : Pipe → Nat → Pipe × List UInt8
  | pipe, 0 => (pipe, [])
  | pipe, n + 1 =>
    if pipe.empty then (pipe, [])
    else
      let copied := copy pipe.drop n
      (copied.1, pipe.front :: copied.2)

def close (pipe : Pipe) (writable : Bool) : Pipe :=
  if writable then { pipe with writeopen := false } else { pipe with readopen := false }

end Pipe

/-- What a process is in.  A call has a number, and a writer the bytes that are left. -/
inductive Phase where
  | idle
  | writing (call : Nat) (n : Int32) (bytes rest : List UInt8) (asleep : Bool)
  | reading (call : Nat) (n : Int32) (asleep : Bool)
  deriving DecidableEq

structure Written where
  call : Nat
  n : Int32
  bytes : List UInt8
  result : Int32

structure Delivered where
  call : Nat
  n : Int32
  bytes : List UInt8
  result : Int32

/-- `accepted` are the bytes that were stored, with the call that stored them.  `refs` are the descriptors of the two ends, and `freed`
counts the calls of `kfree`. -/
structure State (P : Type) where
  pipe : Pipe
  phase : P → Phase
  killed : P → Bool
  refs : List (P × Bool)
  freed : Nat
  calls : Nat
  accepted : List (Nat × UInt8)
  delivered : List Delivered
  written : List Written

inductive Label (P : Type) where
  | pipewrite (p : P) (addr : Nat → UInt8) (n : Int32)
  | piperead (p : P) (n : Int32)
  | proceed (p : P)
  | kill (p : P)
  | dup (p q : P) (writable : Bool)
  | close (p : P) (writable : Bool)

namespace Phase

def wakeReader : Phase → Phase
  | .reading call n _ => .reading call n false
  | phase => phase

def wakeWriter : Phase → Phase
  | .writing call n bytes rest _ => .writing call n bytes rest false
  | phase => phase

def wake (writable : Bool) (phase : Phase) : Phase :=
  if writable then phase.wakeReader else phase.wakeWriter

def rouse (phase : Phase) : Phase := phase.wakeReader.wakeWriter

def readerAsleep : Phase → Bool
  | .reading _ _ asleep => asleep
  | _ => false

def writerAsleep : Phase → Bool
  | .writing _ _ _ _ asleep => asleep
  | _ => false

def left : Phase → Nat
  | .writing _ _ _ rest _ => rest.length
  | _ => 0

end Phase

/-- `addr[0..n)` -/
def given (addr : Nat → UInt8) (n : Int32) : List UInt8 :=
  (List.range n.toInt.toNat).map addr

namespace State

variable {P : Type}

def wakeup (s : State P) (writable : Bool) : State P :=
  { s with phase := fun p => (s.phase p).wake writable }

def setPipe (s : State P) (pipe : Pipe) : State P := { s with pipe := pipe }

def accept (s : State P) (call : Nat) (bytes : List UInt8) : State P :=
  { s with accepted := s.accepted ++ bytes.map (call, ·) }

def deliver (s : State P) (delivered : Delivered) : State P :=
  { s with delivered := s.delivered ++ [delivered] }

def finish (s : State P) (written : Written) : State P :=
  { s with written := written :: s.written }

section

variable [DecidableEq P]

def setPhase (s : State P) (p : P) (phase : Phase) : State P :=
  { s with phase := Function.update s.phase p phase }

/-- From the loop of `pipewrite` to `sleep` or to the end. -/
def write (s : State P) (p : P) (call : Nat) (n : Int32) (bytes rest : List UInt8) : State P :=
  let filled := s.pipe.fill rest
  let s := (s.setPipe filled.1).accept call filled.2.1
  if filled.2.2.isEmpty then
    ((s.setPhase p .idle).finish ⟨call, n, bytes, n⟩).wakeup true
  else if !filled.1.readopen || s.killed p then
    (s.setPhase p .idle).finish ⟨call, n, bytes, -1⟩
  else (s.setPhase p (.writing call n bytes filled.2.2 true)).wakeup true

/-- From the loop of `piperead` to `sleep` or to the end. -/
def read (s : State P) (p : P) (call : Nat) (n : Int32) : State P :=
  if s.pipe.empty && s.pipe.writeopen then
    if s.killed p then (s.setPhase p .idle).deliver ⟨call, n, [], -1⟩
    else s.setPhase p (.reading call n true)
  else
    let copied := s.pipe.copy n.toInt.toNat
    (((s.setPipe copied.1).setPhase p .idle).deliver
      ⟨call, n, copied.2, .ofNat copied.2.length⟩).wakeup false

def pipeclose (s : State P) (writable : Bool) : State P :=
  let pipe := s.pipe.close writable
  let s := (s.setPipe pipe).wakeup writable
  if !pipe.readopen && !pipe.writeopen then { s with freed := s.freed + 1 } else s

/-- `fileclose`, which closes the end with its last descriptor. -/
def fileclose (s : State P) (p : P) (writable : Bool) : State P :=
  let s := { s with refs := s.refs.erase (p, writable) }
  if s.refs.any fun ref => ref.2 == writable then s else s.pipeclose writable

def Has (s : State P) (p : P) (writable : Bool) : Prop :=
  s.phase p = .idle ∧ (p, writable) ∈ s.refs

instance (s : State P) (p : P) (writable : Bool) : Decidable (s.Has p writable) :=
  inferInstanceAs (Decidable (_ ∧ _))

def step (s : State P) : Label P → Option (State P)
  | .pipewrite p addr n =>
    if s.Has p true then
      some { s.setPhase p (.writing s.calls n (given addr n) (given addr n) false) with
        calls := s.calls + 1 }
    else none
  | .piperead p n =>
    if s.Has p false then
      some { s.setPhase p (.reading s.calls n false) with calls := s.calls + 1 }
    else none
  | .proceed p =>
    match s.phase p with
    | .writing call n bytes rest false => some (s.write p call n bytes rest)
    | .reading call n false => some (s.read p call n)
    | _ => none
  | .kill p =>
    some { s.setPhase p (s.phase p).rouse with killed := Function.update s.killed p true }
  | .dup p q writable =>
    if s.Has p writable then some { s with refs := (q, writable) :: s.refs } else none
  | .close p writable => if s.Has p writable then some (s.fileclose p writable) else none

end

/-- A process has made the pipe; its page may hold anything. -/
def pipealloc (p : P) (data : Fin pipesize → UInt8) : State P where
  pipe := ⟨data, 0, 0, true, true⟩
  phase := fun _ => .idle
  killed := fun _ => false
  refs := [(p, false), (p, true)]
  freed := 0
  calls := 0
  accepted := []
  delivered := []
  written := []

inductive Moved [DecidableEq P] (s : State P) : Label P → State P → Prop where
  | called {p : P} {label : Label P} {phase : Phase} : s.phase p = .idle →
      ((p, true) ∈ s.refs ∧ (∃ n bytes, phase = .writing s.calls n bytes bytes false ∧
        bytes.length = n.toInt.toNat) ∨
        (p, false) ∈ s.refs ∧ ∃ n, phase = .reading s.calls n false) →
      Moved s label { s.setPhase p phase with calls := s.calls + 1 }
  | wrote {p : P} {call : Nat} {n : Int32} {bytes rest : List UInt8} :
      s.phase p = .writing call n bytes rest false → (s.pipe.fill rest).2.2 = [] →
      Moved s (.proceed p)
        ((((((s.setPipe (s.pipe.fill rest).1).accept call (s.pipe.fill rest).2.1).setPhase p
          .idle).finish ⟨call, n, bytes, n⟩)).wakeup true)
  | refused {p : P} {call : Nat} {n : Int32} {bytes rest : List UInt8} :
      s.phase p = .writing call n bytes rest false → (s.pipe.fill rest).2.2 ≠ [] →
      (s.pipe.fill rest).1.readopen = false ∨ s.killed p = true →
      Moved s (.proceed p)
        ((((s.setPipe (s.pipe.fill rest).1).accept call (s.pipe.fill rest).2.1).setPhase p
          .idle).finish ⟨call, n, bytes, -1⟩)
  | filled {p : P} {call : Nat} {n : Int32} {bytes rest : List UInt8} :
      s.phase p = .writing call n bytes rest false → (s.pipe.fill rest).2.2 ≠ [] →
      (s.pipe.fill rest).1.readopen = true →
      Moved s (.proceed p)
        ((((s.setPipe (s.pipe.fill rest).1).accept call (s.pipe.fill rest).2.1).setPhase p
          (.writing call n bytes (s.pipe.fill rest).2.2 true)).wakeup true)
  | interrupted {p : P} {call : Nat} {n : Int32} : s.phase p = .reading call n false →
      Moved s (.proceed p) ((s.setPhase p .idle).deliver ⟨call, n, [], -1⟩)
  | waited {p : P} {call : Nat} {n : Int32} : s.phase p = .reading call n false →
      s.pipe.empty = true → s.pipe.writeopen = true →
      Moved s (.proceed p) (s.setPhase p (.reading call n true))
  | copied {p : P} {call : Nat} {n : Int32} : s.phase p = .reading call n false →
      Moved s (.proceed p)
        ((((s.setPipe (s.pipe.copy n.toInt.toNat).1).setPhase p .idle).deliver
          ⟨call, n, (s.pipe.copy n.toInt.toNat).2,
            .ofNat (s.pipe.copy n.toInt.toNat).2.length⟩).wakeup false)
  | killed {p : P} : Moved s (.kill p)
      { s.setPhase p (s.phase p).rouse with killed := Function.update s.killed p true }
  | duplicated {p q : P} {writable : Bool} : s.Has p writable →
      Moved s (.dup p q writable) { s with refs := (q, writable) :: s.refs }
  | dropped {p : P} {writable : Bool} : s.Has p writable →
      (∃ q, (q, writable) ∈ s.refs.erase (p, writable)) →
      Moved s (.close p writable) { s with refs := s.refs.erase (p, writable) }
  | closed {p : P} {writable : Bool} : s.Has p writable →
      (∀ q, (q, writable) ∉ s.refs.erase (p, writable)) →
      Moved s (.close p writable)
        ({ s with refs := s.refs.erase (p, writable) }.pipeclose writable)

section

variable [DecidableEq P] {s s' : State P} {label : Label P} {p : P} {call : Nat} {n : Int32}

theorem moved_of_write {bytes rest : List UInt8}
    (phase : s.phase p = .writing call n bytes rest false) :
    Moved s (.proceed p) (s.write p call n bytes rest) := by
  unfold write
  dsimp only
  split
  next done => exact .wrote phase (List.isEmpty_iff.mp done)
  next left =>
    have some : (s.pipe.fill rest).2.2 ≠ [] := fun nothing => left (List.isEmpty_iff.mpr nothing)
    split
    next stops =>
      simp only [Bool.or_eq_true, Bool.not_eq_true'] at stops
      exact .refused phase some stops
    next goes =>
      refine .filled phase some ?_
      simp only [Bool.or_eq_true, Bool.not_eq_true', not_or, Bool.not_eq_false] at goes
      exact goes.1

theorem moved_of_read (phase : s.phase p = .reading call n false) :
    Moved s (.proceed p) (s.read p call n) := by
  unfold read
  split
  next waits =>
    rw [Bool.and_eq_true] at waits
    split
    next => exact .interrupted phase
    next => exact .waited phase waits.1 waits.2
  next => exact .copied phase

theorem moved_of_fileclose {writable : Bool} (has : s.Has p writable) :
    Moved s (.close p writable) (s.fileclose p writable) := by
  unfold fileclose
  dsimp only
  split
  next other =>
    refine .dropped has ?_
    obtain ⟨⟨q, same⟩, member, equal⟩ := List.any_eq_true.mp other
    rw [beq_iff_eq] at equal
    exact ⟨q, equal ▸ member⟩
  next last =>
    refine .closed has ?_
    intro q member
    exact last (List.any_eq_true.mpr ⟨_, member, beq_self_eq_true _⟩)

theorem moved_of_step (stepped : s.step label = some s') : Moved s label s' := by
  cases label with
  | pipewrite p addr n =>
    obtain ⟨has, rfl⟩ := of_guard stepped
    exact .called has.1 (.inl ⟨has.2, n, given addr n, rfl, by simp [given]⟩)
  | piperead p n =>
    obtain ⟨has, rfl⟩ := of_guard stepped
    exact .called has.1 (.inr ⟨has.2, n, rfl⟩)
  | proceed p =>
    simp only [step] at stepped
    split at stepped
    next call n bytes rest phase =>
      cases stepped
      exact moved_of_write phase
    next call n phase =>
      cases stepped
      exact moved_of_read phase
    next => cases stepped
  | kill p =>
    cases stepped
    exact .killed
  | dup p q writable =>
    obtain ⟨has, rfl⟩ := of_guard stepped
    exact .duplicated has
  | close p writable =>
    obtain ⟨has, rfl⟩ := of_guard stepped
    exact moved_of_fileclose has

end

end State

end StraceXv6.Kernel.Pipes
