import StraceXv6.Data.Run

namespace StraceXv6.Kernel.ConsoleInput

open Data

/-! The input of the console, between the interrupt handler and the processes that read it.
What one of them does while it holds `cons.lock` is a step. -/

abbrev inputBuf : Nat := 128

structure Input where
  buf : Fin inputBuf → UInt8
  r : UInt32
  w : UInt32
  e : UInt32

def ctrl (x : Char) : UInt8 := x.toUInt8 - '@'.toUInt8

namespace Input

/-- `input.buf[index % INPUT_BUF]` -/
def get (input : Input) (index : UInt32) : UInt8 :=
  input.buf (Fin.ofNat inputBuf index.toNat)

theorem killLine_decreases {input : Input} (more : input.e ≠ input.w) :
    (input.e - 1 - input.w).toNat < (input.e - input.w).toNat := by
  have apart : input.e.toNat ≠ input.w.toNat := fun same => more (UInt32.toNat_inj.mp same)
  have small := input.e.toNat_lt
  have small' := input.w.toNat_lt
  rw [UInt32.toNat_sub, UInt32.toNat_sub, UInt32.toNat_sub]
  change (2 ^ 32 - input.w.toNat + (2 ^ 32 - 1 + input.e.toNat) % 2 ^ 32) % 2 ^ 32 < _
  omega

/-- The loop of `C('U')`. -/
def killLine (input : Input) : Input :=
  if input.e ≠ input.w ∧ input.get (input.e - 1) ≠ '\n'.toUInt8 then
    killLine { input with e := input.e - 1 }
  else input
termination_by (input.e - input.w).toNat
decreasing_by
  rename_i more
  exact killLine_decreases more.1

def backspace (input : Input) : Input :=
  if input.e ≠ input.w then { input with e := input.e - 1 } else input

def store (input : Input) (c : UInt8) : Input :=
  { input with
    buf := Function.update input.buf (Fin.ofNat inputBuf input.e.toNat) c
    e := input.e + 1 }

/-- The body of the loop of `consoleintr`, and whether it wakes up the readers. -/
def key (input : Input) (c : UInt8) : Input × Bool :=
  if c = ctrl 'P' then (input, false)
  else if c = ctrl 'U' then (input.killLine, false)
  else if c = ctrl 'H' ∨ c = 0x7f then (input.backspace, false)
  else if c ≠ 0 ∧ input.e - input.r < 128 then
    let c := if c = '\r'.toUInt8 then '\n'.toUInt8 else c
    let input := input.store c
    if c = '\n'.toUInt8 ∨ c = ctrl 'D' ∨ input.e = input.r + 128 then
      ({ input with w := input.e }, true)
    else (input, false)
  else (input, false)

/-- The loop of `consoleread` until it waits or ends: the bytes that it copies, what is left of
`n`, and whether it waits. -/
def copy (target : Nat) : Input → Nat → Input × List UInt8 × Nat × Bool
  | input, 0 => (input, [], 0, false)
  | input, n + 1 =>
    if input.r = input.w then (input, [], n + 1, true)
    else
      let c := input.get input.r
      let input := { input with r := input.r + 1 }
      if c = ctrl 'D' then
        -- Save ^D for next time, to make sure caller gets a 0-byte result.
        (if n + 1 < target then { input with r := input.r - 1 } else input, [], n + 1, false)
      else if c = '\n'.toUInt8 then (input, [c], n, false)
      else
        let copied := copy target input n
        (copied.1, c :: copied.2.1, copied.2.2)

def between (input : Input) (start stop : UInt32) : List UInt8 :=
  (List.range (stop - start).toNat).map fun i => input.get (start + .ofNat i)

def next? (input : Input) : Option UInt8 :=
  if input.r = input.w then none else some (input.get input.r)

end Input

/-- What a process is in.  A call has a number; a reader has bytes that it has copied, and
some left to copy. -/
inductive Phase where
  | idle
  | reading (call : Nat) (size : Int32) (n : Nat) (dst : List UInt8) (asleep : Bool)
  deriving DecidableEq

structure Read where
  call : Nat
  size : Int32
  bytes : List UInt8
  result : Int32
  next : Option UInt8
  deriving DecidableEq

inductive Event where
  | key (c : UInt8)
  | taken (call : Nat) (c : UInt8)
  deriving DecidableEq

structure State (P : Type) where
  input : Input
  phase : P → Phase
  killed : P → Bool
  calls : Nat
  history : List Event
  reads : List Read

inductive Label (P : Type) where
  | consoleintr (chars : List UInt8)
  | consoleread (p : P) (n : Int32)
  | proceed (p : P)
  | kill (p : P)

def Phase.wake : Phase → Phase
  | .reading call size n dst _ => .reading call size n dst false
  | phase => phase

namespace State

variable {P : Type}

def wakeup (s : State P) : State P := { s with phase := fun p => (s.phase p).wake }

def key (s : State P) (c : UInt8) : State P :=
  let keyed := s.input.key c
  let s := { s with input := keyed.1, history := s.history ++ [.key c] }
  if keyed.2 then s.wakeup else s

/-- The characters are those that `getc` gives until it fails. -/
def consoleintr (s : State P) (chars : List UInt8) : State P := chars.foldl key s

def take (s : State P) (call : Nat) (input : Input) : State P :=
  { s with
    input := input
    history := s.history ++ (s.input.between s.input.r input.r).map (.taken call) }

section

variable [DecidableEq P]

def setPhase (s : State P) (p : P) (phase : Phase) : State P :=
  { s with phase := Function.update s.phase p phase }

def finish (s : State P) (p : P) (read : Read) : State P :=
  { s.setPhase p .idle with reads := s.reads ++ [read] }

/-- From the loop of `consoleread` to `sleep` or to the end.  A size below one is no byte. -/
def read (s : State P) (p : P) (call : Nat) (size : Int32) (n : Nat) (dst : List UInt8) :
    State P :=
  let target := size.toInt.toNat
  let copied := s.input.copy target n
  let dst := dst ++ copied.2.1
  let left := copied.2.2.1
  let s := s.take call copied.1
  if copied.2.2.2 then
    if s.killed p then s.finish p ⟨call, size, dst, -1, copied.1.next?⟩
    else s.setPhase p (.reading call size left dst true)
  else s.finish p ⟨call, size, dst, .ofNat (target - left), copied.1.next?⟩

def step (s : State P) : Label P → Option (State P)
  | .consoleintr chars => some (s.consoleintr chars)
  | .consoleread p n =>
    if s.phase p = .idle then
      some { s.setPhase p (.reading s.calls n n.toInt.toNat [] false) with
        calls := s.calls + 1 }
    else none
  | .proceed p =>
    match s.phase p with
    | .reading call size n dst false => some (s.read p call size n dst)
    | _ => none
  | .kill p =>
    some { s.setPhase p (s.phase p).wake with killed := Function.update s.killed p true }

end

def boot (buf : Fin inputBuf → UInt8) : State P where
  input := ⟨buf, 0, 0, 0⟩
  phase := fun _ => .idle
  killed := fun _ => false
  calls := 0
  history := []
  reads := []

end State

end StraceXv6.Kernel.ConsoleInput
