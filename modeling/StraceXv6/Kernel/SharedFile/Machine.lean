import StraceXv6.Data.Run
import StraceXv6.Kernel.Fs.FileWrite

namespace StraceXv6.Kernel.SharedFile

open Data
open Kernel.Fs (blit filewriteMax)

/-! Processes that write to one open file, of a regular inode.  A process may be stopped
between any two steps, and wait in `begin_op` and `end_op` as long as the log needs. -/

/-- Where a process is in `filewrite`: at the head of its loop, after `begin_op`, after `ilock`,
in the loop of `writei`, after `writei`, after `f->off += r`, after `iunlock`. -/
inductive Phase where
  | idle
  | turn (bytes : List UInt8) (i : Nat)
  | begun (bytes : List UInt8) (i : Nat)
  | locked (bytes : List UInt8) (i : Nat)
  | copying (bytes : List UInt8) (i n1 : Nat) (off : UInt32) (tot : Nat)
  | wrote (bytes : List UInt8) (i : Nat) (r : Int32)
  | advanced (bytes : List UInt8) (i : Nat) (r : Int32)
  | unlocked (bytes : List UInt8) (i : Nat) (r : Int32)
  deriving DecidableEq

/-- `block` are the blocks that `bmap` gives for the file, `owner` has set I_BUSY.  Of the run,
`calls` are the buffers of each process, `placed` the pieces that were written, and `returned`
the results. -/
structure State (P : Type) where
  block : Nat → Block
  size : UInt32
  off : UInt32
  owner : Option P
  phase : P → Phase
  calls : P → List (List UInt8)
  placed : List (P × List UInt8)
  returned : List (P × Int32)

inductive Label (P : Type) where
  | write (p : P) (bytes : List UInt8)
  | proceed (p : P)

def turnSize (bytes : List UInt8) (i : Nat) : Nat := min (bytes.length - i) filewriteMax

namespace State

variable {P : Type} [DecidableEq P]

def setPhase (s : State P) (p : P) (phase : Phase) : State P :=
  { s with phase := Function.update s.phase p phase }

def place (s : State P) (p : P) (piece : List UInt8) : State P :=
  { s with placed := s.placed ++ [(p, piece)] }

def finish (s : State P) (p : P) (result : Int32) : State P :=
  { s.setPhase p .idle with returned := s.returned ++ [(p, result)] }

/-- `i == n ? n : -1`.  An empty buffer has its place when the call returns. -/
def conclude (s : State P) (p : P) (bytes : List UInt8) (i : Nat) : State P :=
  let s := if bytes.isEmpty then s.place p [] else s
  s.finish p (if i = bytes.length then .ofNat bytes.length else -1)

def writei (s : State P) (p : P) (bytes : List UInt8) (i : Nat) : State P :=
  let n := UInt32.ofNat (turnSize bytes i)
  if s.size < s.off ∨ s.off + n < s.off then s.setPhase p (.wrote bytes i (-1))
  else if UInt32.ofNat (maxfile * bsize) < s.off + n then s.setPhase p (.wrote bytes i (-1))
  else s.setPhase p (.copying bytes i (turnSize bytes i) s.off 0)

/-- The loop of `writei`, which changes a block in a turn, and what follows it. -/
def copy (s : State P) (p : P) (bytes : List UInt8) (i n1 : Nat) (off : UInt32) (tot : Nat) :
    State P :=
  if tot < n1 then
    let bn := off.toNat / bsize
    let m := min (n1 - tot) (bsize - off.toNat % bsize)
    let src := fun k => (bytes.drop (i + tot)).getD k 0
    { s with block := Function.update s.block bn (blit (s.block bn) (off.toNat % bsize) src m)
      }.setPhase p (.copying bytes i n1 (off + UInt32.ofNat m) (tot + m))
  else
    { s with size := if 0 < n1 ∧ s.size < off then off else s.size }.setPhase p
      (.wrote bytes i (.ofNat n1))

/-- `f->off += r` -/
def advance (s : State P) (p : P) (bytes : List UInt8) (i : Nat) (r : Int32) : State P :=
  if 0 < r then
    ({ s with off := s.off + r.toUInt32 }.place p ((bytes.drop i).take r.toInt.toNat)).setPhase p
      (.advanced bytes i r)
  else s.setPhase p (.advanced bytes i r)

def step (s : State P) : Label P → Option (State P)
  | .write p bytes =>
    if s.phase p = .idle then
      some { s.setPhase p (.turn bytes 0) with
        calls := Function.update s.calls p (s.calls p ++ [bytes]) }
    else none
  | .proceed p =>
    match s.phase p with
    | .idle => none
    | .turn bytes i =>
      if i < bytes.length then some (s.setPhase p (.begun bytes i))
      else some (s.conclude p bytes i)
    | .begun bytes i =>
      if s.owner = none then some ({ s with owner := some p }.setPhase p (.locked bytes i))
      else none
    | .locked bytes i => some (s.writei p bytes i)
    | .copying bytes i n1 off tot => some (s.copy p bytes i n1 off tot)
    | .wrote bytes i r => some (s.advance p bytes i r)
    | .advanced bytes i r => some ({ s with owner := none }.setPhase p (.unlocked bytes i r))
    | .unlocked bytes i r =>
      if r < 0 then some (s.conclude p bytes i)
      else if r ≠ .ofNat (turnSize bytes i) then none -- panic("short filewrite")
      else some (s.setPhase p (.turn bytes (i + r.toInt.toNat)))

end State

/-- The file has just been created; its blocks may hold anything. -/
def State.created {P : Type} (block : Nat → Block) : State P where
  block := block
  size := 0
  off := 0
  owner := none
  phase := fun _ => .idle
  calls := fun _ => []
  placed := []
  returned := []

end StraceXv6.Kernel.SharedFile
