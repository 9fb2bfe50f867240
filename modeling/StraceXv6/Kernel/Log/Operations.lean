import StraceXv6.Data.Run
import StraceXv6.Kernel.Log.Recovery

namespace StraceXv6.Kernel

open Data

/-- The locked part of `log_write`: a block that is listed already is absorbed.
There is no entry past the array. -/
def LogHeader.add (lh : LogHeader) (blockno : UInt32) : Option LogHeader :=
  if blockno ∈ lh.block then some lh
  else if room : lh.block.length < logsize then
    some ⟨lh.block ++ [blockno], by
      rw [List.length_append, List.length_singleton]
      exact room⟩
  else none

namespace GroupLog

/-! `begin_op`, `log_write` and `end_op` by several processes.  Each section that
holds `log.lock` is one step; the tests at the top of `log_write` and the body of
`commit` run without the lock, so they are steps of their own. -/

inductive Stage where
  | test
  | writeLog (tail : Nat)
  | writeHead
  | installTrans (tail : Nat)
  | clear
  | writeClear
  | release

inductive Phase where
  | outside
  | operation (op : Nat)
  /-- Past the tests of `log_write`. -/
  | logWrite (op : Nat) (blockno : UInt32)
  | commit (stage : Stage)

inductive Halt where
  | tooBig
  | outsideOfTrans
  | committing
  | overrun
  deriving DecidableEq

structure Commit where
  copied : List UInt32
  header : List UInt32
  installed : List UInt32

def Commit.none : Commit := ⟨[], [], []⟩

/-- A call of `log_write`: the operation it belongs to, and how many commits were
over when it was made. -/
structure Logged where
  op : Nat
  blockno : UInt32
  transaction : Nat

/-- `log.lh` with its history: the calls of `log_write`, the number of commits
that are over, and what each commit did. -/
structure Journal where
  lh : LogHeader
  logged : List Logged
  ended : Nat
  commits : Nat → Commit

/-- The fields of `log` and the processes; operations are numbered as they are
admitted. -/
structure State (P : Type) where
  outstanding : Int
  committing : Bool
  journal : Journal
  phase : P → Phase
  halt : Option Halt
  admitted : Nat

inductive Label (P : Type) where
  | beginOp (p : P)
  | test (p : P) (blockno : UInt32)
  | logWrite (p : P)
  | endOp (p : P)
  | commit (p : P)

def boot (P : Type) : State P where
  outstanding := 0
  committing := false
  journal := ⟨.empty, [], 0, fun _ => .none⟩
  phase := fun _ => .outside
  halt := none
  admitted := 0

section

variable {P : Type} [DecidableEq P] (size : Nat)

namespace Journal

def add (j : Journal) (lh : LogHeader) (op : Nat) (blockno : UInt32) : Journal :=
  { j with lh := lh, logged := j.logged ++ [⟨op, blockno, j.ended⟩] }

def modifyCommit (j : Journal) (change : Commit → Commit) : Journal :=
  { j with commits := Function.update j.commits j.ended (change (j.commits j.ended)) }

def copy (j : Journal) (blockno : UInt32) : Journal :=
  j.modifyCommit fun c => { c with copied := c.copied ++ [blockno] }

def head (j : Journal) : Journal :=
  j.modifyCommit fun c => { c with header := j.lh.block }

def install (j : Journal) (blockno : UInt32) : Journal :=
  j.modifyCommit fun c => { c with installed := c.installed ++ [blockno] }

end Journal

namespace State

def moveTo (s : State P) (p : P) (phase : Phase) : State P :=
  { s with phase := Function.update s.phase p phase }

/-- The admission; when it is refused the process sleeps. -/
def beginOp (s : State P) (p : P) : Option (State P) :=
  if s.committing then none
  else if s.journal.lh.n + (s.outstanding + 1) * maxopblocks > logsize then none
  else some { s with
    outstanding := s.outstanding + 1
    phase := Function.update s.phase p (.operation s.admitted)
    admitted := s.admitted + 1 }

def test (s : State P) (p : P) (op : Nat) (blockno : UInt32) : State P :=
  if s.journal.lh.n ≥ logsize ∨ (s.journal.lh.n : Int) ≥ size - 1 then
    { s with halt := some .tooBig }
  else if s.outstanding < 1 then { s with halt := some .outsideOfTrans }
  else s.moveTo p (.logWrite op blockno)

def logWrite (s : State P) (p : P) (op : Nat) (blockno : UInt32) : State P :=
  match s.journal.lh.add blockno with
  | some lh => { s with journal := s.journal.add lh op blockno }.moveTo p (.operation op)
  | none => { s with halt := some .overrun }

def endOp (s : State P) (p : P) : State P :=
  let s := { s with outstanding := s.outstanding - 1 }
  if s.committing then { s with halt := some .committing }
  else if s.outstanding = 0 then { s with committing := true }.moveTo p (.commit .test)
  else s.moveTo p .outside

/-- One step of `commit`, or of the end of `end_op` behind it. -/
def commit (s : State P) (p : P) : Stage → State P
  | .test => s.moveTo p (.commit (if s.journal.lh.n > 0 then .writeLog 0 else .release))
  | .writeLog tail =>
    match s.journal.lh.block[tail]? with
    | some blockno =>
      { s with journal := s.journal.copy blockno }.moveTo p
        (.commit (.writeLog (tail + 1)))
    | none => s.moveTo p (.commit .writeHead)
  | .writeHead =>
    { s with journal := s.journal.head }.moveTo p (.commit (.installTrans 0))
  | .installTrans tail =>
    match s.journal.lh.block[tail]? with
    | some blockno =>
      { s with journal := s.journal.install blockno }.moveTo p
        (.commit (.installTrans (tail + 1)))
    | none => s.moveTo p (.commit .clear)
  | .clear =>
    { s with journal := { s.journal with lh := .empty } }.moveTo p (.commit .writeClear)
  | .writeClear => s.moveTo p (.commit .release)
  | .release =>
    { s with
      committing := false
      journal := { s.journal with ended := s.journal.ended + 1 } }.moveTo p .outside

end State

def step (s : State P) (label : Label P) : Option (State P) :=
  match s.halt, label with
  | some _, _ => none
  | none, .beginOp p =>
    match s.phase p with
    | .outside => s.beginOp p
    | _ => none
  | none, .test p blockno =>
    match s.phase p with
    | .operation op => some (s.test size p op blockno)
    | _ => none
  | none, .logWrite p =>
    match s.phase p with
    | .logWrite op blockno => some (s.logWrite p op blockno)
    | _ => none
  | none, .endOp p =>
    match s.phase p with
    | .operation _ => some (s.endOp p)
    | _ => none
  | none, .commit p =>
    match s.phase p with
    | .commit stage => some (s.commit p stage)
    | _ => none

inductive Moved (s : State P) : Label P → State P → Prop where
  | admitted {p} : s.phase p = .outside → s.committing = false →
      s.journal.lh.n + (s.outstanding + 1) * maxopblocks ≤ logsize →
      Moved s (.beginOp p) { s with
        outstanding := s.outstanding + 1
        phase := Function.update s.phase p (.operation s.admitted)
        admitted := s.admitted + 1 }
  | tooBig {p op blockno} : s.phase p = .operation op →
      s.journal.lh.n ≥ logsize ∨ (s.journal.lh.n : Int) ≥ size - 1 →
      Moved s (.test p blockno) { s with halt := some .tooBig }
  | outsideOfTrans {p op blockno} : s.phase p = .operation op → s.outstanding < 1 →
      Moved s (.test p blockno) { s with halt := some .outsideOfTrans }
  | tested {p op blockno} : s.phase p = .operation op →
      Moved s (.test p blockno) (s.moveTo p (.logWrite op blockno))
  | logged {p op blockno lh} : s.phase p = .logWrite op blockno →
      s.journal.lh.add blockno = some lh →
      Moved s (.logWrite p)
        ({ s with journal := s.journal.add lh op blockno }.moveTo p (.operation op))
  | overrun {p op blockno} : s.phase p = .logWrite op blockno →
      s.journal.lh.add blockno = none →
      Moved s (.logWrite p) { s with halt := some .overrun }
  | endedBusy {p op} : s.phase p = .operation op → s.committing = true →
      Moved s (.endOp p)
        { s with outstanding := s.outstanding - 1, halt := some .committing }
  | endedLast {p op} : s.phase p = .operation op → s.committing = false →
      s.outstanding - 1 = 0 →
      Moved s (.endOp p) ({ s with
        outstanding := s.outstanding - 1
        committing := true }.moveTo p (.commit .test))
  | ended {p op} : s.phase p = .operation op → s.committing = false →
      s.outstanding - 1 ≠ 0 →
      Moved s (.endOp p) ({ s with outstanding := s.outstanding - 1 }.moveTo p .outside)
  | commits {p stage} : s.phase p = .commit stage → Moved s (.commit p) (s.commit p stage)

theorem moved_of_step {s next : State P} {label : Label P}
    (stepped : step size s label = some next) : s.halt = none ∧ Moved size s label next := by
  unfold step at stepped
  split at stepped
  · contradiction
  · rename_i p running
    refine ⟨running, ?_⟩
    split at stepped
    next outside =>
      unfold State.beginOp at stepped
      split at stepped
      next => contradiction
      next idle =>
        split at stepped
        next => contradiction
        next room =>
          cases stepped
          exact .admitted outside (Bool.eq_false_iff.mpr idle) (Int.not_lt.mp room)
    next => contradiction
  · rename_i p blockno running
    refine ⟨running, ?_⟩
    split at stepped
    next operation =>
      cases stepped
      unfold State.test
      split
      next full => exact .tooBig operation full
      next =>
        split
        next low => exact .outsideOfTrans operation low
        next => exact .tested operation
    next => contradiction
  · rename_i p running
    refine ⟨running, ?_⟩
    split at stepped
    next op blockno writing =>
      cases stepped
      unfold State.logWrite
      split
      next added => exact .logged writing added
      next full => exact .overrun writing full
    next => contradiction
  · rename_i p running
    refine ⟨running, ?_⟩
    split at stepped
    next operation =>
      cases stepped
      unfold State.endOp
      simp only
      split
      next busy => exact .endedBusy operation busy
      next idle =>
        split
        next last => exact .endedLast operation (Bool.eq_false_iff.mpr idle) last
        next others => exact .ended operation (Bool.eq_false_iff.mpr idle) others
    next => contradiction
  · rename_i p running
    refine ⟨running, ?_⟩
    split at stepped
    next stage committing =>
      cases stepped
      exact .commits committing
    next => contradiction

end

end GroupLog

end StraceXv6.Kernel
