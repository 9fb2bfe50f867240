import StraceXv6.Data.Run
import StraceXv6.Kernel.Record

namespace StraceXv6.Kernel

open List Data

/-! The system call dispatcher over a table of processes.  A handler may block,
so a call is two steps: `syscall` up to the handler, and its return. -/

def traceOn : Int32 := 1

def traceFork : Int32 := 2

/-- The states of `enum procstate`; from EMBRYO to RUNNING a process is alive. -/
inductive Status where
  | unused | alive | zombie
  deriving DecidableEq

/-- A trap into `syscall`: the number in `eax`, the traced flag on entry, and
the value left in `eax`, if the call has returned. -/
structure Trap where
  number : Int32
  traced : Int32
  result : Option UInt32

inductive Phase where
  | user
  | handler (sys : Sys) (traced : Int32)

/-- A process table entry.  `history` lists the completed traps of the process
and `born` is the length of the log when it was created. -/
structure Task (P : Type) where
  status : Status
  parent : Option P
  proc : Proc
  phase : Phase
  history : List Trap
  born : Nat

structure System (P : Type) where
  tasks : P → Task P
  nextpid : Int32
  initproc : P
  trace : TraceState
  log : List (P × Proc × Sys)

def ProcName.empty : ProcName := ⟨[], by simp, by simp⟩

def ProcName.initcode : ProcName := ⟨lit "initcode", by decide, by decide⟩

section

variable {P : Type} [DecidableEq P]

namespace System

def modify (s : System P) (p : P) (change : Task P → Task P) : System P :=
  { s with tasks := Function.update s.tasks p (change (s.tasks p)) }

def boot (initproc : P) : System P where
  tasks := Function.update
    (fun _ => ⟨.unused, none, ⟨0, .empty, 0, 0⟩, .user, [], 0⟩) initproc
    ⟨.alive, none, ⟨1, .initcode, 0, 0⟩, .user, [], 0⟩
  nextpid := 2
  initproc := initproc
  trace := .boot
  log := []

def record (s : System P) (p : P) (syscallId : Sys) : System P :=
  { s with
    trace := recordSyscall s.trace (s.tasks p).proc syscallId
    log := s.log ++ [(p, (s.tasks p).proc, syscallId)] }

def unknownCall (s : System P) (p : P) (syscallId : Int32) : System P :=
  { s with
    trace := { s.trace with
      console := s.trace.console ++ cprintf (lit "%d %s: unknown sys call  \n")
        [.int (s.tasks p).proc.pid, .str (some (s.tasks p).proc.name.bytes),
          .int syscallId] } }

def setEax (s : System P) (p : P) (eax : UInt32) : System P :=
  s.modify p fun t => { t with proc := { t.proc with eax := eax } }

def recordExit (s : System P) (p : P) : System P :=
  if (s.tasks p).proc.eax.toInt32 = Sys.exit.number ∧
      (s.tasks p).proc.traced &&& traceOn ≠ 0 then
    s.record p .exit
  else s

/-- `syscall` up to the call of the handler, or to its end when the number is
invalid. -/
def enter (s : System P) (p : P) (eax : UInt32) : System P :=
  let isTraced := (s.tasks p).proc.traced
  let syscallId := eax.toInt32
  let s := (s.setEax p eax).recordExit p
  match Sys.ofNumber? syscallId with
  | some sys => s.modify p fun t => { t with phase := .handler sys isTraced }
  | none =>
    (s.unknownCall p syscallId).modify p fun t =>
      { t with
        proc := { t.proc with eax := -1 }
        history := t.history ++ [⟨syscallId, isTraced, some (-1)⟩] }

def leave (s : System P) (p : P) (sys : Sys) (isTraced : Int32)
    (result : UInt32) : System P :=
  let s := s.modify p fun t =>
    { t with
      proc := { t.proc with eax := result }
      phase := .user
      history := t.history ++ [⟨sys.number, isTraced, some result⟩] }
  if isTraced &&& traceOn ≠ 0 then s.record p sys else s

def allocproc (s : System P) (slot : P) : System P :=
  { s.modify slot fun t =>
      { t with proc := { t.proc with traced := 0, pid := s.nextpid } } with
    nextpid := s.nextpid + 1 }

def fork (s : System P) (p child : P) : System P :=
  let parent := (s.tasks p).proc
  let s := s.allocproc child
  s.modify child fun t =>
    { t with
      status := .alive
      parent := some p
      proc :=
        { t.proc with
          name := parent.name
          traced := if parent.traced &&& traceFork ≠ 0 then parent.traced else 0
          eax := 0 }
      phase := .user
      history := []
      born := s.log.length }

def exit (s : System P) (p : P) : System P :=
  { s with
    tasks := fun q =>
      { s.tasks q with
        status := if q = p then .zombie else (s.tasks q).status
        parent := if (s.tasks q).parent = some p then some s.initproc
          else (s.tasks q).parent } }

def reap (s : System P) (child : P) : System P :=
  s.modify child fun t =>
    { t with
      status := .unused
      parent := none
      proc := { t.proc with pid := 0, name := .empty } }

end System

/-- What a handler did, as far as the table and the trace state depend on it. -/
inductive Outcome (P : Type) where
  | value (result : UInt32)
  | forked (child : P)
  | forkFailed (slot : Option P)
  | execed (name : ProcName)
  | straced (input : Int32)
  | optioned (inputE inputF inputS inputO : Int32)
  | callFlagged (input : Int32)
  | waited (child : P)
  | exited

def plainResult (s : System P) (p : P) (result : UInt32) : Sys → Prop
  | .fork | .exit | .strace | .setOptions | .setCallFlag => False
  | .exec | .wait => result = -1
  | .getpid => result = (s.tasks p).proc.pid.toUInt32
  | .getN => result = 10
  | .getCallcount => result = s.trace.callcount.toUInt32
  | _ => True

instance (s : System P) (p : P) (result : UInt32) :
    (sys : Sys) → Decidable (plainResult s p result sys)
  | .fork | .exit | .strace | .setOptions | .setCallFlag => .isFalse id
  | .exec | .wait | .getpid | .getN | .getCallcount =>
    inferInstanceAs (Decidable (_ = _))
  | .pipe | .read | .kill | .fstat | .chdir | .dup | .sbrk | .sleep | .uptime
  | .open | .write | .mknod | .unlink | .link | .mkdir | .close | .dump =>
    .isTrue trivial

def handle (s : System P) (p : P) : Sys → Outcome P → Option (System P × UInt32)
  | sys, .value result =>
    if plainResult s p result sys then some (s, result) else none
  | .fork, .forked child =>
    if (s.tasks child).status = .unused then
      some (s.fork p child, s.nextpid.toUInt32)
    else none
  | .fork, .forkFailed none => some (s, -1)
  | .fork, .forkFailed (some slot) =>
    if (s.tasks slot).status = .unused then some (s.allocproc slot, -1) else none
  | .exec, .execed name =>
    some (s.modify p fun t => { t with proc := { t.proc with name := name } }, 0)
  | .strace, .straced input =>
    some (s.modify p fun t =>
      { t with
        proc := { t.proc with
          traced := if input &&& 1 ≠ 0 then input else 0 } }, 0)
  | .setOptions, .optioned inputE inputF inputS inputO =>
    some ({ s with trace := { s.trace with
      options := setOptions s.trace.options inputE inputF inputS inputO } }, 0)
  | .setCallFlag, .callFlagged input =>
    some ({ s with trace := { s.trace with
      options := setCallFlag s.trace.options input } }, input.toUInt32)
  | .wait, .waited child =>
    if (s.tasks child).status = .zombie ∧ (s.tasks child).parent = some p then
      some (s.reap child, (s.tasks child).proc.pid.toUInt32)
    else none
  | _, _ => none

namespace System

inductive Label (P : Type) where
  | trap (p : P) (eax : UInt32)
  | finish (p : P) (outcome : Outcome P)
  | killed (p : P)

def step (s : System P) : Label P → Option (System P)
  | .trap p eax =>
    match (s.tasks p).status, (s.tasks p).phase with
    | .alive, .user => some (s.enter p eax)
    | _, _ => none
  | .finish p outcome =>
    match (s.tasks p).status, (s.tasks p).phase with
    | .alive, .handler .exit _ =>
      match outcome with
      | .exited => if p = s.initproc then none else some (s.exit p)
      | _ => none
    | .alive, .handler sys isTraced =>
      (handle s p sys outcome).map fun next => next.1.leave p sys isTraced next.2
    | _, _ => none
  | .killed p =>
    match (s.tasks p).status, (s.tasks p).phase with
    | .alive, .user => if p = s.initproc then none else some (s.exit p)
    | _, _ => none

/-- The invocations of `record_syscall` for a process since its creation. -/
def events (s : System P) (p : P) : List (Proc × Sys) :=
  ((s.log.drop (s.tasks p).born).filter fun entry => entry.1 = p).map Prod.snd

end System

structure View where
  events : List (Proc × Sys)
  history : List Trap
  phase : Phase
  eax : UInt32

def Phase.pending : Phase → List Trap
  | .user => []
  | .handler sys traced => [⟨sys.number, traced, none⟩]

def View.traps (v : View) : List Trap := v.history ++ v.phase.pending

namespace System

def view (s : System P) (p : P) : View where
  events := s.events p
  history := (s.tasks p).history
  phase := (s.tasks p).phase
  eax := (s.tasks p).proc.eax

variable {p q : P} {change : Task P → Task P}

theorem view_modify_of_ne (s : System P) (other : q ≠ p) (change : Task P → Task P) :
    (s.modify p change).view q = s.view q := by
  simp [view, events, modify, Function.update_of_ne other]

theorem view_modify (s : System P) (p : P) (kept : (change (s.tasks p)).born = (s.tasks p).born) :
    (s.modify p change).view p =
      ⟨s.events p, (change (s.tasks p)).history, (change (s.tasks p)).phase,
        (change (s.tasks p)).proc.eax⟩ := by
  simp [view, events, modify, kept]

theorem view_record_of_ne (s : System P) (other : q ≠ p) (sys : Sys) :
    (s.record p sys).view q = s.view q := by
  have skipped : ∀ count, (([(p, (s.tasks p).proc, sys)].drop count).filter
      fun entry : P × Proc × Sys => entry.1 = q) = [] := by
    intro count
    apply filter_eq_nil_iff.mpr
    intro entry member
    rw [mem_singleton.mp (mem_of_mem_drop member)]
    simpa using Ne.symm other
  simp [view, events, record, drop_append, skipped]

theorem view_of_same_tasks {s t : System P} (tasks : t.tasks p = s.tasks p) (log : t.log = s.log) :
    t.view p = s.view p := by
  simp [view, events, tasks, log]

theorem view_modify_hidden (s : System P) (p q : P)
    (hidden : ∀ t, (change t).born = t.born ∧ (change t).history = t.history ∧
      (change t).phase = t.phase ∧ (change t).proc.eax = t.proc.eax) :
    (s.modify p change).view q = s.view q := by
  by_cases same : q = p
  · subst same
    obtain ⟨born, history, phase, eax⟩ := hidden (s.tasks q)
    rw [view_modify s q born, history, phase, eax]
    rfl
  · exact view_modify_of_ne s same change

theorem view_exit (s : System P) (p q : P) : (s.exit p).view q = s.view q := rfl

theorem view_allocproc (s : System P) (slot q : P) :
    (s.allocproc slot).view q = s.view q := by
  change (s.modify slot fun t =>
    { t with proc := { t.proc with traced := 0, pid := s.nextpid } }).view q = _
  exact view_modify_hidden s slot q fun _ => ⟨rfl, rfl, rfl, rfl⟩

theorem view_fork_of_ne (s : System P) (p : P) {child : P} (other : q ≠ child) :
    (s.fork p child).view q = s.view q := by
  rw [fork, view_modify_of_ne _ other, view_allocproc]

theorem view_fork (s : System P) (p child : P) :
    (s.fork p child).view child = ⟨[], [], .user, 0⟩ := by
  simp [fork, view, events, modify, allocproc]

end System

inductive Observed : View → View → Prop where
  | same {v} : Observed v v
  | created {v} : Observed v ⟨[], [], .user, 0⟩
  | invalid {v eax traced} : v.phase = .user → Sys.ofNumber? eax = none →
      Observed v ⟨v.events, v.history ++ [⟨eax, traced, some (-1)⟩], .user, -1⟩
  | entered {v eax traced sys} : v.phase = .user →
      (sys = .exit → traced &&& traceOn = 0) →
      Observed v ⟨v.events, v.history, .handler sys traced, eax⟩
  | exiting {v traced} {target : Proc} : v.phase = .user →
      traced &&& traceOn ≠ 0 → target.eax = Sys.exit.number.toUInt32 →
      Observed v
        ⟨v.events ++ [(target, .exit)], v.history, .handler .exit traced, target.eax⟩
  | left {v sys traced result} : v.phase = .handler sys traced → sys ≠ .exit →
      traced &&& traceOn = 0 →
      Observed v
        ⟨v.events, v.history ++ [⟨sys.number, traced, some result⟩], .user, result⟩
  | recorded {v sys traced} {target : Proc} : v.phase = .handler sys traced →
      sys ≠ .exit → traced &&& traceOn ≠ 0 →
      Observed v
        ⟨v.events ++ [(target, sys)],
          v.history ++ [⟨sys.number, traced, some target.eax⟩], .user, target.eax⟩

namespace System

def Bounded (s : System P) : Prop := ∀ p, (s.tasks p).born ≤ s.log.length

variable {s : System P} {p q : P}

theorem Bounded.modify (bounded : s.Bounded) (p : P) {change : Task P → Task P}
    (kept : (change (s.tasks p)).born ≤ s.log.length) : (s.modify p change).Bounded := by
  intro q
  by_cases same : q = p
  · subst same
    simpa [System.modify] using kept
  · simpa [System.modify, Function.update_of_ne same] using bounded q

omit [DecidableEq P] in
theorem Bounded.record (bounded : s.Bounded) (p : P) (sys : Sys) : (s.record p sys).Bounded := by
  intro q
  simp only [System.record, length_append]
  exact Nat.le_add_right_of_le (bounded q)

omit [DecidableEq P] in
theorem Bounded.recordExit (bounded : s.Bounded) (p : P) : (s.recordExit p).Bounded := by
  unfold System.recordExit
  split
  next => exact bounded.record p .exit
  next => exact bounded

theorem Bounded.enter (bounded : s.Bounded) (p : P) (eax : UInt32) : (s.enter p eax).Bounded := by
  have recorded : ((s.setEax p eax).recordExit p).Bounded := by
    apply Bounded.recordExit
    exact bounded.modify p (bounded p)
  simp only [System.enter]
  split
  next => exact recorded.modify p (recorded p)
  next =>
    have unknown : (((s.setEax p eax).recordExit p).unknownCall p eax.toInt32).Bounded :=
      recorded
    exact unknown.modify p (unknown p)

theorem Bounded.leave (bounded : s.Bounded) (p : P) (sys : Sys) (traced : Int32) (result : UInt32) :
    (s.leave p sys traced result).Bounded := by
  simp only [System.leave]
  split
  next => exact (bounded.modify p (bounded p)).record p sys
  next => exact bounded.modify p (bounded p)

theorem Bounded.allocproc (bounded : s.Bounded) (slot : P) : (s.allocproc slot).Bounded := by
  change (s.modify slot fun t =>
    { t with proc := { t.proc with traced := 0, pid := s.nextpid } }).Bounded
  exact bounded.modify slot (bounded slot)

theorem Bounded.fork (bounded : s.Bounded) (p child : P) : (s.fork p child).Bounded := by
  unfold System.fork
  apply (bounded.allocproc child).modify child
  exact Nat.le_refl _

theorem observed_enter (bounded : s.Bounded) (phase : (s.tasks p).phase = .user) (eax : UInt32) :
    Observed (s.view p) ((s.enter p eax).view p) := by
  let traced := (s.tasks p).proc.traced
  cases valid : Sys.ofNumber? eax.toInt32 with
  | none =>
    have notExit : eax.toInt32 ≠ Sys.exit.number := by
      intro equal
      rw [Sys.ofNumber?_eq_some.mpr equal.symm] at valid
      contradiction
    have shown : (s.enter p eax).view p =
        ⟨s.events p, (s.tasks p).history ++ [⟨eax.toInt32, traced, some (-1)⟩],
          .user, -1⟩ := by
      simp [enter, setEax, recordExit, valid, notExit, view, events, modify,
        unknownCall, phase, traced]
    rw [shown]
    exact .invalid phase valid
  | some sys =>
    have number := Sys.ofNumber?_eq_some.mp valid
    by_cases exits : eax.toInt32 = Sys.exit.number ∧ traced &&& traceOn ≠ 0
    · have same : sys = .exit := Sys.number_injective (number.trans exits.1)
      have register : eax = Sys.exit.number.toUInt32 :=
        (congrArg Int32.toUInt32 exits.1)
      have shown : (s.enter p eax).view p =
          ⟨s.events p ++ [({ (s.tasks p).proc with eax := eax }, .exit)],
            (s.tasks p).history, .handler .exit traced, eax⟩ := by
        have before := bounded p
        have on : ¬(s.tasks p).proc.traced &&& traceOn = 0 := exits.2
        have early : (s.setEax p eax).recordExit p =
            (s.setEax p eax).record p .exit := by
          simp [recordExit, setEax, modify, exits.1, on]
        simp only [enter, valid, early, same]
        simp [setEax, view, events, modify, record,
          drop_append_of_le_length before, traced]
      rw [shown]
      exact .exiting phase exits.2 register
    · have shown : (s.enter p eax).view p =
          ⟨s.events p, (s.tasks p).history, .handler sys traced, eax⟩ := by
        have skipped : (s.setEax p eax).recordExit p = s.setEax p eax := by
          rw [recordExit, if_neg]
          simpa [setEax, modify] using exits
        simp only [enter, valid, skipped]
        simp [setEax, view, events, modify, traced]
      rw [shown]
      refine .entered phase ?_
      intro same
      subst same
      by_contra on
      exact exits ⟨number.symm, on⟩

theorem observed_leave (bounded : s.Bounded) {sys : Sys} {traced : Int32}
    (phase : (s.tasks p).phase = .handler sys traced) (returns : sys ≠ .exit) (result : UInt32) :
    Observed (s.view p) ((s.leave p sys traced result).view p) := by
  by_cases on : traced &&& traceOn = 0
  · have shown : (s.leave p sys traced result).view p =
        ⟨s.events p, (s.tasks p).history ++ [⟨sys.number, traced, some result⟩],
          .user, result⟩ := by
      simp [leave, on, view, events, modify]
    rw [shown]
    exact .left phase returns on
  · have shown : (s.leave p sys traced result).view p =
        ⟨s.events p ++ [({ (s.tasks p).proc with eax := result }, sys)],
          (s.tasks p).history ++ [⟨sys.number, traced, some result⟩],
          .user, result⟩ := by
      simp [leave, on, view, events, modify, record,
        drop_append_of_le_length (bounded p)]
    rw [shown]
    exact .recorded phase returns on

theorem view_recordExit_of_ne (s : System P) (other : q ≠ p) :
    (s.recordExit p).view q = s.view q := by
  unfold recordExit
  split
  next => exact view_record_of_ne s other .exit
  next => rfl

theorem view_enter_of_ne (s : System P) (other : q ≠ p) (eax : UInt32) :
    (s.enter p eax).view q = s.view q := by
  have recorded : ((s.setEax p eax).recordExit p).view q = s.view q := by
    rw [view_recordExit_of_ne _ other, setEax, view_modify_of_ne _ other]
  simp only [enter]
  split
  next => rw [view_modify_of_ne _ other, recorded]
  next =>
    rw [view_modify_of_ne _ other]
    exact recorded

theorem view_leave_of_ne (s : System P) (other : q ≠ p) (sys : Sys) (traced : Int32)
    (result : UInt32) : (s.leave p sys traced result).view q = s.view q := by
  simp only [leave]
  split
  next => rw [view_record_of_ne _ other, view_modify_of_ne _ other]
  next => exact view_modify_of_ne s other _

end System

inductive Handled (s : System P) (p : P) : System P → Prop where
  | quiet {t} : t.tasks = s.tasks → t.log = s.log → Handled s p t
  | forked {child} : (s.tasks child).status = .unused → Handled s p (s.fork p child)
  | allocated {slot} : Handled s p (s.allocproc slot)
  | changed {q change} :
      (∀ t : Task P, (change t).born = t.born ∧ (change t).history = t.history ∧
        (change t).phase = t.phase ∧ (change t).proc.eax = t.proc.eax) →
      (∀ t : Task P, (change t).status = .alive → t.status = .alive) →
      Handled s p (s.modify q change)

theorem handled_of_handle {s t : System P} {p : P} {sys : Sys} {outcome : Outcome P}
    {result : UInt32} (handled : handle s p sys outcome = some (t, result)) :
    Handled s p t := by
  unfold handle at handled
  split at handled
  · split at handled
    next =>
      cases handled
      exact .quiet rfl rfl
    next => contradiction
  · split at handled
    next unused =>
      cases handled
      exact .forked unused
    next => contradiction
  · cases handled
    exact .quiet rfl rfl
  · split at handled
    next =>
      cases handled
      exact .allocated
    next => contradiction
  · cases handled
    exact .changed (fun _ => ⟨rfl, rfl, rfl, rfl⟩) fun _ => id
  · cases handled
    exact .changed (fun _ => ⟨rfl, rfl, rfl, rfl⟩) fun _ => id
  · cases handled
    exact .quiet rfl rfl
  · cases handled
    exact .quiet rfl rfl
  · split at handled
    next =>
      cases handled
      exact .changed (fun _ => ⟨rfl, rfl, rfl, rfl⟩) nofun
    next => contradiction
  · contradiction

namespace Handled

variable {p : P} {s t : System P}

theorem bounded (handled : Handled s p t) (bounded : s.Bounded) : t.Bounded := by
  cases handled with
  | quiet tasks log =>
    intro q
    rw [tasks, log]
    exact bounded q
  | forked unused => exact bounded.fork p _
  | allocated => exact bounded.allocproc _
  | @changed q change hidden _ =>
    refine bounded.modify q ?_
    rw [(hidden _).1]
    exact bounded q

theorem view (handled : Handled s p t) (q : P) :
    t.view q = s.view q ∨
      (s.tasks q).status = .unused ∧ t.view q = ⟨[], [], .user, 0⟩ := by
  cases handled with
  | quiet tasks log =>
    exact .inl (System.view_of_same_tasks (congrFun tasks q) log)
  | @forked child unused =>
    by_cases same : q = child
    · subst same
      exact .inr ⟨unused, System.view_fork s p q⟩
    · exact .inl (System.view_fork_of_ne s p same)
  | allocated => exact .inl (System.view_allocproc s _ q)
  | changed hidden => exact .inl (System.view_modify_hidden s _ q hidden)

end Handled

namespace System

inductive Moved (s : System P) : System P → Prop where
  | entered {p eax} : (s.tasks p).status = .alive → (s.tasks p).phase = .user →
      Moved s (s.enter p eax)
  | returned {p sys traced middle result} : (s.tasks p).status = .alive →
      (s.tasks p).phase = .handler sys traced → sys ≠ .exit →
      Handled s p middle → Moved s (middle.leave p sys traced result)
  | exited {p} : Moved s (s.exit p)

variable {label : Label P} {s t : System P} {α : Type} {field : Task P → α}

theorem moved_of_step (stepped : step s label = some t) : Moved s t := by
  cases label with
  | trap p eax =>
    simp only [step] at stepped
    split at stepped
    next _ _ alive phase =>
      cases stepped
      exact .entered alive phase
    next => contradiction
  | finish p outcome =>
    simp only [step] at stepped
    split at stepped
    next =>
      split at stepped
      next =>
        split at stepped
        next => contradiction
        next =>
          cases stepped
          exact .exited
      next => contradiction
    next sys traced returns alive phase =>
      obtain ⟨⟨middle, result⟩, handled, finished⟩ := Option.map_eq_some_iff.mp stepped
      subst finished
      exact .returned alive phase returns (handled_of_handle handled)
    next => contradiction
  | killed p =>
    simp only [step] at stepped
    split at stepped
    next =>
      split at stepped
      next => contradiction
      next =>
        cases stepped
        exact .exited
    next => contradiction

theorem Bounded.step (bounded : s.Bounded) (stepped : step s label = some t) : t.Bounded := by
  cases moved_of_step stepped with
  | entered => exact bounded.enter _ _
  | returned _ _ _ handled => exact (handled.bounded bounded).leave _ _ _ _
  | exited => exact bounded

theorem observed_of_step (bounded : s.Bounded) (stepped : step s label = some t) (q : P) :
    Observed (s.view q) (t.view q) := by
  cases moved_of_step stepped with
  | @entered p eax alive phase =>
    by_cases same : q = p
    · subst same
      exact observed_enter bounded phase eax
    · rw [view_enter_of_ne s same]
      exact .same
  | @returned p sys traced middle result alive phase returns handled =>
    by_cases same : q = p
    · subst same
      have kept : middle.view q = s.view q := by
        rcases handled.view q with kept | ⟨unused, _⟩
        · exact kept
        · rw [alive] at unused
          contradiction
      have phaseKept : (middle.tasks q).phase = .handler sys traced :=
        (congrArg View.phase kept).trans phase
      rw [← kept]
      exact observed_leave (handled.bounded bounded) phaseKept returns result
    · rw [view_leave_of_ne _ same]
      rcases handled.view q with kept | ⟨_, created⟩
      · rw [kept]
        exact .same
      · rw [created]
        exact .created
  | exited =>
    rw [view_exit]
    exact .same

theorem field_modify (field : Task P → α) (s : System P) (p q : P) {change : Task P → Task P}
    (kept : ∀ t, field (change t) = field t) :
    field ((s.modify p change).tasks q) = field (s.tasks q) := by
  by_cases same : q = p
  · subst same
    simp [modify, kept]
  · simp [modify, Function.update_of_ne same]

def Untouched {α : Type} (field : Task P → α) : Prop :=
  ∀ (t : Task P) (eax : UInt32) (phase : Phase) (history : List Trap),
    field { t with proc := { t.proc with eax := eax }, phase, history } = field t

theorem field_enter (untouched : Untouched field) (s : System P) (p q : P) (eax : UInt32) :
    field ((s.enter p eax).tasks q) = field (s.tasks q) := by
  have recorded : field (((s.setEax p eax).recordExit p).tasks q) =
      field (s.tasks q) := by
    have loaded : field ((s.setEax p eax).tasks q) = field (s.tasks q) := by
      apply field_modify
      exact fun t => untouched t eax t.phase t.history
    unfold recordExit
    split <;> exact loaded
  simp only [enter]
  split
  next =>
    refine (field_modify field _ p q ?_).trans recorded
    exact fun t => untouched t t.proc.eax _ t.history
  next =>
    refine (field_modify field _ p q ?_).trans recorded
    exact fun t => untouched t _ t.phase _

theorem field_leave (untouched : Untouched field) (s : System P) (p q : P) (sys : Sys)
    (traced : Int32) (result : UInt32) :
    field ((s.leave p sys traced result).tasks q) = field (s.tasks q) := by
  have returned : field ((s.modify p fun t =>
      { t with
        proc := { t.proc with eax := result }
        phase := .user
        history := t.history ++ [⟨sys.number, traced, some result⟩] }).tasks q) =
      field (s.tasks q) := by
    apply field_modify
    exact fun t => untouched t _ _ _
  simp only [leave]
  split <;> exact returned

omit [DecidableEq P] in
theorem untouched_status : Untouched (P := P) Task.status := fun _ _ _ _ => rfl

theorem view_of_created (stepped : step s label = some t) {child : P}
    (unused : (s.tasks child).status = .unused) (alive : (t.tasks child).status = .alive) :
    t.view child = ⟨[], [], .user, 0⟩ := by
  cases moved_of_step stepped with
  | entered =>
    rw [field_enter untouched_status, unused] at alive
    contradiction
  | @returned p sys traced middle result running phase returns handled =>
    have other : child ≠ p := by
      intro same
      rw [same, running] at unused
      contradiction
    rw [field_leave untouched_status] at alive
    rw [view_leave_of_ne _ other]
    cases handled with
    | quiet tasks =>
      rw [tasks, unused] at alive
      contradiction
    | @forked slot vacant =>
      by_cases same : child = slot
      · subst same
        exact view_fork s p child
      · simp only [fork, allocproc, modify, Function.update_of_ne same,
          unused] at alive
        contradiction
    | @allocated slot =>
      have kept : ((s.allocproc slot).tasks child).status =
          (s.tasks child).status := by
        change ((s.modify slot fun t =>
          { t with proc := { t.proc with traced := 0, pid := s.nextpid } }).tasks
            child).status = _
        exact field_modify Task.status s slot child fun _ => rfl
      rw [kept, unused] at alive
      contradiction
    | @changed q change _ revives =>
      by_cases same : child = q
      · subst same
        simp only [modify, Function.update_self] at alive
        rw [revives _ alive] at unused
        contradiction
      · simp only [modify, Function.update_of_ne same, unused] at alive
        contradiction
  | @exited p =>
    simp only [exit, unused] at alive
    split at alive <;> contradiction

end System

/-- What `record_syscall` is to be called with for a trap: nothing for an invalid
number or an untraced entry, `exit` when it is entered, and any other call with
the value it returns. -/
def Trap.expected (trap : Trap) : List (Sys × UInt32) :=
  match Sys.ofNumber? trap.number with
  | none => []
  | some sys =>
    if trap.traced &&& traceOn = 0 then []
    else if sys = .exit then [(.exit, Sys.exit.number.toUInt32)]
    else
      match trap.result with
      | some result => [(sys, result)]
      | none => []

structure View.Faithful (v : View) : Prop where
  recorded : v.events.map (fun event => (event.2, event.1.eax)) =
    v.traps.flatMap Trap.expected
  invalid : ∀ trap ∈ v.history, Sys.ofNumber? trap.number = none →
    trap.result = some (-1)
  received : v.phase = .user → ∀ trap, v.history.getLast? = some trap →
    trap.result = some v.eax
  returned : ∀ trap ∈ v.history, trap.result.isSome
  exits : ∀ trap ∈ v.history, Sys.ofNumber? trap.number ≠ some .exit

@[simp] theorem Trap.expected_of_invalid {number traced : Int32} {result : Option UInt32}
    (invalid : Sys.ofNumber? number = none) :
    Trap.expected ⟨number, traced, result⟩ = [] := by
  simp [Trap.expected, invalid]

theorem Trap.expected_number (sys : Sys) (traced : Int32) (result : Option UInt32) :
    Trap.expected ⟨sys.number, traced, result⟩ =
      if traced &&& traceOn = 0 then []
      else if sys = .exit then [(.exit, Sys.exit.number.toUInt32)]
      else result.toList.map fun value => (sys, value) := by
  have valid : Sys.ofNumber? sys.number = some sys := Sys.ofNumber?_eq_some.mpr rfl
  simp only [Trap.expected, valid]
  cases result with
  | none | some value => rfl

namespace View

variable {history : List Trap} {trap : Trap}

private theorem getLast?_append_trap {last : Trap}
    (found : (history ++ [trap]).getLast? = some last) : last = trap := by
  rw [List.getLast?_append, List.getLast?_singleton, Option.some_or] at found
  exact (Option.some.inj found).symm

private theorem forall_mem_append_trap {condition : Trap → Prop}
    (before : ∀ other ∈ history, condition other) (here : condition trap) :
    ∀ other ∈ history ++ [trap], condition other := by
  intro other member
  rcases mem_append.mp member with old | new
  · exact before other old
  · rw [mem_singleton.mp new]
    exact here

theorem Faithful.observed {v w : View} (faithful : v.Faithful)
    (observed : Observed v w) : w.Faithful := by
  have recorded := faithful.recorded
  cases observed with
  | same => exact faithful
  | created => exact ⟨rfl, nofun, nofun, nofun, nofun⟩
  | @invalid eax traced phase invalid =>
    simp only [traps, phase, Phase.pending, append_nil] at recorded
    refine ⟨?_, ?_, ?_, ?_, ?_⟩
    · simpa [traps, Phase.pending, invalid] using recorded
    · exact forall_mem_append_trap faithful.invalid fun _ => rfl
    · intro _ last found
      rw [getLast?_append_trap found]
    · exact forall_mem_append_trap faithful.returned rfl
    · exact forall_mem_append_trap faithful.exits (by simp [invalid])
  | @entered eax traced sys phase quiet =>
    simp only [traps, phase, Phase.pending, append_nil] at recorded
    refine ⟨?_, faithful.invalid, nofun, faithful.returned, faithful.exits⟩
    have nothing : Trap.expected ⟨sys.number, traced, none⟩ = [] := by
      rw [Trap.expected_number]
      split
      next => rfl
      next on =>
        rw [if_neg fun same => on (quiet same)]
        rfl
    simpa [traps, Phase.pending, nothing] using recorded
  | @exiting traced target phase on register =>
    simp only [traps, phase, Phase.pending, append_nil] at recorded
    refine ⟨?_, faithful.invalid, nofun, faithful.returned, faithful.exits⟩
    have early : Trap.expected ⟨Sys.exit.number, traced, none⟩ =
        [(.exit, target.eax)] := by
      rw [Trap.expected_number, if_neg on, if_pos rfl, register]
    simp [traps, Phase.pending, early, recorded]
  | @left sys traced result phase returns off =>
    have nothing : ∀ value, Trap.expected ⟨sys.number, traced, value⟩ = [] := by
      intro value
      rw [Trap.expected_number, if_pos off]
    have valid : Sys.ofNumber? sys.number = some sys := Sys.ofNumber?_eq_some.mpr rfl
    simp only [traps, phase, Phase.pending, flatMap_append, flatMap_cons,
      nothing, flatMap_nil, append_nil] at recorded
    refine ⟨?_, ?_, ?_, ?_, ?_⟩
    · simpa [traps, Phase.pending, nothing] using recorded
    · exact forall_mem_append_trap faithful.invalid (by simp [valid])
    · intro _ last found
      rw [getLast?_append_trap found]
    · exact forall_mem_append_trap faithful.returned rfl
    · exact forall_mem_append_trap faithful.exits (by simp [valid, returns])
  | @recorded sys traced target phase returns on =>
    have valid : Sys.ofNumber? sys.number = some sys := Sys.ofNumber?_eq_some.mpr rfl
    have waiting : Trap.expected ⟨sys.number, traced, none⟩ = [] := by
      rw [Trap.expected_number, if_neg on, if_neg returns]
      rfl
    have done : Trap.expected ⟨sys.number, traced, some target.eax⟩ =
        [(sys, target.eax)] := by
      rw [Trap.expected_number, if_neg on, if_neg returns]
      rfl
    simp only [traps, phase, Phase.pending, flatMap_append, flatMap_cons,
      waiting, flatMap_nil, append_nil] at recorded
    refine ⟨?_, ?_, ?_, ?_, ?_⟩
    · simp [traps, Phase.pending, done, recorded]
    · exact forall_mem_append_trap faithful.invalid (by simp [valid])
    · intro _ last found
      rw [getLast?_append_trap found]
    · exact forall_mem_append_trap faithful.returned rfl
    · exact forall_mem_append_trap faithful.exits (by simp [valid, returns])

end View

theorem System.bounded_boot (initproc : P) : (System.boot initproc).Bounded := by
  intro p
  by_cases same : p = initproc
  · subst same
    simp [System.boot]
  · simp [System.boot, Function.update_of_ne same]

theorem System.view_boot (initproc p : P) :
    (System.boot initproc).view p = ⟨[], [], .user, 0⟩ := by
  by_cases same : p = initproc
  · subst same
    simp [System.boot, System.view, System.events]
  · simp [System.boot, System.view, System.events, Function.update_of_ne same]

/-- Over every run, each process has recorded exactly one event for each valid
call it entered traced, and a new process starts with none. -/
theorem syscall_events_faithful (initproc : P) (labels : List (System.Label P))
    (s : System P) (reached : run System.step (.boot initproc) labels = some s) :
    (∀ p, (s.view p).Faithful) ∧
      ∀ label next child, System.step s label = some next →
        (s.tasks child).status = .unused → (next.tasks child).status = .alive →
          next.view child = ⟨[], [], .user, 0⟩ := by
  have invariant : s.Bounded ∧ ∀ p, (s.view p).Faithful := by
    refine run_preserves (fun s => s.Bounded ∧ ∀ p, (s.view p).Faithful) ?_ ?_ reached
    · rintro before label after ⟨bounded, faithful⟩ stepped
      exact ⟨bounded.step stepped, fun p =>
        (faithful p).observed (System.observed_of_step bounded stepped p)⟩
    · refine ⟨System.bounded_boot initproc, fun p => ?_⟩
      rw [System.view_boot]
      exact ⟨rfl, nofun, nofun, nofun, nofun⟩
  refine ⟨invariant.2, ?_⟩
  intro label next child stepped unused alive
  exact System.view_of_created stepped unused alive

end

def tracedSession (parent child : P) : List (System.Label P) :=
  [.trap parent 22, .finish parent (.straced 3), .trap parent 1,
    .finish parent (.forked child), .trap parent 11, .finish parent (.value 1),
    .trap parent 99]

theorem tracedSession_faithful :
    ∃ s, run System.step (.boot 0) (tracedSession (0 : Fin 2) 1) = some s ∧
      (s.events 0).map (fun event => (event.2, event.1.eax)) = [(.fork, 2), (.getpid, 1)] ∧
      (s.view 0).Faithful := by
  have finished : ((run System.step (.boot 0) (tracedSession (0 : Fin 2) 1)).map fun s =>
      (s.events 0).map fun event => (event.2, event.1.eax)) =
        some [(.fork, 2), (.getpid, 1)] := by decide
  obtain ⟨s, reached, recorded⟩ := Option.map_eq_some_iff.mp finished
  exact ⟨s, reached, recorded, (syscall_events_faithful 0 (tracedSession 0 1) s reached).1 0⟩

end StraceXv6.Kernel
