import StraceXv6.Kernel.Process.Table

namespace StraceXv6.Kernel.Process

open Data

/-! Processes that fork, exit, wait, sleep and are scheduled, in any interleaving.  A
section under `ptable.lock` is a step; what `fork` does without the lock is in steps of
its own. -/

/-- Where a process is: in `fork` with its child, whose parent is set or not yet, in the
loop of `wait`, or elsewhere. -/
inductive Phase where
  | idle
  | forking (child : Slot) (parented : Bool)
  | waiting
  deriving DecidableEq

/-- The processes that were forked, in order: those in the table, those that became
zombies and those that `wait` returned, with the process that called it. -/
structure History where
  forks : Nat
  serial : Slot → Nat
  exited : List Nat
  returned : List (Nat × Slot)

structure Machine where
  table : Ptable
  phase : Slot → Phase
  history : History

inductive Label where
  | alloc (p : Slot)
  | abort (p : Slot)
  | parent (p : Slot)
  | publish (p : Slot)
  | exit (p : Slot)
  | wait (p : Slot)
  | kill (p : Slot) (pid : Int32)
  | sleep (p : Slot) (address : Nat)
  | wakeup (chan : Chan)
  | yield (p : Slot)
  | schedule (p : Slot)
  deriving DecidableEq

namespace Ptable

def setState (t : Ptable) (p : Slot) (state : ProcState) : Ptable :=
  t.modify p fun e => { e with state := state }

/-- The process goes on; if it slept, `sleep` forgets its channel. -/
def resume (t : Ptable) (p : Slot) : Ptable :=
  t.modify p fun e => { e with state := .running, chan := none }

end Ptable

namespace Machine

section

variable (m : Machine) (p : Slot)

def Running : Prop := (m.table.proc p).state = .running

instance : Decidable (m.Running p) := inferInstanceAs (Decidable (_ = _))

def setPhase (phase : Phase) : Machine := { m with phase := Function.update m.phase p phase }

def forked (child : Slot) : Machine :=
  { m with history := { m.history with
      forks := m.history.forks + 1
      serial := Function.update m.history.serial child m.history.forks } }

def died : Machine :=
  { m with history := { m.history with
      exited := m.history.exited ++ [m.history.serial p] } }

def collected (q : Slot) : Machine :=
  { m with history := { m.history with
      returned := m.history.returned ++ [(m.history.serial q, p)] } }

end

section

variable (m : Machine) (p q : Slot) (phase : Phase)

@[simp] theorem table_setPhase : (m.setPhase p phase).table = m.table := rfl

@[simp] theorem table_forked : (m.forked q).table = m.table := rfl

@[simp] theorem table_died : (m.died p).table = m.table := rfl

@[simp] theorem table_collected : (m.collected p q).table = m.table := rfl

@[simp] theorem phase_forked : (m.forked q).phase = m.phase := rfl

@[simp] theorem phase_died : (m.died p).phase = m.phase := rfl

@[simp] theorem phase_collected : (m.collected p q).phase = m.phase := rfl

@[simp] theorem phase_setPhase_self : (m.setPhase p phase).phase p = phase :=
  Function.update_self ..

variable {p q}

theorem phase_setPhase_of_ne (other : q ≠ p) : (m.setPhase p phase).phase q = m.phase q :=
  Function.update_of_ne other ..

end

def alloc (m : Machine) (p : Slot) : Option Machine :=
  if m.Running p ∧ m.phase p = .idle then
    match m.table.allocproc with
    | none => some m
    | some (c, t) => some (({ m with table := t }.setPhase p (.forking c false)).forked c)
  else none

/-- There was no page for the stack or for the memory of the child. -/
def abort (m : Machine) (p : Slot) : Option Machine :=
  match m.phase p with
  | .forking c false =>
    if m.Running p then some ({ m with table := m.table.setState c .unused }.setPhase p .idle)
    else none
  | _ => none

def parent (m : Machine) (p : Slot) : Option Machine :=
  match m.phase p with
  | .forking c false =>
    if m.Running p then
      some ({ m with table := m.table.setParent c p }.setPhase p (.forking c true))
    else none
  | _ => none

def publish (m : Machine) (p : Slot) : Option Machine :=
  match m.phase p with
  | .forking c true =>
    if m.Running p then
      some ({ m with table := m.table.setState c .runnable }.setPhase p .idle)
    else none
  | _ => none

/-- init panics instead. -/
def exit (m : Machine) (p : Slot) : Option Machine :=
  if m.Running p ∧ m.phase p = .idle ∧ p ≠ m.table.initproc then
    some ({ m with table := m.table.exit p }.died p)
  else none

/-- One turn of the loop of `wait`. -/
def wait (m : Machine) (p : Slot) : Option Machine :=
  if m.Running p ∧ (m.phase p = .idle ∨ m.phase p = .waiting) then
    match m.table.zombieChild p with
    | some q => some (({ m with table := m.table.reap q }.setPhase p .idle).collected p q)
    | none =>
      if !m.table.havekids p || (m.table.proc p).killed then some (m.setPhase p .idle)
      else some ({ m with table := m.table.sleep p (.proc p) }.setPhase p .waiting)
  else none

def step (m : Machine) : Label → Option Machine
  | .alloc p => m.alloc p
  | .abort p => m.abort p
  | .parent p => m.parent p
  | .publish p => m.publish p
  | .exit p => m.exit p
  | .wait p => m.wait p
  | .kill p pid =>
    if m.Running p ∧ m.phase p = .idle then some { m with table := (m.table.kill pid).2 }
    else none
  | .sleep p address =>
    if m.Running p ∧ m.phase p = .idle then
      some { m with table := m.table.sleep p (.other address) }
    else none
  | .wakeup chan => some { m with table := m.table.wakeup1 (some chan) }
  | .yield p =>
    if m.Running p then some { m with table := m.table.setState p .runnable } else none
  | .schedule p =>
    if (m.table.proc p).state = .runnable then some { m with table := m.table.resume p }
    else none

def boot : Machine where
  table := .boot
  phase := fun _ => .idle
  history := ⟨0, fun _ => 0, [], []⟩

inductive Moved (m : Machine) : Label → Machine → Prop where
  | allocated {p c : Slot} : m.Running p → m.phase p = .idle →
      (m.table.proc c).state = .unused →
      Moved m (.alloc p) (({ m with table :=
        { m.table.modify c fun e => { e with state := .embryo, pid := m.table.nextpid } with
          nextpid := m.table.nextpid + 1 } }.setPhase p (.forking c false)).forked c)
  | full {p : Slot} : Moved m (.alloc p) m
  | aborted {p c : Slot} : m.Running p → m.phase p = .forking c false →
      Moved m (.abort p) ({ m with table := m.table.setState c .unused }.setPhase p .idle)
  | parented {p c : Slot} : m.Running p → m.phase p = .forking c false →
      Moved m (.parent p)
        ({ m with table := m.table.setParent c p }.setPhase p (.forking c true))
  | published {p c : Slot} : m.Running p → m.phase p = .forking c true →
      Moved m (.publish p) ({ m with table := m.table.setState c .runnable }.setPhase p .idle)
  | exited {p : Slot} : m.Running p → m.phase p = .idle → p ≠ m.table.initproc →
      Moved m (.exit p) ({ m with table := m.table.exit p }.died p)
  | reaped {p q : Slot} : m.Running p → (m.phase p = .idle ∨ m.phase p = .waiting) →
      (m.table.proc q).parent = some p → (m.table.proc q).state = .zombie →
      Moved m (.wait p)
        (({ m with table := m.table.reap q }.setPhase p .idle).collected p q)
  | gaveUp {p : Slot} : m.Running p → (m.phase p = .idle ∨ m.phase p = .waiting) →
      Moved m (.wait p) (m.setPhase p .idle)
  | slept {p : Slot} : m.Running p → (m.phase p = .idle ∨ m.phase p = .waiting) →
      (∀ q, (m.table.proc q).parent = some p → (m.table.proc q).state ≠ .zombie) →
      Moved m (.wait p) ({ m with table := m.table.sleep p (.proc p) }.setPhase p .waiting)
  | killed {p : Slot} {pid : Int32} : m.Running p → m.phase p = .idle →
      Moved m (.kill p pid) { m with table := (m.table.kill pid).2 }
  | rested {p : Slot} {address : Nat} : m.Running p → m.phase p = .idle →
      Moved m (.sleep p address) { m with table := m.table.sleep p (.other address) }
  | woke {chan : Chan} : Moved m (.wakeup chan) { m with table := m.table.wakeup1 (some chan) }
  | yielded {p : Slot} : m.Running p →
      Moved m (.yield p) { m with table := m.table.setState p .runnable }
  | scheduled {p : Slot} : (m.table.proc p).state = .runnable →
      Moved m (.schedule p) { m with table := m.table.resume p }

variable {m m' : Machine} {p : Slot}

theorem moved_of_wait (stepped : m.wait p = some m') : Moved m (.wait p) m' := by
  unfold wait at stepped
  split at stepped
  next enabled =>
    split at stepped
    next q found =>
      cases stepped
      have holds := Ptable.zombieChild_eq_some found
      exact .reaped enabled.1 enabled.2 holds.1 holds.2
    next missing =>
      split at stepped
      next =>
        cases stepped
        exact .gaveUp enabled.1 enabled.2
      next =>
        cases stepped
        refine .slept enabled.1 enabled.2 ?_
        intro q child dead
        have none := List.find?_eq_none.mp missing q (List.mem_finRange q)
        simp [child, dead] at none
  next => cases stepped

theorem moved_of_alloc (stepped : m.alloc p = some m') : Moved m (.alloc p) m' := by
  unfold alloc at stepped
  split at stepped
  next enabled =>
    split at stepped
    next =>
      cases stepped
      exact .full
    next c t allocated =>
      cases stepped
      obtain ⟨unused, rfl⟩ := Ptable.allocproc_eq_some allocated
      exact .allocated enabled.1 enabled.2 unused
  next => cases stepped

theorem moved_of_step {label : Label} (stepped : m.step label = some m') : Moved m label m' := by
  cases label with
  | alloc p => exact moved_of_alloc stepped
  | wait p => exact moved_of_wait stepped
  | abort p =>
    simp only [step, abort] at stepped
    split at stepped
    next c forking =>
      obtain ⟨running, rfl⟩ := of_guard stepped
      exact .aborted running forking
    next => cases stepped
  | parent p =>
    simp only [step, parent] at stepped
    split at stepped
    next c forking =>
      obtain ⟨running, rfl⟩ := of_guard stepped
      exact .parented running forking
    next => cases stepped
  | publish p =>
    simp only [step, publish] at stepped
    split at stepped
    next c forking =>
      obtain ⟨running, rfl⟩ := of_guard stepped
      exact .published running forking
    next => cases stepped
  | exit p =>
    obtain ⟨enabled, rfl⟩ := of_guard stepped
    exact .exited enabled.1 enabled.2.1 enabled.2.2
  | kill p pid =>
    obtain ⟨enabled, rfl⟩ := of_guard stepped
    exact .killed enabled.1 enabled.2
  | sleep p address =>
    obtain ⟨enabled, rfl⟩ := of_guard stepped
    exact .rested enabled.1 enabled.2
  | wakeup chan =>
    cases stepped
    exact .woke
  | yield p =>
    obtain ⟨running, rfl⟩ := of_guard stepped
    exact .yielded running
  | schedule p =>
    obtain ⟨runnable, rfl⟩ := of_guard stepped
    exact .scheduled runnable

end Machine

end StraceXv6.Kernel.Process
