import StraceXv6.Data.Update
import StraceXv6.Kernel.Process.Family

namespace StraceXv6.Kernel.Process

open Function Data

/-! The CPUs that run the processes.  A CPU goes through the table in `scheduler`, a process
gives its CPU back in `sched`, and `ptable.lock` is held across both switches. -/

/-- The loop variable of `scheduler`, the process whose stack the CPU is on, and the
processes it switched to, the last one first. -/
structure Cpu where
  p : Nat
  proc : Option Slot
  ran : List Slot

structure Cpus (C : Type) where
  system : Machine
  lock : Option C
  cpu : C → Cpu

/-- A turn of the loop of `scheduler` is `enter`, `examine` for each entry and `leave`.
The process that was switched to gives up the lock in `release`; `wait`, which keeps it,
takes its next turn at once. -/
inductive Turn where
  | enter
  | examine
  | leave
  | release
  | perform (label : Label)
  | swtch

namespace Label

/-- Whether a CPU that is on the stack of `proc` performs the step.  Interrupts wake up
processes on any CPU. -/
def own (proc : Option Slot) : Label → Bool
  | alloc p | abort p | parent p | publish p | exit p | wait p | kill p _ | sleep p _
  | yield p => proc = some p
  | wakeup _ => true
  | schedule _ => false

def lockless : Label → Bool
  | abort _ | parent _ => true
  | _ => false

end Label

namespace Cpus

variable {C : Type} [DecidableEq C]

section

variable (m : Cpus C) (c : C)

def setCpu (cpu : Cpu) : Cpus C := { m with cpu := update m.cpu c cpu }

@[grind =] theorem cpu_setCpu (cpu : Cpu) (d : C) :
    (m.setCpu c cpu).cpu d = if d = c then cpu else m.cpu d :=
  update_apply ..

@[grind =] theorem lock_setCpu (cpu : Cpu) : (m.setCpu c cpu).lock = m.lock := rfl

@[grind =] theorem system_setCpu (cpu : Cpu) : (m.setCpu c cpu).system = m.system := rfl

def examine (p : Slot) : Cpus C :=
  if (m.system.table.proc p).state ≠ .runnable then
    m.setCpu c { m.cpu c with p := p + 1 }
  else
    { m with system := { m.system with table := m.system.table.resume p } }.setCpu c
      { p := p, proc := some p, ran := p :: (m.cpu c).ran }

/-- The process that has just left the state RUNNING goes on to `sched` with the lock. -/
def performed (system : Machine) : Cpus C :=
  { m with
    system := system
    lock := if ∀ q ∈ (m.cpu c).proc, system.Running q then m.lock else some c }

def step : C × Turn → Option (Cpus C)
  | (c, .enter) =>
    if m.lock = none ∧ (m.cpu c).proc = none then
      some ({ m with lock := some c }.setCpu c { m.cpu c with p := 0 })
    else none
  | (c, .examine) =>
    if inside : (m.cpu c).p < nproc then
      if m.lock = some c ∧ (m.cpu c).proc = none then some (m.examine c ⟨_, inside⟩) else none
    else none
  | (c, .leave) =>
    if m.lock = some c ∧ (m.cpu c).proc = none ∧ nproc ≤ (m.cpu c).p then
      some { m with lock := none }
    else none
  | (c, .release) =>
    if m.lock = some c ∧ (m.cpu c).proc ≠ none ∧ ∀ q ∈ (m.cpu c).proc, m.system.Running q then
      some { m with lock := none }
    else none
  | (c, .perform label) =>
    if label.own (m.cpu c).proc ∧ (m.lock = none ∨ label.lockless) then
      (m.system.step label).map (m.performed c)
    else none
  | (c, .swtch) =>
    if m.lock = some c ∧ (m.cpu c).proc ≠ none ∧
        ∀ q ∈ (m.cpu c).proc, ¬m.system.Running q then
      some (m.setCpu c { m.cpu c with p := (m.cpu c).p + 1, proc := none })
    else none

end

def boot : Cpus C where
  system := .boot
  lock := none
  cpu := fun _ => { p := nproc, proc := none, ran := [] }

/-- The processes in the state RUNNING are those the CPUs are on, except that the one that
holds the lock may be between its new state and the switch. -/
structure Scheduled (m : Cpus C) : Prop where
  reached : ∃ labels, run Machine.step .boot labels = some m.system
  cursor : ∀ c q, (m.cpu c).proc = some q → (m.cpu c).p = q
  passed : ∀ c, (m.cpu c).proc = none → m.lock ≠ some c → nproc ≤ (m.cpu c).p
  alone : ∀ c d q, (m.cpu c).proc = some q → (m.cpu d).proc = some q → c = d
  running : ∀ q, m.system.Running q → ∃ c, (m.cpu c).proc = some q
  present : ∀ c q, (m.cpu c).proc = some q →
    m.system.Running q ∨ m.lock = some c ∧ (m.system.table.proc q).state.Present

end Cpus

/-- What a step of the process `proc` does to the state of the process `q`: nothing, or `q`
made the step, or `q` is not RUNNING before and after. -/
def Touched (label : Label) (proc : Option Slot) (q : Slot) (before after : ProcState) : Prop :=
  after = before ∨ proc = some q ∧ ¬label.lockless ∧ before = .running ∧ after.Present ∨
    before ≠ .running ∧ after ≠ .running ∧ (label.lockless → ¬before.Present)

namespace Machine.Moved

variable {m m' : Machine} {label : Label} {proc : Option Slot} {q : Slot}

theorem touched_of_woken {before after : ProcState} (locked : ¬label.lockless)
    (woken : after = before ∨ before = .sleeping ∧ after = .runnable) :
    Touched label proc q before after := by
  rcases woken with same | ⟨rfl, rfl⟩
  · exact .inl same
  · exact .inr (.inr ⟨by simp, by simp, fun free => absurd free locked⟩)

/-- A step changes no process that is RUNNING other than the one that makes it. -/
theorem touched (moved : Moved m label m') (family : Family m) (own : label.own proc) (q : Slot) :
    Touched label proc q (m.table.proc q).state (m'.table.proc q).state := by
  have edit : ∀ p e, m'.table.proc = update m.table.proc p e →
      Touched label proc p (m.table.proc p).state e.state →
      Touched label proc q (m.table.proc q).state (m'.table.proc q).state := by
    intro p e changed here
    rw [changed]
    by_cases same : q = p
    · rw [same, update_self]
      exact here
    · rw [update_of_ne same]
      exact .inl rfl
  cases moved with
  | full | gaveUp => exact .inl rfl
  | @parented _ c => exact edit c _ rfl (.inl rfl)
  | @allocated _ c _ _ unused =>
    exact edit c _ rfl (by simp [Touched, unused, Label.lockless])
  | @aborted _ c _ forking | @published _ c _ forking =>
    have embryo := (family.forking _ _ _ forking).1
    exact edit c _ rfl (by simp [Touched, embryo, ProcState.present_iff])
  | @reaped _ c _ _ _ dead =>
    exact edit c _ rfl (by simp [Touched, dead, Label.lockless, Ptable.Reaped])
  | @slept p running | @rested p _ running | @yielded p running =>
    refine edit p _ rfl (.inr (.inl ⟨of_decide_eq_true own, by simp [Label.lockless], running, ?_⟩))
    simp [ProcState.present_iff]
  | killed => exact touched_of_woken (by simp [Label.lockless]) (m.table.state_kill _ q)
  | woke => exact touched_of_woken (by simp [Label.lockless]) ((m.table.proc q).state_wake _)
  | @exited p running _ other =>
    have exited := Ptable.exited_exit (Ne.symm other)
    by_cases same : q = p
    · subst same
      exact .inr (.inl ⟨of_decide_eq_true own, by simp [Label.lockless], running,
        .inr exited.dead⟩)
    · exact touched_of_woken (by simp [Label.lockless]) (exited.state q same)
  | scheduled => cases own

end Machine.Moved

namespace Cpus

section

variable {C : Type} {m m' : Cpus C} {c : C}

def Waits (q : Slot) (m : Cpus C) : Prop := (m.system.table.proc q).state = .runnable

instance (q : Slot) : DecidablePred (Waits q : Cpus C → Prop) :=
  fun _ => inferInstanceAs (Decidable (_ = _))

namespace Scheduled

theorem boot : Scheduled (Cpus.boot : Cpus C) where
  reached := ⟨[], rfl⟩
  cursor := fun _ _ runs => by cases runs
  passed := fun _ _ _ => Nat.le_refl nproc
  alone := fun _ _ _ runs => by cases runs
  running := by
    intro q running
    have none : ∀ q, ¬Machine.boot.Running q := by decide
    exact absurd running (none q)
  present := fun _ _ runs => by cases runs

theorem family (scheduled : Scheduled m) : Family m.system := by
  obtain ⟨labels, reached⟩ := scheduled.reached
  refine run_preserves Family ?_ .boot reached
  intro before label after family stepped
  exact family.moved (Machine.moved_of_step stepped)

theorem extend (scheduled : Scheduled m) {label : Label} {system : Machine}
    (stepped : m.system.step label = some system) :
    ∃ labels, run Machine.step .boot labels = some system := by
  obtain ⟨labels, reached⟩ := scheduled.reached
  refine ⟨labels ++ [label], ?_⟩
  rw [run_append, reached]
  simp [run, stepped]

theorem lock_performed (scheduled : Scheduled m) {label : Label} {system : Machine} {d : C}
    (touched : ∀ q, Touched label (m.cpu c).proc q (m.system.table.proc q).state
      (system.table.proc q).state)
    (held : m.lock = none ∨ label.lockless) (holds : m.lock = some d) : (m.performed c system).lock = some d := by
  unfold Cpus.performed
  by_cases same : d = c
  · subst same
    simp [holds]
  rw [if_pos ?_, holds]
  intro q runs
  have before : m.system.Running q :=
    (scheduled.present c q runs).resolve_right fun own =>
      same (Option.some.inj (holds.symm.trans own.1))
  grind [Touched, Machine.Running]

theorem performed (scheduled : Scheduled m) {label : Label} {system : Machine}
    (own : label.own (m.cpu c).proc) (held : m.lock = none ∨ label.lockless)
    (stepped : m.system.step label = some system) : Scheduled (m.performed c system) := by
  have touched := (Machine.moved_of_step stepped).touched scheduled.family own
  have kept {d : C} : m.lock = some d → _ := scheduled.lock_performed touched held
  refine ⟨scheduled.extend stepped, scheduled.cursor, ?_, scheduled.alone, ?_, ?_⟩
  · intro d idle free
    exact scheduled.passed d idle fun holds => free (kept holds)
  · intro q running
    rcases touched q with same | ⟨mine, -⟩ | ⟨-, other, -⟩
    · exact scheduled.running q (same.symm.trans running)
    · exact ⟨c, mine⟩
    · exact absurd running other
  · intro d q runs
    by_cases still : system.Running q
    · exact .inl still
    right
    rcases touched q with same | ⟨mine, _, _, present⟩ | ⟨stopped, _, locked⟩
    · have before := (scheduled.present d q runs).resolve_left
        fun running => still (same.trans running)
      exact ⟨kept before.1, by rw [Cpus.performed, same]; exact before.2⟩
    · cases scheduled.alone c d q mine runs
      refine ⟨if_neg fun all => still (all q mine), present⟩
    · have before := (scheduled.present d q runs).resolve_left stopped
      rcases held with free | lockless
      · cases free.symm.trans before.1
      · exact absurd before.2 (locked lockless)

end Scheduled

end

variable {C : Type} [DecidableEq C] {m m' : Cpus C} {c : C} {labels : List (C × Turn)}

namespace Scheduled

theorem examined (scheduled : Scheduled m) {p : Slot} (here : (m.cpu c).p = p)
    (idle : (m.cpu c).proc = none) (holds : m.lock = some c) : Scheduled (m.examine c p) := by
  have ⟨_, cursor, passed, alone, running, present⟩ := scheduled
  unfold examine
  split
  next =>
    constructor
    case running => exact fun q runs => (running q runs).imp fun d there => by grind
    all_goals grind
  next runnable =>
    have enabled : m.system.step (.schedule p) = some _ := if_pos (not_not.mp runnable)
    have reached := scheduled.extend enabled
    constructor
    case running =>
      intro q runs
      by_cases same : q = p
      · exact ⟨c, by grind⟩
      · obtain ⟨d, there⟩ := running q (by grind [Machine.Running, Ptable.resume, Ptable.proc_modify])
        exact ⟨d, by grind⟩
    all_goals grind [Machine.Running, Ptable.resume, Ptable.proc_modify]

theorem step (scheduled : Scheduled m) {label : C × Turn} (stepped : m.step label = some m') :
    Scheduled m' := by
  have ⟨_, cursor, passed, alone, running, present⟩ := scheduled
  obtain ⟨c, turn⟩ := label
  cases turn with
  | enter | swtch =>
    obtain ⟨enabled, rfl⟩ := of_guard stepped
    constructor
    case running => exact fun q runs => (running q runs).imp fun d there => by grind
    all_goals grind
  | leave | release =>
    obtain ⟨enabled, rfl⟩ := of_guard stepped
    constructor <;> grind
  | examine =>
    simp only [Cpus.step] at stepped
    split at stepped
    next inside =>
      obtain ⟨⟨holds, idle⟩, rfl⟩ := of_guard stepped
      exact scheduled.examined rfl idle holds
    next => cases stepped
  | perform label =>
    simp only [Cpus.step] at stepped
    split at stepped
    next enabled =>
      obtain ⟨system, moved, rfl⟩ := Option.map_eq_some_iff.mp stepped
      exact scheduled.performed enabled.1 enabled.2 moved
    next => cases stepped

theorem of_run (reached : run Cpus.step Cpus.boot labels = some m) : Scheduled m :=
  run_preserves Scheduled (fun _ _ _ scheduled stepped => scheduled.step stepped) boot reached

end Scheduled

/-- With any number of CPUs the processes go through the steps of `Machine`, no two CPUs are
on one stack, and no CPU is on a stack that `wait` may have freed. -/
theorem scheduler_keeps_stacks_apart (reached : run step boot labels = some m) :
    (∃ steps, run Machine.step .boot steps = some m.system) ∧
      (∀ c d q, (m.cpu c).proc = some q → (m.cpu d).proc = some q → c = d) ∧
      (∀ q, m.system.Running q → ∃ c, (m.cpu c).proc = some q) ∧
      ∀ c q, (m.cpu c).proc = some q →
        m.system.Running q ∨ m.lock = some c ∧ (m.system.table.proc q).state.Present := by
  have scheduled := Scheduled.of_run reached
  exact ⟨scheduled.reached, scheduled.alone, scheduled.running, scheduled.present⟩

/-- The entries that `scheduler` comes to before the one of `q`. -/
def before (q : Slot) (cpu : Cpu) : Nat :=
  let p := if cpu.proc = none then cpu.p else cpu.p + 1
  if p ≤ q then q - p else nproc - p + q

theorem before_lt (q : Slot) (cpu : Cpu) : before q cpu < nproc := by
  grind [before]

theorem ran_step (scheduled : Scheduled m) {label : C × Turn} {q : Slot}
    (stepped : m.step label = some m') (waits : Waits q m') (d : C) :
    (m'.cpu d).ran.length + before q (m'.cpu d) ≤ (m.cpu d).ran.length + before q (m.cpu d) := by
  obtain ⟨c, turn⟩ := label
  cases turn with
  | enter | swtch =>
    obtain ⟨enabled, rfl⟩ := of_guard stepped
    have passed := scheduled.passed c
    grind [before]
  | examine =>
    simp only [step] at stepped
    split at stepped
    next inside =>
      obtain ⟨⟨holds, idle⟩, rfl⟩ := of_guard stepped
      grind [before, examine, Waits, Ptable.resume, Ptable.proc_modify]
    next => cases stepped
  | leave | release =>
    obtain ⟨-, rfl⟩ := of_guard stepped
    exact Nat.le_refl _
  | perform label =>
    simp only [step] at stepped
    split at stepped
    next =>
      obtain ⟨system, -, rfl⟩ := Option.map_eq_some_iff.mp stepped
      exact Nat.le_refl _
    next => cases stepped

theorem stacks_apart_at_boot : ∃ m, run step boot [(true, .enter), (true, .examine)] = some m ∧
    (m.cpu true).proc = some 0 ∧ ∀ c, (m.cpu c).proc = some 0 → c = true := by
  have reached : run step boot [(true, .enter), (true, .examine)] = some _ := rfl
  refine ⟨_, reached, rfl, fun c there => ?_⟩
  exact (scheduler_keeps_stacks_apart reached).2.1 c true 0 there rfl

end Cpus

end StraceXv6.Kernel.Process
