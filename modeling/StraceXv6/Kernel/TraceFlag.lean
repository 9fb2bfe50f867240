import StraceXv6.Kernel.Syscall

namespace StraceXv6.Kernel

open Option Function Data

/-! Where the traced flag of a process comes from.  The flag is written by
`allocproc`, `fork` and `sys_strace`; beside each run we keep, for every process,
the flag of its parent at the fork and its own last argument to `strace`. -/

structure Provenance where
  inherited : Option Int32
  last : Option Int32

/-- A flag is as the process last set it, or else as the fork that created the
process left it; the first process has no parent. -/
structure Provenance.Explains (known : Provenance) (traced : Int32) : Prop where
  parity : traced = 0 ∨ Odd traced.toInt
  called : ∀ input, known.last = some input →
    traced = if Odd input.toInt then input else 0
  forked : known.last = none → ∀ parent, known.inherited = some parent →
    traced = if parent &&& traceFork ≠ 0 then parent else 0
  first : known.last = none → known.inherited = none → traced = 0

theorem and_one_ne_zero_iff_odd (input : Int32) :
    input &&& 1 ≠ 0 ↔ Odd input.toInt := by
  have masked : (input &&& 1).toBitVec.toNat = input.toBitVec.toNat % 2 := by
    rw [Int32.toBitVec_and, BitVec.toNat_and]
    exact Nat.and_one_is_mod _
  have zero : input &&& 1 = 0 ↔ input.toBitVec.toNat % 2 = 0 := by
    rw [← masked, ← Int32.toBitVec_inj]
    exact BitVec.toNat_inj.symm
  rw [Ne, zero, Int.odd_iff, ← Int32.toInt_toBitVec, BitVec.toInt_eq_toNat_cond]
  split <;> omega

theorem Provenance.explains_straced (inherited : Option Int32) (input : Int32) :
    Explains ⟨inherited, some input⟩ (if input &&& 1 ≠ 0 then input else 0) := by
  have flag : (if input &&& 1 ≠ 0 then input else 0) =
      if Odd input.toInt then input else 0 := by
    simp only [and_one_ne_zero_iff_odd]
  refine ⟨?_, ?_, fun uncalled => absurd uncalled (some_ne_none _),
    fun uncalled => absurd uncalled (some_ne_none _)⟩
  · rw [flag]
    split
    next odd => exact .inr odd
    next => exact .inl rfl
  · intro last same
    rw [← Option.some.inj same]
    exact flag

theorem Provenance.explains_forked {parent : Int32}
    (parity : parent = 0 ∨ Odd parent.toInt) :
    Explains ⟨some parent, none⟩ (if parent &&& traceFork ≠ 0 then parent else 0) := by
  refine ⟨?_, fun _ called => absurd called.symm (some_ne_none _), ?_,
    fun _ orphan => absurd orphan (some_ne_none _)⟩
  · split
    next => exact parity
    next => exact .inl rfl
  · intro _ source same
    rw [← Option.some.inj same]

section

variable {P : Type} [DecidableEq P]

namespace System

/-- What a step adds to the provenance of each process. -/
def track (s : System P) (known : P → Provenance) : Label P → P → Provenance
  | .finish p (.forked child) =>
    Function.update known child ⟨some (s.tasks p).proc.traced, none⟩
  | .finish p (.straced input) =>
    Function.update known p { known p with last := some input }
  | _ => known

def provenance (s : System P) (known : P → Provenance) : List (Label P) → P → Provenance
  | [] => known
  | label :: rest =>
    match step s label with
    | some next => provenance next (s.track known label) rest
    | none => known

omit [DecidableEq P] in
theorem untouched_traced : Untouched (P := P) fun t => t.proc.traced :=
  fun _ _ _ _ => rfl

/-- No process is created, and every live one keeps its flag. -/
def KeepsFlags (s t : System P) : Prop :=
  ∀ q, (t.tasks q).status ≠ .unused →
    (s.tasks q).status ≠ .unused ∧
      (t.tasks q).proc.traced = (s.tasks q).proc.traced

theorem keepsFlags_modify (s : System P) (p : P) {change : Task P → Task P}
    (revives : (change (s.tasks p)).status ≠ .unused →
      (s.tasks p).status ≠ .unused ∧
        (change (s.tasks p)).proc.traced = (s.tasks p).proc.traced) :
    s.KeepsFlags (s.modify p change) := by
  intro q live
  by_cases same : q = p
  · subst same
    simp only [modify, update_self] at live ⊢
    exact revives live
  · simp only [modify, update_of_ne same] at live ⊢
    exact ⟨live, trivial⟩

variable {s : System P}

theorem keepsFlags_allocproc {slot : P} (unused : (s.tasks slot).status = .unused) :
    s.KeepsFlags (s.allocproc slot) := by
  change s.KeepsFlags (s.modify slot fun t =>
    { t with proc := { t.proc with traced := 0, pid := s.nextpid } })
  apply keepsFlags_modify
  exact fun live => absurd unused live

theorem keepsFlags_exit {p : P} (alive : (s.tasks p).status = .alive) :
    s.KeepsFlags (s.exit p) := by
  intro q live
  refine ⟨?_, rfl⟩
  by_cases same : q = p
  · rw [same, alive]
    exact Status.noConfusion
  · simpa [exit, same] using live

end System

/-- What a handler does to the flags, by what it is reported to have done. -/
inductive FlagHandled (s : System P) (p : P) : Outcome P → System P → Prop where
  | forked {child} : (s.tasks child).status = .unused →
      FlagHandled s p (.forked child) (s.fork p child)
  | straced {input} :
      FlagHandled s p (.straced input) (s.modify p fun t =>
        { t with proc := { t.proc with
            traced := if input &&& 1 ≠ 0 then input else 0 } })
  | kept {outcome t} : (∀ known, s.track known (.finish p outcome) = known) →
      s.KeepsFlags t → FlagHandled s p outcome t

theorem flagHandled_of_handle {s t : System P} {p : P} {sys : Sys}
    {outcome : Outcome P} {result : UInt32}
    (handled : handle s p sys outcome = some (t, result)) :
    FlagHandled s p outcome t := by
  unfold handle at handled
  split at handled
  · split at handled
    next =>
      cases handled
      exact .kept (fun _ => rfl) fun _ live => ⟨live, rfl⟩
    next => contradiction
  · split at handled
    next unused =>
      cases handled
      exact .forked unused
    next => contradiction
  · cases handled
    exact .kept (fun _ => rfl) fun _ live => ⟨live, rfl⟩
  · split at handled
    next unused =>
      cases handled
      exact .kept (fun _ => rfl) (System.keepsFlags_allocproc unused)
    next => contradiction
  · cases handled
    refine .kept (fun _ => rfl) ?_
    apply System.keepsFlags_modify
    exact fun live => ⟨live, rfl⟩
  · cases handled
    exact .straced
  · cases handled
    exact .kept (fun _ => rfl) fun _ live => ⟨live, rfl⟩
  · cases handled
    exact .kept (fun _ => rfl) fun _ live => ⟨live, rfl⟩
  · split at handled
    next =>
      cases handled
      refine .kept (fun _ => rfl) ?_
      apply System.keepsFlags_modify
      exact fun live => absurd rfl live
    next => contradiction
  · contradiction

namespace System

/-- The flag of every live process is explained by its provenance. -/
def Explained (s : System P) (known : P → Provenance) : Prop :=
  ∀ p, (s.tasks p).status ≠ .unused →
    (known p).Explains (s.tasks p).proc.traced

variable {known : P → Provenance} {s t : System P}

omit [DecidableEq P] in
theorem Explained.keepsFlags (explained : s.Explained known) (kept : s.KeepsFlags t) :
    t.Explained known := by
  intro p live
  obtain ⟨before, same⟩ := kept p live
  rw [same]
  exact explained p before

theorem Explained.flagHandled {p : P} {outcome : Outcome P} (explained : s.Explained known)
    (alive : (s.tasks p).status = .alive) (handled : FlagHandled s p outcome t) :
    t.Explained (s.track known (.finish p outcome)) := by
  cases handled with
  | @forked child unused =>
    intro q live
    by_cases same : q = child
    · subst same
      have running : (s.tasks p).status ≠ .unused := by
        rw [alive]
        exact Status.noConfusion
      simp only [track, fork, modify, update_self]
      exact Provenance.explains_forked (explained p running).parity
    · simp only [track, fork, allocproc, modify, update_of_ne same] at live ⊢
      exact explained q live
  | @straced input =>
    intro q live
    by_cases same : q = p
    · subst same
      simp only [track, modify, update_self]
      exact Provenance.explains_straced _ input
    · simp only [track, modify, update_of_ne same] at live ⊢
      exact explained q live
  | kept untracked flags =>
    rw [untracked]
    exact explained.keepsFlags flags

theorem keepsFlags_leave (s : System P) (p : P) (sys : Sys) (traced : Int32)
    (result : UInt32) : s.KeepsFlags (s.leave p sys traced result) := by
  intro q live
  rw [field_leave untouched_status] at live
  exact ⟨live, field_leave untouched_traced s p q sys traced result⟩

theorem Explained.step {label : Label P} (explained : s.Explained known)
    (stepped : step s label = some t) : t.Explained (s.track known label) := by
  cases label with
  | trap p eax =>
    simp only [System.step] at stepped
    split at stepped
    next =>
      cases stepped
      apply explained.keepsFlags
      intro q live
      rw [field_enter untouched_status] at live
      exact ⟨live, field_enter untouched_traced s p q eax⟩
    next => contradiction
  | finish p outcome =>
    simp only [System.step] at stepped
    split at stepped
    next alive _ =>
      split at stepped
      next =>
        split at stepped
        next => contradiction
        next =>
          cases stepped
          exact explained.keepsFlags (keepsFlags_exit alive)
      next => contradiction
    next sys traced _ alive _ =>
      obtain ⟨⟨middle, result⟩, handled, finished⟩ := map_eq_some_iff.mp stepped
      subst finished
      exact (explained.flagHandled alive (flagHandled_of_handle handled)).keepsFlags
        (keepsFlags_leave middle p sys traced result)
    next => contradiction
  | killed p =>
    simp only [System.step] at stepped
    split at stepped
    next alive _ =>
      split at stepped
      next => contradiction
      next =>
        cases stepped
        exact explained.keepsFlags (keepsFlags_exit alive)
    next => contradiction

theorem explained_boot (initproc : P) :
    (boot initproc).Explained fun _ => ⟨none, none⟩ := by
  intro p live
  by_cases same : p = initproc
  · subst same
    simp only [boot, update_self]
    exact ⟨.inl rfl, fun _ called => absurd called.symm (some_ne_none _),
      fun _ _ forked => absurd forked.symm (some_ne_none _), fun _ _ => rfl⟩
  · simp [boot, update_of_ne same] at live

end System

inductive Task.Agree (t : Task P) : Task P → Prop where
  | same : Agree t t
  | vacant (traced : Int32) : t.status = .unused →
      Agree t { t with proc := { t.proc with traced := traced } }

structure System.Agree (s t : System P) : Prop where
  tasks : ∀ p, (s.tasks p).Agree (t.tasks p)
  nextpid : t.nextpid = s.nextpid
  initproc : t.initproc = s.initproc
  trace : t.trace = s.trace
  log : t.log = s.log

namespace Task.Agree

variable {t u : Task P}

omit [DecidableEq P] in
theorem live (agree : t.Agree u) (live : t.status ≠ .unused) : u = t := by
  cases agree with
  | same => rfl
  | vacant _ unused => exact absurd unused live

omit [DecidableEq P] in
theorem status (agree : t.Agree u) : u.status = t.status := by
  cases agree with
  | same | vacant => rfl

omit [DecidableEq P] in
theorem parent (agree : t.Agree u) : u.parent = t.parent := by
  cases agree with
  | same | vacant => rfl

omit [DecidableEq P] in
theorem map (agree : t.Agree u) (change : Task P → Task P)
    (vacant : ∀ traced, t.status = .unused →
      (change t).Agree (change { t with proc := { t.proc with traced := traced } })) :
    (change t).Agree (change u) := by
  cases agree with
  | same => exact .same
  | vacant traced unused => exact vacant traced unused

end Task.Agree

namespace System.Agree

variable {s t after : System P} {p : P}

omit [DecidableEq P] in
theorem alive (agree : s.Agree t) (alive : (s.tasks p).status = .alive) :
    t.tasks p = s.tasks p := by
  apply (agree.tasks p).live
  rw [alive]
  exact Status.noConfusion

theorem modify (agree : s.Agree t) (p : P) {change : Task P → Task P}
    (vacant : ∀ traced, (s.tasks p).status = .unused → (change (s.tasks p)).Agree
      (change { s.tasks p with proc := { (s.tasks p).proc with traced := traced } })) :
    (s.modify p change).Agree (t.modify p change) := by
  refine ⟨?_, agree.nextpid, agree.initproc, agree.trace, agree.log⟩
  intro q
  by_cases here : q = p
  · subst here
    simpa only [System.modify, update_self] using
      (agree.tasks q).map change vacant
  · simpa only [System.modify, update_of_ne here] using agree.tasks q

theorem modify_alive (agree : s.Agree t) (alive : (s.tasks p).status = .alive)
    (change : Task P → Task P) : (s.modify p change).Agree (t.modify p change) := by
  apply agree.modify
  intro _ unused
  rw [alive] at unused
  contradiction

omit [DecidableEq P] in
theorem record (agree : s.Agree t) (alive : (s.tasks p).status = .alive) (sys : Sys) :
    (s.record p sys).Agree (t.record p sys) := by
  have same := agree.alive alive
  refine ⟨agree.tasks, agree.nextpid, agree.initproc, ?_, ?_⟩
  · simp only [System.record, same, agree.trace]
  · simp only [System.record, same, agree.log]

omit [DecidableEq P] in
theorem recordExit (agree : s.Agree t) (alive : (s.tasks p).status = .alive) :
    (s.recordExit p).Agree (t.recordExit p) := by
  unfold System.recordExit
  rw [agree.alive alive]
  split
  next => exact agree.record alive .exit
  next => exact agree

omit [DecidableEq P] in
theorem unknownCall (agree : s.Agree t) (alive : (s.tasks p).status = .alive) (number : Int32) :
    (s.unknownCall p number).Agree (t.unknownCall p number) := by
  refine ⟨agree.tasks, agree.nextpid, agree.initproc, ?_, agree.log⟩
  simp only [System.unknownCall, agree.alive alive, agree.trace]

theorem enter (agree : s.Agree t) (alive : (s.tasks p).status = .alive) (eax : UInt32) :
    (s.enter p eax).Agree (t.enter p eax) := by
  have loaded : ((s.setEax p eax).tasks p).status = .alive := by
    simp [System.setEax, System.modify, alive]
  have recorded := (agree.modify_alive alive _ : (s.setEax p eax).Agree _).recordExit loaded
  have running : (((s.setEax p eax).recordExit p).tasks p).status = .alive := by
    unfold System.recordExit
    split <;> exact loaded
  simp only [System.enter, agree.alive alive]
  split
  next => exact recorded.modify_alive running _
  next => exact (recorded.unknownCall running _).modify_alive running _

theorem leave (agree : s.Agree t) (alive : (s.tasks p).status = .alive) (sys : Sys)
    (traced : Int32) (result : UInt32) :
    (s.leave p sys traced result).Agree (t.leave p sys traced result) := by
  simp only [System.leave]
  split
  next =>
    apply (agree.modify_alive alive _).record
    simp [System.modify, alive]
  next => exact agree.modify_alive alive _

theorem allocproc (agree : s.Agree t) (slot : P) :
    (s.allocproc slot).Agree (t.allocproc slot) := by
  have modified : (s.modify slot fun task => { task with
      proc := { task.proc with traced := 0, pid := s.nextpid } }).Agree _ :=
    agree.modify slot fun _ _ => .same
  refine ⟨?_, congrArg (· + 1) agree.nextpid, agree.initproc, agree.trace, agree.log⟩
  simp only [System.allocproc, agree.nextpid]
  exact modified.tasks

theorem fork (agree : s.Agree t) (alive : (s.tasks p).status = .alive) (child : P) :
    (s.fork p child).Agree (t.fork p child) := by
  have born : (t.allocproc child).log.length = (s.allocproc child).log.length :=
    congrArg List.length agree.log
  simp only [System.fork, agree.alive alive, born]
  exact (agree.allocproc child).modify child fun _ _ => .same

theorem exit (agree : s.Agree t) (alive : (s.tasks p).status = .alive) :
    (s.exit p).Agree (t.exit p) := by
  refine ⟨?_, agree.nextpid, agree.initproc, agree.trace, agree.log⟩
  intro q
  simp only [System.exit, agree.initproc]
  refine (agree.tasks q).map (fun task => { task with
    status := if q = p then .zombie else task.status
    parent := if task.parent = some p then some s.initproc else task.parent }) ?_
  intro traced unused
  apply Task.Agree.vacant
  have other : q ≠ p := by
    intro same
    rw [same, alive] at unused
    contradiction
  rw [← unused]
  exact if_neg other

omit [DecidableEq P] in
theorem plainResult (agree : s.Agree t) (alive : (s.tasks p).status = .alive) (result : UInt32)
    (sys : Sys) : Kernel.plainResult t p result sys ↔ Kernel.plainResult s p result sys := by
  cases sys <;> simp only [Kernel.plainResult, agree.alive alive, agree.trace]

theorem handle {sys : Sys} {outcome : Outcome P} {result : UInt32} (agree : s.Agree t)
    (alive : (s.tasks p).status = .alive)
    (handled : Kernel.handle s p sys outcome = some (after, result)) :
    (after.tasks p).status = .alive ∧
      ∃ after', Kernel.handle t p sys outcome = some (after', result) ∧
        after.Agree after' := by
  have running : ∀ {q status}, (s.tasks q).status = status → status ≠ .alive → p ≠ q := by
    intro q status found different same
    rw [← same, alive] at found
    exact different found.symm
  unfold Kernel.handle at handled
  split at handled
  · split at handled
    next plain =>
      cases handled
      refine ⟨alive, t, ?_, agree⟩
      rw [Kernel.handle, if_pos ((agree.plainResult alive result sys).mpr plain)]
    next => contradiction
  · split at handled
    next child unused =>
      cases handled
      refine ⟨?_, t.fork p child, ?_, agree.fork alive child⟩
      · simpa [System.fork, System.allocproc, System.modify,
          update_of_ne (running unused Status.noConfusion)] using alive
      · rw [Kernel.handle, if_pos ((agree.tasks child).status.trans unused), agree.nextpid]
    next => contradiction
  · cases handled
    exact ⟨alive, t, rfl, agree⟩
  · split at handled
    next slot unused =>
      cases handled
      refine ⟨?_, t.allocproc slot, ?_, agree.allocproc slot⟩
      · simpa [System.allocproc, System.modify,
          update_of_ne (running unused Status.noConfusion)] using alive
      · rw [Kernel.handle, if_pos ((agree.tasks slot).status.trans unused)]
    next => contradiction
  · cases handled
    exact ⟨by simpa [System.modify] using alive, _, rfl, agree.modify_alive alive _⟩
  · cases handled
    exact ⟨by simpa [System.modify] using alive, _, rfl, agree.modify_alive alive _⟩
  · cases handled
    refine ⟨alive, _, rfl, agree.tasks, agree.nextpid, agree.initproc, ?_, agree.log⟩
    simp only [agree.trace]
  · cases handled
    refine ⟨alive, _, rfl, agree.tasks, agree.nextpid, agree.initproc, ?_, agree.log⟩
    simp only [agree.trace]
  · split at handled
    next child zombie =>
      cases handled
      have used : (s.tasks child).status ≠ .unused := by
        rw [zombie.1]
        exact Status.noConfusion
      have same : t.tasks child = s.tasks child := (agree.tasks child).live used
      refine ⟨?_, t.reap child, ?_, agree.modify child fun _ unused => absurd unused used⟩
      · simpa [System.reap, System.modify,
          update_of_ne (running zombie.1 Status.noConfusion)] using alive
      · rw [Kernel.handle, same, if_pos zombie]
    next => contradiction
  · contradiction

theorem step {label : Label P} (agree : s.Agree t) (stepped : System.step s label = some after) :
    ∃ after', System.step t label = some after' ∧ after.Agree after' := by
  cases label with
  | trap p eax =>
    simp only [System.step] at stepped ⊢
    split at stepped
    next alive phase =>
      cases stepped
      refine ⟨t.enter p eax, ?_, agree.enter alive eax⟩
      simp only [agree.alive alive, alive, phase]
    next => contradiction
  | finish p outcome =>
    simp only [System.step] at stepped ⊢
    split at stepped
    next alive phase =>
      split at stepped
      next =>
        split at stepped
        next => contradiction
        next other =>
          cases stepped
          refine ⟨t.exit p, ?_, agree.exit alive⟩
          simp only [agree.alive alive, alive, phase, agree.initproc, if_neg other]
      next => contradiction
    next sys traced returns alive phase =>
      obtain ⟨⟨middle, result⟩, handled, finished⟩ := map_eq_some_iff.mp stepped
      obtain ⟨running, middle', handled', agrees⟩ := agree.handle alive handled
      subst finished
      refine ⟨middle'.leave p sys traced result, ?_,
        agrees.leave running sys traced result⟩
      simp only [agree.alive alive, alive, phase, handled', map_some]
    next => contradiction
  | killed p =>
    simp only [System.step] at stepped ⊢
    split at stepped
    next alive phase =>
      split at stepped
      next => contradiction
      next other =>
        cases stepped
        refine ⟨t.exit p, ?_, agree.exit alive⟩
        simp only [agree.alive alive, alive, phase, agree.initproc, if_neg other]
    next => contradiction

theorem run {labels : List (Label P)} (agree : s.Agree t)
    (ran : Data.run System.step s labels = some after) :
    ∃ after', Data.run System.step t labels = some after' ∧ after.Agree after' := by
  induction labels generalizing s t with
  | nil =>
    cases ran
    exact ⟨t, rfl, agree⟩
  | cons label rest induction =>
    obtain ⟨next, stepped, remaining⟩ := run_cons_eq_some.mp ran
    obtain ⟨next', stepped', agrees⟩ := agree.step stepped
    obtain ⟨after', remaining', agreesAfter⟩ := induction agrees remaining
    exact ⟨after', run_cons_eq_some.mpr ⟨next', stepped', remaining'⟩, agreesAfter⟩

end System.Agree

namespace System

theorem Explained.run {s t : System P} {known : P → Provenance}
    {labels : List (Label P)} (explained : s.Explained known)
    (ran : Data.run System.step s labels = some t) : t.Explained (provenance s known labels) := by
  induction labels generalizing s known with
  | nil =>
    cases ran
    exact explained
  | cons label rest induction =>
    obtain ⟨next, stepped, remaining⟩ := run_cons_eq_some.mp ran
    simp only [provenance, stepped]
    exact induction (explained.step stepped) remaining

/-- Over every run, the flag of each live process is the one its own last `strace`
set, or else the one inherited at its fork; and what unused slots hold never
shows in the flag of a live process. -/
theorem traced_flag_of_provenance (initproc : P) (labels : List (Label P))
    (s : System P) (reached : run step (boot initproc) labels = some s) :
    (∀ p, (s.tasks p).status ≠ .unused →
      (provenance (boot initproc) (fun _ => ⟨none, none⟩) labels p).Explains
        (s.tasks p).proc.traced) ∧
      ∀ t, s.Agree t → ∀ later s', run step s later = some s' →
        ∃ t', run step t later = some t' ∧
          ∀ p, (s'.tasks p).status ≠ .unused →
            (t'.tasks p).proc.traced = (s'.tasks p).proc.traced := by
  constructor
  · exact (explained_boot initproc).run reached
  · intro t agree later s' ran
    obtain ⟨t', ran', agrees⟩ := agree.run ran
    refine ⟨t', ran', ?_⟩
    intro p live
    rw [(agrees.tasks p).live live]

end System

end

def reusedSlot (parent child : P) : List (System.Label P) :=
  [.trap parent 22, .finish parent (.straced 3), .trap parent 1,
    .finish parent (.forked child), .trap child 2, .finish child .exited,
    .trap parent 3, .finish parent (.waited child), .trap parent 22,
    .finish parent (.straced 5), .trap parent 1, .finish parent (.forked child)]

theorem reusedSlot_untraced :
    ∃ s, run System.step (.boot 0) (reusedSlot (0 : Fin 2) 1) = some s ∧
      (s.tasks 0).proc.traced = 5 ∧ (s.tasks 1).proc.traced = 0 := by
  have finished : ((run System.step (.boot 0) (reusedSlot (0 : Fin 2) 1)).map fun s =>
      ((s.tasks 0).status, (s.tasks 1).status)) = some (.alive, .alive) := by decide
  obtain ⟨s, reached, live⟩ := map_eq_some_iff.mp finished
  obtain ⟨first, second⟩ := Prod.mk.inj live
  have flags := (System.traced_flag_of_provenance 0 (reusedSlot 0 1) s reached).1
  refine ⟨s, reached, ?_, ?_⟩
  · refine ((flags 0 ?_).called 5 (by decide)).trans (if_pos (by decide))
    rw [first]
    exact Status.noConfusion
  · refine ((flags 1 ?_).forked (by decide) 5 (by decide)).trans (by decide)
    rw [second]
    exact Status.noConfusion

end StraceXv6.Kernel
