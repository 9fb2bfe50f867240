import Mathlib.Data.Fintype.Basic
import StraceXv6.Kernel.Pipes.Stream

namespace StraceXv6.Kernel.Pipes

open List Function Data

/-! Who sleeps on a pipe, and when its page is freed. -/

namespace Pipe

variable {pipe : Pipe}

theorem fill_of_full (full : pipe.full = true) (bytes : List UInt8) :
    (pipe.fill bytes).1 = pipe := by
  cases bytes with
  | nil => rfl
  | cons byte rest => rw [fill, if_pos full]

theorem copy_of_empty (empty : pipe.empty = true) (n : Nat) : (pipe.copy n).1 = pipe := by
  cases n with
  | zero => rfl
  | succ n => rw [copy, if_pos empty]

def opened (pipe : Pipe) (writable : Bool) : Bool :=
  if writable then pipe.writeopen else pipe.readopen

theorem opened_close (pipe : Pipe) (writable other : Bool) :
    (pipe.close writable).opened other = (pipe.opened other && other != writable) := by
  cases writable <;> cases other <;> simp [close, opened]

theorem opened_fill (pipe : Pipe) (bytes : List UInt8) :
    (pipe.fill bytes).1.opened = pipe.opened := by
  funext writable
  obtain ⟨_, readopen, writeopen⟩ := pipe.ends_fill bytes
  rw [opened, opened, readopen, writeopen]

theorem opened_copy (pipe : Pipe) (n : Nat) : (pipe.copy n).1.opened = pipe.opened := by
  funext writable
  obtain ⟨_, readopen, writeopen⟩ := pipe.ends_copy n
  rw [opened, opened, readopen, writeopen]

end Pipe

namespace State

variable {P : Type} {s s' : State P}

/-- A process in a call has the descriptor that it uses. -/
def Uses (refs : List (P × Bool)) (p : P) : Phase → Prop
  | .idle => True
  | .writing .. => (p, true) ∈ refs
  | .reading .. => (p, false) ∈ refs

structure Open (s : State P) : Prop where
  uses : ∀ p, Uses s.refs p (s.doing p)
  opened : ∀ writable, s.pipe.opened writable = true ↔ ∃ q, (q, writable) ∈ s.refs
  freed : s.freed = if s.pipe.opened false || s.pipe.opened true then 0 else 1

namespace Open

theorem keep (opens : Open s) (refs : s'.refs = s.refs) (opened : s'.pipe.opened = s.pipe.opened)
    (freed : s'.freed = s.freed) (uses : ∀ p, Uses s.refs p (s'.doing p)) : Open s' := by
  refine ⟨?_, ?_, ?_⟩
  · rw [refs]
    exact uses
  · rw [opened, refs]
    exact opens.opened
  · rw [freed, opened]
    exact opens.freed

variable {q p : P} {writable : Bool}

theorem not_freed (opens : Open s) (member : (q, writable) ∈ s.refs) : s.freed = 0 := by
  have opened := (opens.opened writable).mpr ⟨q, member⟩
  rw [opens.freed]
  cases writable with
  | false => rw [opened, Bool.true_or, if_pos rfl]
  | true => rw [opened, Bool.or_true, if_pos rfl]

theorem uses_cons (opens : Open s) (ref : P × Bool) (q : P) :
    Uses (ref :: s.refs) q (s.doing q) := by
  have before := opens.uses q
  cases doing : s.doing q with
  | idle => trivial
  | writing | reading =>
    rw [doing] at before
    exact mem_cons_of_mem ref before

theorem duplicated (opens : Open s) (has : s.Has p writable) :
    Open { s with refs := (q, writable) :: s.refs } := by
  refine ⟨opens.uses_cons (q, writable), ?_, opens.freed⟩
  intro w
  refine (opens.opened w).trans ⟨fun ⟨r, member⟩ => ⟨r, mem_cons_of_mem _ member⟩, ?_⟩
  rintro ⟨r, member⟩
  cases mem_cons.mp member with
  | inl new => exact ⟨p, (Prod.mk.inj new).2 ▸ has.2⟩
  | inr before => exact ⟨r, before⟩

variable [DecidableEq P]

theorem uses_update (opens : Open s) {phase : Phase} (mine : Uses s.refs p phase) (q : P) :
    Uses s.refs q (update s.doing p phase q) := by
  by_cases here : q = p
  · rw [here, update_self]
    exact mine
  · rw [update_of_ne here]
    exact opens.uses q

theorem uses_erase (opens : Open s) (idle : s.phase p = .idle) (q : P) :
    Uses (s.refs.erase (p, writable)) q (s.doing q) := by
  have before := opens.uses q
  by_cases here : q = p
  · rw [here, doing_of_phase idle]
    trivial
  · have kept : ∀ w, (q, w) ∈ s.refs → (q, w) ∈ s.refs.erase (p, writable) := fun w =>
      (mem_erase_of_ne fun equal => here (Prod.mk.inj equal).1).mpr
    cases doing : s.doing q with
    | idle => trivial
    | writing =>
      rw [doing] at before
      exact kept true before
    | reading =>
      rw [doing] at before
      exact kept false before

theorem dropped (opens : Open s) (has : s.Has p writable)
    (other : ∃ q, (q, writable) ∈ s.refs.erase (p, writable)) :
    Open { s with refs := s.refs.erase (p, writable) } := by
  refine ⟨opens.uses_erase has.1, ?_, opens.freed⟩
  intro w
  refine (opens.opened w).trans ⟨?_, fun ⟨r, member⟩ => ⟨r, mem_of_mem_erase member⟩⟩
  rintro ⟨r, member⟩
  by_cases same : w = writable
  · exact same ▸ other
  · exact ⟨r, (mem_erase_of_ne fun equal => same (Prod.mk.inj equal).2).mpr member⟩

theorem opened_closed (opens : Open s) (last : ∀ q, (q, writable) ∉ s.refs.erase (p, writable))
    (w : Bool) :
    (s.pipe.close writable).opened w = true ↔ ∃ q, (q, w) ∈ s.refs.erase (p, writable) := by
  rw [Pipe.opened_close, Bool.and_eq_true, opens.opened]
  by_cases same : w = writable
  · rw [same]
    simp [last]
  · have kept : ∀ q, (q, w) ∈ s.refs.erase (p, writable) ↔ (q, w) ∈ s.refs := fun q =>
      mem_erase_of_ne fun equal => same (Prod.mk.inj equal).2
    simp [kept, same]

theorem closed (opens : Open s) (has : s.Has p writable)
    (last : ∀ q, (q, writable) ∉ s.refs.erase (p, writable)) :
    Open ({ s with refs := s.refs.erase (p, writable) }.pipeclose writable) := by
  have uses : ∀ q, Uses (s.refs.erase (p, writable)) q
      (((s.setPipe (s.pipe.close writable)).wakeup writable).doing q) := by
    rw [doing_wakeup]
    exact opens.uses_erase has.1
  have unfreed : s.freed = 0 := opens.not_freed has.2
  unfold State.pipeclose
  dsimp only
  split
  next both =>
    refine ⟨uses, opens.opened_closed last, ?_⟩
    change s.freed + 1 =
      if (s.pipe.close writable).readopen || (s.pipe.close writable).writeopen then 0 else 1
    rw [Bool.and_eq_true, Bool.not_eq_true', Bool.not_eq_true'] at both
    rw [unfreed, both.1, both.2]
    rfl
  next either =>
    refine ⟨uses, opens.opened_closed last, ?_⟩
    change s.freed =
      if (s.pipe.close writable).readopen || (s.pipe.close writable).writeopen then 0 else 1
    rw [unfreed, if_pos]
    rw [Bool.and_eq_true, Bool.not_eq_true', Bool.not_eq_true'] at either
    rw [Bool.or_eq_true]
    by_contra neither
    rw [not_or, Bool.not_eq_true, Bool.not_eq_true] at neither
    exact either neither

theorem moved (opens : Open s) {label : Label P} (moved : Moved s label s') : Open s' := by
  cases moved with
  | @called p _ phase idle begins =>
    refine opens.keep rfl rfl rfl ?_
    change ∀ q, Uses s.refs q ((s.setPhase p phase).doing q)
    rw [doing_setPhase]
    refine opens.uses_update ?_
    cases begins with
    | inl writes =>
      obtain ⟨member, n, bytes, rfl, _⟩ := writes
      exact member
    | inr reads =>
      obtain ⟨member, n, rfl⟩ := reads
      exact member
  | @wrote p call n bytes rest phase done =>
    refine opens.keep rfl (s.pipe.opened_fill rest) rfl ?_
    rw [doing_wakeup]
    change ∀ q, Uses s.refs q (State.doing (setPhase _ p .idle) q)
    rw [doing_setPhase]
    exact opens.uses_update trivial
  | @refused p call n bytes rest phase left _ =>
    refine opens.keep rfl (s.pipe.opened_fill rest) rfl ?_
    change ∀ q, Uses s.refs q (State.doing (setPhase _ p .idle) q)
    rw [doing_setPhase]
    exact opens.uses_update trivial
  | @filled p call n bytes rest phase left _ =>
    refine opens.keep rfl (s.pipe.opened_fill rest) rfl ?_
    rw [doing_wakeup, doing_setPhase]
    refine opens.uses_update ?_
    have before := opens.uses p
    rw [doing_of_phase phase] at before
    exact before
  | @interrupted p call n phase =>
    refine opens.keep rfl rfl rfl ?_
    change ∀ q, Uses s.refs q ((s.setPhase p .idle).doing q)
    rw [doing_setPhase]
    exact opens.uses_update trivial
  | @waited p call n phase =>
    refine opens.keep rfl rfl rfl ?_
    rw [doing_setPhase]
    refine opens.uses_update ?_
    have before := opens.uses p
    rw [doing_of_phase phase] at before
    exact before
  | @copied p call n phase =>
    refine opens.keep rfl (s.pipe.opened_copy n.toInt.toNat) rfl ?_
    rw [doing_wakeup]
    change ∀ q, Uses s.refs q (State.doing (setPhase _ p .idle) q)
    rw [doing_setPhase]
    exact opens.uses_update trivial
  | @killed p =>
    refine opens.keep rfl rfl rfl ?_
    change ∀ q, Uses s.refs q ((s.setPhase p (s.phase p).rouse).doing q)
    rw [doing_setPhase, Phase.rouse_rouse]
    exact opens.uses_update (opens.uses p)
  | duplicated has => exact opens.duplicated has
  | dropped has other => exact opens.dropped has other
  | closed has last => exact opens.closed has last

end Open

def Rests (asleep : Phase → Bool) (reason : Pipe → Prop) (s : State P) : Prop :=
  ∀ p, asleep (s.phase p) = true → reason s.pipe

namespace Rests

variable {asleep : Phase → Bool} {reason : Pipe → Prop}

theorem of_awake (awake : ∀ p, asleep (s.phase p) = false) : Rests asleep reason s :=
  fun p sleeps => absurd (sleeps.symm.trans (awake p)) (by simp)

theorem update [DecidableEq P] (rests : Rests asleep reason s) (p : P) (phase : Phase)
    (phases : ∀ q, asleep (s'.phase q) = asleep (update s.phase p phase q))
    (others : reason s.pipe → reason s'.pipe) (mine : asleep phase = true → reason s'.pipe) :
    Rests asleep reason s' := by
  intro q sleeps
  rw [phases] at sleeps
  by_cases here : q = p
  · rw [here, update_self] at sleeps
    exact mine sleeps
  · rw [update_of_ne here] at sleeps
    exact others (rests q sleeps)

end Rests

theorem phase_pipeclose (s : State P) (writable : Bool) :
    (s.pipeclose writable).phase = fun p => (s.phase p).wake writable := by
  unfold State.pipeclose
  dsimp only
  split <;> rfl

theorem pipe_pipeclose (s : State P) (writable : Bool) :
    (s.pipeclose writable).pipe = s.pipe.close writable := by
  unfold State.pipeclose
  dsimp only
  split <;> rfl

end State

namespace Phase

@[simp] theorem writerAsleep_wake (phase : Phase) (writable : Bool) :
    (phase.wake writable).writerAsleep = (phase.writerAsleep && writable) := by
  cases phase <;> cases writable <;> simp [wake, wakeReader, wakeWriter, writerAsleep]

@[simp] theorem readerAsleep_wake (phase : Phase) (writable : Bool) :
    (phase.wake writable).readerAsleep = (phase.readerAsleep && !writable) := by
  cases phase <;> cases writable <;> simp [wake, wakeReader, wakeWriter, readerAsleep]

@[simp] theorem writerAsleep_rouse (phase : Phase) : phase.rouse.writerAsleep = false := by
  cases phase <;> rfl

@[simp] theorem readerAsleep_rouse (phase : Phase) : phase.rouse.readerAsleep = false := by
  cases phase <;> rfl

end Phase

def Pipe.Blocks (pipe : Pipe) : Prop := pipe.full = true ∧ pipe.readopen = true

def Pipe.Starves (pipe : Pipe) : Prop := pipe.empty = true ∧ pipe.writeopen = true

namespace State

variable {P : Type} [DecidableEq P] {s s' : State P} {label : Label P} {bytes : List UInt8}
  {q p : P} {data : Fin pipesize → UInt8} {labels : List (Label P)}

theorem blocked_moved (rests : Rests Phase.writerAsleep Pipe.Blocks s) (moved : Moved s label s') :
    Rests Phase.writerAsleep Pipe.Blocks s' := by
  have fill : ∀ rest, s.pipe.Blocks → (s.pipe.fill rest).1.Blocks := by
    intro rest blocks
    rw [Pipe.fill_of_full blocks.1]
    exact blocks
  cases moved with
  | called _ begins =>
    refine rests.update _ _ (fun _ => rfl) id ?_
    cases begins with
    | inl writes =>
      obtain ⟨_, n, bytes, rfl, _⟩ := writes
      exact fun asleep => absurd asleep (by simp [Phase.writerAsleep])
    | inr reads =>
      obtain ⟨_, n, rfl⟩ := reads
      exact fun asleep => absurd asleep (by simp [Phase.writerAsleep])
  | @wrote p call n bytes rest phase done =>
    refine rests.update p .idle ?_ (fill rest) (by simp [Phase.writerAsleep])
    intro q
    simp [wakeup, finish, setPhase, accept, setPipe]
  | @refused p call n bytes rest phase left _ =>
    exact rests.update _ _ (fun _ => rfl) (fill rest) (by simp [Phase.writerAsleep])
  | @filled p call n bytes rest phase left opened =>
    refine rests.update p (.writing call n bytes (s.pipe.fill rest).2.2 true) ?_
      (fill rest) fun _ => ⟨s.pipe.full_fill rest left, opened⟩
    intro q
    simp [wakeup, setPhase, accept, setPipe]
  | interrupted | waited => exact rests.update _ _ (fun _ => rfl) id (by simp [Phase.writerAsleep])
  | copied =>
    refine Rests.of_awake fun p => ?_
    simp [wakeup]
  | killed => exact rests.update _ _ (fun _ => rfl) id (by simp)
  | duplicated | dropped => exact rests
  | @closed p writable _ _ =>
    intro q asleep
    rw [phase_pipeclose] at asleep
    rw [pipe_pipeclose]
    cases writable with
    | false => simp at asleep
    | true => exact rests q (by simpa using asleep)

def room (s : State P) : Nat := pipesize - (s.pipe.nwrite - s.pipe.nread).toNat

/-- While a reader sleeps, a writer that has been killed does not go on with more bytes than
there is room for. -/
def Wakes (s : State P) : Label P → Prop
  | .proceed p => s.killed p = true → (∃ q, (s.phase q).readerAsleep = true) →
      (s.phase p).left ≤ s.room
  | _ => True

instance decidableWakes [Fintype P] (s : State P) (label : Label P) : Decidable (s.Wakes label) :=
  match label with
  | .proceed _ => inferInstanceAs (Decidable (_ → _))
  | .pipewrite _ _ _ | .piperead _ _ | .kill _ | .dup _ _ _ | .close _ _ =>
    inferInstanceAs (Decidable True)

theorem fill_eq_nil {pipe : Pipe} {history : List UInt8} {taken : Nat}
    (carries : Carries pipe history taken)
    (fits : history.length + bytes.length ≤ taken + pipesize) : (pipe.fill bytes).2.2 = [] := by
  induction bytes generalizing pipe history with
  | nil => rfl
  | cons byte rest induction =>
    rw [length_cons] at fits
    have room : pipe.full = false := by
      rw [Bool.eq_false_iff]
      intro full
      have length := carries.full_iff.mp full
      omega
    rw [Pipe.fill, if_neg (by simp [room])]
    refine induction (carries.put room byte) ?_
    rw [length_append, length_singleton]
    omega

omit [DecidableEq P] in
theorem room_of_empty (s : State P) (empty : s.pipe.empty = true) : s.room = pipesize := by
  rw [Pipe.empty, decide_eq_true_eq] at empty
  rw [room, empty, UInt32.sub_self]
  rfl

omit [DecidableEq P] in
theorem Open.readopen (opens : Open s) (asleep : (s.phase q).readerAsleep = true) :
    s.pipe.readopen = true := by
  refine (opens.opened false).mpr ⟨q, ?_⟩
  have uses := opens.uses q
  cases phase : s.phase q with
  | reading =>
    rw [doing_of_phase phase] at uses
    exact uses
  | idle | writing =>
    rw [phase] at asleep
    exact absurd asleep (by simp [Phase.readerAsleep])

omit [DecidableEq P] in
theorem starved_fits (rests : Rests Phase.readerAsleep Pipe.Starves s) (streamed : Streamed s)
    (opens : Open s) {call : Nat} {n : Int32} {rest : List UInt8} (wakes : s.Wakes (.proceed p))
    (phase : s.phase p = .writing call n bytes rest false)
    (stops : (s.pipe.fill rest).1.readopen = false ∨ s.killed p = true)
    (asleep : (s.phase q).readerAsleep = true) : (s.pipe.fill rest).2.2 = [] := by
  obtain ⟨empty, _⟩ := rests q asleep
  have killed : s.killed p = true := by
    refine stops.resolve_left fun closed => ?_
    rw [(s.pipe.ends_fill rest).2.1, opens.readopen asleep] at closed
    cases closed
  have short := wakes killed ⟨q, asleep⟩
  rw [room_of_empty s empty, phase] at short
  change rest.length ≤ pipesize at short
  refine fill_eq_nil streamed.carries ?_
  rw [streamed.carries.empty_iff.mp empty]
  omega

theorem starved_moved (rests : Rests Phase.readerAsleep Pipe.Starves s) (streamed : Streamed s)
    (opens : Open s) (wakes : s.Wakes label) (moved : Moved s label s') :
    Rests Phase.readerAsleep Pipe.Starves s' := by
  cases moved with
  | called _ begins =>
    refine rests.update _ _ (fun _ => rfl) id ?_
    cases begins with
    | inl writes =>
      obtain ⟨_, n, bytes, rfl, _⟩ := writes
      exact fun asleep => absurd asleep (by simp [Phase.readerAsleep])
    | inr reads =>
      obtain ⟨_, n, rfl⟩ := reads
      exact fun asleep => absurd asleep (by simp [Phase.readerAsleep])
  | wrote | filled =>
    refine Rests.of_awake fun p => ?_
    simp [wakeup]
  | @refused p call n bytes rest phase left stops =>
    refine Rests.of_awake fun q => Bool.eq_false_iff.mpr fun asleep => left ?_
    have other : (s.phase q).readerAsleep = true := by
      by_cases here : q = p
      · rw [here] at asleep
        exact absurd asleep (by simp [finish, setPhase, Phase.readerAsleep])
      · rw [← asleep]
        exact congrArg Phase.readerAsleep (update_of_ne here ..).symm
    exact starved_fits rests streamed opens wakes phase stops other
  | interrupted => exact rests.update _ _ (fun _ => rfl) id (by simp [Phase.readerAsleep])
  | waited _ empty opened => exact rests.update _ _ (fun _ => rfl) id fun _ => ⟨empty, opened⟩
  | @copied p call n phase =>
    refine rests.update p .idle ?_ ?_ (by simp [Phase.readerAsleep])
    · intro q
      simp [wakeup, deliver, setPhase, setPipe]
    · intro starves
      change (s.pipe.copy n.toInt.toNat).1.Starves
      rw [Pipe.copy_of_empty starves.1]
      exact starves
  | killed => exact rests.update _ _ (fun _ => rfl) id (by simp)
  | duplicated | dropped => exact rests
  | @closed p writable _ _ =>
    intro q asleep
    rw [phase_pipeclose] at asleep
    rw [pipe_pipeclose]
    cases writable with
    | false => exact rests q (by simpa using asleep)
    | true => simp at asleep

omit [DecidableEq P] in
theorem open_pipealloc (p : P) (data : Fin pipesize → UInt8) : Open (pipealloc p data) where
  uses := fun _ => trivial
  opened := by
    intro writable
    cases writable <;> simp [pipealloc, Pipe.opened]
  freed := rfl

theorem open_of_run (reached : run step (pipealloc p data) labels = some s) : Open s :=
  run_preserves Open (fun _ _ _ opens stepped => opens.moved (moved_of_step stepped))
    (open_pipealloc p data) reached

theorem blocked_of_run (reached : run step (pipealloc p data) labels = some s) :
    Rests Phase.writerAsleep Pipe.Blocks s := by
  refine run_preserves (Rests Phase.writerAsleep Pipe.Blocks) ?_ ?_ reached
  · exact fun _ _ _ rests stepped => blocked_moved rests (moved_of_step stepped)
  · exact Rests.of_awake fun _ => rfl

theorem starved_of_run (conforms : Conforms step Wakes (pipealloc p data) labels)
    (reached : run step (pipealloc p data) labels = some s) :
    Rests Phase.readerAsleep Pipe.Starves s := by
  have all : Streamed s ∧ Open s ∧ Rests Phase.readerAsleep Pipe.Starves s := by
    refine run_invariant (fun s => Streamed s ∧ Open s ∧ Rests Phase.readerAsleep Pipe.Starves s)
      ?_ ⟨streamed_pipealloc p data, open_pipealloc p data, Rests.of_awake fun _ => rfl⟩ conforms
      reached
    rintro s label s' ⟨streamed, opens, rests⟩ wakes stepped
    have moved := moved_of_step stepped
    exact ⟨streamed.moved moved, opens.moved moved,
      starved_moved rests streamed opens wakes moved⟩
  exact all.2.2

theorem sleepers_in_every_run {p : P} {data : Fin pipesize → UInt8} {labels : List (Label P)}
    (conforms : Conforms step Wakes (pipealloc p data) labels)
    (reached : run step (pipealloc p data) labels = some s) :
    (∀ q, (s.phase q).readerAsleep = true → s.pipe.empty = true ∧ s.pipe.writeopen = true) ∧
    (∀ q, (s.phase q).writerAsleep = true → s.pipe.full = true ∧ s.pipe.readopen = true) ∧
    (∀ q r, ¬((s.phase q).readerAsleep = true ∧ (s.phase r).writerAsleep = true)) ∧
    s.freed = if s.pipe.readopen || s.pipe.writeopen then 0 else 1 := by
  have starved := starved_of_run conforms reached
  have blocked := blocked_of_run reached
  refine ⟨starved, blocked, ?_, (open_of_run reached).freed⟩
  rintro q r ⟨reader, writer⟩
  have carries := (streamed_of_run reached).carries
  have empty := carries.empty_iff.mp (starved q reader).1
  have full := carries.full_iff.mp (blocked r writer).1
  change s.input.length = s.output.length + 512 at full
  omega

def writerLeaves : List (Label (Fin 2)) :=
  [.dup 0 1 true, .close 0 true, .piperead 0 4, .proceed 0, .kill 1, .close 1 true, .proceed 0,
    .close 0 false]

theorem sleepers_in_writerLeaves : ∃ s : State (Fin 2),
    run step (pipealloc 0 fun _ => 5) writerLeaves = some s ∧
      Conforms step Wakes (pipealloc 0 fun _ => 5) writerLeaves ∧ s.freed = 1 ∧
      s.freed = if s.pipe.readopen || s.pipe.writeopen then 0 else 1 := by
  have runs : (run step (pipealloc 0 fun _ => 5) writerLeaves).map (fun s : State (Fin 2) =>
      s.freed) = some 1 := by decide +kernel
  have conforms : Conforms step Wakes (pipealloc 0 fun _ => 5) writerLeaves := by decide +kernel
  obtain ⟨s, reached, freed⟩ := Option.map_eq_some_iff.mp runs
  exact ⟨s, reached, conforms, freed, (sleepers_in_every_run conforms reached).2.2.2⟩

def killedWriter : List (Label (Fin 2)) :=
  [.dup 0 1 true, .piperead 0 4, .proceed 0, .pipewrite 1 (fun i => .ofNat i) 600, .kill 1,
    .proceed 1]

theorem reader_sleeps_after_killedWriter :
    (run step (pipealloc 0 fun _ => 5) killedWriter).map (fun s : State (Fin 2) =>
      ((s.phase 0).readerAsleep, s.pipe.empty, s.pipe.full)) = some (true, false, true) := by
  decide +kernel

end State

end StraceXv6.Kernel.Pipes
