import StraceXv6.Data.Run
import StraceXv6.Data.Tally
import StraceXv6.Kernel.Record

namespace StraceXv6.Kernel.Interleaving

open List Function Data

/-! The statements of `record_syscall` executed by several processes.  The
kernel is preemptible inside a system call and nothing guards the ring, so a
process may stop after any statement while others run theirs. -/

/-- An accepted event on its way into the ring, numbered by acceptance. -/
structure Job where
  ticket : Nat
  target : Proc
  syscallId : Sys

def Job.message (job : Job) : List UInt8 :=
  Kernel.message job.target job.syscallId

inductive Pc where
  | idle
  | test (job : Job)
  | reset (job : Job)
  | store (job : Job)
  | increment (job : Job)

structure StoreCall where
  job : Job
  index : Int32
  after : TraceState

structure State (P : Type) where
  kernel : TraceState
  pc : P → Pc
  accepted : List (Proc × Sys)
  calls : List StoreCall

inductive Label (P : Type) where
  | call (p : P) (target : Proc) (syscallId : Sys)
  | next (p : P)
  | setOptions (inputE inputF inputS inputO : Int32)
  | setCallFlag (input : Int32)

def boot (P : Type) : State P where
  kernel := .boot
  pc := fun _ => .idle
  accepted := []
  calls := []

section

variable {P : Type} [DecidableEq P]

def State.enter (s : State P) (p : P) (target : Proc) (syscallId : Sys) :
    State P :=
  { s with
    kernel := s.kernel.print target syscallId
    pc := Function.update s.pc p (.test ⟨s.accepted.length, target, syscallId⟩)
    accepted := s.accepted ++ [(target, syscallId)] }

def State.advance (s : State P) (p : P) : Pc → Option (State P)
  | .idle => none
  | .test job =>
    some { s with
      pc := Function.update s.pc p
        (if s.kernel.callcount % 10 = 0 then .reset job else .store job) }
  | .reset job =>
    some { s with
      kernel := { s.kernel with callcount := 0 }
      pc := Function.update s.pc p (.store job) }
  | .store job =>
    let after := storeTrace s.kernel (tempTrace job.target job.syscallId)
      s.kernel.callcount
    some { s with
      kernel := after
      pc := Function.update s.pc p (.increment job)
      calls := s.calls ++ [⟨job, s.kernel.callcount, after⟩] }
  | .increment _ =>
    some { s with
      kernel := s.kernel.increment
      pc := Function.update s.pc p .idle }

def step (s : State P) : Label P → Option (State P)
  | .call p target syscallId =>
    match s.pc p with
    | .idle =>
      if Accepts s.kernel.options target.eax syscallId then
        some (s.enter p target syscallId)
      else some s
    | _ => none
  | .next p => s.advance p (s.pc p)
  | .setOptions inputE inputF inputS inputO =>
    some { s with
      kernel := Call.perform s.kernel
        (.setOptions inputE inputF inputS inputO) }
  | .setCallFlag input =>
    some { s with kernel := Call.perform s.kernel (.setCallFlag input) }

inductive Moved (s : State P) : Label P → State P → Prop where
  | rejected {p target syscallId} :
      ¬Accepts s.kernel.options target.eax syscallId →
      Moved s (.call p target syscallId) s
  | entered {p target syscallId} : s.pc p = .idle →
      Moved s (.call p target syscallId) (s.enter p target syscallId)
  | wraps {p job} : s.pc p = .test job → s.kernel.callcount % 10 = 0 →
      Moved s (.next p) { s with pc := Function.update s.pc p (.reset job) }
  | passes {p job} : s.pc p = .test job → s.kernel.callcount % 10 ≠ 0 →
      Moved s (.next p) { s with pc := Function.update s.pc p (.store job) }
  | resets {p job} : s.pc p = .reset job →
      Moved s (.next p) { s with
        kernel := { s.kernel with callcount := 0 }
        pc := Function.update s.pc p (.store job) }
  | stores {p job after} : s.pc p = .store job →
      after = storeTrace s.kernel (tempTrace job.target job.syscallId)
        s.kernel.callcount →
      Moved s (.next p) { s with
        kernel := after
        pc := Function.update s.pc p (.increment job)
        calls := s.calls ++ [⟨job, s.kernel.callcount, after⟩] }
  | increments {p job} : s.pc p = .increment job →
      Moved s (.next p) { s with
        kernel := s.kernel.increment
        pc := Function.update s.pc p .idle }
  | options {label options} : (∀ p, label ≠ .next p) →
      Moved s label { s with kernel := { s.kernel with options := options } }

variable {label : Label P} {s t : State P} {p : P}

theorem moved_of_step (stepped : step s label = some t) : Moved s label t := by
  cases label with
  | call p target syscallId =>
    simp only [step] at stepped
    split at stepped
    next idle =>
      split at stepped
      next => exact Option.some.inj stepped ▸ .entered idle
      next rejects => exact Option.some.inj stepped ▸ .rejected rejects
    next => contradiction
  | next p =>
    simp only [step] at stepped
    cases here : s.pc p with
    | idle =>
      rw [here] at stepped
      contradiction
    | test job =>
      rw [here] at stepped
      by_cases wraps : s.kernel.callcount % 10 = 0
      · simp only [State.advance, wraps, if_true] at stepped
        exact Option.some.inj stepped ▸ .wraps here wraps
      · simp only [State.advance, wraps, if_false] at stepped
        exact Option.some.inj stepped ▸ .passes here wraps
    | reset job =>
      rw [here] at stepped
      exact Option.some.inj stepped ▸ .resets here
    | store job =>
      rw [here] at stepped
      exact Option.some.inj stepped ▸ .stores here rfl
    | increment job =>
      rw [here] at stepped
      exact Option.some.inj stepped ▸ .increments here
  | setOptions inputE inputF inputS inputO | setCallFlag input =>
    exact Option.some.inj stepped ▸ .options nofun

def Pc.waiting : Pc → Option Job
  | .test job | .reset job | .store job => some job
  | .idle | .increment _ => none

structure Tracked (s : State P) : Prop where
  owned : s.kernel.Owned
  waiting : ∀ p job, (s.pc p).waiting = some job →
    s.accepted[job.ticket]? = some (job.target, job.syscallId)
  logged : ∀ call ∈ s.calls,
    s.accepted[call.job.ticket]? = some (call.job.target, call.job.syscallId)
  written : ∀ call ∈ s.calls, ∀ index : Fin N, call.index.toInt = index.val →
    call.after.slot index = some call.job.message
  kept : ∀ ticket, ticket < s.accepted.length →
    (∃ p job, (s.pc p).waiting = some job ∧ job.ticket = ticket) ∨
      ∃ call ∈ s.calls, call.job.ticket = ticket

omit [DecidableEq P] in
theorem tracked_boot : Tracked (boot P) where
  owned := TraceState.owned_boot
  waiting := fun _ _ waits => nomatch waits
  logged := fun _ member => nomatch member
  written := fun _ member => nomatch member
  kept := fun _ below => absurd below (Nat.not_lt_zero _)

private theorem waiting_update_of_ne {pc : P → Pc} {q : P} (other : q ≠ p) (here : Pc) :
    (update pc p here q).waiting = (pc q).waiting := by
  rw [update_of_ne other]

private theorem Tracked.move (tracked : Tracked s) {here : Pc}
    (same : here.waiting = (s.pc p).waiting) (kernel : TraceState) (owned : kernel.Owned) :
    Tracked { s with kernel := kernel, pc := update s.pc p here } := by
  have unchanged : ∀ q, (update s.pc p here q).waiting = (s.pc q).waiting := by
    intro q
    by_cases moved : q = p
    · subst moved
      rw [update_self, same]
    · exact waiting_update_of_ne moved here
  refine ⟨owned, ?_, tracked.logged, tracked.written, ?_⟩
  · intro q job waits
    exact tracked.waiting q job ((unchanged q).symm.trans waits)
  · intro ticket below
    rcases tracked.kept ticket below with ⟨q, job, waits, equal⟩ | called
    · exact .inl ⟨q, job, (unchanged q).trans waits, equal⟩
    · exact .inr called

private theorem Tracked.enter (tracked : Tracked s) (idle : s.pc p = .idle) (target : Proc)
    (syscallId : Sys) : Tracked (s.enter p target syscallId) := by
  let job : Job := ⟨s.accepted.length, target, syscallId⟩
  have older : ∀ {ticket : Nat} {event : Proc × Sys},
      s.accepted[ticket]? = some event → (s.accepted ++ [(target, syscallId)])[ticket]? = some event := by
    intro ticket event found
    rwa [List.getElem?_append_left (List.getElem?_eq_some_iff.mp found).1]
  have entered : ((s.enter p target syscallId).pc p).waiting = some job := by
    simp [State.enter, Pc.waiting, job]
  refine ⟨tracked.owned, ?_, ?_, tracked.written, ?_⟩
  · intro q other waits
    by_cases moved : q = p
    · subst moved
      rw [entered] at waits
      cases waits
      simp [State.enter, job]
    · exact older (tracked.waiting q other
        ((waiting_update_of_ne moved _).symm.trans waits))
  · intro call member
    exact older (tracked.logged call member)
  · intro ticket below
    simp only [State.enter, length_append, length_singleton] at below
    by_cases newest : ticket = s.accepted.length
    · exact .inl ⟨p, job, entered, newest.symm⟩
    · rcases tracked.kept ticket (by omega) with ⟨q, other, waits, equal⟩ | called
      · have distinct : q ≠ p := by
          intro same
          rw [same, idle] at waits
          contradiction
        exact .inl ⟨q, other, (waiting_update_of_ne distinct _).trans waits, equal⟩
      · exact .inr called

private theorem Owned.storeTrace {k : TraceState} (owned : k.Owned)
    (traceMessage : List UInt8) (callcount : Int32) :
    (Kernel.storeTrace k traceMessage callcount).Owned := by
  by_cases inside : 0 ≤ callcount.toInt ∧ callcount.toInt < N
  · have bound : callcount.toInt.toNat < N := by omega
    rw [storeTrace_eq_copyTo k traceMessage ⟨_, bound⟩
      (Int.toNat_of_nonneg inside.1).symm]
    exact owned.copyTo _ _
  · rw [storeTrace_eq_self k traceMessage inside]
    exact owned

private theorem Tracked.store (tracked : Tracked s) {job : Job} (here : s.pc p = .store job)
    {after : TraceState}
    (stored : after = storeTrace s.kernel (tempTrace job.target job.syscallId) s.kernel.callcount) :
    Tracked { s with
      kernel := after
      pc := update s.pc p (.increment job)
      calls := s.calls ++ [⟨job, s.kernel.callcount, after⟩] } := by
  have mine : (s.pc p).waiting = some job := by rw [here]; rfl
  constructor
  · rw [stored]
    exact Owned.storeTrace tracked.owned _ _
  · intro q other waits
    by_cases moved : q = p
    · subst moved
      simp [Pc.waiting] at waits
    · exact tracked.waiting q other
        ((waiting_update_of_ne moved _).symm.trans waits)
  · intro call member
    rcases mem_append.mp member with old | new
    · exact tracked.logged call old
    · rw [mem_singleton.mp new]
      exact tracked.waiting p job mine
  · intro call member index inside
    rcases mem_append.mp member with old | new
    · exact tracked.written call old index inside
    · rw [mem_singleton.mp new] at inside ⊢
      simp only at inside ⊢
      rw [stored, storeTrace_eq_copyTo _ _ index inside, tracked.owned.slot_copyTo,
        update_self]
      rfl
  · intro ticket below
    rcases tracked.kept ticket below with ⟨q, other, waits, equal⟩ | ⟨call, member, equal⟩
    · by_cases moved : q = p
      · subst moved
        rw [mine] at waits
        have same := Option.some.inj waits
        subst same
        exact .inr ⟨_, mem_append_right _ (mem_singleton_self _), equal⟩
      · exact .inl ⟨q, other, (waiting_update_of_ne moved _).trans waits, equal⟩
    · exact .inr ⟨call, mem_append_left _ member, equal⟩

theorem Tracked.step (tracked : Tracked s) (stepped : step s label = some t) : Tracked t := by
  cases moved_of_step stepped with
  | rejected => exact tracked
  | entered idle => exact tracked.enter idle _ _
  | wraps here | passes here => exact tracked.move (by rw [here]; rfl) s.kernel tracked.owned
  | resets here =>
    exact tracked.move (by rw [here]; rfl) { s.kernel with callcount := 0 }
      tracked.owned
  | stores here stored => exact tracked.store here stored
  | increments here =>
    exact tracked.move (by rw [here]; rfl) s.kernel.increment tracked.owned
  | options => exact ⟨tracked.owned, tracked.waiting, tracked.logged,
      tracked.written, tracked.kept⟩

def Pc.storing : Pc → Nat
  | .store _ | .increment _ => 1
  | .idle | .test _ | .reset _ => 0

def Pc.resetting : Pc → Nat
  | .reset _ => 1
  | .idle | .test _ | .store _ | .increment _ => 0

variable [Fintype P]

/-- A wrap test is taken only while fewer than `N` other events are past
theirs, and, where it does not wrap, only while those that will increment leave
a slot below `N`. -/
def HasRoom (s : State P) : Label P → Prop
  | .next p =>
    match s.pc p with
    | .test _ =>
      tally Pc.storing s.pc + tally Pc.resetting s.pc < N ∧
        (s.kernel.callcount % 10 ≠ 0 →
          s.kernel.callcount.toInt + tally Pc.storing s.pc < N)
    | _ => True
  | _ => True

instance decidableHasRoom (s : State P) : (label : Label P) → Decidable (HasRoom s label)
  | .next p =>
    match here : s.pc p with
    | .test _ =>
      decidable_of_iff
        (tally Pc.storing s.pc + tally Pc.resetting s.pc < N ∧
          (s.kernel.callcount % 10 ≠ 0 →
            s.kernel.callcount.toInt + tally Pc.storing s.pc < N))
        (by simp only [HasRoom, here])
    | .idle | .reset _ | .store _ | .increment _ =>
      .isTrue (by simp only [HasRoom, here])
  | .call .. | .setOptions .. | .setCallFlag _ => .isTrue trivial

structure Bounded (s : State P) : Prop where
  nonneg : 0 ≤ s.kernel.callcount.toInt
  room : s.kernel.callcount.toInt + tally Pc.storing s.pc ≤ N
  slack : tally Pc.storing s.pc + tally Pc.resetting s.pc ≤ N
  indices : ∀ call ∈ s.calls, 0 ≤ call.index.toInt ∧ call.index.toInt < N

omit [DecidableEq P] in
theorem bounded_boot : Bounded (boot P) := by
  have storing : tally Pc.storing (boot P).pc = 0 :=
    tally_const_zero Pc.storing .idle rfl
  have resetting : tally Pc.resetting (boot P).pc = 0 :=
    tally_const_zero Pc.resetting .idle rfl
  have callcount : (boot P).kernel.callcount.toInt = 0 := rfl
  refine ⟨callcount.ge, ?_, ?_, fun _ member => nomatch member⟩
  · rw [storing, callcount]
    decide
  · rw [storing, resetting]
    decide

theorem Bounded.step (bounded : Bounded s) (hasRoom : HasRoom s label)
    (stepped : step s label = some t) : Bounded t := by
  have nonneg := bounded.nonneg
  have room := bounded.room
  have slack := bounded.slack
  cases moved_of_step stepped with
  | rejected => exact bounded
  | @entered p target syscallId idle =>
    have storing := tally_update Pc.storing s.pc p
      (.test ⟨s.accepted.length, target, syscallId⟩)
    have resetting := tally_update Pc.resetting s.pc p
      (.test ⟨s.accepted.length, target, syscallId⟩)
    simp only [idle, Pc.storing, Pc.resetting, Nat.add_zero] at storing resetting
    refine ⟨nonneg, ?_, ?_, bounded.indices⟩
    · simpa only [State.enter, TraceState.print, storing] using room
    · simpa only [State.enter, storing, resetting] using slack
  | @wraps p job here =>
    have storing := tally_update Pc.storing s.pc p (.reset job)
    have resetting := tally_update Pc.resetting s.pc p (.reset job)
    simp only [here, Pc.storing, Pc.resetting, Nat.add_zero] at storing resetting
    simp only [HasRoom, here] at hasRoom
    exact ⟨nonneg, by simp only; omega, by simp only; omega, bounded.indices⟩
  | @passes p job here unwrapped =>
    have storing := tally_update Pc.storing s.pc p (.store job)
    have resetting := tally_update Pc.resetting s.pc p (.store job)
    simp only [here, Pc.storing, Pc.resetting, Nat.add_zero] at storing resetting
    simp only [HasRoom, here] at hasRoom
    have below := hasRoom.2 unwrapped
    exact ⟨nonneg, by simp only; omega, by simp only; omega, bounded.indices⟩
  | @resets p job here =>
    have storing := tally_update Pc.storing s.pc p (.store job)
    have resetting := tally_update Pc.resetting s.pc p (.store job)
    simp only [here, Pc.storing, Pc.resetting, Nat.add_zero] at storing resetting
    refine ⟨Int.le_refl 0, ?_, by simp only; omega, bounded.indices⟩
    simp only [Int32.toInt_zero]
    omega
  | @stores p job after here stored =>
    have storing := tally_update Pc.storing s.pc p (.increment job)
    have resetting := tally_update Pc.resetting s.pc p (.increment job)
    have mine := weight_le_tally Pc.storing s.pc p
    simp only [here, Pc.storing, Pc.resetting, Nat.add_zero] at storing resetting mine
    have same : after.callcount = s.kernel.callcount := by
      rw [stored, storeTrace_callcount]
    refine ⟨?_, ?_, by simp only; omega, ?_⟩
    · simpa only [same] using nonneg
    · simp only [same]
      omega
    · intro call member
      rcases mem_append.mp member with old | new
      · exact bounded.indices call old
      · rw [mem_singleton.mp new]
        exact ⟨nonneg, by simp only; omega⟩
  | @increments p job here =>
    have storing := tally_update Pc.storing s.pc p .idle
    have resetting := tally_update Pc.resetting s.pc p .idle
    have mine := weight_le_tally Pc.storing s.pc p
    simp only [here, Pc.storing, Pc.resetting, Nat.add_zero] at storing resetting mine
    have small : s.kernel.callcount.toInt + 1 ≤ 10 := by
      have capacity : ((N : Nat) : Int) = 10 := rfl
      omega
    have next : s.kernel.increment.callcount.toInt =
        s.kernel.callcount.toInt + 1 := toInt_succ (by omega)
    refine ⟨?_, ?_, by simp only; omega, bounded.indices⟩
    · simp only [next]
      omega
    · simp only [next]
      omega
  | options => exact ⟨nonneg, room, slack, bounded.indices⟩

/-- The cursor and every index handed to `store_trace` are in range, and an
accepted event that is no longer on its way was written to a slot. -/
structure RingSafe (s : State P) : Prop where
  cursor : 0 ≤ s.kernel.callcount.toInt ∧ s.kernel.callcount.toInt ≤ N
  indices : ∀ call ∈ s.calls, 0 ≤ call.index.toInt ∧ call.index.toInt < N
  kept : ∀ ticket event, s.accepted[ticket]? = some event →
    (∃ p job, (s.pc p).waiting = some job ∧ job.ticket = ticket) ∨
      ∃ call ∈ s.calls, call.job.ticket = ticket ∧
        ∃ index : Fin N, call.index.toInt = index.val ∧
          call.after.slot index = some (message event.1 event.2)

omit [DecidableEq P] in
theorem ringSafe_of_bounded (bounded : Bounded s) (tracked : Tracked s) : RingSafe s := by
  refine ⟨⟨bounded.nonneg, ?_⟩, bounded.indices, ?_⟩
  · have room := bounded.room
    omega
  · intro ticket event found
    have below := (List.getElem?_eq_some_iff.mp found).1
    rcases tracked.kept ticket below with waits | ⟨call, member, equal⟩
    · exact .inl waits
    · have inside := bounded.indices call member
      have bound : call.index.toInt.toNat < N := by omega
      have position : call.index.toInt = (⟨_, bound⟩ : Fin N).val :=
        (Int.toNat_of_nonneg inside.1).symm
      have logged := tracked.logged call member
      rw [equal, found] at logged
      have event_eq := Option.some.inj logged
      subst event_eq
      exact .inr ⟨call, member, equal, ⟨_, bound⟩, position,
        tracked.written call member _ position⟩

private theorem reached_invariant {labels : List (Label P)}
    (conforms : Conforms step HasRoom (boot P) labels)
    (reached : run step (boot P) labels = some s) : Bounded s ∧ Tracked s :=
  run_invariant (fun s => Bounded s ∧ Tracked s)
    (fun _ _ _ before room stepped =>
      ⟨before.1.step room stepped, before.2.step stepped⟩)
    ⟨bounded_boot, tracked_boot⟩ conforms reached

private theorem exists_drain (count : Nat) (storing : tally Pc.storing s.pc = count)
    (small : s.kernel.callcount.toInt + count < 2 ^ 31) :
    ∃ labels t, run step s labels = some t ∧
      t.kernel.callcount.toInt = s.kernel.callcount.toInt + count := by
  induction count generalizing s with
  | zero => exact ⟨[], s, rfl, by simp⟩
  | succ count induction =>
    have finish : ∀ (s : State P) p job, s.pc p = .increment job →
        tally Pc.storing s.pc = count + 1 →
        s.kernel.callcount.toInt + (count + 1) < 2 ^ 31 →
        ∃ labels t, run step s labels = some t ∧
          t.kernel.callcount.toInt = s.kernel.callcount.toInt + (count + 1) := by
      intro s p job here storing small
      have updated := tally_update Pc.storing s.pc p .idle
      simp only [here, Pc.storing, Nat.add_zero] at updated
      have next : s.kernel.increment.callcount.toInt =
          s.kernel.callcount.toInt + 1 := toInt_succ (by omega)
      obtain ⟨labels, t, ran, position⟩ := induction
        (s := { s with
          kernel := s.kernel.increment
          pc := update s.pc p .idle })
        (by simp only; omega) (by simp only [next]; omega)
      refine ⟨.next p :: labels, t, ?_, ?_⟩
      · simpa [run, step, here, State.advance] using ran
      · rw [position]
        simp only [next]
        omega
    obtain ⟨p, positive⟩ := exists_weight_pos (by omega : 0 < tally Pc.storing s.pc)
    cases here : s.pc p with
    | idle | test job | reset job => simp [here, Pc.storing] at positive
    | increment job => exact finish s p job here storing (by exact_mod_cast small)
    | store job =>
      let after := storeTrace s.kernel (tempTrace job.target job.syscallId)
        s.kernel.callcount
      have same : after.callcount = s.kernel.callcount :=
        storeTrace_callcount ..
      have updated := tally_update Pc.storing s.pc p (.increment job)
      simp only [here, Pc.storing] at updated
      obtain ⟨labels, t, ran, position⟩ := finish
        { s with
          kernel := after
          pc := update s.pc p (.increment job)
          calls := s.calls ++ [⟨job, s.kernel.callcount, after⟩] }
        p job (update_self ..) (by simp only; omega)
        (by simp only [same]; exact_mod_cast small)
      refine ⟨.next p :: labels, t, ?_, ?_⟩
      · simpa [run, step, here, State.advance] using ran
      · rw [position]
        simp only [same]
        exact_mod_cast rfl

private theorem exists_reset_step (resetting : 0 < tally Pc.resetting s.pc) :
    ∃ p t, step s (.next p) = some t ∧ t.kernel.callcount = 0 ∧
      tally Pc.storing t.pc = tally Pc.storing s.pc + 1 ∧
      tally Pc.resetting t.pc + 1 = tally Pc.resetting s.pc := by
  obtain ⟨p, positive⟩ := exists_weight_pos resetting
  cases here : s.pc p with
  | reset job =>
    have stored := tally_update Pc.storing s.pc p (.store job)
    have left := tally_update Pc.resetting s.pc p (.store job)
    simp only [here, Pc.storing, Pc.resetting, Nat.add_zero] at stored left
    refine ⟨p, { s with
      kernel := { s.kernel with callcount := 0 }
      pc := update s.pc p (.store job) }, ?_, rfl, stored, left⟩
    simp [step, here, State.advance]
  | idle | test job | store job | increment job => simp [here, Pc.resetting] at positive

private theorem exists_resets (count : Nat) (resetting : tally Pc.resetting s.pc = count + 1) :
    ∃ labels t, run step s labels = some t ∧ t.kernel.callcount = 0 ∧
      tally Pc.storing t.pc = tally Pc.storing s.pc + (count + 1) := by
  induction count generalizing s with
  | zero =>
    obtain ⟨p, t, stepped, zero, storing, _⟩ := exists_reset_step
      (resetting ▸ Nat.one_pos : 0 < tally Pc.resetting s.pc)
    exact ⟨[.next p], t, by simp [run, stepped], zero, storing⟩
  | succ count induction =>
    obtain ⟨p, middle, stepped, _, storing, left⟩ := exists_reset_step
      (by omega : 0 < tally Pc.resetting s.pc)
    obtain ⟨labels, t, ran, zero, total⟩ := induction
      (by omega : tally Pc.resetting middle.pc = count + 1)
    refine ⟨.next p :: labels, t, ?_, zero, by omega⟩
    simpa [run, stepped] using ran

omit [DecidableEq P] [Fintype P] in
private theorem not_ringSafe_of_past (past : (N : Int) < s.kernel.callcount.toInt) :
    ¬RingSafe s := by
  intro safe
  have cursor := safe.cursor.2
  omega

private theorem exists_unsafe_of_crowded (resetting : 0 < tally Pc.resetting s.pc)
    (crowded : tally Pc.storing s.pc + tally Pc.resetting s.pc = N + 1) :
    ∃ labels t, run step s labels = some t ∧ ¬RingSafe t := by
  obtain ⟨resets, middle, emptied, zero, storing⟩ :=
    exists_resets (tally Pc.resetting s.pc - 1) (s := s) (by omega)
  have total : tally Pc.storing middle.pc = N + 1 := by omega
  obtain ⟨drains, t, drained, position⟩ := exists_drain (N + 1) total
    (by rw [zero]; decide)
  refine ⟨resets ++ drains, t, ?_, not_ringSafe_of_past ?_⟩
  · rw [run_append, emptied]
    exact drained
  · rw [position, zero]
    decide

theorem exists_unsafe_of_not_hasRoom (bounded : Bounded s) (noRoom : ¬HasRoom s label)
    (stepped : step s label = some t) :
    ∃ labels last, run step t labels = some last ∧ ¬RingSafe last := by
  have capacity : ((N : Nat) : Int) = 10 := rfl
  have nonneg := bounded.nonneg
  have room := bounded.room
  have slack := bounded.slack
  cases moved_of_step stepped with
  | @wraps p job here zero =>
    have storing := tally_update Pc.storing s.pc p (.reset job)
    have resetting := tally_update Pc.resetting s.pc p (.reset job)
    simp only [here, Pc.storing, Pc.resetting, Nat.add_zero] at storing resetting
    simp only [HasRoom, here, zero, ne_eq, not_true, false_implies, and_true] at noRoom
    exact exists_unsafe_of_crowded (by simp only; omega) (by simp only; omega)
  | @passes p job here nonzero =>
    have storing := tally_update Pc.storing s.pc p (.store job)
    have resetting := tally_update Pc.resetting s.pc p (.store job)
    simp only [here, Pc.storing, Pc.resetting, Nat.add_zero] at storing resetting
    simp only [HasRoom, here, ne_eq, nonzero, not_false_eq_true, true_implies] at noRoom
    by_cases full : s.kernel.callcount.toInt + tally Pc.storing s.pc < N
    · refine exists_unsafe_of_crowded ?_ (by simp only; omega)
      simp only
      omega
    · obtain ⟨labels, last, ran, position⟩ := exists_drain
        (tally Pc.storing s.pc + 1)
        (s := { s with pc := update s.pc p (.store job) })
        storing (by simp only; omega)
      refine ⟨labels, last, ran, not_ringSafe_of_past ?_⟩
      rw [position]
      simp only
      omega
  | entered idle | rejected => exact absurd trivial noRoom
  | resets here | stores here | increments here => simp [HasRoom, here] at noRoom
  | options silent =>
    cases label with
    | next p => exact absurd rfl (silent p)
    | call | setOptions | setCallFlag => exact absurd trivial noRoom

/-- The ring is safe along every run whose wrap tests find room, and a test taken
without room can be scheduled into an unsafe state. -/
theorem ringSafe_exactly_with_room (labels : List (Label P)) (s : State P)
    (conforms : Conforms step HasRoom (boot P) labels)
    (reached : run step (boot P) labels = some s) :
    RingSafe s ∧
      ∀ label next, step s label = some next → ¬HasRoom s label →
        ∃ later last, run step next later = some last ∧ ¬RingSafe last := by
  obtain ⟨bounded, tracked⟩ := reached_invariant conforms reached
  refine ⟨ringSafe_of_bounded bounded tracked, ?_⟩
  intro label next stepped noRoom
  exact exists_unsafe_of_not_hasRoom bounded noRoom stepped

end

def recordOne (p : Fin 2) (statements : Nat) : List (Label (Fin 2)) :=
  .call p .ls .open :: List.replicate statements (.next p)

theorem ringSafe_two_events :
    ∃ s, run step (boot (Fin 2)) (recordOne 0 4 ++ recordOne 1 3) = some s ∧
      s.accepted.length = 2 ∧ RingSafe s := by
  have finished : ((run step (boot (Fin 2)) (recordOne 0 4 ++ recordOne 1 3)).map
      fun s => s.accepted.length) = some 2 := rfl
  obtain ⟨s, reached, accepted⟩ := Option.map_eq_some_iff.mp finished
  exact ⟨s, reached, accepted,
    (ringSafe_exactly_with_room _ s (by decide) reached).1⟩

/-- Nine events fill slots 0 to 8; then both processes pass the wrap test at
callcount 9 before either stores. -/
def racingTests : List (Label (Fin 2)) :=
  recordOne 0 4 ++ (List.replicate 8 (recordOne 0 3)).flatten ++
    [.call 0 .ls .open, .next 0, .call 1 .ls .open, .next 1,
      .next 0, .next 0, .next 1, .next 1]

theorem racingTests_unsafe :
    ∃ s, run step (boot (Fin 2)) racingTests = some s ∧
      s.kernel.callcount = 11 ∧ s.calls.getLast?.map StoreCall.index = some 10 ∧
      ¬RingSafe s := by
  have finished : ((run step (boot (Fin 2)) racingTests).map fun s =>
      (s.kernel.callcount, s.calls.getLast?.map StoreCall.index)) =
        some (11, some 10) := rfl
  obtain ⟨s, reached, values⟩ := Option.map_eq_some_iff.mp finished
  obtain ⟨callcount, index⟩ := Prod.mk.inj values
  refine ⟨s, reached, callcount, index, ?_⟩
  intro safe
  have cursor := safe.cursor.2
  rw [callcount] at cursor
  cases cursor

end StraceXv6.Kernel.Interleaving
