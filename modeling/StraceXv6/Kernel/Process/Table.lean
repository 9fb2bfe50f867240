import Mathlib.Data.Fintype.Basic
import StraceXv6.Data.Run

namespace StraceXv6.Kernel.Process

open List Data

/-! The process table.  Each section under `ptable.lock` is one function of the table. -/

abbrev nproc : Nat := 64

abbrev Slot : Type := Fin nproc

inductive ProcState where
  | unused
  | embryo
  | sleeping
  | runnable
  | running
  | zombie
  deriving DecidableEq

namespace ProcState

def Live (state : ProcState) : Prop := state = .sleeping ∨ state = .runnable ∨ state = .running

def Present (state : ProcState) : Prop := state.Live ∨ state = .zombie

instance (state : ProcState) : Decidable state.Live := inferInstanceAs (Decidable (_ ∨ _))

instance (state : ProcState) : Decidable state.Present := inferInstanceAs (Decidable (_ ∨ _))

theorem present_iff {state : ProcState} :
    state.Present ↔ state ≠ .unused ∧ state ≠ .embryo := by
  cases state <;> decide

end ProcState

inductive Chan where
  | proc (p : Slot)
  | other (address : Nat)
  deriving DecidableEq

/-- The fields of `struct proc` that are shared; a null pointer is `none`. -/
structure Entry where
  state : ProcState
  pid : Int32
  parent : Option Slot
  chan : Option Chan
  killed : Bool
  deriving DecidableEq

structure Ptable where
  proc : Slot → Entry
  nextpid : Int32
  initproc : Slot

namespace Entry

def wake (e : Entry) (chan : Option Chan) : Entry :=
  if e.state = .sleeping ∧ e.chan = chan then { e with state := .runnable } else e

section

variable (e : Entry) (chan : Option Chan)

@[simp] theorem pid_wake : (e.wake chan).pid = e.pid := by
  unfold wake
  split <;> rfl

@[simp] theorem parent_wake : (e.wake chan).parent = e.parent := by
  unfold wake
  split <;> rfl

@[simp] theorem chan_wake : (e.wake chan).chan = e.chan := by
  unfold wake
  split <;> rfl

@[simp] theorem killed_wake : (e.wake chan).killed = e.killed := by
  unfold wake
  split <;> rfl

theorem state_wake : (e.wake chan).state = e.state ∨
    e.state = .sleeping ∧ (e.wake chan).state = .runnable := by
  unfold wake
  split
  next asleep => exact .inr ⟨asleep.1, rfl⟩
  next => exact .inl rfl

variable {e chan}

theorem state_wake_of_ne (awake : e.state ≠ .sleeping) : (e.wake chan).state = e.state := by
  rcases e.state_wake chan with same | ⟨asleep, _⟩
  · exact same
  · exact absurd asleep awake

theorem sleeping_of_wake (asleep : (e.wake chan).state = .sleeping) :
    e.state = .sleeping ∧ e.chan ≠ chan := by
  unfold wake at asleep
  split at asleep
  next => cases asleep
  next others =>
    refine ⟨asleep, fun same => others ⟨asleep, same⟩⟩

end

end Entry

namespace Ptable

def modify (t : Ptable) (p : Slot) (change : Entry → Entry) : Ptable :=
  { t with proc := Function.update t.proc p (change (t.proc p)) }

def wakeup1 (t : Ptable) (chan : Option Chan) : Ptable :=
  { t with proc := fun q => (t.proc q).wake chan }

/-- The first entry that is not in use becomes an embryo with a new number. -/
def allocproc (t : Ptable) : Option (Slot × Ptable) :=
  ((List.finRange nproc).find? fun p => (t.proc p).state = .unused).map fun p =>
    (p, { t.modify p fun e => { e with state := .embryo, pid := t.nextpid } with
      nextpid := t.nextpid + 1 })

def setParent (t : Ptable) (q p : Slot) : Ptable :=
  t.modify q fun e => { e with parent := some p }

def passChild (p : Slot) (t : Ptable) (q : Slot) : Ptable :=
  if (t.proc q).parent = some p then
    if (t.proc q).state = .zombie then
      (t.setParent q t.initproc).wakeup1 (some (.proc t.initproc))
    else t.setParent q t.initproc
  else t

def exit (t : Ptable) (p : Slot) : Ptable :=
  ((List.finRange nproc).foldl (passChild p) (t.wakeup1 ((t.proc p).parent.map .proc))).modify p
    fun e => { e with state := .zombie }

def zombieChild (t : Ptable) (p : Slot) : Option Slot :=
  (List.finRange nproc).find? fun q =>
    (t.proc q).parent = some p && (t.proc q).state = .zombie

def havekids (t : Ptable) (p : Slot) : Bool :=
  (List.finRange nproc).any fun q => (t.proc q).parent = some p

def Reaped (e : Entry) : Entry :=
  { e with state := .unused, pid := 0, parent := none, killed := false }

def reap (t : Ptable) (q : Slot) : Ptable := t.modify q Reaped

def sleep (t : Ptable) (p : Slot) (chan : Chan) : Ptable :=
  t.modify p fun e => { e with state := .sleeping, chan := some chan }

def withPid (t : Ptable) (pid : Int32) : Option Slot :=
  (List.finRange nproc).find? fun p => (t.proc p).pid = pid

def kill (t : Ptable) (pid : Int32) : Int32 × Ptable :=
  match t.withPid pid with
  | some p => (0, t.modify p fun e =>
    { e with killed := true, state := if e.state = .sleeping then .runnable else e.state })
  | none => (-1, t)

/-- `userinit` made the first process in the first entry. -/
def boot : Ptable where
  proc := fun p =>
    { state := if p = 0 then .runnable else .unused
      pid := if p = 0 then 1 else 0
      parent := none
      chan := none
      killed := false }
  nextpid := 2
  initproc := 0

section

variable (t : Ptable) (p q : Slot) (change : Entry → Entry) (chan : Option Chan)

@[simp] theorem proc_modify_self : (t.modify p change).proc p = change (t.proc p) :=
  Function.update_self ..

theorem proc_modify_of_ne {p q : Slot} (other : q ≠ p) :
    (t.modify p change).proc q = t.proc q :=
  Function.update_of_ne other ..

theorem proc_modify : (t.modify p change).proc q =
    if q = p then change (t.proc q) else t.proc q := by
  by_cases same : q = p
  · rw [if_pos same, same, proc_modify_self]
  · rw [if_neg same, proc_modify_of_ne t change same]

@[simp] theorem initproc_modify : (t.modify p change).initproc = t.initproc := rfl

@[simp] theorem proc_wakeup1 : (t.wakeup1 chan).proc q = (t.proc q).wake chan := rfl

@[simp] theorem initproc_wakeup1 : (t.wakeup1 chan).initproc = t.initproc := rfl

end

variable {p : Slot} {t t' : Ptable}

theorem allocproc_eq_some (allocated : t.allocproc = some (p, t')) :
    (t.proc p).state = .unused ∧
      t' = { t.modify p fun e => { e with state := .embryo, pid := t.nextpid } with
        nextpid := t.nextpid + 1 } := by
  obtain ⟨found, first, same⟩ := Option.map_eq_some_iff.mp allocated
  obtain ⟨rfl, rfl⟩ := Prod.mk.inj same
  have unused := List.find?_some first
  simp only [decide_eq_true_eq] at unused
  exact ⟨unused, rfl⟩

theorem zombieChild_eq_some {q : Slot} (found : t.zombieChild p = some q) :
    (t.proc q).parent = some p ∧ (t.proc q).state = .zombie := by
  have holds := List.find?_some found
  simpa only [Bool.and_eq_true, decide_eq_true_eq] using holds

section

variable (t : Ptable) (pid : Int32) (q : Slot)

theorem initproc_kill : (t.kill pid).2.initproc = t.initproc := by
  unfold kill
  split <;> rfl

theorem parent_kill : ((t.kill pid).2.proc q).parent = (t.proc q).parent := by
  unfold kill
  split
  next =>
    rw [proc_modify]
    split <;> rfl
  next => rfl

theorem chan_kill : ((t.kill pid).2.proc q).chan = (t.proc q).chan := by
  unfold kill
  split
  next =>
    rw [proc_modify]
    split <;> rfl
  next => rfl

theorem state_kill : ((t.kill pid).2.proc q).state = (t.proc q).state ∨
    (t.proc q).state = .sleeping ∧ ((t.kill pid).2.proc q).state = .runnable := by
  unfold kill
  split
  next =>
    rw [proc_modify]
    split
    next =>
      by_cases asleep : (t.proc q).state = .sleeping
      · exact .inr ⟨asleep, if_pos asleep⟩
      · exact .inl (if_neg asleep)
    next => exact .inl rfl
  next => exact .inl rfl

end

structure Woke (t t' : Ptable) : Prop where
  initproc : t'.initproc = t.initproc
  nextpid : t'.nextpid = t.nextpid
  pid : ∀ q, (t'.proc q).pid = (t.proc q).pid
  chan : ∀ q, (t'.proc q).chan = (t.proc q).chan
  killed : ∀ q, (t'.proc q).killed = (t.proc q).killed
  state : ∀ q, (t'.proc q).state = (t.proc q).state ∨
    (t.proc q).state = .sleeping ∧ (t'.proc q).state = .runnable

theorem Woke.refl (t : Ptable) : Woke t t :=
  ⟨rfl, rfl, fun _ => rfl, fun _ => rfl, fun _ => rfl, fun _ => .inl rfl⟩

theorem woke_wakeup1 (t : Ptable) (chan : Option Chan) : Woke t (t.wakeup1 chan) :=
  ⟨rfl, rfl, fun q => (t.proc q).pid_wake chan, fun q => (t.proc q).chan_wake chan,
    fun q => (t.proc q).killed_wake chan, fun q => (t.proc q).state_wake chan⟩

namespace Woke

variable {t t' t'' : Ptable} {q : Slot}

theorem trans (first : Woke t t') (second : Woke t' t'') : Woke t t'' where
  initproc := second.initproc.trans first.initproc
  nextpid := second.nextpid.trans first.nextpid
  pid := fun q => (second.pid q).trans (first.pid q)
  chan := fun q => (second.chan q).trans (first.chan q)
  killed := fun q => (second.killed q).trans (first.killed q)
  state := by
    intro q
    rcases first.state q with same | ⟨asleep, woken⟩
    · rcases second.state q with same' | ⟨asleep', woken'⟩
      · exact .inl (same'.trans same)
      · exact .inr ⟨same ▸ asleep', woken'⟩
    · rcases second.state q with same' | ⟨asleep', _⟩
      · exact .inr ⟨asleep, same'.trans woken⟩
      · exact absurd (woken.symm.trans asleep') (by simp)

theorem state_iff (woke : Woke t t') {state : ProcState} (awake : state ≠ .sleeping)
    (idle : state ≠ .runnable) : (t'.proc q).state = state ↔ (t.proc q).state = state := by
  rcases woke.state q with same | ⟨asleep, woken⟩
  · rw [same]
  · rw [asleep, woken]
    exact iff_of_false (Ne.symm idle) (Ne.symm awake)

theorem sleeping (woke : Woke t t') (asleep : (t'.proc q).state = .sleeping) :
    (t.proc q).state = .sleeping := by
  rcases woke.state q with same | ⟨before, _⟩
  · rw [← same, asleep]
  · exact before

end Woke

structure PassedOn (p : Slot) (slots : List Slot) (t t' : Ptable) : Prop extends Woke t t' where
  parent : ∀ q, (t'.proc q).parent =
    if q ∈ slots ∧ (t.proc q).parent = some p then some t.initproc else (t.proc q).parent
  noticed : ∀ z ∈ slots, (t.proc z).parent = some p → (t.proc z).state = .zombie →
    ∀ q, (t'.proc q).state = .sleeping → (t'.proc q).chan ≠ some (.proc t.initproc)

theorem PassedOn.refl (p : Slot) (t : Ptable) : PassedOn p [] t t where
  toWoke := .refl t
  parent := fun q => by rw [if_neg fun both => not_mem_nil both.1]
  noticed := fun z member => absurd member not_mem_nil

theorem passedOn_passChild (t : Ptable) (p z : Slot) : PassedOn p [z] t (passChild p t z) := by
  unfold passChild
  split
  next child =>
    have moved : Woke t (t.setParent z t.initproc) := by
      refine ⟨rfl, rfl, ?_, ?_, ?_, ?_⟩
      all_goals
        intro q
        rw [setParent, proc_modify]
      · split <;> rfl
      · split <;> rfl
      · split <;> rfl
      · exact .inl (by split <;> rfl)
    have parents : ∀ q, ((t.setParent z t.initproc).proc q).parent =
        if q ∈ [z] ∧ (t.proc q).parent = some p then some t.initproc
        else (t.proc q).parent := by
      intro q
      rw [setParent, proc_modify]
      by_cases same : q = z
      · rw [if_pos same, if_pos ⟨mem_singleton.mpr same, same ▸ child⟩]
      · rw [if_neg same, if_neg fun both => same (mem_singleton.mp both.1)]
    split
    next =>
      refine ⟨moved.trans (woke_wakeup1 _ _), ?_, ?_⟩
      · intro q
        rw [proc_wakeup1, Entry.parent_wake]
        exact parents q
      · intro _ _ _ _ q asleep
        rw [proc_wakeup1, Entry.chan_wake]
        exact (Entry.sleeping_of_wake asleep).2
    next alive =>
      refine ⟨moved, parents, ?_⟩
      intro z' member _ dead
      rw [mem_singleton.mp member] at dead
      exact absurd dead alive
  next stranger =>
    refine ⟨.refl t, ?_, ?_⟩
    · intro q
      rw [if_neg]
      intro both
      exact stranger (mem_singleton.mp both.1 ▸ both.2)
    · intro z' member child
      rw [mem_singleton.mp member] at child
      exact absurd child stranger

theorem PassedOn.cons {z : Slot} {slots : List Slot} {t'' : Ptable} (first : PassedOn p [z] t t')
    (rest : PassedOn p slots t' t'') (other : t.initproc ≠ p) : PassedOn p (z :: slots) t t'' where
  toWoke := first.toWoke.trans rest.toWoke
  parent := by
    intro q
    rw [rest.parent, first.parent, first.initproc]
    by_cases child : (t.proc q).parent = some p
    · by_cases head : q = z
      · subst head
        simp [child, other]
      · simp [child, head]
    · simp [child]
  noticed := by
    intro z' member child dead q asleep
    by_cases head : z' = z
    · rw [rest.chan]
      exact first.noticed z' (mem_singleton.mpr head) child dead q
        (rest.toWoke.sleeping asleep)
    · rw [← first.initproc]
      refine rest.noticed z' (mem_of_ne_of_mem head member) ?_ ?_ q asleep
      · rw [first.parent, if_neg fun both => head (mem_singleton.mp both.1), child]
      · rw [first.state_iff (by simp) (by simp)]
        exact dead

theorem passedOn_foldl (slots : List Slot) (other : t.initproc ≠ p) :
    PassedOn p slots t (slots.foldl (passChild p) t) := by
  induction slots generalizing t with
  | nil => exact .refl p t
  | cons z slots induction =>
    have first := passedOn_passChild t p z
    exact first.cons (induction (by rw [first.initproc]; exact other)) other

structure Exited (t : Ptable) (p : Slot) (t' : Ptable) : Prop where
  initproc : t'.initproc = t.initproc
  nextpid : t'.nextpid = t.nextpid
  pid : ∀ q, (t'.proc q).pid = (t.proc q).pid
  chan : ∀ q, (t'.proc q).chan = (t.proc q).chan
  killed : ∀ q, (t'.proc q).killed = (t.proc q).killed
  parent : ∀ q, (t'.proc q).parent =
    if (t.proc q).parent = some p then some t.initproc else (t.proc q).parent
  dead : (t'.proc p).state = .zombie
  state : ∀ q, q ≠ p → (t'.proc q).state = (t.proc q).state ∨
    (t.proc q).state = .sleeping ∧ (t'.proc q).state = .runnable
  told : ∀ q, (t'.proc q).state = .sleeping →
    (t'.proc q).chan ≠ (t.proc p).parent.map .proc
  noticed : ∀ z, (t.proc z).parent = some p → (t.proc z).state = .zombie →
    ∀ q, (t'.proc q).state = .sleeping → (t'.proc q).chan ≠ some (.proc t.initproc)

theorem exited_exit (other : t.initproc ≠ p) : Exited t p (t.exit p) := by
  have first := woke_wakeup1 t ((t.proc p).parent.map .proc)
  have passed : PassedOn p (List.finRange nproc) (t.wakeup1 ((t.proc p).parent.map .proc)) _ :=
    passedOn_foldl (List.finRange nproc) other
  have woke := first.trans passed.toWoke
  unfold exit
  generalize List.foldl (passChild p) _ _ = middle at passed woke ⊢
  have kept : ∀ (A : Type) (field : Entry → A),
      (∀ e : Entry, field { e with state := .zombie } = field e) → ∀ q,
      field ((middle.modify p fun e => { e with state := .zombie }).proc q) =
        field (middle.proc q) := by
    intro A field same q
    rw [proc_modify]
    split
    next => exact same _
    next => rfl
  have asleep_before : ∀ q,
      ((middle.modify p fun e => { e with state := .zombie }).proc q).state = .sleeping →
        (middle.proc q).state = .sleeping := by
    intro q asleep
    rw [proc_modify] at asleep
    split at asleep
    next => cases asleep
    next => exact asleep
  refine ⟨woke.initproc, woke.nextpid, ?_, ?_, ?_, ?_, by simp, ?_, ?_, ?_⟩
  · intro q
    rw [kept Int32 Entry.pid (fun _ => rfl)]
    exact woke.pid q
  · intro q
    rw [kept _ Entry.chan (fun _ => rfl)]
    exact woke.chan q
  · intro q
    rw [kept Bool Entry.killed (fun _ => rfl)]
    exact woke.killed q
  · intro q
    rw [kept _ Entry.parent (fun _ => rfl), passed.parent, proc_wakeup1, Entry.parent_wake]
    simp [mem_finRange]
  · intro q otherThan
    rw [proc_modify_of_ne _ _ otherThan]
    exact woke.state q
  · intro q asleep
    have before := asleep_before q asleep
    rw [kept _ Entry.chan (fun _ => rfl), passed.chan, proc_wakeup1, Entry.chan_wake]
    exact (Entry.sleeping_of_wake (passed.toWoke.sleeping before)).2
  · intro z child dead q asleep
    rw [kept _ Entry.chan (fun _ => rfl)]
    refine passed.noticed z (mem_finRange z) ?_ ?_ q (asleep_before q asleep)
    · rw [proc_wakeup1, Entry.parent_wake, child]
    · rw [proc_wakeup1, Entry.state_wake_of_ne (by rw [dead]; simp), dead]

end Ptable

end StraceXv6.Kernel.Process
