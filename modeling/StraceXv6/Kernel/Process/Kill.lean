import StraceXv6.Kernel.Process.Machine

namespace StraceXv6.Kernel.Process

open Function Data

/-! `kill` compares numbers in entries that are not in use, too, and `allocproc` leaves the
mark of an earlier kill where it is. -/

namespace Ptable

structure KillsRightly (t : Ptable) (pid : Int32) : Prop where
  returns : (t.kill pid).1 = 0 ↔ ∃ p, (t.proc p).state ≠ .unused ∧ (t.proc p).pid = pid
  marks : (t.kill pid).1 = 0 → ∃ p, (t.proc p).state ≠ .unused ∧ (t.proc p).pid = pid ∧
    ∀ q, ((t.kill pid).2.proc q).killed = if q = p then true else (t.proc q).killed
  refuses : (t.kill pid).1 ≠ 0 → (t.kill pid).1 = -1 ∧ (t.kill pid).2 = t

/-- The first entry with the number, if there is one, is in use. -/
def FirstInUse (t : Ptable) (pid : Int32) : Prop :=
  ∀ p, t.withPid pid = some p → (t.proc p).state ≠ .unused

instance (t : Ptable) (pid : Int32) : Decidable (t.FirstInUse pid) :=
  inferInstanceAs (Decidable (∀ _, _ → _))

variable {t : Ptable} {pid : Int32} {p : Slot}

theorem pid_of_withPid (found : t.withPid pid = some p) : (t.proc p).pid = pid := by
  have same := List.find?_some found
  rwa [decide_eq_true_eq] at same

theorem pid_ne_of_withPid (missing : t.withPid pid = none) (p : Slot) :
    (t.proc p).pid ≠ pid := by
  have differs := List.find?_eq_none.mp missing p (List.mem_finRange p)
  rwa [decide_eq_true_eq] at differs

theorem kill_eq_of_some (found : t.withPid pid = some p) : t.kill pid = (0, t.modify p fun e =>
    { e with killed := true, state := if e.state = .sleeping then .runnable else e.state }) := by
  unfold kill
  rw [found]

theorem kill_eq_of_none (missing : t.withPid pid = none) : t.kill pid = (-1, t) := by
  unfold kill
  rw [missing]

theorem killed_kill (found : t.withPid pid = some p) (q : Slot) :
    ((t.kill pid).2.proc q).killed = if q = p then true else (t.proc q).killed := by
  rw [kill_eq_of_some found, proc_modify]
  split <;> rfl

theorem state_kill_ne_unused (q : Slot) :
    ((t.kill pid).2.proc q).state = .unused ↔ (t.proc q).state = .unused := by
  cases found : t.withPid pid with
  | none => rw [kill_eq_of_none found]
  | some p =>
    rw [kill_eq_of_some found, proc_modify]
    split
    next =>
      simp only
      split
      next asleep => simp [asleep]
      next => rfl
    next => rfl

theorem FirstInUse.killsRightly (inUse : t.FirstInUse pid) : t.KillsRightly pid := by
  cases found : t.withPid pid with
  | none =>
    have differs := pid_ne_of_withPid found
    have call := kill_eq_of_none found
    refine ⟨?_, ?_, ?_⟩
    · rw [call]
      refine iff_of_false (by decide : (-1 : Int32) ≠ 0) ?_
      intro ⟨p, _, same⟩
      exact differs p same
    · rw [call]
      exact fun zero => absurd zero (by decide : (-1 : Int32) ≠ 0)
    · rw [call]
      exact fun _ => ⟨rfl, rfl⟩
  | some p =>
    have used := inUse p found
    have same := pid_of_withPid found
    have zero : (t.kill pid).1 = 0 := by rw [kill_eq_of_some found]
    exact ⟨iff_of_true zero ⟨p, used, same⟩,
      fun _ => ⟨p, used, same, killed_kill found⟩, fun nonzero => absurd zero nonzero⟩

def Unmarked (proc : Slot → Entry) : Prop :=
  ∀ p, (proc p).state = .unused → (proc p).killed = false

variable {e : Entry} {proc : Slot → Entry}

theorem Unmarked.update (unmarked : Unmarked proc) (here : e.state = .unused → e.killed = false) :
    Unmarked (update proc p e) := by
  intro q
  rw [update_apply]
  split
  next => exact here
  next => exact unmarked q

theorem Unmarked.update_of_ne (unmarked : Unmarked proc) (used : e.state ≠ .unused) :
    Unmarked (Function.update proc p e) :=
  unmarked.update fun unused => absurd unused used

theorem Unmarked.woke {t' : Ptable} (unmarked : Unmarked t.proc) (woke : Woke t t') :
    Unmarked t'.proc := by
  intro q unused
  rw [woke.killed]
  exact unmarked q ((woke.state_iff (by simp) (by simp)).mp unused)

theorem Unmarked.killsRightly_iff (unmarked : Unmarked t.proc) :
    t.KillsRightly pid ↔ t.FirstInUse pid := by
  refine ⟨?_, FirstInUse.killsRightly⟩
  intro rightly p found unused
  have zero : (t.kill pid).1 = 0 := by rw [kill_eq_of_some found]
  obtain ⟨q, used, _, marks⟩ := rightly.marks zero
  have marked := marks p
  have other : p ≠ q := fun same => used (same ▸ unused)
  rw [killed_kill found, if_pos rfl, if_neg other, unmarked p unused] at marked
  exact Bool.false_ne_true marked.symm

end Ptable

namespace Machine

/-- A call of `kill` that does not hit an entry out of use, and a fork that fails before
its child was killed. -/
def Harmless (m : Machine) : Label → Prop
  | .kill _ pid => m.table.FirstInUse pid
  | .abort p => ∀ c, m.phase p = .forking c false → (m.table.proc c).killed = false
  | _ => True

instance (m : Machine) (label : Label) : Decidable (m.Harmless label) :=
  match label with
  | .kill _ pid => inferInstanceAs (Decidable (m.table.FirstInUse pid))
  | .abort p => inferInstanceAs (Decidable (∀ c, m.phase p = .forking c false →
      (m.table.proc c).killed = false))
  | .alloc _ | .parent _ | .publish _ | .exit _ | .wait _ | .sleep _ _ | .wakeup _ | .yield _
  | .schedule _ => .isTrue trivial

variable {m m' : Machine}

theorem Moved.unmarked {label : Label} (moved : Moved m label m')
    (unmarked : Ptable.Unmarked m.table.proc) (harmless : m.Harmless label) :
    Ptable.Unmarked m'.table.proc := by
  cases moved with
  | allocated _ _ _ | published _ _ | slept _ _ _ | rested _ _ | yielded _ | scheduled _ =>
    exact unmarked.update_of_ne ProcState.noConfusion
  | full | gaveUp _ _ => exact unmarked
  | @aborted p c _ forking =>
    exact unmarked.update fun _ => harmless c forking
  | parented _ _ => exact unmarked.update (unmarked _)
  | @exited p running _ other =>
    have exited := Ptable.exited_exit (Ne.symm other)
    intro q unused
    change ((m.table.exit p).proc q).killed = false
    change ((m.table.exit p).proc q).state = .unused at unused
    rw [exited.killed]
    apply unmarked
    by_cases same : q = p
    · rw [same, exited.dead] at unused
      cases unused
    · cases exited.state q same with
      | inl kept => rw [← kept, unused]
      | inr woken => exact absurd (woken.2.symm.trans unused) (by simp)
  | reaped _ _ _ _ => exact unmarked.update fun _ => rfl
  | @killed p pid _ _ =>
    intro q unused
    change ((m.table.kill pid).2.proc q).killed = false
    have before := (Ptable.state_kill_ne_unused q).mp unused
    cases found : m.table.withPid pid with
    | none =>
      rw [Ptable.kill_eq_of_none found]
      exact unmarked q before
    | some target =>
      have other : q ≠ target := fun same => harmless target found (same ▸ before)
      rw [Ptable.killed_kill found, if_neg other]
      exact unmarked q before
  | woke => exact unmarked.woke (Ptable.woke_wakeup1 _ _)

theorem killed_of_alloc {p c : Slot} (unmarked : Ptable.Unmarked m.table.proc)
    (stepped : m.step (.alloc p) = some m') (begun : m'.phase p = .forking c false)
    (idle : m.phase p = .idle) : (m'.table.proc c).killed = false := by
  cases moved_of_step stepped with
  | @allocated _ child _ _ free =>
    have same : Phase.forking child false = .forking c false :=
      (update_self p _ m.phase).symm.trans begun
    obtain ⟨rfl, _⟩ := Phase.forking.inj same
    change (update m.table.proc child _ child).killed = false
    rw [update_self]
    exact unmarked child free
  | full =>
    rw [idle] at begun
    cases begun

def killChild : List Label :=
  [.schedule 0, .alloc 0, .parent 0, .publish 0, .kill 0 2, .schedule 1, .exit 1, .wait 0,
    .alloc 0]

end Machine

end StraceXv6.Kernel.Process
