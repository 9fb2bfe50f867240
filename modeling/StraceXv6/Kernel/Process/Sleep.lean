import StraceXv6.Kernel.Process.Table

namespace StraceXv6.Kernel.Process.Sleep

open List Function Data

/-! `sleep` and `wakeup`, one lock operation or one store at a time.  A process waits for a
condition on shared data under a lock `lk`, or makes the condition hold and wakes those that
wait, again and again; it may be interrupted where it holds no lock. -/

inductive Lock where
  | ptable
  | other (address : Nat)
  deriving DecidableEq

inductive Holder (n : Nat) where
  | proc (p : Fin n)
  | scheduler
  deriving DecidableEq

inductive Back where
  | outside
  | reacquire
  deriving DecidableEq

inductive Reason where
  | sleep
  | yield (back : Back)
  deriving DecidableEq

inductive Pc where
  | outside
  -- while(!cond) sleep(chan, lk); ..; release(lk)
  | test
  | body
  -- sleep
  | enter
  | handOver
  | setChan
  | setState
  | tidy
  | leave
  | reacquire
  -- sched
  | sched (reason : Reason)
  | switched (reason : Reason)
  -- cond := true; wakeup(chan); release(lk)
  | raise
  | wakeup
  | scan (i : Nat)
  | leaveWakeup
  | finish
  -- yield
  | yield (back : Back)
  | giveUp (back : Back)
  | resumed (back : Back)
  deriving DecidableEq

structure Machine (n : Nat) (D : Type) where
  pc : Fin n → Pc
  state : Fin n → ProcState
  chan : Fin n → Option Chan
  locked : Lock → Option (Holder n)
  data : D

inductive Label (n : Nat) (D : Type) where
  | wait (p : Fin n)
  | wake (p : Fin n)
  | preempt (p : Fin n)
  | advance (p : Fin n)
  | raise (p : Fin n) (data : D)
  | change (p : Fin n) (data : D)
  | take
  | pick (p : Fin n)
  | give

def Back.pc : Back → Pc
  | .outside => .outside
  | .reacquire => .reacquire

def Reason.pc : Reason → Pc
  | .sleep => .tidy
  | .yield back => .resumed back

namespace Machine

variable {n : Nat} {D : Type}

def setPc (m : Machine n D) (p : Fin n) (pc : Pc) : Machine n D :=
  { m with pc := Function.update m.pc p pc }

def setLock (m : Machine n D) (l : Lock) (holder : Option (Holder n)) : Machine n D :=
  { m with locked := Function.update m.locked l holder }

def setState (m : Machine n D) (p : Fin n) (state : ProcState) : Machine n D :=
  { m with state := Function.update m.state p state }

def setChan (m : Machine n D) (p : Fin n) (chan : Option Chan) : Machine n D :=
  { m with chan := Function.update m.chan p chan }

def setData (m : Machine n D) (data : D) : Machine n D := { m with data := data }

def acquire (m : Machine n D) (p : Fin n) (l : Lock) (next : Pc) : Option (Machine n D) :=
  if m.locked l = none then some ((m.setLock l (some (.proc p))).setPc p next) else none

def release (m : Machine n D) (p : Fin n) (l : Lock) (next : Pc) : Option (Machine n D) :=
  if m.locked l = some (.proc p) then some ((m.setLock l none).setPc p next) else none

def wake1 (m : Machine n D) (chan : Chan) (i : Fin n) : Machine n D :=
  if m.state i = .sleeping ∧ m.chan i = some chan then m.setState i .runnable else m

section

variable (lk : Lock) (chan : Chan) (cond : D → Bool)

def advance (m : Machine n D) (p : Fin n) : Option (Machine n D) :=
  match m.pc p with
  | .test =>
    if cond m.data then some (m.setPc p .body)
    else if lk = .ptable then some (m.setPc p .setChan)
    else some (m.setPc p .enter)
  | .body => m.release p lk .outside
  | .enter => m.acquire p .ptable .handOver
  | .handOver => m.release p lk .setChan
  | .setChan => some ((m.setChan p (some chan)).setPc p .setState)
  | .setState => some ((m.setState p .sleeping).setPc p (.sched .sleep))
  | .tidy => some ((m.setChan p none).setPc p (if lk = .ptable then .test else .leave))
  | .leave => m.release p .ptable .reacquire
  | .reacquire => m.acquire p lk .test
  | .sched reason =>
    some ((m.setLock .ptable (some .scheduler)).setPc p (.switched reason))
  | .wakeup => m.acquire p .ptable (.scan 0)
  | .scan i =>
    if bound : i < n then some ((m.wake1 chan ⟨i, bound⟩).setPc p (.scan (i + 1)))
    else some (m.setPc p (if lk = .ptable then .finish else .leaveWakeup))
  | .leaveWakeup => m.release p .ptable .finish
  | .finish => m.release p lk .outside
  | .yield back => m.acquire p .ptable (.giveUp back)
  | .giveUp back => some ((m.setState p .runnable).setPc p (.sched (.yield back)))
  | .resumed back => m.release p .ptable back.pc
  | .outside | .switched _ | .raise => none

def step (m : Machine n D) : Label n D → Option (Machine n D)
  | .wait p => if m.pc p = .outside then m.acquire p lk .test else none
  | .wake p => if m.pc p = .outside then m.acquire p lk .raise else none
  | .preempt p =>
    match m.pc p with
    | .outside => some (m.setPc p (.yield .outside))
    | .reacquire => some (m.setPc p (.yield .reacquire))
    | _ => none
  | .advance p => m.advance lk chan cond p
  | .raise p data =>
    if m.pc p = .raise ∧ cond data then
      some ((m.setData data).setPc p (if lk = .ptable then .scan 0 else .wakeup))
    else none
  -- What a process does after it waited makes the condition false or keeps it.
  | .change p data =>
    if m.pc p = .body ∧ (cond data → cond m.data) then some (m.setData data) else none
  | .take => if m.locked .ptable = none then some (m.setLock .ptable (some .scheduler)) else none
  | .pick p =>
    match m.pc p with
    | .switched reason =>
      if m.locked .ptable = some .scheduler ∧ m.state p = .runnable then
        some (((m.setLock .ptable (some (.proc p))).setState p .running).setPc p reason.pc)
      else none
    | _ => none
  | .give =>
    if m.locked .ptable = some .scheduler then some (m.setLock .ptable none) else none

end

def boot (data : D) : Machine n D where
  pc := fun _ => .outside
  state := fun _ => .running
  chan := fun _ => none
  locked := fun _ => none
  data := data

end Machine

@[simp] def Pc.holds (lk : Lock) : Pc → List Lock
  | .test | .body | .enter | .raise | .wakeup | .finish => [lk]
  | .handOver | .scan _ | .leaveWakeup => [lk, .ptable]
  | .setChan | .setState | .tidy | .leave | .sched _ | .giveUp _ | .resumed _ => [.ptable]
  | .outside | .reacquire | .switched _ | .yield _ => []

/-- Calls that are only made if `lk` is not `ptable.lock`. -/
@[simp] def Pc.split : Pc → Bool
  | .enter | .handOver | .leave | .reacquire | .wakeup | .leaveWakeup => true
  | .yield back | .giveUp back | .sched (.yield back) | .switched (.yield back)
  | .resumed back => back = .reacquire
  | _ => false

def Pc.waker : Pc → Bool
  | .raise | .wakeup | .scan _ | .leaveWakeup | .finish => true
  | _ => false

/-- The process will sleep, whatever the condition is by then. -/
@[simp] def Pc.drowsy : Pc → Bool
  | .enter | .handOver | .setChan | .setState => true
  | _ => false

/-- The waker will look at process `p`. -/
@[simp] def Pc.Pending {n : Nat} (pc : Pc) (p : Fin n) : Prop :=
  pc = .wakeup ∨ ∃ i, pc = .scan i ∧ i ≤ p.val

/-- A process that is awake goes on to `c`, with no effect on who sleeps or is woken. -/
structure Pc.Follows (lk : Lock) (b c : Pc) : Prop where
  split : (b.split = true → lk ≠ .ptable) → c.split = true → lk ≠ .ptable
  awake : b ≠ .sched .sleep ∧ b ≠ .switched .sleep
  drowsy : c.drowsy = true → b.drowsy = true
  pending : ∀ {n : Nat} (q : Fin n), b.Pending q → c.Pending q

namespace Machine

variable {n : Nat} {D : Type}

def Sleepy (chan : Chan) (m : Machine n D) (p : Fin n) : Prop :=
  (m.pc p).drowsy = true ∨ m.state p = .sleeping ∧ m.chan p = some chan

/-- The locks are held by those that are where they hold them. -/
def Owned (lk : Lock) (m : Machine n D) : Prop :=
  ∀ l p, m.locked l = some (.proc p) ↔ l ∈ (m.pc p).holds lk

structure Kept (lk : Lock) (chan : Chan) (cond : D → Bool) (m : Machine n D) : Prop where
  owned : m.Owned lk
  split : ∀ p, (m.pc p).split = true → lk ≠ .ptable
  asleep : ∀ p, m.state p = .sleeping → m.pc p = .sched .sleep ∨ m.pc p = .switched .sleep
  noMissed : ∀ p, m.Sleepy chan p → cond m.data = true → ∃ k, (m.pc k).Pending p

section

variable {lk l : Lock} {chan : Chan} {cond : D → Bool} {m m' : Machine n D} {p : Fin n} {c : Pc}

theorem Owned.relock (owned : m.Owned lk) {holder : Option (Holder n)}
    (pcs : m'.pc = update m.pc p c) (locks : m'.locked = update m.locked l holder)
    (before : ∀ q, m.locked l = some (.proc q) → q = p)
    (after : ∀ q, holder = some (.proc q) ↔ q = p ∧ l ∈ c.holds lk)
    (rest : ∀ l', l' ≠ l → (l' ∈ c.holds lk ↔ l' ∈ (m.pc p).holds lk)) : m'.Owned lk := by
  intro l' q
  rw [pcs, locks]
  by_cases lock : l' = l
  · subst lock
    rw [update_self, after]
    by_cases mine : q = p
    · subst mine
      rw [update_self]
      exact and_iff_right rfl
    · rw [update_of_ne mine, ← owned l' q]
      exact iff_of_false (fun both => mine both.1) (fun held => mine (before q held))
  · rw [update_of_ne lock]
    by_cases mine : q = p
    · subst mine
      rw [update_self, rest l' lock]
      exact owned l' q
    · rw [update_of_ne mine]
      exact owned l' q

theorem Owned.jump (owned : m.Owned lk) (pcs : m'.pc = update m.pc p c)
    (locks : m'.locked = m.locked)
    (same : ∀ l, l ∈ c.holds lk ↔ l ∈ (m.pc p).holds lk) : m'.Owned lk := by
  intro l q
  rw [pcs, locks]
  by_cases mine : q = p
  · subst mine
    rw [update_self, same l]
    exact owned l q
  · rw [update_of_ne mine]
    exact owned l q

theorem Owned.unique (owned : m.Owned lk) {q : Fin n} (mine : l ∈ (m.pc p).holds lk)
    (also : l ∈ (m.pc q).holds lk) : p = q := by
  have first := (owned l p).mpr mine
  have second := (owned l q).mpr also
  exact Holder.proc.inj (Option.some.inj (first.symm.trans second))

section

variable (m) (chan) (i q : Fin n)

@[simp] theorem pc_wake1 : (m.wake1 chan i).pc = m.pc := by
  unfold wake1
  split <;> rfl

@[simp] theorem chan_wake1 : (m.wake1 chan i).chan = m.chan := by
  unfold wake1
  split <;> rfl

@[simp] theorem locked_wake1 : (m.wake1 chan i).locked = m.locked := by
  unfold wake1
  split <;> rfl

@[simp] theorem data_wake1 : (m.wake1 chan i).data = m.data := by
  unfold wake1
  split <;> rfl

variable {m chan i q}

theorem sleeping_of_wake1 (asleep : (m.wake1 chan i).state q = .sleeping) :
    m.state q = .sleeping ∧ (m.chan q = some chan → q ≠ i) := by
  unfold wake1 at asleep
  split at asleep
  next =>
    change update m.state i .runnable q = .sleeping at asleep
    have other : q ≠ i := by
      intro same
      rw [same, update_self] at asleep
      cases asleep
    rw [update_of_ne other] at asleep
    exact ⟨asleep, fun _ => other⟩
  next awake =>
    refine ⟨asleep, ?_⟩
    intro same equal
    rw [equal] at asleep same
    exact awake ⟨asleep, same⟩

end

namespace Kept

theorem place (kept : Kept lk chan cond m) (pcs : m'.pc = update m.pc p c)
    (owned : m'.Owned lk) (split : c.split = true → lk ≠ .ptable)
    (others : ∀ q, q ≠ p → m'.state q = .sleeping → m.state q = .sleeping)
    (asleep : m'.state p = .sleeping → c = .sched .sleep ∨ c = .switched .sleep)
    (noMissed : ∀ q, m'.Sleepy chan q → cond m'.data = true → ∃ k, (m'.pc k).Pending q) :
    Kept lk chan cond m' := by
  refine ⟨owned, ?_, ?_, noMissed⟩
  · intro q
    rw [pcs]
    by_cases mine : q = p
    · rw [mine, update_self]
      exact split
    · rw [update_of_ne mine]
      exact kept.split q
  · intro q sleeps
    rw [pcs]
    by_cases mine : q = p
    · rw [mine, update_self]
      rw [mine] at sleeps
      exact asleep sleeps
    · rw [update_of_ne mine]
      exact kept.asleep q (others q mine sleeps)

theorem move (kept : Kept lk chan cond m) (pcs : m'.pc = update m.pc p c)
    (owned : m'.Owned lk) (split : c.split = true → lk ≠ .ptable)
    (others : ∀ q, q ≠ p → m'.state q = m.state q ∧ m'.chan q = m.chan q)
    (asleep : m'.state p = .sleeping → c = .sched .sleep ∨ c = .switched .sleep)
    (data : m'.data = m.data)
    (drowsy : cond m.data = true → c.drowsy = true → (m.pc p).drowsy = true)
    (sleeps : m'.state p = .sleeping → m'.chan p = some chan → m.Sleepy chan p)
    (pending : ∀ q : Fin n, (m.pc p).Pending q → c.Pending q) : Kept lk chan cond m' := by
  have here : m'.pc p = c := by rw [pcs, update_self]
  have there : ∀ q, q ≠ p → m'.pc q = m.pc q := by
    intro q other
    rw [pcs, update_of_ne other]
  refine kept.place pcs owned split (fun q other => (others q other).1 ▸ id) asleep ?_
  intro q asleep holds
  rw [data] at holds
  have before : m.Sleepy chan q := by
    by_cases mine : q = p
    · rw [mine] at asleep ⊢
      cases asleep with
      | inl will => exact .inl (drowsy holds (here ▸ will))
      | inr does => exact sleeps does.1 does.2
    · unfold Sleepy at asleep
      rw [there q mine, (others q mine).1, (others q mine).2] at asleep
      exact asleep
  obtain ⟨k, waker⟩ := kept.noMissed q before holds
  refine ⟨k, ?_⟩
  by_cases mine : k = p
  · rw [mine] at waker ⊢
    rw [here]
    exact pending q waker
  · rw [there k mine]
    exact waker

variable {b : Pc} {holder : Option (Holder n)} {l : Lock} {reason : Reason} {q : Fin n} {i : Nat}

theorem awake (kept : Kept lk chan cond m) (pc : m.pc p = b)
    (places : b ≠ .sched .sleep ∧ b ≠ .switched .sleep) : m.state p ≠ .sleeping := by
  intro asleep
  rcases pc ▸ kept.asleep p asleep with same | same
  · exact places.1 same
  · exact places.2 same

theorem relock (kept : Kept lk chan cond m) (pc : m.pc p = b) (follows : b.Follows lk c)
    (before : ∀ q, m.locked l = some (.proc q) → q = p)
    (after : ∀ q, holder = some (.proc q) ↔ q = p ∧ l ∈ c.holds lk)
    (rest : ∀ l', l' ≠ l → (l' ∈ c.holds lk ↔ l' ∈ b.holds lk)) :
    Kept lk chan cond ((m.setLock l holder).setPc p c) := by
  refine kept.move rfl (kept.owned.relock rfl rfl before after (pc ▸ rest))
    (follows.split (pc ▸ kept.split p)) (fun _ _ => ⟨rfl, rfl⟩)
    (fun asleep => absurd asleep (kept.awake pc follows.awake)) rfl (fun _ => pc ▸ follows.drowsy) ?_
    (pc ▸ follows.pending)
  exact fun state chan => .inr ⟨state, chan⟩

theorem acquire (kept : Kept lk chan cond m) (pc : m.pc p = b)
    (acquired : m.acquire p l c = some m')
    (gains : ∀ l', l' ∈ c.holds lk ↔ l' = l ∨ l' ∈ b.holds lk) (follows : b.Follows lk c) :
    Kept lk chan cond m' := by
  unfold Machine.acquire at acquired
  obtain ⟨free, rfl⟩ := of_guard acquired
  refine kept.relock pc follows ?_ ?_ ?_
  · intro q held
    exact absurd (free.symm.trans held) (by simp)
  · intro q
    rw [gains l, Option.some.injEq, Holder.proc.injEq, eq_comm]
    simp
  · intro l' other
    rw [gains l']
    exact or_iff_right other

theorem release (kept : Kept lk chan cond m) (pc : m.pc p = b)
    (released : m.release p l c = some m')
    (loses : ∀ l', l' ∈ c.holds lk ↔ l' ≠ l ∧ l' ∈ b.holds lk) (follows : b.Follows lk c) :
    Kept lk chan cond m' := by
  unfold Machine.release at released
  obtain ⟨held, rfl⟩ := of_guard released
  refine kept.relock pc follows ?_ ?_ ?_
  · intro q also
    exact (Holder.proc.inj (Option.some.inj (held.symm.trans also))).symm
  · intro q
    rw [loses l]
    simp
  · intro l' other
    rw [loses l']
    exact and_iff_right other

theorem jump (kept : Kept lk chan cond m) (pc : m.pc p = b)
    (same : ∀ l, l ∈ c.holds lk ↔ l ∈ b.holds lk) (follows : b.Follows lk c) :
    Kept lk chan cond (m.setPc p c) := by
  refine kept.move rfl (kept.owned.jump rfl rfl (pc ▸ same)) (follows.split (pc ▸ kept.split p))
    (fun _ _ => ⟨rfl, rfl⟩) (fun asleep => absurd asleep (kept.awake pc follows.awake)) rfl
    (fun _ => pc ▸ follows.drowsy) ?_ (pc ▸ follows.pending)
  exact fun state chan => .inr ⟨state, chan⟩

theorem test (kept : Kept lk chan cond m) (pc : m.pc p = .test) (fails : ¬cond m.data = true)
    (same : ∀ l, l ∈ c.holds lk ↔ l = lk) (split : c.split = true → lk ≠ .ptable) :
    Kept lk chan cond (m.setPc p c) := by
  have awake := kept.awake pc (by simp)
  refine kept.move rfl (kept.owned.jump rfl rfl ?_) split (fun _ _ => ⟨rfl, rfl⟩)
    (fun asleep => absurd asleep awake) rfl (fun holds => absurd holds fails)
    (fun asleep => absurd asleep awake) ?_
  · intro l
    rw [same, pc]
    simp
  · rw [pc]
    simp

theorem store (kept : Kept lk chan cond m) (pc : m.pc p = b) (follows : b.Follows lk c)
    (pcs : m'.pc = update m.pc p c) (locks : m'.locked = m.locked) (data : m'.data = m.data)
    (same : ∀ l, l ∈ c.holds lk ↔ l ∈ b.holds lk)
    (others : ∀ q, q ≠ p → m'.state q = m.state q ∧ m'.chan q = m.chan q)
    (asleep : m'.state p = .sleeping → c = .sched .sleep ∧ b.drowsy = true) :
    Kept lk chan cond m' :=
  kept.move pcs (kept.owned.jump pcs locks (pc ▸ same)) (follows.split (pc ▸ kept.split p)) others
    (fun sleeps => .inl (asleep sleeps).1) data (fun _ => pc ▸ follows.drowsy)
    (fun sleeps _ => .inl (pc ▸ (asleep sleeps).2)) (pc ▸ follows.pending)

theorem sched (kept : Kept lk chan cond m) (pc : m.pc p = .sched reason) :
    Kept lk chan cond ((m.setLock .ptable (some .scheduler)).setPc p (.switched reason)) := by
  have mine : m.locked .ptable = some (.proc p) := by
    rw [kept.owned, pc]
    exact mem_singleton_self _
  refine kept.move rfl (kept.owned.relock rfl rfl ?_ ?_ ?_) ?_ (fun _ _ => ⟨rfl, rfl⟩) ?_ rfl
    (fun _ drowsy => absurd drowsy (by simp)) (fun state chan => .inr ⟨state, chan⟩)
    (by simp [pc])
  · intro q held
    exact (Holder.proc.inj (Option.some.inj (mine.symm.trans held))).symm
  · simp
  · simp [pc]
  · have before := kept.split p
    rw [pc] at before
    cases reason with
    | sleep => exact fun split => absurd split (by simp)
    | yield back => exact before
  · intro asleep
    have before := kept.asleep p asleep
    rw [pc] at before
    simpa using before

theorem pick (kept : Kept lk chan cond m) (pc : m.pc p = .switched reason)
    (held : m.locked .ptable = some .scheduler) :
    Kept lk chan cond
      (((m.setLock .ptable (some (.proc p))).setState p .running).setPc p reason.pc) := by
  have running : update m.state p .running p ≠ ProcState.sleeping := by
    rw [update_self]
    simp
  refine kept.move rfl (kept.owned.relock rfl rfl ?_ ?_ ?_) ?_ ?_
    (fun asleep => absurd asleep running) rfl ?_ (fun asleep => absurd asleep running)
    (by simp [pc])
  · intro q also
    exact absurd (held.symm.trans also) (by simp)
  · intro q
    cases reason <;> simp [Reason.pc, eq_comm]
  · rw [pc]
    cases reason <;> simp [Reason.pc]
  · have before := kept.split p
    rw [pc] at before
    cases reason with
    | sleep => exact fun split => absurd split (by simp [Reason.pc])
    | yield back => exact before
  · exact fun q other => ⟨update_of_ne other .., rfl⟩
  · cases reason <;> simp [Reason.pc]

theorem scheduler (kept : Kept lk chan cond m) (before : ∀ q, m.locked .ptable ≠ some (.proc q))
    (after : ∀ q, holder ≠ some (.proc q)) : Kept lk chan cond (m.setLock .ptable holder) := by
  refine ⟨?_, kept.split, kept.asleep, kept.noMissed⟩
  intro l q
  change update m.locked .ptable holder l = some (.proc q) ↔ l ∈ (m.pc q).holds lk
  rw [← kept.owned l q]
  by_cases lock : l = .ptable
  · rw [lock, update_self]
    exact iff_of_false (after q) (before q)
  · rw [update_of_ne lock]

theorem raise (kept : Kept lk chan cond m) (pc : m.pc p = .raise) {data : D}
    (next : c = if lk = .ptable then .scan 0 else .wakeup) :
    Kept lk chan cond ((m.setData data).setPc p c) := by
  have pending : ∀ q : Fin n, c.Pending q := by
    intro q
    rw [next]
    split
    next => exact .inr ⟨0, rfl, Nat.zero_le _⟩
    next => exact .inl rfl
  have awake := kept.awake pc (by simp)
  refine kept.place rfl (kept.owned.jump rfl rfl ?_) ?_ (fun _ _ => id)
    (fun asleep => absurd asleep awake) ?_
  · rw [pc, next]
    split
    next same => simp [same]
    next => simp
  · rw [next]
    split
    next => simp
    next different => exact fun _ => different
  · intro q _ _
    refine ⟨p, ?_⟩
    change (update m.pc p c p).Pending q
    rw [update_self]
    exact pending q

theorem holds_of_pending (pending : c.Pending q) : lk ∈ c.holds lk := by
  rcases pending with same | ⟨i, same, _⟩
  · rw [same]
    exact mem_singleton_self _
  · rw [same]
    exact mem_cons_self

theorem pending_of_scan (kept : Kept lk chan cond m) (pc : m.pc p = .scan i)
    (sleepy : m.Sleepy chan q) (holds : cond m.data = true) : i ≤ q.val := by
  obtain ⟨k, pending⟩ := kept.noMissed q sleepy holds
  have mine : lk ∈ (m.pc p).holds lk := by
    rw [pc]
    exact mem_cons_self
  have same := kept.owned.unique mine (holds_of_pending pending)
  rw [← same, pc] at pending
  rcases pending with other | ⟨j, equal, le⟩
  · cases other
  · obtain rfl := Pc.scan.inj equal
    exact le

theorem awake_of_scan (kept : Kept lk chan cond m) (pc : m.pc p = .scan i) (q : Fin n) :
    (m.pc q).drowsy = false := by
  have both : ∀ l, l = lk ∨ l = .ptable → l ∈ (m.pc p).holds lk := by
    rw [pc]
    simp
  by_contra drowsy
  have same : p = q := by
    cases place : m.pc q with
    | enter | handOver =>
      apply kept.owned.unique (both lk (.inl rfl))
      simp [place]
    | setChan | setState =>
      apply kept.owned.unique (both .ptable (.inr rfl))
      simp [place]
    | _ => simp [place] at drowsy
  rw [← same, pc] at drowsy
  simp at drowsy

theorem scan (kept : Kept lk chan cond m) (pc : m.pc p = .scan i) (bound : i < n) :
    Kept lk chan cond ((m.wake1 chan ⟨i, bound⟩).setPc p (.scan (i + 1))) := by
  have pcs : ((m.wake1 chan ⟨i, bound⟩).setPc p (.scan (i + 1))).pc =
      update m.pc p (.scan (i + 1)) := by simp [setPc]
  have asleep : ∀ q, ((m.wake1 chan ⟨i, bound⟩).setPc p (.scan (i + 1))).state q = .sleeping →
      m.state q = .sleeping ∧ (m.chan q = some chan → q ≠ ⟨i, bound⟩) :=
    fun q => sleeping_of_wake1
  refine kept.place pcs (kept.owned.jump pcs (m.locked_wake1 chan _) ?_) (by simp)
    (fun q _ sleeps => (asleep q sleeps).1) ?_ ?_
  · simp [pc]
  · exact fun sleeps => absurd (asleep p sleeps).1 (kept.awake pc (by simp))
  · intro q sleepy holds
    refine ⟨p, .inr ⟨i + 1, ?_, ?_⟩⟩
    · rw [pcs, update_self]
    · have awake : (update m.pc p (.scan (i + 1)) q).drowsy = false := by
        by_cases mine : q = p
        · rw [mine, update_self]
          rfl
        · rw [update_of_ne mine]
          exact kept.awake_of_scan pc q
      cases sleepy with
      | inl will =>
        rw [pcs, awake] at will
        cases will
      | inr does =>
        obtain ⟨sleeps, onChan⟩ := does
        obtain ⟨before, other⟩ := asleep q sleeps
        have same : m.chan q = some chan := m.chan_wake1 chan ⟨i, bound⟩ ▸ onChan
        have later := kept.pending_of_scan pc (.inr ⟨before, same⟩)
          (m.data_wake1 chan ⟨i, bound⟩ ▸ holds)
        exact Nat.lt_of_le_of_ne later fun equal => other same (Fin.ext equal.symm)

theorem scanned (kept : Kept lk chan cond m) (pc : m.pc p = .scan i) (bound : ¬i < n)
    (next : c = if lk = .ptable then .finish else .leaveWakeup) :
    Kept lk chan cond (m.setPc p c) := by
  have awake := kept.awake pc (by simp)
  refine kept.place rfl (kept.owned.jump rfl rfl ?_) ?_ (fun _ _ => id)
    (fun asleep => absurd asleep awake) ?_
  · rw [pc, next]
    split
    next same => simp [same]
    next => simp
  · rw [next]
    split
    next => simp
    next different => exact fun _ => different
  · intro q sleepy holds
    have before : m.Sleepy chan q := by
      cases sleepy with
      | inl will =>
        change (update m.pc p c q).drowsy = true at will
        by_cases mine : q = p
        · rw [mine, update_self, next] at will
          split at will <;> simp at will
        · rw [update_of_ne mine] at will
          exact .inl will
      | inr does => exact .inr does
    have later := kept.pending_of_scan pc before holds
    omega

theorem advance (kept : Kept lk chan cond m) (advanced : m.advance lk chan cond p = some m') :
    Kept lk chan cond m' := by
  unfold Machine.advance at advanced
  split at advanced
  next pc =>
    split at advanced
    next =>
      cases advanced
      exact kept.jump pc (by simp)
        (by constructor <;> simp)
    next fails =>
      split at advanced
      next same =>
        cases advanced
        exact kept.test pc fails (by simp [same]) (by simp)
      next different =>
        cases advanced
        exact kept.test pc fails (by simp) (fun _ => different)
  next pc =>
    exact kept.release pc advanced (by simp)
      (by constructor <;> simp)
  next pc =>
    exact kept.acquire pc advanced (by simp [or_comm])
      (by constructor <;> simp)
  next pc =>
    have different := kept.split p (by rw [pc]; rfl)
    refine kept.release pc advanced ?_ (by constructor <;> simp)
    intro l
    simp only [Pc.holds, mem_cons, not_mem_nil, or_false]
    refine ⟨fun same => ⟨fun equal => different (equal.symm.trans same), .inr same⟩, ?_⟩
    exact fun both => both.2.resolve_left both.1
  next pc =>
    cases advanced
    refine kept.store pc (by constructor <;> simp) rfl rfl rfl (by simp) ?_ ?_
    · exact fun q other => ⟨rfl, update_of_ne other ..⟩
    · exact fun asleep => absurd asleep (kept.awake pc (by simp))
  next pc =>
    cases advanced
    refine kept.store pc (by constructor <;> simp) rfl rfl rfl (by simp) ?_ ?_
    · exact fun q other => ⟨update_of_ne other .., rfl⟩
    · exact fun _ => ⟨rfl, rfl⟩
  next pc =>
    cases advanced
    refine kept.store pc ?_ rfl rfl rfl ?_ ?_ ?_
    · split <;> constructor <;> simp [*]
    · split <;> simp [*]
    · exact fun q other => ⟨rfl, update_of_ne other ..⟩
    · exact fun asleep => absurd asleep (kept.awake pc (by simp))
  next pc => exact kept.release pc advanced (by simp) (by constructor <;> simp)
  next pc => exact kept.acquire pc advanced (by simp) (by constructor <;> simp)
  next pc =>
    cases advanced
    exact kept.sched pc
  next pc => exact kept.acquire pc advanced (by simp [or_comm]) (by constructor <;> simp)
  next i pc =>
    split at advanced
    next bound =>
      cases advanced
      exact kept.scan pc bound
    next bound =>
      cases advanced
      exact kept.scanned pc bound rfl
  next pc =>
    have different := kept.split p (by rw [pc]; rfl)
    refine kept.release pc advanced ?_ (by constructor <;> simp)
    intro l
    simp only [Pc.holds, mem_cons, not_mem_nil, or_false]
    refine ⟨fun same => ⟨fun equal => different (same.symm.trans equal), .inl same⟩, ?_⟩
    exact fun both => both.2.resolve_right both.1
  next pc => exact kept.release pc advanced (by simp) (by constructor <;> simp)
  next back pc => exact kept.acquire pc advanced (by simp) (by constructor <;> simp)
  next back pc =>
    cases advanced
    refine kept.store pc (by constructor <;> simp) rfl rfl rfl (by simp) ?_ ?_
    · exact fun q other => ⟨update_of_ne other .., rfl⟩
    · intro asleep
      change update m.state p .runnable p = .sleeping at asleep
      rw [update_self] at asleep
      cases asleep
  next back pc =>
    refine kept.release pc advanced ?_ ?_
    · cases back <;> simp [Back.pc]
    · cases back <;> constructor <;> simp [Back.pc]
  all_goals exact absurd advanced.symm (Option.some_ne_none m')

theorem step (kept : Kept lk chan cond m) {label : Label n D}
    (stepped : m.step lk chan cond label = some m') : Kept lk chan cond m' := by
  cases label with
  | wait p | wake p =>
    simp only [Machine.step] at stepped
    split at stepped
    next pc => exact kept.acquire pc stepped (by simp) (by constructor <;> simp)
    next => cases stepped
  | preempt p =>
    simp only [Machine.step] at stepped
    split at stepped
    next pc =>
      cases stepped
      exact kept.jump pc (by simp) (by constructor <;> simp)
    next pc =>
      cases stepped
      exact kept.jump pc (by simp) (by constructor <;> simp)
    next => cases stepped
  | advance p => exact kept.advance stepped
  | raise p data =>
    obtain ⟨enabled, rfl⟩ := of_guard stepped
    exact kept.raise enabled.1 rfl
  | change p data =>
    obtain ⟨enabled, rfl⟩ := of_guard stepped
    exact ⟨kept.owned, kept.split, kept.asleep,
      fun q sleepy holds => kept.noMissed q sleepy (enabled.2 holds)⟩
  | take =>
    obtain ⟨free, rfl⟩ := of_guard stepped
    exact kept.scheduler (by simp [free]) (by simp)
  | pick p =>
    simp only [Machine.step] at stepped
    split at stepped
    next reason pc =>
      obtain ⟨enabled, rfl⟩ := of_guard stepped
      exact kept.pick pc enabled.1
    next => cases stepped
  | give =>
    obtain ⟨held, rfl⟩ := of_guard stepped
    exact kept.scheduler (by simp [held]) (by simp)

theorem boot (data : D) : Kept lk chan cond (Machine.boot (n := n) data) := by
  refine ⟨?_, ?_, ?_, ?_⟩
  · exact fun l p => iff_of_false (by simp [Machine.boot]) (by simp [Machine.boot])
  · exact fun p split => absurd split (by simp [Machine.boot])
  · exact fun p asleep => absurd asleep (by simp [Machine.boot])
  · exact fun p sleepy => absurd sleepy (by simp [Machine.boot, Sleepy])

end Kept

end

variable {lk : Lock} {chan : Chan} {cond : D → Bool} {data : D} {m : Machine n D}
    {labels : List (Label n D)}

/-- When the condition holds and no waker has the lock, nobody sleeps on the channel. -/
theorem no_lost_wakeup (reached : run (step lk chan cond) (boot data) labels = some m)
    (holds : cond m.data = true)
    (noWaker : ∀ k, (m.pc k).waker = true → m.locked lk ≠ some (.proc k)) (p : Fin n) :
    ¬(m.state p = .sleeping ∧ m.chan p = some chan) := by
  have kept : Kept lk chan cond m :=
    run_preserves (Kept lk chan cond) (fun _ _ _ kept stepped => kept.step stepped) (.boot data)
      reached
  intro asleep
  obtain ⟨k, pending⟩ := kept.noMissed p (.inr asleep) holds
  refine noWaker k ?_ ((kept.owned lk k).mpr (Kept.holds_of_pending pending))
  rcases pending with same | ⟨i, same, _⟩
  all_goals
    rw [same]
    rfl

def wakeupRace : List (Label 2 Bool) :=
  [.wait 0, .advance 0, .advance 0, .advance 0, .wake 1, .raise 1 true, .advance 0, .advance 0,
    .advance 0, .give, .advance 1, .advance 1, .advance 1, .advance 1, .advance 1, .advance 1]

theorem no_lost_wakeup_wakeupRace :
    ∃ m, run (step (.other 0) (.other 1) id) (boot (n := 2) false) wakeupRace = some m ∧
      m.data = true ∧ m.state 0 = .runnable ∧
      ¬(m.state 0 = .sleeping ∧ m.chan 0 = some (.other 1)) := by
  have runs : (run (step (.other 0) (.other 1) id) (boot (n := 2) false) wakeupRace).map
      (fun m => (m.data, m.state 0, m.pc 0, m.pc 1)) =
        some (true, .runnable, .switched .sleep, .outside) := by decide +kernel
  obtain ⟨m, reached, result⟩ := Option.map_eq_some_iff.mp runs
  simp only [Prod.mk.injEq] at result
  obtain ⟨data, state, first, second⟩ := result
  refine ⟨m, reached, data, state, ?_⟩
  have outside : ∀ k, (m.pc k).waker = false :=
    Fin.forall_fin_two.mpr ⟨by rw [first]; rfl, by rw [second]; rfl⟩
  exact no_lost_wakeup reached data (fun k waker => absurd waker (by simp [outside k])) 0

end Machine

end StraceXv6.Kernel.Process.Sleep
