import StraceXv6.Kernel.Process.Family

namespace StraceXv6.Kernel.Process

open List Function Data

/-! What the history of a run records: a process is returned once, to its parent, when it is
dead. -/

namespace Machine

def Forked (m : Machine) (q : Slot) : Prop :=
  q ≠ m.table.initproc ∧ (m.table.proc q).state ≠ .unused

structure Chronicle (m : Machine) : Prop where
  distinct : ∀ q q', m.Forked q → m.Forked q' → m.history.serial q = m.history.serial q' → q = q'
  serials : ∀ q, m.Forked q → m.history.serial q < m.history.forks
  zombies : ∀ q, (m.table.proc q).state = .zombie → m.history.serial q ∈ m.history.exited
  returned : ∀ n ∈ m.history.returned.map Prod.fst, n < m.history.forks ∧ n ∈ m.history.exited ∧
    ∀ q, m.Forked q → m.history.serial q ≠ n
  once : (m.history.returned.map Prod.fst).Nodup

namespace Chronicle

variable {m m' : Machine}

theorem keep (chronicle : Chronicle m) (history : m'.history = m.history)
    (initproc : m'.table.initproc = m.table.initproc)
    (unused : ∀ q, (m.table.proc q).state = .unused → (m'.table.proc q).state = .unused)
    (zombie : ∀ q, (m'.table.proc q).state = .zombie → (m.table.proc q).state = .zombie) :
    Chronicle m' := by
  have forked : ∀ q, m'.Forked q → m.Forked q := by
    intro q after
    exact ⟨initproc ▸ after.1, fun free => after.2 (unused q free)⟩
  refine ⟨?_, ?_, ?_, ?_, ?_⟩
  all_goals rw [history]
  · exact fun q q' first second => chronicle.distinct q q' (forked q first) (forked q' second)
  · exact fun q after => chronicle.serials q (forked q after)
  · exact fun q dead => chronicle.zombies q (zombie q dead)
  · intro n member
    obtain ⟨below, dead, others⟩ := chronicle.returned n member
    exact ⟨below, dead, fun q after => others q (forked q after)⟩
  · exact chronicle.once

variable {e : Entry} {p : Slot} {t : Ptable}

theorem keep_update (chronicle : Chronicle m) (history : m'.history = m.history)
    (initproc : m'.table.initproc = m.table.initproc)
    (entry : m'.table.proc = update m.table.proc p e)
    (unused : (m.table.proc p).state = .unused → e.state = .unused)
    (zombie : e.state = .zombie → (m.table.proc p).state = .zombie) : Chronicle m' := by
  refine chronicle.keep history initproc ?_ ?_
  all_goals
    intro q
    rw [entry]
    by_cases same : q = p
    · subst same
      rw [update_self]
      assumption
    · rw [update_of_ne same]
      exact id

theorem keep_wake (chronicle : Chronicle m) (history : m'.history = m.history)
    (initproc : m'.table.initproc = m.table.initproc)
    (state : ∀ q, (m'.table.proc q).state = (m.table.proc q).state ∨
      (m.table.proc q).state = .sleeping ∧ (m'.table.proc q).state = .runnable) :
    Chronicle m' := by
  refine chronicle.keep history initproc ?_ ?_
  · intro q free
    rcases state q with same | ⟨asleep, _⟩
    · exact same.trans free
    · exact absurd (free.symm.trans asleep) (by simp)
  · intro q dead
    rcases state q with same | ⟨_, woken⟩
    · exact same.symm.trans dead
    · exact absurd (woken.symm.trans dead) (by simp)

theorem alloc (chronicle : Chronicle m) {c : Slot} (initproc : t.initproc = m.table.initproc)
    (entry : t.proc = update m.table.proc c e) (embryo : e.state = .embryo) :
    Chronicle (({ m with table := t }.setPhase p (.forking c false)).forked c) := by
  have there : ∀ q, q ≠ c → t.proc q = m.table.proc q := by
    intro q different
    rw [entry, update_of_ne different]
  have here : (t.proc c).state = .embryo := by
    rw [entry, update_self]
    exact embryo
  have older : ∀ q, q ≠ c → q ≠ t.initproc ∧ (t.proc q).state ≠ .unused → m.Forked q := by
    intro q different after
    rw [initproc, there q different] at after
    exact after
  have serial : ∀ q, q ≠ c →
      update m.history.serial c m.history.forks q = m.history.serial q :=
    fun q different => update_of_ne different ..
  have new : update m.history.serial c m.history.forks c = m.history.forks :=
    update_self ..
  have fresh : ∀ q, m.Forked q → m.history.serial q ≠ m.history.forks :=
    fun q before => Nat.ne_of_lt (chronicle.serials q before)
  refine ⟨?_, ?_, ?_, ?_, chronicle.once⟩
  · intro q q' first second same
    change update m.history.serial c m.history.forks q =
      update m.history.serial c m.history.forks q' at same
    by_cases mine : q = c
    · by_cases also : q' = c
      · rw [mine, also]
      · rw [mine, new, serial q' also] at same
        exact absurd same.symm (fresh q' (older q' also second))
    · by_cases also : q' = c
      · rw [also, new, serial q mine] at same
        exact absurd same (fresh q (older q mine first))
      · rw [serial q mine, serial q' also] at same
        exact chronicle.distinct q q' (older q mine first) (older q' also second) same
  · intro q after
    change update m.history.serial c m.history.forks q < m.history.forks + 1
    by_cases mine : q = c
    · rw [mine, new]
      exact Nat.lt_succ_self _
    · rw [serial q mine]
      exact Nat.lt_succ_of_lt (chronicle.serials q (older q mine after))
  · intro q dead
    change (t.proc q).state = .zombie at dead
    change update m.history.serial c m.history.forks q ∈ m.history.exited
    have different : q ≠ c := by
      intro same
      rw [same, here] at dead
      cases dead
    rw [there q different] at dead
    rw [serial q different]
    exact chronicle.zombies q dead
  · intro n member
    obtain ⟨below, dead, others⟩ := chronicle.returned n member
    refine ⟨Nat.lt_succ_of_lt below, dead, ?_⟩
    intro q after
    change update m.history.serial c m.history.forks q ≠ n
    by_cases mine : q = c
    · rw [mine, new]
      exact Nat.ne_of_gt below
    · rw [serial q mine]
      exact others q (older q mine after)

theorem exit (chronicle : Chronicle m) (running : m.Running p)
    (exited : Ptable.Exited m.table p t) : Chronicle ({ m with table := t }.died p) := by
  have before : ∀ q, q ≠ t.initproc ∧ (t.proc q).state ≠ .unused → m.Forked q := by
    intro q after
    refine ⟨exited.initproc ▸ after.1, ?_⟩
    intro free
    by_cases same : q = p
    · rw [same, running] at free
      cases free
    · cases exited.state q same with
      | inl kept => exact after.2 (kept.trans free)
      | inr woken => exact absurd (woken.1.symm.trans free) (by simp)
  refine ⟨?_, ?_, ?_, ?_, chronicle.once⟩
  · exact fun q q' first second => chronicle.distinct q q' (before q first) (before q' second)
  · exact fun q after => chronicle.serials q (before q after)
  · intro q dead
    change (t.proc q).state = .zombie at dead
    change m.history.serial q ∈ m.history.exited ++ [m.history.serial p]
    by_cases same : q = p
    · rw [same]
      exact mem_append_right _ (mem_singleton_self _)
    · cases exited.state q same with
      | inl kept => exact mem_append_left _ (chronicle.zombies q (kept.symm.trans dead))
      | inr woken => exact absurd (woken.2.symm.trans dead) (by simp)
  · intro n member
    obtain ⟨below, dead, others⟩ := chronicle.returned n member
    exact ⟨below, mem_append_left _ dead, fun q after => others q (before q after)⟩

theorem reap (chronicle : Chronicle m) {q : Slot}
    (initLive : (m.table.proc m.table.initproc).state.Live)
    (zombie : (m.table.proc q).state = .zombie) :
    Chronicle (({ m with table := m.table.reap q }.setPhase p .idle).collected p q) := by
  have forked : m.Forked q := by
    refine ⟨?_, by rw [zombie]; simp⟩
    intro same
    rw [← same, zombie] at initLive
    exact absurd initLive (by decide)
  have gone : ((m.table.reap q).proc q).state = .unused := by
    rw [Ptable.reap, Ptable.proc_modify_self]
    rfl
  have there : ∀ c, c ≠ q → (m.table.reap q).proc c = m.table.proc c :=
    fun c different => Ptable.proc_modify_of_ne _ _ different
  have rest : ∀ c, c ≠ m.table.initproc ∧ ((m.table.reap q).proc c).state ≠ .unused →
      m.Forked c ∧ c ≠ q := by
    intro c after
    have different : c ≠ q := fun same => after.2 (same ▸ gone)
    rw [there c different] at after
    exact ⟨after, different⟩
  refine ⟨?_, ?_, ?_, ?_, ?_⟩
  · exact fun c c' first second => chronicle.distinct c c' (rest c first).1 (rest c' second).1
  · exact fun c after => chronicle.serials c (rest c after).1
  · intro c dead
    change ((m.table.reap q).proc c).state = .zombie at dead
    by_cases same : c = q
    · rw [same, gone] at dead
      exact absurd dead (by simp)
    · rw [there c same] at dead
      exact chronicle.zombies c dead
  · intro n member
    change n ∈ (m.history.returned ++ [(m.history.serial q, p)]).map Prod.fst at member
    rw [map_append, mem_append] at member
    cases member with
    | inl earlier =>
      obtain ⟨below, dead, others⟩ := chronicle.returned n earlier
      exact ⟨below, dead, fun c after => others c (rest c after).1⟩
    | inr now =>
      obtain rfl := mem_singleton.mp now
      refine ⟨chronicle.serials q forked, chronicle.zombies q zombie, ?_⟩
      intro c after same
      exact (rest c after).2 (chronicle.distinct c q (rest c after).1 forked same)
  · change ((m.history.returned ++ [(m.history.serial q, p)]).map Prod.fst).Nodup
    rw [map_append]
    refine nodup_append'.mpr ⟨chronicle.once, nodup_singleton _, ?_⟩
    intro n earlier now
    obtain rfl := mem_singleton.mp now
    exact (chronicle.returned _ earlier).2.2 q forked rfl

theorem moved (chronicle : Chronicle m) (family : Family m) {label : Label}
    (moved : Moved m label m') : Chronicle m' := by
  cases moved with
  | allocated => exact chronicle.alloc rfl rfl rfl
  | full => exact chronicle
  | @aborted p c running forks =>
    exact chronicle.keep_update rfl rfl rfl (fun _ => rfl) (fun dead => absurd dead (by simp))
  | @parented p c running forks =>
    exact chronicle.keep_update rfl rfl rfl id id
  | @published p c running forks =>
    refine chronicle.keep_update rfl rfl rfl (fun free => ?_) (fun dead => absurd dead (by simp))
    exact absurd ((family.forking p c true forks).1.symm.trans free) (by simp)
  | exited running _ other => exact chronicle.exit running (Ptable.exited_exit (Ne.symm other))
  | reaped _ _ _ zombie => exact chronicle.reap family.initLive zombie
  | gaveUp => exact chronicle.keep rfl rfl (fun _ => id) (fun _ => id)
  | slept running | rested running | yielded running =>
    exact chronicle.keep_update rfl rfl rfl
      (fun free => absurd (running.symm.trans free) (by simp))
      (fun dead => absurd dead (by simp))
  | @killed p pid =>
    exact chronicle.keep_wake rfl (m.table.initproc_kill pid) (m.table.state_kill pid)
  | woke => exact chronicle.keep_wake rfl rfl fun q => (m.table.proc q).state_wake _
  | scheduled runnable =>
    exact chronicle.keep_update rfl rfl rfl
      (fun free => absurd (runnable.symm.trans free) (by simp))
      (fun dead => absurd dead (by simp))

theorem boot : Chronicle Machine.boot := by
  have first : ∀ q, ¬Machine.boot.Forked q := by
    intro q forked
    obtain ⟨other, used⟩ := forked
    exact used (if_neg (show q ≠ 0 from other))
  have alive : ∀ q, (Machine.boot.table.proc q).state ≠ .zombie := by decide
  refine ⟨?_, ?_, ?_, ?_, nodup_nil⟩
  · exact fun q _ forked => absurd forked (first q)
  · exact fun q forked => absurd forked (first q)
  · exact fun q dead => absurd dead (alive q)
  · exact fun n member => absurd member not_mem_nil

end Chronicle

/-- In every run, processes have living parents up to init, no process sleeps in `wait`
while it has a zombie, and a process is returned once, by its parent when it is a zombie. -/
theorem families_in_every_run {m : Machine} {labels : List Label}
    (reached : run step boot labels = some m) :
    (∀ q, q ≠ m.table.initproc → (m.table.proc q).state.Present →
      ∃ p, (m.table.proc q).parent = some p ∧
        (m.table.proc p).state ≠ .unused ∧ (m.table.proc p).state ≠ .zombie) ∧
      (∀ q, (m.table.proc q).state.Present → Descends m.table q) ∧
      (∀ p, (m.table.proc p).state = .sleeping → (m.table.proc p).chan = some (.proc p) →
        ∀ q, (m.table.proc q).parent = some p → (m.table.proc q).state ≠ .zombie) ∧
      (m.history.returned.map Prod.fst).Nodup ∧
      ∀ label m', m.step label = some m' → m'.history.returned = m.history.returned ∨
        ∃ p q, label = .wait p ∧ (m.table.proc q).parent = some p ∧
          (m.table.proc q).state = .zombie ∧ m.history.serial q ∈ m.history.exited ∧
          m'.history.returned = m.history.returned ++ [(m.history.serial q, p)] := by
  obtain ⟨family, chronicle⟩ : Family m ∧ Chronicle m := by
    refine run_preserves (fun m => Family m ∧ Chronicle m) ?_ ⟨.boot, .boot⟩ reached
    intro m label m' both stepped
    have moved := moved_of_step stepped
    exact ⟨both.1.moved moved, both.2.moved both.1 moved⟩
  refine ⟨?_, family.descends, family.noMissed, chronicle.once, ?_⟩
  · intro q other present
    obtain ⟨p, child, live⟩ := family.parent_of_present other present
    refine ⟨p, child, ?_, ?_⟩
    · intro free
      rw [free] at live
      exact absurd live (by decide)
    · intro dead
      rw [dead] at live
      exact absurd live (by decide)
  · intro label m' stepped
    cases moved_of_step stepped with
    | @reaped p q _ _ child zombie =>
      exact .inr ⟨p, q, rfl, child, zombie, chronicle.zombies q zombie, rfl⟩
    | _ => exact .inl rfl

def exitInWait : List Label :=
  [.schedule 0, .alloc 0, .parent 0, .publish 0, .wait 0, .schedule 1, .exit 1, .schedule 0,
    .wait 0]

theorem families_in_exitInWait : ∃ m, run step boot exitInWait = some m ∧
    m.history.returned = [(0, 0)] ∧ (m.history.returned.map Prod.fst).Nodup := by
  have runs : (run step boot exitInWait).map (fun m => m.history.returned) =
      some [(0, 0)] := by decide +kernel
  obtain ⟨m, reached, returned⟩ := Option.map_eq_some_iff.mp runs
  exact ⟨m, reached, returned, (families_in_every_run reached).2.2.2.1⟩

end Machine

end StraceXv6.Kernel.Process
