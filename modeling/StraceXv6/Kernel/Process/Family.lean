import StraceXv6.Kernel.Process.Machine

namespace StraceXv6.Kernel.Process

open Function Data

/-! Parents and children.  Every process descends from init, and a process that waits for
its children has not missed one that is dead. -/

inductive Descends (t : Ptable) : Slot → Prop where
  | init : Descends t t.initproc
  | child {q p : Slot} : (t.proc q).parent = some p → Descends t p → Descends t q

structure Family (m : Machine) : Prop where
  initLive : (m.table.proc m.table.initproc).state.Live
  initParent : (m.table.proc m.table.initproc).parent = none
  unused : ∀ q, (m.table.proc q).state = .unused → (m.table.proc q).parent = none
  embryo : ∀ q, (m.table.proc q).state = .embryo → ∃ p parented, m.phase p = .forking q parented
  forking : ∀ p c parented, m.phase p = .forking c parented →
    (m.table.proc c).state = .embryo ∧
      (m.table.proc c).parent = if parented then some p else none
  alone : ∀ p p' c parented parented', m.phase p = .forking c parented →
    m.phase p' = .forking c parented' → p = p'
  idle : ∀ p, ¬(m.table.proc p).state.Live → m.phase p = .idle
  parents : ∀ q p, (m.table.proc q).parent = some p → (m.table.proc p).state.Live
  descends : ∀ q, (m.table.proc q).state.Present → Descends m.table q
  noMissed : ∀ p, (m.table.proc p).state = .sleeping → (m.table.proc p).chan = some (.proc p) →
    ∀ q, (m.table.proc q).parent = some p → (m.table.proc q).state ≠ .zombie

namespace Family

variable {m m' : Machine} {c q p : Slot} {parented : Bool} {e : Entry} {phase : Phase}

theorem parent_ne (family : Family m) (gone : ¬(m.table.proc c).state.Live) :
    (m.table.proc q).parent ≠ some c :=
  fun child => gone (family.parents q c child)

theorem shift (family : Family m) (initproc : m'.table.initproc = m.table.initproc)
    (parent : ∀ q, (m'.table.proc q).parent = (m.table.proc q).parent)
    (state : ∀ q, (m'.table.proc q).state = (m.table.proc q).state ∨
      (m.table.proc q).state.Live ∧ (m'.table.proc q).state.Live)
    (phase : ∀ p, m'.phase p = m.phase p ∨ (m.table.proc p).state.Live ∧
      (∀ c parented, m.phase p ≠ .forking c parented) ∧
      ∀ c parented, m'.phase p ≠ .forking c parented)
    (noMissed : ∀ p, (m'.table.proc p).state = .sleeping →
      (m'.table.proc p).chan = some (.proc p) →
      ∀ q, (m.table.proc q).parent = some p → (m.table.proc q).state ≠ .zombie) :
    Family m' := by
  have live : ∀ q, (m'.table.proc q).state.Live ↔ (m.table.proc q).state.Live := by
    intro q
    cases state q with
    | inl same => rw [same]
    | inr both => exact iff_of_true both.2 both.1
  have other : ∀ q s, ¬s.Live → ((m'.table.proc q).state = s ↔ (m.table.proc q).state = s) := by
    intro q s dead
    cases state q with
    | inl same => rw [same]
    | inr both =>
      refine iff_of_false ?_ ?_
      · exact fun same => dead (same ▸ both.2)
      · exact fun same => dead (same ▸ both.1)
  have forks : ∀ p c parented, m'.phase p = .forking c parented ↔
      m.phase p = .forking c parented := by
    intro p c parented
    cases phase p with
    | inl same => rw [same]
    | inr neither => exact iff_of_false (neither.2.2 c parented) (neither.2.1 c parented)
  have descends : ∀ q, Descends m.table q → Descends m'.table q := by
    intro q before
    induction before with
    | init =>
      rw [← initproc]
      exact .init
    | child child _ above => exact .child ((parent _).trans child) above
  refine ⟨?_, ?_, ?_, ?_, ?_, ?_, ?_, ?_, ?_, ?_⟩
  · rw [initproc, live]
    exact family.initLive
  · rw [initproc, parent]
    exact family.initParent
  · intro q unused
    rw [parent]
    exact family.unused q ((other q .unused (by decide)).mp unused)
  · intro q embryo
    obtain ⟨p, parented, forking⟩ := family.embryo q ((other q .embryo (by decide)).mp embryo)
    exact ⟨p, parented, (forks p q parented).mpr forking⟩
  · intro p c parented forking
    obtain ⟨embryo, child⟩ := family.forking p c parented ((forks p c parented).mp forking)
    exact ⟨(other c .embryo (by decide)).mpr embryo, (parent c).trans child⟩
  · intro p p' c parented parented' first second
    exact family.alone p p' c parented parented' ((forks p c parented).mp first)
      ((forks p' c parented').mp second)
  · intro p dead
    rw [live] at dead
    cases phase p with
    | inl same =>
      rw [same]
      exact family.idle p dead
    | inr both => exact absurd both.1 dead
  · intro q p child
    rw [live]
    exact family.parents q p ((parent q).symm.trans child)
  · intro q present
    apply descends
    apply family.descends
    rw [ProcState.present_iff] at present ⊢
    rwa [ne_eq, ne_eq, other q .unused (by decide), other q .embryo (by decide)] at present
  · intro p asleep own q child dead
    rw [parent] at child
    exact noMissed p asleep own q child ((other q .zombie (by decide)).mp dead)

theorem descends_of_ne (family : Family m) (dead : ¬(m.table.proc c).state.Live)
    (initproc : m'.table.initproc = m.table.initproc)
    (there : ∀ q, q ≠ c → m'.table.proc q = m.table.proc q) (descends : Descends m.table q)
    (other : q ≠ c) : Descends m'.table q := by
  induction descends with
  | init =>
    rw [← initproc]
    exact .init
  | @child q p child _ above =>
    have different : p ≠ c := fun same => family.parent_ne dead (same ▸ child)
    refine .child ?_ (above different)
    rw [there q other]
    exact child

theorem edit (family : Family m) (dead : ¬(m.table.proc c).state.Live)
    (initproc : m'.table.initproc = m.table.initproc)
    (there : ∀ q, q ≠ c → m'.table.proc q = m.table.proc q) (others : ∀ p d parented, d ≠ c →
      (m'.phase p = .forking d parented ↔ m.phase p = .forking d parented))
    (idle : ∀ p, ¬(m'.table.proc p).state.Live → m'.phase p = .idle)
    (unused : (m'.table.proc c).state = .unused → (m'.table.proc c).parent = none)
    (embryo : (m'.table.proc c).state = .embryo → ∃ p parented, m'.phase p = .forking c parented)
    (forking : ∀ p parented, m'.phase p = .forking c parented →
      (m'.table.proc c).state = .embryo ∧
        (m'.table.proc c).parent = if parented then some p else none)
    (alone : ∀ p p' parented parented', m'.phase p = .forking c parented →
      m'.phase p' = .forking c parented' → p = p')
    (above : ∀ p, (m'.table.proc c).parent = some p → (m.table.proc p).state.Live)
    (adopted : (m'.table.proc c).state.Present → ∃ p, (m'.table.proc c).parent = some p)
    (quiet : (m'.table.proc c).state ≠ .sleeping ∧ (m'.table.proc c).state ≠ .zombie) :
    Family m' := by
  have initOther : m.table.initproc ≠ c := fun same => dead (same ▸ family.initLive)
  have live : ∀ p, (m.table.proc p).state.Live → p ≠ c ∧ (m'.table.proc p).state.Live := by
    intro p before
    have other : p ≠ c := fun same => dead (same ▸ before)
    refine ⟨other, ?_⟩
    rw [there p other]
    exact before
  refine ⟨?_, ?_, ?_, ?_, ?_, ?_, idle, ?_, ?_, ?_⟩
  · rw [initproc]
    exact (live _ family.initLive).2
  · rw [initproc, there _ initOther]
    exact family.initParent
  · intro q free
    by_cases same : q = c
    · subst same
      exact unused free
    · rw [there q same] at free ⊢
      exact family.unused q free
  · intro q begun
    by_cases same : q = c
    · subst same
      exact embryo begun
    · rw [there q same] at begun
      obtain ⟨p, parented, forks⟩ := family.embryo q begun
      exact ⟨p, parented, (others p q parented same).mpr forks⟩
  · intro p d parented forks
    by_cases same : d = c
    · subst same
      exact forking p parented forks
    · rw [there d same]
      exact family.forking p d parented ((others p d parented same).mp forks)
  · intro p p' d parented parented' first second
    by_cases same : d = c
    · subst same
      exact alone p p' parented parented' first second
    · exact family.alone p p' d parented parented' ((others p d parented same).mp first)
        ((others p' d parented' same).mp second)
  · intro q p child
    by_cases same : q = c
    · subst same
      exact (live p (above p child)).2
    · rw [there q same] at child
      exact (live p (family.parents q p child)).2
  · intro q present
    by_cases same : q = c
    · subst same
      obtain ⟨p, child⟩ := adopted present
      have before := above p child
      exact .child child (family.descends_of_ne dead initproc there
        (family.descends p (.inl before)) (live p before).1)
    · rw [there q same] at present
      exact family.descends_of_ne dead initproc there (family.descends q present) same
  · intro p asleep own q child
    by_cases same : q = c
    · subst same
      exact quiet.2
    · rw [there q same] at child ⊢
      have other : p ≠ c := fun equal => quiet.1 (equal ▸ asleep)
      rw [there p other] at asleep own
      exact family.noMissed p asleep own q child

theorem eq_init_of_own_parent (family : Family m) (present : (m.table.proc q).state.Present)
    (own : (m.table.proc q).parent = some q) : q = m.table.initproc := by
  have descends := family.descends q present
  induction descends with
  | init => rfl
  | @child q p child _ induction =>
    obtain rfl := Option.some.inj (own.symm.trans child)
    exact induction present own

theorem exited (family : Family m) (running : m.Running p) (quiet : m.phase p = .idle)
    (other : p ≠ m.table.initproc) : Family ({ m with table := m.table.exit p }.died p) := by
  have exit := Ptable.exited_exit (Ne.symm other)
  have pLive : (m.table.proc p).state.Live := .inr (.inr running)
  generalize after : m.table.exit p = t at exit
  have live : ∀ q, q ≠ p → ((t.proc q).state.Live ↔ (m.table.proc q).state.Live) := by
    intro q different
    cases exit.state q different with
    | inl same => rw [same]
    | inr woken =>
      rw [woken.1, woken.2]
      exact iff_of_true (by decide) (by decide)
  have gone : ∀ q s, ¬s.Live → s ≠ .zombie →
      ((t.proc q).state = s ↔ (m.table.proc q).state = s) := by
    intro q s dead notZombie
    by_cases same : q = p
    · subst same
      refine iff_of_false ?_ ?_
      · rw [exit.dead]
        exact Ne.symm notZombie
      · exact fun equal => dead (equal ▸ pLive)
    · cases exit.state q same with
      | inl kept => rw [kept]
      | inr woken =>
        refine iff_of_false ?_ ?_
        · exact fun equal => dead (equal ▸ woken.2 ▸ by decide)
        · exact fun equal => dead (equal ▸ woken.1 ▸ by decide)
  have descends : ∀ q, Descends m.table q → Descends t q := by
    intro q before
    induction before with
    | init =>
      rw [← exit.initproc]
      exact .init
    | @child q above child _ induction =>
      by_cases same : above = p
      · refine .child ?_ .init
        rw [exit.parent, if_pos (same ▸ child), exit.initproc]
      · refine .child ?_ induction
        rw [exit.parent, if_neg, child]
        rw [child]
        exact fun equal => same (Option.some.inj equal)
  refine ⟨?_, ?_, ?_, ?_, ?_, family.alone, ?_, ?_, ?_, ?_⟩
  · change (t.proc t.initproc).state.Live
    rw [exit.initproc, live _ (Ne.symm other)]
    exact family.initLive
  · change (t.proc t.initproc).parent = none
    rw [exit.initproc, exit.parent, family.initParent]
    rfl
  · intro q unused
    change (t.proc q).parent = none
    rw [exit.parent, family.unused q ((gone q .unused (by decide) (by decide)).mp unused)]
    rfl
  · intro q embryo
    exact family.embryo q ((gone q .embryo (by decide) (by decide)).mp embryo)
  · intro f c parented forking
    change m.phase f = .forking c parented at forking
    obtain ⟨embryo, child⟩ := family.forking f c parented forking
    refine ⟨(gone c .embryo (by decide) (by decide)).mpr embryo, ?_⟩
    change (t.proc c).parent = _
    rw [exit.parent, if_neg, child]
    intro ours
    rw [child] at ours
    cases parented with
    | false => cases ours
    | true =>
      cases ours
      rw [quiet] at forking
      cases forking
  · intro q dead
    by_cases same : q = p
    · rw [same]
      exact quiet
    · exact family.idle q fun before => dead ((live q same).mpr before)
  · intro q above child
    change (t.proc above).state.Live
    change (t.proc q).parent = some above at child
    rw [exit.parent] at child
    split at child
    next =>
      cases child
      rw [live _ (Ne.symm other)]
      exact family.initLive
    next stranger =>
      rw [live above fun same => stranger (same ▸ child)]
      exact family.parents q above child
  · intro q present
    apply descends
    apply family.descends
    rw [ProcState.present_iff] at present ⊢
    rwa [ne_eq, ne_eq, ← gone q .unused (by decide) (by decide),
      ← gone q .embryo (by decide) (by decide)]
  · intro r asleep own q child dead
    change (t.proc r).state = .sleeping at asleep
    change (t.proc r).chan = some (.proc r) at own
    change (t.proc q).parent = some r at child
    change (t.proc q).state = .zombie at dead
    have different : r ≠ p := by
      intro same
      rw [same, exit.dead] at asleep
      cases asleep
    have before : q ≠ p → (m.table.proc q).state = .zombie := by
      intro different
      cases exit.state q different with
      | inl same => rw [← same, dead]
      | inr woken => exact absurd (woken.2.symm.trans dead) (by simp)
    rw [exit.parent] at child
    split at child
    next ours =>
      -- A dead child is passed on, and init was told.
      cases child
      have notSelf : q ≠ p := by
        rintro rfl
        exact other (family.eq_init_of_own_parent (.inl pLive) ours)
      exact exit.noticed q ours (before notSelf) _ asleep own
    next stranger =>
      by_cases same : q = p
      · -- The child that just died told its parent before.
        subst same
        apply exit.told r asleep
        rw [own, child]
        rfl
      · have slept : (m.table.proc r).state = .sleeping := by
          cases exit.state r different with
          | inl kept => rw [← kept, asleep]
          | inr woken => exact woken.1
        rw [exit.chan] at own
        exact family.noMissed r slept own q child (before same)

theorem forks_only (family : Family m) (forking : m.phase p = .forking c parented) (other : q ≠ p)
    (parented' : Bool) : m.phase q ≠ .forking c parented' :=
  fun also => other (family.alone q p c parented' parented also forking)

theorem ne_of_dead (running : m.Running p) (dead : ¬(m.table.proc c).state.Live) : p ≠ c :=
  fun same => dead (same ▸ .inr (.inr running))

/-- A step of `fork` or `wait`: the process `p` goes on with its child `c`, or is done with
it. -/
theorem childStep (family : Family m) (running : m.Running p)
    (dead : ¬(m.table.proc c).state.Live)
    (before : ∀ d parented, d ≠ c → m.phase p ≠ .forking d parented)
    (alone : ∀ q, q ≠ p → ∀ parented, m.phase q ≠ .forking c parented)
    (entry : m'.table.proc = update m.table.proc c e)
    (initproc : m'.table.initproc = m.table.initproc) (phases : m'.phase = update m.phase p phase)
    (unused : e.state = .unused → e.parent = none)
    (embryo : e.state = .embryo → ∃ parented, phase = .forking c parented ∧
      e.parent = if parented then some p else none) (done : e.state ≠ .embryo → phase = .idle)
    (parent : e.parent = none ∨ e.parent = some p) (adopted : e.state.Present → e.parent = some p)
    (quiet : e.state ≠ .sleeping ∧ e.state ≠ .zombie) : Family m' := by
  have other := ne_of_dead running dead
  have here : m'.table.proc c = e := by rw [entry, update_self]
  have there : ∀ q, q ≠ c → m'.table.proc q = m.table.proc q := by
    intro q different
    rw [entry, update_of_ne different]
  have self : m'.phase p = phase := by rw [phases, update_self]
  have rest : ∀ q, q ≠ p → m'.phase q = m.phase q := by
    intro q different
    rw [phases, update_of_ne different]
  have next : phase = .idle ∨ ∃ parented, phase = .forking c parented ∧ e.state = .embryo ∧
      e.parent = if parented then some p else none := by
    by_cases begun : e.state = .embryo
    · obtain ⟨parented, forks, child⟩ := embryo begun
      exact .inr ⟨parented, forks, begun, child⟩
    · exact .inl (done begun)
  have mine : ∀ q parented, m'.phase q = .forking c parented → q = p ∧
      phase = .forking c parented := by
    intro q parented forks
    by_cases same : q = p
    · exact ⟨same, by rw [← self, ← same, forks]⟩
    · rw [rest q same] at forks
      exact absurd forks (alone q same parented)
  refine family.edit dead initproc there ?_ ?_ ?_ ?_ ?_ ?_ ?_ ?_ ?_
  · intro q d parented different
    by_cases same : q = p
    · subst same
      refine iff_of_false ?_ ?_
      · rw [self]
        rcases next with idle | ⟨_, forks, _⟩
        · rw [idle]
          simp
        · rw [forks]
          exact fun equal => different (Phase.forking.inj equal).1.symm
      · exact before d parented different
    · rw [rest q same]
  · intro q gone
    by_cases same : q = p
    · subst same
      rw [there q other] at gone
      exact absurd (.inr (.inr running)) gone
    · rw [rest q same]
      apply family.idle
      by_cases child : q = c
      · rw [child]
        exact dead
      · rwa [there q child] at gone
  · rw [here]
    exact unused
  · rw [here]
    intro begun
    obtain ⟨parented, forks, _⟩ := embryo begun
    exact ⟨p, parented, self.trans forks⟩
  · intro q parented forks
    obtain ⟨rfl, forks⟩ := mine q parented forks
    rw [here]
    rcases next with idle | ⟨_, same, begun, child⟩
    · rw [idle] at forks
      cases forks
    · obtain ⟨_, rfl⟩ := Phase.forking.inj (same.symm.trans forks)
      exact ⟨begun, child⟩
  · intro q q' parented parented' first second
    exact (mine q parented first).1.trans (mine q' parented' second).1.symm
  · rw [here]
    intro q child
    rcases parent with none | ours
    · exact absurd (none.symm.trans child) (by simp)
    · obtain rfl := Option.some.inj (ours.symm.trans child)
      exact .inr (.inr running)
  · rw [here]
    exact fun present => ⟨p, adopted present⟩
  · rw [here]
    exact quiet

theorem forkStep (family : Family m) (running : m.Running p)
    (forks : m.phase p = .forking c parented) (entry : m'.table.proc = update m.table.proc c e)
    (initproc : m'.table.initproc = m.table.initproc) (phases : m'.phase = update m.phase p phase)
    (unused : e.state = .unused → e.parent = none)
    (embryo : e.state = .embryo → phase = .forking c true ∧ e.parent = some p)
    (done : e.state ≠ .embryo → phase = .idle)
    (parent : e.parent = (m.table.proc c).parent ∨ e.parent = some p)
    (adopted : e.state.Present → e.parent = some p)
    (quiet : e.state ≠ .sleeping ∧ e.state ≠ .zombie) : Family m' := by
  obtain ⟨begun, child⟩ := family.forking p c parented forks
  have dead : ¬(m.table.proc c).state.Live := by
    rw [begun]
    decide
  refine family.childStep running dead ?_ (fun q other => family.forks_only forks other) entry
    initproc phases unused (fun now => ⟨true, embryo now⟩) done ?_ adopted quiet
  · intro d parented' different same
    exact different (Phase.forking.inj (same.symm.trans forks)).1
  · rcases parent with kept | ours
    · rw [kept, child]
      cases parented with
      | false => exact .inl rfl
      | true => exact .inr rfl
    · exact .inr ours

theorem touch (family : Family m) (before : (m.table.proc p).state.Live)
    (entry : m'.table.proc = update m.table.proc p e)
    (initproc : m'.table.initproc = m.table.initproc)
    (phases : ∀ q, m'.phase q = m.phase q ∨ q = p ∧
      (∀ c parented, m.phase q ≠ .forking c parented) ∧
      ∀ c parented, m'.phase q ≠ .forking c parented)
    (parent : e.parent = (m.table.proc p).parent) (live : e.state.Live)
    (clear : e.state = .sleeping → e.chan = some (.proc p) →
      ∀ q, (m.table.proc q).parent = some p → (m.table.proc q).state ≠ .zombie) : Family m' := by
  have here : m'.table.proc p = e := by rw [entry, update_self]
  have there : ∀ q, q ≠ p → m'.table.proc q = m.table.proc q := by
    intro q different
    rw [entry, update_of_ne different]
  refine family.shift initproc ?_ ?_ ?_ ?_
  · intro q
    by_cases same : q = p
    · rw [same, here, parent]
    · rw [there q same]
  · intro q
    by_cases same : q = p
    · rw [same, here]
      exact .inr ⟨before, live⟩
    · rw [there q same]
      exact .inl rfl
  · intro q
    rcases phases q with same | ⟨rfl, neither⟩
    · exact .inl same
    · exact .inr ⟨before, neither⟩
  · intro q asleep own
    by_cases same : q = p
    · subst same
      rw [here] at asleep own
      exact clear asleep own
    · rw [there q same] at asleep own
      exact family.noMissed q asleep own

theorem wake (family : Family m) (initproc : m'.table.initproc = m.table.initproc)
    (phase : m'.phase = m.phase)
    (parent : ∀ q, (m'.table.proc q).parent = (m.table.proc q).parent)
    (chan : ∀ q, (m'.table.proc q).chan = (m.table.proc q).chan)
    (state : ∀ q, (m'.table.proc q).state = (m.table.proc q).state ∨
      (m.table.proc q).state = .sleeping ∧ (m'.table.proc q).state = .runnable) :
    Family m' := by
  refine family.shift initproc parent ?_ (fun q => .inl (congrFun phase q)) ?_
  · intro q
    rcases state q with same | ⟨asleep, woken⟩
    · exact .inl same
    · exact .inr ⟨.inl asleep, .inr (.inl woken)⟩
  · intro q asleep own
    rw [chan] at own
    rcases state q with same | ⟨_, woken⟩
    · exact family.noMissed q (same.symm.trans asleep) own
    · exact absurd (woken.symm.trans asleep) (by simp)

theorem not_forking_of_wait (before : m.phase p = .idle ∨ m.phase p = .waiting) (c : Slot)
    (parented : Bool) : m.phase p ≠ .forking c parented := by
  rcases before with same | same
  all_goals
    rw [same]
    simp

theorem phases_of_wait (before : m.phase p = .idle ∨ m.phase p = .waiting)
    (after : ∀ c parented, phase ≠ .forking c parented)
    (phases : m'.phase = update m.phase p phase) (q : Slot) :
    m'.phase q = m.phase q ∨ q = p ∧ (∀ c parented, m.phase q ≠ .forking c parented) ∧
      ∀ c parented, m'.phase q ≠ .forking c parented := by
  by_cases same : q = p
  · refine .inr ⟨same, same ▸ not_forking_of_wait before, ?_⟩
    rw [phases, same, update_self]
    exact after
  · rw [phases, update_of_ne same]
    exact .inl rfl

theorem moved (family : Family m) {label : Label} (moved : Machine.Moved m label m') :
    Family m' := by
  cases moved with
  | @allocated p c running idle free =>
    have dead : ¬(m.table.proc c).state.Live := by
      rw [free]
      decide
    have orphan := family.unused c free
    have alone : ∀ q parented, m.phase q ≠ .forking c parented := by
      intro q parented forks
      rw [(family.forking q c parented forks).1] at free
      cases free
    exact family.childStep running dead (fun d parented _ => not_forking_of_wait (.inl idle) d
      parented) (fun q _ => alone q) rfl rfl rfl (fun _ => orphan)
      (fun _ => ⟨false, rfl, orphan⟩) (absurd rfl) (.inl orphan)
      (fun present => absurd rfl (ProcState.present_iff.mp present).2) (by simp)
  | full => exact family
  | @aborted p c running forks =>
    have orphan := (family.forking p c false forks).2
    exact family.forkStep running forks rfl rfl rfl (fun _ => orphan)
      (fun begun => absurd begun (by simp)) (fun _ => rfl) (.inl rfl)
      (fun present => absurd rfl (ProcState.present_iff.mp present).1) (by simp)
  | @parented p c running forks =>
    have embryo := (family.forking p c false forks).1
    exact family.forkStep running forks rfl rfl rfl
      (fun free => absurd (embryo.symm.trans free) (by simp)) (fun _ => ⟨rfl, rfl⟩)
      (absurd embryo) (.inr rfl) (fun _ => rfl) (by simp [embryo])
  | @published p c running forks =>
    have child := (family.forking p c true forks).2
    exact family.forkStep running forks rfl rfl rfl (fun free => absurd free (by simp))
      (fun begun => absurd begun (by simp)) (fun _ => rfl) (.inl rfl) (fun _ => child)
      (by simp)
  | exited running idle other => exact family.exited running idle other
  | @reaped p q running before child zombie =>
    have dead : ¬(m.table.proc q).state.Live := by
      rw [zombie]
      decide
    have alone : ∀ f parented, m.phase f ≠ .forking q parented := by
      intro f parented forks
      rw [(family.forking f q parented forks).1] at zombie
      cases zombie
    exact family.childStep running dead (fun d parented _ => not_forking_of_wait before d
      parented) (fun f _ => alone f) rfl rfl rfl (fun _ => rfl)
      (fun begun => absurd begun (by simp [Ptable.Reaped])) (fun _ => rfl) (.inl rfl)
      (fun present => absurd rfl (ProcState.present_iff.mp present).1)
      (by simp [Ptable.Reaped])
  | @gaveUp p running before =>
    exact family.touch (.inr (.inr running)) (update_eq_self p m.table.proc).symm rfl
      (phases_of_wait before (by simp) rfl) rfl (.inr (.inr running))
      (fun asleep => absurd (running.symm.trans asleep) (by simp))
  | @slept p running before clear =>
    exact family.touch (.inr (.inr running)) rfl rfl (phases_of_wait before (by simp) rfl) rfl
      (.inl rfl) (fun _ _ => clear)
  | @killed p pid =>
    exact family.wake (m.table.initproc_kill pid) rfl (m.table.parent_kill pid)
      (m.table.chan_kill pid) (m.table.state_kill pid)
  | rested running =>
    exact family.touch (.inr (.inr running)) rfl rfl (fun _ => .inl rfl) rfl (.inl rfl)
      (fun _ own => absurd own (by simp))
  | woke =>
    exact family.wake rfl rfl (fun q => (m.table.proc q).parent_wake _)
      (fun q => (m.table.proc q).chan_wake _) (fun q => (m.table.proc q).state_wake _)
  | yielded running =>
    exact family.touch (.inr (.inr running)) rfl rfl (fun _ => .inl rfl) rfl (.inr (.inl rfl))
      (fun asleep => absurd asleep (by simp))
  | scheduled runnable =>
    exact family.touch (.inr (.inl runnable)) rfl rfl (fun _ => .inl rfl) rfl
      (.inr (.inr rfl)) (fun asleep => absurd asleep (by simp))

theorem boot : Family Machine.boot := by
  have parent : ∀ q, (Machine.boot.table.proc q).parent = none := fun _ => rfl
  have first : ∀ q, (Machine.boot.table.proc q).state.Present →
      q = Machine.boot.table.initproc := by decide
  have awake : ∀ q, (Machine.boot.table.proc q).state ≠ .sleeping ∧
      (Machine.boot.table.proc q).state ≠ .embryo := by decide
  refine ⟨by decide, rfl, fun _ _ => rfl, ?_, ?_, ?_, fun _ _ => rfl, ?_, ?_, ?_⟩
  · exact fun q embryo => absurd embryo (awake q).2
  · exact fun p c parented forks => absurd forks (by simp [Machine.boot])
  · exact fun p p' c parented parented' forks => absurd forks (by simp [Machine.boot])
  · exact fun q p child => absurd ((parent q).symm.trans child) (by simp)
  · intro q present
    rw [first q present]
    exact .init
  · exact fun p asleep => absurd asleep (awake p).1

theorem parent_of_present (family : Family m) (other : q ≠ m.table.initproc)
    (present : (m.table.proc q).state.Present) :
    ∃ p, (m.table.proc q).parent = some p ∧ (m.table.proc p).state.Live := by
  cases family.descends q present with
  | init => exact absurd rfl other
  | @child _ p child _ => exact ⟨p, child, family.parents q p child⟩

end Family

end StraceXv6.Kernel.Process
