import StraceXv6.Kernel.Log.GroupCommit

namespace StraceXv6.Kernel.GroupLog

open List Function Data

/-! What the admission test of `begin_op` leaves room for.  It reserves against
`LOGSIZE`, while `log_write` gives up at `log.size - 1` blocks, before it looks for
a block to absorb; `mkfs` makes `log.size` equal to `LOGSIZE`. -/

abbrev nlog : Nat := logsize

def Journal.blocksOf (j : Journal) (op : Nat) : Finset UInt32 :=
  ((j.logged.filter fun call => call.op = op).map Logged.blockno).toFinset

def Journal.remaining (j : Journal) : Phase → Nat
  | .operation op | .logWrite op _ => maxopblocks - (j.blocksOf op).card
  | .outside | .commit _ => 0

section

variable {P : Type}

/-- A call of `log_write` keeps its operation within `MAXOPBLOCKS` distinct blocks. -/
def Budgeted (s : State P) : Label P → Prop
  | .test p blockno =>
    match s.phase p with
    | .operation op => (insert blockno (s.journal.blocksOf op)).card ≤ maxopblocks
    | _ => True
  | _ => True

instance (s : State P) (label : Label P) : Decidable (Budgeted s label) := by
  unfold Budgeted
  split
  next => split <;> infer_instance
  next => infer_instance

/-- An operation is admitted only when the blocks in the log, those that the
operations in progress may still log and those of the new one stay below
`log.size - 1`. -/
def HasRoom [Fintype P] (size : Nat) (s : State P) : Label P → Prop
  | .beginOp _ =>
    s.journal.lh.n + tally s.journal.remaining s.phase + maxopblocks < size - 1
  | _ => True

instance [Fintype P] (size : Nat) (s : State P) (label : Label P) :
    Decidable (HasRoom size s label) := by
  unfold HasRoom
  split <;> infer_instance

variable [Fintype P] [DecidableEq P]

structure State.Fits (size : Nat) (s : State P) : Prop where
  grouped : s.Grouped
  room : s.journal.lh.n + tally s.journal.remaining s.phase < size - 1
  within : ∀ p op blockno, s.phase p = .logWrite op blockno →
    (insert blockno (s.journal.blocksOf op)).card ≤ maxopblocks
  owner : ∀ p q op, (s.phase p).op? = some op → (s.phase q).op? = some op → p = q
  running : s.halt = none

end

namespace Journal

variable {j k : Journal} {lh : LogHeader} {op : Nat} {blockno : UInt32}

theorem mem_blocksOf : blockno ∈ j.blocksOf op ↔
    ∃ call ∈ j.logged, call.op = op ∧ call.blockno = blockno := by
  simp [blocksOf, and_assoc]

theorem blocksOf_congr (logged : k.logged = j.logged) : k.blocksOf = j.blocksOf := by
  funext op
  rw [blocksOf, logged, blocksOf]

theorem remaining_congr (logged : k.logged = j.logged) : k.remaining = j.remaining := by
  funext phase
  cases phase with
  | operation op | logWrite op blockno => rw [remaining, blocksOf_congr logged, remaining]
  | outside | commit stage => rfl

theorem blocksOf_add_self :
    (j.add lh op blockno).blocksOf op = insert blockno (j.blocksOf op) := by
  ext other
  simp only [mem_blocksOf, Finset.mem_insert, add, mem_append, mem_singleton]
  constructor
  · rintro ⟨call, old | new, own, same⟩
    · exact .inr ⟨call, old, own, same⟩
    · exact .inl (same.symm.trans (congrArg Logged.blockno new))
  · rintro (rfl | ⟨call, old, own, same⟩)
    · exact ⟨_, .inr rfl, rfl, rfl⟩
    · exact ⟨call, .inl old, own, same⟩

theorem blocksOf_add_of_ne {other : Nat} (different : other ≠ op) :
    (j.add lh op blockno).blocksOf other = j.blocksOf other := by
  ext listed
  simp only [mem_blocksOf, add, mem_append, mem_singleton]
  constructor
  · rintro ⟨call, old | new, own, same⟩
    · exact ⟨call, old, own, same⟩
    · exact absurd (own.symm.trans (congrArg Logged.op new)) different
  · rintro ⟨call, old, own, same⟩
    exact ⟨call, .inl old, own, same⟩

theorem card_blocksOf_le_add (other : Nat) :
    (j.blocksOf other).card ≤ ((j.add lh op blockno).blocksOf other).card := by
  apply Finset.card_le_card
  intro listed member
  obtain ⟨call, old, own, same⟩ := mem_blocksOf.mp member
  exact mem_blocksOf.mpr ⟨call, mem_append_left _ old, own, same⟩

theorem remaining_add_le (j : Journal) (lh : LogHeader) (op : Nat) (blockno : UInt32)
    (phase : Phase) : (j.add lh op blockno).remaining phase ≤ j.remaining phase := by
  cases phase with
  | operation other | logWrite other _ => exact Nat.sub_le_sub_left (card_blocksOf_le_add other) _
  | outside | commit stage => exact Nat.le_refl _

theorem remaining_add_lt {listed : UInt32} (fresh : blockno ∉ j.blocksOf op)
    (within : (insert blockno (j.blocksOf op)).card ≤ maxopblocks) :
    (j.add lh op blockno).remaining (.logWrite op listed) <
      j.remaining (.logWrite op listed) := by
  rw [Finset.card_insert_of_notMem fresh] at within
  rw [remaining, remaining, blocksOf_add_self, Finset.card_insert_of_notMem fresh]
  omega

end Journal

section

variable {P : Type} [Fintype P] [DecidableEq P] {size : Nat} {s : State P}

omit [Fintype P] in
theorem commit_moves (s : State P) (p : P) (stage : Stage) :
    (∃ phase, (s.commit p stage).phase = update s.phase p phase ∧
      phase.op? = none) ∧
      (s.commit p stage).journal.lh.n ≤ s.journal.lh.n ∧
        (s.commit p stage).halt = s.halt := by
  cases stage with
  | test | writeHead | writeClear | release => exact ⟨⟨_, rfl, rfl⟩, Nat.le_refl _, rfl⟩
  | writeLog tail | installTrans tail =>
    simp only [State.commit]
    split <;> exact ⟨⟨_, rfl, rfl⟩, Nat.le_refl _, rfl⟩
  | clear => exact ⟨⟨_, rfl, rfl⟩, Nat.zero_le _, rfl⟩

theorem Journal.remaining_of_inactive (j : Journal) {phase : Phase}
    (inactive : phase.op? = none) : j.remaining phase = 0 := by
  cases phase with
  | operation op | logWrite op blockno => contradiction
  | outside | commit stage => rfl

theorem n_of_add {lh next : LogHeader} {blockno : UInt32}
    (added : lh.add blockno = some next) :
    next.n = lh.n ∨ blockno ∉ lh.block ∧ next.n = lh.n + 1 := by
  unfold LogHeader.add at added
  split at added
  next =>
    cases added
    exact .inl rfl
  next unlisted =>
    split at added
    next =>
      cases added
      exact .inr ⟨unlisted, length_append⟩
    next => contradiction

namespace State.Fits

variable (fits : s.Fits size)

include fits

variable {next : State P} {p : P} {blockno : UInt32} {op : Nat}

theorem move {phase : Phase} (grouped : next.Grouped)
    (moved : next.phase = update s.phase p phase)
    (logged : next.journal.logged = s.journal.logged)
    (shorter : next.journal.lh.n ≤ s.journal.lh.n)
    (lighter : s.journal.remaining phase ≤ s.journal.remaining (s.phase p))
    (within : ∀ op blockno, phase = .logWrite op blockno →
      (insert blockno (s.journal.blocksOf op)).card ≤ maxopblocks)
    (owner : phase.op? = none ∨ phase.op? = (s.phase p).op?) (running : next.halt = s.halt) :
    next.Fits size where
  grouped := grouped
  room := by
    have updated := tally_update s.journal.remaining s.phase p phase
    have room := fits.room
    rw [moved, Journal.remaining_congr logged]
    omega
  within := by
    intro q op blockno writing
    rw [Journal.blocksOf_congr logged]
    rw [moved] at writing
    by_cases same : q = p
    · rw [same, update_self] at writing
      exact within op blockno writing
    · rw [update_of_ne same] at writing
      exact fits.within q op blockno writing
  owner := by
    have before : ∀ q op, (next.phase q).op? = some op → (s.phase q).op? = some op := by
      intro q op runs
      rw [moved] at runs
      by_cases same : q = p
      · rw [same, update_self] at runs
        rcases owner with gone | kept
        · rw [gone] at runs
          contradiction
        · rw [same, ← kept, runs]
      · rwa [update_of_ne same] at runs
    intro first second op runs runs'
    exact fits.owner first second op (before first op runs) (before second op runs')
  running := running.trans fits.running

theorem admitted (grouped : next.Grouped)
    (room : s.journal.lh.n + tally s.journal.remaining s.phase + maxopblocks < size - 1)
    (journal : next.journal = s.journal)
    (moved : next.phase = update s.phase p (.operation s.admitted)) (running : next.halt = s.halt) :
    next.Fits size where
  grouped := grouped
  room := by
    have updated := tally_update s.journal.remaining s.phase p (.operation s.admitted)
    have budget : s.journal.remaining (.operation s.admitted) ≤ maxopblocks := Nat.sub_le _ _
    rw [journal, moved]
    omega
  within := by
    intro q op blockno writing
    rw [moved] at writing
    rw [journal]
    by_cases same : q = p
    · rw [same, update_self] at writing
      contradiction
    · rw [update_of_ne same] at writing
      exact fits.within q op blockno writing
  owner := by
    -- a new operation has a number of its own
    have older : ∀ q, q ≠ p → ∀ op, (next.phase q).op? = some op →
        (s.phase q).op? = some op ∧ op < s.admitted := by
      intro q other op runs
      rw [moved, update_of_ne other] at runs
      exact ⟨runs, (fits.grouped.running q op runs).1⟩
    have own : ∀ op, (next.phase p).op? = some op → op = s.admitted := by
      intro op runs
      rw [moved, update_self] at runs
      exact (Option.some.inj runs).symm
    intro first second op runs runs'
    by_cases same : first = p
    · by_cases same' : second = p
      · rw [same, same']
      · have known := own op (same ▸ runs)
        have below := (older second same' op runs').2
        omega
    · by_cases same' : second = p
      · have known := own op (same' ▸ runs')
        have below := (older first same op runs).2
        omega
      · exact fits.owner first second op (older first same op runs).1
          (older second same' op runs').1
  running := running.trans fits.running

omit [DecidableEq P] in
theorem fresh_of_unlisted (runs : (s.phase p).op? = some op)
    (unlisted : blockno ∉ s.journal.lh.block) : blockno ∉ s.journal.blocksOf op := by
  intro member
  obtain ⟨call, logged, own, same⟩ := Journal.mem_blocksOf.mp member
  have content := (fits.grouped.idle_of_running runs).2.2.1
  have current := (fits.grouped.running p op runs).2 call logged own
  exact unlisted ((content blockno).mpr ⟨call, logged, current, same⟩)

theorem log {lh : LogHeader} (writing : s.phase p = .logWrite op blockno)
    (added : s.journal.lh.add blockno = some lh)
    (grouped : ({ s with journal := s.journal.add lh op blockno }.moveTo p
      (.operation op)).Grouped) :
    ({ s with journal := s.journal.add lh op blockno }.moveTo p (.operation op)).Fits
      size where
  grouped := grouped
  room := by
    have room := fits.room
    have within := fits.within p op blockno writing
    have runs : (s.phase p).op? = some op := by rw [writing]; rfl
    have updated := tally_update (s.journal.add lh op blockno).remaining s.phase p
      (.operation op)
    have same : (s.journal.add lh op blockno).remaining (s.phase p) =
        (s.journal.add lh op blockno).remaining (.operation op) := by
      rw [writing]
      rfl
    change lh.n + tally (s.journal.add lh op blockno).remaining
      (update s.phase p (.operation op)) < size - 1
    rcases n_of_add added with absorbed | ⟨unlisted, grown⟩
    · have lighter := tally_le_tally s.phase
        (Journal.remaining_add_le s.journal lh op blockno)
      omega
    · have spent : (s.journal.add lh op blockno).remaining (s.phase p) <
          s.journal.remaining (s.phase p) := by
        rw [writing]
        exact Journal.remaining_add_lt (fits.fresh_of_unlisted runs unlisted) within
      have lighter := tally_lt_tally s.phase
        (Journal.remaining_add_le s.journal lh op blockno) p spent
      omega
  within := by
    intro q other listed there
    change (insert listed ((s.journal.add lh op blockno).blocksOf other)).card ≤ _
    by_cases same : q = p
    · simp [moveTo, same] at there
    · simp only [moveTo, update_of_ne same] at there
      have different : other ≠ op := by
        intro equal
        apply same
        apply fits.owner q p op
        · rw [there, equal]
          rfl
        · rw [writing]
          rfl
      rw [Journal.blocksOf_add_of_ne different]
      exact fits.within q other listed there
  owner := by
    have before : ∀ q other,
        (update s.phase p (.operation op) q).op? = some other →
          (s.phase q).op? = some other := by
      intro q other runs
      by_cases same : q = p
      · rw [same, update_self] at runs
        rw [same, writing]
        exact runs
      · rwa [update_of_ne same] at runs
    intro first second other runs runs'
    exact fits.owner first second other (before first other runs) (before second other runs')
  running := fits.running

theorem step {label : Label P} (limit : size ≤ logsize) (budgeted : Budgeted s label)
    (hasRoom : HasRoom size s label) (stepped : GroupLog.step size s label = some next) :
    next.Fits size := by
  have grouped := fits.grouped.step stepped
  have room := fits.room
  cases (moved_of_step size stepped).2 with
  | admitted => exact fits.admitted grouped hasRoom rfl rfl rfl
  | tooBig _ full => omega
  | outsideOfTrans => exact absurd rfl grouped.halted.2
  | @tested p op blockno operation =>
    refine fits.move grouped rfl rfl (Nat.le_refl _) ?_ ?_ ?_ rfl
    · rw [operation]
      exact Nat.le_refl _
    · intro other listed same
      cases same
      simpa only [Budgeted, operation] using budgeted
    · rw [operation]
      exact .inr rfl
  | logged writing added => exact fits.log writing added grouped
  | overrun _ full =>
    unfold LogHeader.add at full
    split at full
    next => contradiction
    next =>
      split at full
      next => contradiction
      next long =>
        change s.journal.lh.block.length + _ < size - 1 at room
        omega
  | endedBusy => exact absurd rfl grouped.halted.1
  | endedLast operation | ended operation =>
    exact fits.move grouped rfl rfl (Nat.le_refl _) (Nat.zero_le _)
      (fun _ _ => Phase.noConfusion) (.inl rfl) rfl
  | @commits p stage here =>
    obtain ⟨⟨phase, moved, inactive⟩, shorter, running⟩ := commit_moves s p stage
    refine fits.move grouped moved (commit_keeps s p stage).2 shorter ?_ ?_
      (.inl inactive) running
    · rw [Journal.remaining_of_inactive _ inactive]
      exact Nat.zero_le _
    · intro op blockno writing
      rw [writing] at inactive
      contradiction

end State.Fits

omit [DecidableEq P] in
theorem fits_boot (large : 1 < size) : (boot P).Fits size where
  grouped := grouped_boot
  room := by
    have none : tally (boot P).journal.remaining (boot P).phase = 0 :=
      tally_const_zero _ Phase.outside rfl
    rw [none]
    exact Nat.sub_pos_of_lt large
  within := fun _ _ _ => Phase.noConfusion
  owner := fun _ _ _ runs => by cases runs
  running := rfl

/-- As long as every operation keeps to its budget and is admitted only with room
for it below `log.size - 1`, no test of `log_write` fails. -/
theorem no_panic_with_room (labels : List (Label P)) (s : State P)
    (conforms : Conforms (step nlog) (fun s label => Budgeted s label ∧ HasRoom nlog s label)
      (boot P) labels)
    (reached : run (step nlog) (boot P) labels = some s) : s.halt ≠ some .tooBig := by
  have fits : s.Fits nlog := by
    refine run_invariant (State.Fits nlog) ?_ (fits_boot (by decide)) conforms reached
    intro before label after fits condition stepped
    exact fits.step (Nat.le_refl _) condition.1 condition.2 stepped
  rw [fits.running]
  exact (Option.some_ne_none _).symm

end

def logCalls (p : P) (first : UInt32) (count : Nat) : List (Label P) :=
  (List.range count).flatMap fun i => [.test p (first + UInt32.ofNat i), .logWrite p]

theorem no_panic_two_operations :
    ∃ s, run (step nlog) (boot (Fin 2)) ([.beginOp 0, .beginOp 1] ++ logCalls 0 70 10 ++
        logCalls 1 80 10) = some s ∧
      s.journal.lh.n = 20 ∧ s.halt ≠ some .tooBig := by
  have finished : ((run (step nlog) (boot (Fin 2)) ([.beginOp 0, .beginOp 1] ++
      logCalls 0 70 10 ++ logCalls 1 80 10)).map fun s => s.journal.lh.n) = some 20 := by
    decide +kernel
  obtain ⟨s, reached, full⟩ := Option.map_eq_some_iff.mp finished
  exact ⟨s, reached, full, no_panic_with_room _ s (by decide +kernel) reached⟩

def threeFull (first second third : P) : List (Label P) :=
  [.beginOp first, .beginOp second, .beginOp third] ++ logCalls first 70 10 ++
    logCalls second 80 10 ++ logCalls third 90 9 ++ [.test third 99]

theorem threeFull_too_big :
    Conforms (step nlog) Budgeted (boot (Fin 3)) (threeFull 0 1 2) ∧
      (run (step nlog) (boot (Fin 3)) (threeFull 0 1 2)).map State.halt =
        some (some .tooBig) := by
  constructor
  · decide +kernel
  · decide +kernel

end StraceXv6.Kernel.GroupLog
