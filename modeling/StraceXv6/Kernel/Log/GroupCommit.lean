import StraceXv6.Data.Tally
import StraceXv6.Kernel.Log.Operations

namespace StraceXv6.Kernel.GroupLog

open List Data

/-! The invariant of a group of operations and its commit. -/

def Phase.op? : Phase → Option Nat
  | .operation op | .logWrite op _ => some op
  | _ => none

def Phase.active (phase : Phase) : Nat := if phase.op?.isSome then 1 else 0

namespace Journal

/-- An operation logged the block for the given transaction. -/
def Holds (j : Journal) (transaction : Nat) (blockno : UInt32) : Prop :=
  ∃ call ∈ j.logged, call.transaction = transaction ∧ call.blockno = blockno

/-- The header lists the blocks of the current transaction. -/
def Content (j : Journal) : Prop :=
  ∀ blockno, blockno ∈ j.lh.block ↔ j.Holds j.ended blockno

structure Complete (j : Journal) (transaction : Nat) : Prop where
  copied : (j.commits transaction).copied = (j.commits transaction).header
  installed : (j.commits transaction).installed = (j.commits transaction).header
  content : ∀ blockno,
    blockno ∈ (j.commits transaction).header ↔ j.Holds transaction blockno

def Reached (j : Journal) : Stage → Prop
  | .test => j.Content ∧ j.commits j.ended = .none
  | .writeLog tail => j.Content ∧ j.commits j.ended = ⟨j.lh.block.take tail, [], []⟩
  | .writeHead => j.Content ∧ j.commits j.ended = ⟨j.lh.block, [], []⟩
  | .installTrans tail =>
    j.Content ∧ j.commits j.ended = ⟨j.lh.block, j.lh.block, j.lh.block.take tail⟩
  | .clear => j.Content ∧ j.commits j.ended = ⟨j.lh.block, j.lh.block, j.lh.block⟩
  | .writeClear | .release => j.lh.block = [] ∧ j.Complete j.ended

structure Sound (j : Journal) : Prop where
  distinct : j.lh.block.Nodup
  complete : ∀ transaction < j.ended, j.Complete transaction
  later : ∀ transaction, j.ended < transaction → j.commits transaction = .none
  tagged : ∀ call ∈ j.logged, call.transaction ≤ j.ended
  sameOp : ∀ first ∈ j.logged, ∀ second ∈ j.logged, first.op = second.op →
    first.transaction = second.transaction

variable {j k : Journal} {transaction tail : Nat} {next : LogHeader} {other : UInt32}

theorem Holds.congr {blockno : UInt32} (logged : k.logged = j.logged) :
    k.Holds transaction blockno ↔ j.Holds transaction blockno := by
  rw [Holds, logged, Holds]

theorem Complete.congr (complete : j.Complete transaction)
    (commits : k.commits transaction = j.commits transaction) (logged : k.logged = j.logged) :
    k.Complete transaction where
  copied := by rw [commits, complete.copied]
  installed := by rw [commits, complete.installed]
  content := by
    intro blockno
    rw [commits, Holds.congr logged]
    exact complete.content blockno

theorem modifyCommit_over (j : Journal) (change : Commit → Commit) :
    (j.modifyCommit change).commits j.ended = change (j.commits j.ended) :=
  Function.update_self ..

theorem modifyCommit_of_ne (j : Journal) (other : transaction ≠ j.ended) (change : Commit → Commit) :
    (j.modifyCommit change).commits transaction = j.commits transaction :=
  Function.update_of_ne other ..

theorem Sound.modifyCommit (sound : j.Sound) (change : Commit → Commit) :
    (j.modifyCommit change).Sound where
  distinct := sound.distinct
  complete := by
    intro transaction below
    exact (sound.complete transaction below).congr
      (modifyCommit_of_ne j (Nat.ne_of_lt below) change) rfl
  later := by
    intro transaction above
    rw [modifyCommit_of_ne j (Nat.ne_of_gt above) change]
    exact sound.later transaction above
  tagged := sound.tagged
  sameOp := sound.sameOp

theorem Sound.clear (sound : j.Sound) : { j with lh := .empty }.Sound where
  distinct := nodup_nil
  complete := by
    intro transaction below
    exact (sound.complete transaction below).congr rfl rfl
  later := sound.later
  tagged := sound.tagged
  sameOp := sound.sameOp

theorem Sound.release (sound : j.Sound) (complete : j.Complete j.ended) :
    { j with ended := j.ended + 1 }.Sound where
  distinct := sound.distinct
  complete := by
    intro transaction below
    cases Nat.lt_or_eq_of_le (Nat.le_of_lt_succ below) with
    | inl older => exact (sound.complete transaction older).congr rfl rfl
    | inr last =>
      subst last
      exact complete.congr rfl rfl
  later := by
    intro transaction above
    exact sound.later transaction (Nat.lt_of_succ_lt above)
  tagged := fun call member => Nat.le_succ_of_le (sound.tagged call member)
  sameOp := sound.sameOp

theorem take_succ_of_getElem? {blockno : UInt32} {blocks : List UInt32}
    (found : blocks[tail]? = some blockno) :
    blocks.take (tail + 1) = blocks.take tail ++ [blockno] := by
  rw [take_add_one, found]
  rfl

theorem Reached.copy {blockno : UInt32} (reached : j.Reached (.writeLog tail))
    (found : j.lh.block[tail]? = some blockno) :
    (j.copy blockno).Reached (.writeLog (tail + 1)) := by
  refine ⟨reached.1, (modifyCommit_over ..).trans ?_⟩
  rw [reached.2]
  exact congrArg (Commit.mk · [] []) (take_succ_of_getElem? found).symm

theorem Reached.install {blockno : UInt32} (reached : j.Reached (.installTrans tail))
    (found : j.lh.block[tail]? = some blockno) :
    (j.install blockno).Reached (.installTrans (tail + 1)) := by
  refine ⟨reached.1, (modifyCommit_over ..).trans ?_⟩
  rw [reached.2]
  exact congrArg (Commit.mk j.lh.block j.lh.block) (take_succ_of_getElem? found).symm

theorem Reached.head (reached : j.Reached .writeHead) : j.head.Reached (.installTrans 0) := by
  refine ⟨reached.1, (modifyCommit_over ..).trans ?_⟩
  rw [reached.2]
  rfl

theorem Reached.clear (reached : j.Reached .clear) :
    { j with lh := .empty }.Reached .writeClear := by
  obtain ⟨content, done⟩ := reached
  refine ⟨rfl, ?_⟩
  have complete : j.Complete j.ended := by
    refine ⟨?_, ?_, fun blockno => ?_⟩
    · rw [done]
    · rw [done]
    · rw [done]
      exact content blockno
  exact complete.congr rfl rfl

theorem Reached.skip (reached : j.Reached .test) (vacant : j.lh.block = []) :
    j.Reached .release := by
  obtain ⟨content, untouched⟩ := reached
  refine ⟨vacant, ?_, ?_, fun blockno => ?_⟩
  · rw [untouched]
    rfl
  · rw [untouched]
    rfl
  · rw [untouched, ← content blockno, vacant]
    rfl

theorem mem_block_of_add {lh : LogHeader} {blockno : UInt32} (added : lh.add blockno = some next) :
    other ∈ next.block ↔ other ∈ lh.block ∨ other = blockno := by
  unfold LogHeader.add at added
  split at added
  next listed =>
    cases added
    constructor
    · exact .inl
    · rintro (old | rfl)
      · exact old
      · exact listed
  next =>
    split at added
    next =>
      cases added
      simp
    next => contradiction

theorem nodup_of_add {lh : LogHeader} {blockno : UInt32} (added : lh.add blockno = some next)
    (distinct : lh.block.Nodup) : next.block.Nodup := by
  unfold LogHeader.add at added
  split at added
  next =>
    cases added
    exact distinct
  next unlisted =>
    split at added
    next =>
      cases added
      exact nodup_append.mpr ⟨distinct, nodup_singleton _, fun first member second last =>
        fun same => unlisted (mem_singleton.mp last ▸ same ▸ member)⟩
    next => contradiction

variable {lh : LogHeader} {op : Nat} {blockno : UInt32}

theorem holds_add :
    (j.add lh op blockno).Holds transaction other ↔
      j.Holds transaction other ∨ transaction = j.ended ∧ other = blockno := by
  constructor
  · rintro ⟨call, member, tag, same⟩
    rcases mem_append.mp member with old | new
    · exact .inl ⟨call, old, tag, same⟩
    · rw [mem_singleton.mp new] at tag same
      exact .inr ⟨tag.symm, same.symm⟩
  · rintro (⟨call, member, tag, same⟩ | ⟨rfl, rfl⟩)
    · exact ⟨call, mem_append_left _ member, tag, same⟩
    · exact ⟨_, mem_append_right _ (mem_singleton_self _), rfl, rfl⟩

theorem Content.add (content : j.Content) (added : j.lh.add blockno = some lh) :
    (j.add lh op blockno).Content := by
  intro other
  change other ∈ lh.block ↔ (j.add lh op blockno).Holds j.ended other
  rw [mem_block_of_add added, holds_add, content other]
  simp

theorem Sound.add (sound : j.Sound) (added : j.lh.add blockno = some lh)
    (current : ∀ call ∈ j.logged, call.op = op → call.transaction = j.ended) :
    (j.add lh op blockno).Sound where
  distinct := nodup_of_add added sound.distinct
  complete := by
    intro transaction below
    have done := sound.complete transaction below
    refine ⟨done.copied, done.installed, fun other => ?_⟩
    rw [holds_add, ← done.content other]
    constructor
    · exact .inl
    · rintro (old | ⟨same, _⟩)
      · exact old
      · exact absurd same (Nat.ne_of_lt below)
  later := sound.later
  tagged := by
    intro call member
    rcases mem_append.mp member with old | new
    · exact sound.tagged call old
    · rw [mem_singleton.mp new]
      exact Nat.le_refl _
  sameOp := by
    intro first member second member' same
    rcases mem_append.mp member with old | new <;>
      rcases mem_append.mp member' with old' | new'
    · exact sound.sameOp first old second old' same
    · rw [mem_singleton.mp new'] at same ⊢
      exact current first old same
    · rw [mem_singleton.mp new] at same ⊢
      exact (current second old' same.symm).symm
    · rw [mem_singleton.mp new, mem_singleton.mp new']

end Journal

section

variable {P : Type} [Fintype P]

namespace State

inductive Standing (s : State P) : Prop where
  | idle : s.committing = false → (∀ p stage, s.phase p ≠ .commit stage) →
      s.journal.Content → s.journal.commits s.journal.ended = .none →
      (s.outstanding = 0 → s.journal.lh.block = []) → Standing s
  | busy {p stage} : s.committing = true → tally Phase.active s.phase = 0 →
      s.phase p = .commit stage → (∀ q, q ≠ p → ∀ other, s.phase q ≠ .commit other) →
      s.journal.Reached stage → Standing s

structure Grouped (s : State P) : Prop where
  outstanding : s.outstanding = tally Phase.active s.phase
  standing : s.Standing
  sound : s.journal.Sound
  numbered : ∀ call ∈ s.journal.logged, call.op < s.admitted
  running : ∀ p op, (s.phase p).op? = some op →
    op < s.admitted ∧
      ∀ call ∈ s.journal.logged, call.op = op → call.transaction = s.journal.ended
  halted : s.halt ≠ some .committing ∧ s.halt ≠ some .outsideOfTrans

end State

variable [DecidableEq P]

namespace State.Grouped

variable {s : State P} (grouped : s.Grouped)

include grouped

variable {op : Nat} {p : P} {journal : Journal} {stage : Stage}

omit [DecidableEq P] in
theorem idle_of_running (running : (s.phase p).op? = some op) :
    s.committing = false ∧ (∀ q stage, s.phase q ≠ .commit stage) ∧ s.journal.Content ∧
      s.journal.commits s.journal.ended = .none ∧ 1 ≤ s.outstanding := by
  have weight : (s.phase p).active = 1 := by simp [Phase.active, running]
  have positive := weight_le_tally Phase.active s.phase p
  rw [weight] at positive
  have counted := grouped.outstanding
  cases grouped.standing with
  | idle off nobody content fresh _ => exact ⟨off, nobody, content, fresh, by omega⟩
  | busy _ zero => omega

omit [DecidableEq P] in
theorem halting {reason : Halt} (first : reason ≠ .committing)
    (second : reason ≠ .outsideOfTrans) :
    { s with halt := some reason }.Grouped where
  outstanding := grouped.outstanding
  standing := by
    cases grouped.standing with
    | idle off nobody content fresh settled => exact .idle off nobody content fresh settled
    | busy on zero here others reached => exact .busy on zero here others reached
  sound := grouped.sound
  numbered := grouped.numbered
  running := grouped.running
  halted := ⟨fun same => first (Option.some.inj same),
    fun same => second (Option.some.inj same)⟩

theorem admitted (outside : s.phase p = .outside) (off : s.committing = false) :
    { s with
      outstanding := s.outstanding + 1
      phase := Function.update s.phase p (.operation s.admitted)
      admitted := s.admitted + 1 }.Grouped where
  outstanding := by
    have counted := tally_update Phase.active s.phase p (.operation s.admitted)
    have before : (s.phase p).active = 0 := by rw [outside]; rfl
    have after : (Phase.operation s.admitted).active = 1 := rfl
    have total := grouped.outstanding
    change s.outstanding + 1 =
      tally Phase.active (Function.update s.phase p (.operation s.admitted))
    omega
  standing := by
    cases grouped.standing with
    | idle _ nobody content fresh _ =>
      refine .idle off ?_ content fresh ?_
      · intro q stage
        by_cases same : q = p
        · simp [same]
        · simpa [Function.update_of_ne same] using nobody q stage
      · intro zero
        have total := grouped.outstanding
        change s.outstanding + 1 = 0 at zero
        omega
    | busy on => exact absurd (off.symm.trans on) Bool.false_ne_true
  sound := grouped.sound
  numbered := fun call member => Nat.lt_succ_of_lt (grouped.numbered call member)
  running := by
    intro q op runs
    by_cases same : q = p
    · simp only [same, Function.update_self, Phase.op?, Option.some.injEq] at runs
      refine ⟨runs ▸ Nat.lt_succ_self _, fun call member own => ?_⟩
      have older := grouped.numbered call member
      omega
    · simp only [Function.update_of_ne same] at runs
      obtain ⟨known, current⟩ := grouped.running q op runs
      exact ⟨Nat.lt_succ_of_lt known, current⟩
  halted := grouped.halted

theorem proceed {phase : Phase} (runs : (s.phase p).op? = some op) (still : phase.op? = some op)
    (content : journal.Content) (fresh : journal.commits journal.ended = .none)
    (sound : journal.Sound) (numbered : ∀ call ∈ journal.logged, call.op < s.admitted)
    (current : ∀ q other, (s.phase q).op? = some other →
      ∀ call ∈ journal.logged, call.op = other → call.transaction = journal.ended) :
    ({ s with journal := journal }.moveTo p phase).Grouped := by
  obtain ⟨off, nobody, _, _, positive⟩ := grouped.idle_of_running runs
  have weight : (s.phase p).active = phase.active := by simp [Phase.active, runs, still]
  refine ⟨?_, .idle off ?_ content fresh ?_, sound, numbered, ?_, grouped.halted⟩
  · have counted := tally_update Phase.active s.phase p phase
    have total := grouped.outstanding
    change s.outstanding = tally Phase.active (Function.update s.phase p phase)
    omega
  · intro q stage
    by_cases same : q = p
    · intro committing
      simp only [moveTo, same, Function.update_self] at committing
      rw [committing] at still
      contradiction
    · simpa [moveTo, Function.update_of_ne same] using nobody q stage
  · intro zero
    change s.outstanding = 0 at zero
    omega
  · intro q other running
    by_cases same : q = p
    · simp only [moveTo, same, Function.update_self, still] at running
      rw [← Option.some.inj running]
      exact ⟨(grouped.running p op runs).1, current p op runs⟩
    · simp only [moveTo, Function.update_of_ne same] at running
      exact ⟨(grouped.running q other running).1, current q other running⟩

theorem endOp (operation : s.phase p = .operation op) :
    (s.outstanding - 1 = 0 →
      ({ s with outstanding := s.outstanding - 1, committing := true }.moveTo p
        (.commit .test)).Grouped) ∧
    (s.outstanding - 1 ≠ 0 →
      ({ s with outstanding := s.outstanding - 1 }.moveTo p .outside).Grouped) := by
  have runs : (s.phase p).op? = some op := by rw [operation]; rfl
  obtain ⟨off, nobody, content, fresh, positive⟩ := grouped.idle_of_running runs
  have weight : (s.phase p).active = 1 := by rw [operation]; rfl
  have total := grouped.outstanding
  have counted : ∀ phase : Phase, phase.active = 0 →
      s.outstanding - 1 = tally Phase.active (Function.update s.phase p phase) := by
    intro phase inactive
    have updated := tally_update Phase.active s.phase p phase
    omega
  have running : ∀ phase : Phase, phase.op? = none → ∀ q other,
      (Function.update s.phase p phase q).op? = some other →
        other < s.admitted ∧
          ∀ call ∈ s.journal.logged, call.op = other →
            call.transaction = s.journal.ended := by
    intro phase gone q other there
    by_cases same : q = p
    · rw [same, Function.update_self, gone] at there
      contradiction
    · rw [Function.update_of_ne same] at there
      exact grouped.running q other there
  constructor
  · intro last
    have tallied := counted (.commit .test) rfl
    refine ⟨tallied, .busy rfl ?_ (Function.update_self ..) ?_ ⟨content, fresh⟩,
      grouped.sound, grouped.numbered, running _ rfl, grouped.halted⟩
    · change tally Phase.active (Function.update s.phase p (.commit .test)) = 0
      omega
    · intro q other stage
      simpa [moveTo, Function.update_of_ne other] using nobody q stage
  · intro others
    refine ⟨counted .outside rfl, .idle off ?_ content fresh ?_, grouped.sound,
      grouped.numbered, running _ rfl, grouped.halted⟩
    · intro q stage
      by_cases same : q = p
      · simp [moveTo, same]
      · simpa [moveTo, Function.update_of_ne same] using nobody q stage
    · exact fun zero => absurd zero others

omit [DecidableEq P] in
theorem busy_of_commit (here : s.phase p = .commit stage) :
    s.committing = true ∧ tally Phase.active s.phase = 0 ∧
      (∀ q, q ≠ p → ∀ other, s.phase q ≠ .commit other) ∧ s.journal.Reached stage := by
  cases grouped.standing with
  | idle _ nobody => exact absurd here (nobody p stage)
  | @busy q other on zero there others reached =>
    have same : p = q := by
      by_contra different
      exact others p different stage here
    subst same
    rw [here] at there
    cases there
    exact ⟨on, zero, others, reached⟩

theorem advance {next : Stage} (here : s.phase p = .commit stage) (sound : journal.Sound)
    (logged : journal.logged = s.journal.logged) (ended : journal.ended = s.journal.ended)
    (reached : journal.Reached next) :
    ({ s with journal := journal }.moveTo p (.commit next)).Grouped := by
  obtain ⟨on, zero, others, _⟩ := grouped.busy_of_commit here
  have weight : (s.phase p).active = 0 := by rw [here]; rfl
  have counted := tally_update Phase.active s.phase p (.commit next)
  have inactive : (Phase.commit next).active = 0 := rfl
  have total := grouped.outstanding
  refine ⟨?_, .busy on ?_ (Function.update_self ..) ?_ reached, sound, ?_, ?_,
    grouped.halted⟩
  · change s.outstanding = tally Phase.active (Function.update s.phase p (.commit next))
    omega
  · change tally Phase.active (Function.update s.phase p (.commit next)) = 0
    omega
  · intro q other stage
    simpa [moveTo, Function.update_of_ne other] using others q other stage
  · change ∀ call ∈ journal.logged, call.op < s.admitted
    rw [logged]
    exact grouped.numbered
  · intro q op there
    change op < s.admitted ∧ ∀ call ∈ journal.logged, call.op = op →
      call.transaction = journal.ended
    rw [logged, ended]
    by_cases same : q = p
    · simp [moveTo, same, Phase.op?] at there
    · simp only [moveTo, Function.update_of_ne same] at there
      exact grouped.running q op there

theorem release (here : s.phase p = .commit .release) : (s.commit p .release).Grouped := by
  obtain ⟨_, zero, others, vacant, complete⟩ := grouped.busy_of_commit here
  have weight : (s.phase p).active = 0 := by rw [here]; rfl
  have counted := tally_update Phase.active s.phase p .outside
  have inactive : Phase.outside.active = 0 := rfl
  have total := grouped.outstanding
  refine ⟨?_, .idle rfl ?_ ?_ ?_ fun _ => vacant, grouped.sound.release complete,
    grouped.numbered, ?_, grouped.halted⟩
  · change s.outstanding = tally Phase.active (Function.update s.phase p .outside)
    omega
  · intro q stage
    by_cases same : q = p
    · simp [commit, moveTo, same]
    · simpa [commit, moveTo, Function.update_of_ne same] using others q same stage
  · intro blockno
    change blockno ∈ s.journal.lh.block ↔ _
    rw [vacant]
    refine ⟨fun member => absurd member not_mem_nil, ?_⟩
    rintro ⟨call, member, tag, _⟩
    have old := grouped.sound.tagged call member
    change call.transaction = s.journal.ended + 1 at tag
    omega
  · exact grouped.sound.later _ (Nat.lt_succ_self _)
  · intro q op there
    have active : 1 ≤ tally Phase.active (Function.update s.phase p .outside) := by
      refine Nat.le_trans ?_ (weight_le_tally Phase.active _ q)
      change (Function.update s.phase p .outside q).op? = some op at there
      simp [Phase.active, there]
    omega

theorem commit (here : s.phase p = .commit stage) : (s.commit p stage).Grouped := by
  obtain ⟨_, _, _, reached⟩ := grouped.busy_of_commit here
  cases stage with
  | test =>
    simp only [State.commit]
    split
    next => exact grouped.advance here grouped.sound rfl rfl reached
    next empty =>
      exact grouped.advance here grouped.sound rfl rfl
        (reached.skip (length_eq_zero_iff.mp (Nat.eq_zero_of_not_pos empty)))
  | writeLog tail =>
    simp only [State.commit]
    split
    next blockno found =>
      exact grouped.advance here (grouped.sound.modifyCommit _) rfl rfl
        (reached.copy found)
    next past =>
      refine grouped.advance here grouped.sound rfl rfl ⟨reached.1, ?_⟩
      rw [reached.2, take_of_length_le (List.getElem?_eq_none_iff.mp past)]
  | writeHead =>
    exact grouped.advance here (grouped.sound.modifyCommit _) rfl rfl reached.head
  | installTrans tail =>
    simp only [State.commit]
    split
    next blockno found =>
      exact grouped.advance here (grouped.sound.modifyCommit _) rfl rfl
        (reached.install found)
    next past =>
      refine grouped.advance here grouped.sound rfl rfl ⟨reached.1, ?_⟩
      rw [reached.2, take_of_length_le (List.getElem?_eq_none_iff.mp past)]
  | clear => exact grouped.advance here grouped.sound.clear rfl rfl reached.clear
  | writeClear => exact grouped.advance here grouped.sound rfl rfl reached
  | release => exact grouped.release here

theorem step {size : Nat} {label : Label P} {next : State P}
    (stepped : GroupLog.step size s label = some next) : next.Grouped := by
  cases (moved_of_step size stepped).2 with
  | admitted outside off => exact grouped.admitted outside off
  | tooBig | overrun => exact grouped.halting Halt.noConfusion Halt.noConfusion
  | @outsideOfTrans p op _ operation low =>
    have runs : (s.phase p).op? = some op := by rw [operation]; rfl
    obtain ⟨_, _, _, _, positive⟩ := grouped.idle_of_running runs
    omega
  | @tested p op blockno operation =>
    have runs : (s.phase p).op? = some op := by rw [operation]; rfl
    obtain ⟨_, _, content, fresh, _⟩ := grouped.idle_of_running runs
    exact grouped.proceed runs rfl content fresh grouped.sound grouped.numbered
      fun q other there => (grouped.running q other there).2
  | @logged p op blockno lh writing added =>
    have runs : (s.phase p).op? = some op := by rw [writing]; rfl
    obtain ⟨_, _, content, fresh, _⟩ := grouped.idle_of_running runs
    obtain ⟨known, current⟩ := grouped.running p op runs
    refine grouped.proceed runs rfl (content.add added) fresh
      (grouped.sound.add added current) ?_ ?_
    · intro call member
      rcases mem_append.mp member with old | new
      · exact grouped.numbered call old
      · rw [mem_singleton.mp new]
        exact known
    · intro q other there call member own
      rcases mem_append.mp member with old | new
      · exact (grouped.running q other there).2 call old own
      · rw [mem_singleton.mp new]
        rfl
  | @endedBusy p op operation on =>
    have runs : (s.phase p).op? = some op := by rw [operation]; rfl
    have off := (grouped.idle_of_running runs).1
    rw [on] at off
    contradiction
  | endedLast operation _ last => exact (grouped.endOp operation).1 last
  | ended operation _ others => exact (grouped.endOp operation).2 others
  | commits here => exact grouped.commit here

end State.Grouped

omit [Fintype P] in
theorem commit_keeps (s : State P) (p : P) (stage : Stage) :
    (s.commit p stage).admitted = s.admitted ∧
      (s.commit p stage).journal.logged = s.journal.logged := by
  cases stage with
  | test | writeHead | clear | writeClear | release => exact ⟨rfl, rfl⟩
  | writeLog tail | installTrans tail =>
    simp only [State.commit]
    split <;> exact ⟨rfl, rfl⟩

theorem State.Grouped.keeps_of_committing {s next : State P} {size : Nat}
    {label : Label P} (grouped : s.Grouped) (on : s.committing = true)
    (stepped : GroupLog.step size s label = some next) :
    next.admitted = s.admitted ∧ next.journal.logged = s.journal.logged := by
  cases (moved_of_step size stepped).2 with
  | admitted _ off =>
    rw [on] at off
    contradiction
  | logged writing =>
    have off := (grouped.idle_of_running (congrArg Phase.op? writing)).1
    rw [on] at off
    contradiction
  | commits => exact commit_keeps s _ _
  | _ => exact ⟨rfl, rfl⟩

omit [DecidableEq P] in
theorem grouped_boot : (boot P).Grouped where
  outstanding := by
    rw [boot, tally_const_zero Phase.active .outside rfl]
    rfl
  standing := by
    refine .idle rfl (fun _ _ => Phase.noConfusion) ?_ rfl fun _ => rfl
    intro blockno
    exact ⟨fun member => absurd member not_mem_nil,
      fun ⟨_, member, _⟩ => absurd member not_mem_nil⟩
  sound :=
    ⟨nodup_nil, fun _ below => absurd below (Nat.not_lt_zero _), fun _ _ => rfl,
      fun _ member => absurd member not_mem_nil,
      fun _ member => absurd member not_mem_nil⟩
  numbered := fun _ member => absurd member not_mem_nil
  running := fun _ _ runs => by cases runs
  halted := ⟨(Option.some_ne_none _).symm, (Option.some_ne_none _).symm⟩

/-- For any interleaving: while a commit runs no operation is in progress, none is
admitted and no block is logged; the header lists each block once; the blocks an
operation logs belong to one transaction, whose commit takes exactly the blocks
logged for it and starts only after the operation has ended. -/
theorem group_commit (size : Nat) (labels : List (Label P)) (s : State P)
    (reached : run (step size) (boot P) labels = some s) :
    (s.committing = true → s.outstanding = 0 ∧ ∀ label next,
      step size s label = some next →
        next.admitted = s.admitted ∧ next.journal.logged = s.journal.logged) ∧
    s.journal.lh.block.Nodup ∧
    (∀ first ∈ s.journal.logged, ∀ second ∈ s.journal.logged, first.op = second.op →
      first.transaction = second.transaction) ∧
    (∀ transaction < s.journal.ended, s.journal.Complete transaction) ∧
    (∀ call ∈ s.journal.logged, s.committing = true ∨ call.transaction < s.journal.ended →
      ∀ p, (s.phase p).op? ≠ some call.op) ∧
    (s.committing = false → s.outstanding = 0 →
      ∀ call ∈ s.journal.logged, call.transaction < s.journal.ended) ∧
    s.halt ≠ some .committing := by
  have grouped : s.Grouped :=
    run_preserves State.Grouped (fun _ _ _ before stepped => before.step stepped)
      grouped_boot reached
  refine ⟨?_, grouped.sound.distinct, grouped.sound.sameOp, grouped.sound.complete, ?_, ?_,
    grouped.halted.1⟩
  · intro on
    refine ⟨?_, fun label next stepped => grouped.keeps_of_committing on stepped⟩
    have total := grouped.outstanding
    cases grouped.standing with
    | idle off =>
      rw [on] at off
      contradiction
    | busy _ zero => omega
  · rintro call member closed p runs
    rcases closed with on | past
    · have off := (grouped.idle_of_running runs).1
      rw [on] at off
      contradiction
    · have current := (grouped.running p call.op runs).2 call member rfl
      omega
  · intro off zero call member
    cases grouped.standing with
    | idle _ _ content _ settled =>
      have bound := grouped.sound.tagged call member
      by_contra late
      have listed : call.blockno ∈ s.journal.lh.block :=
        (content call.blockno).mpr ⟨call, member, by omega, rfl⟩
      rw [settled zero] at listed
      exact absurd listed not_mem_nil
    | busy on =>
      rw [on] at off
      contradiction

/-- A crash while a group of operations is committed leaves on the disk all the blocks that
the operations logged, or none of them. -/
theorem group_commit_crash_atomic {size start : Nat} {labels : List (Label P)} {s : State P}
    (p : P) (reached : run (step size) (boot P) labels = some s)
    (commits : s.phase p = .commit .test) (fits : s.journal.lh.n < size)
    (home : ∀ call ∈ s.journal.logged, ¬InLog start size call.blockno.toNat)
    (disk cache : Nat → Block) (clear : getWord (disk start) 0 = 0) (cut : Nat)
    (cuts : List Nat) :
    ∃ disk', LogState.recoverThrough start
        (writes disk ((LogState.commit start ⟨cache, [], s.journal.lh⟩).issued.take cut)) cuts =
          some disk' ∧
      ((∀ b, ¬InLog start size b → disk' b = disk b) ∨
        (∀ b, s.journal.Holds s.journal.ended b → disk' b.toNat = cache b.toNat) ∧
        ∀ b, ¬InLog start size b → (∀ c, s.journal.Holds s.journal.ended c → c.toNat ≠ b) →
          disk' b = disk b) := by
  have grouped : s.Grouped :=
    run_preserves State.Grouped (fun _ _ _ before stepped => before.step stepped)
      grouped_boot reached
  have content : s.journal.Content := by
    cases grouped.standing with
    | idle _ none => exact absurd commits (none p _)
    | @busy q _ _ _ stands alone there =>
      by_cases same : p = q
      · cases stands.symm.trans (same ▸ commits)
        exact there.1
      · exact absurd commits (alone p same _)
  let t : Transaction start size := ⟨s.journal.lh, grouped.sound.distinct, fits, by
    intro b listed
    obtain ⟨call, logged, -, rfl⟩ := (content b).mp listed
    exact home call logged⟩
  have whole {disk' : Nat → Block} (rest : AtRest start size (t.after disk cache) disk') :
      (∀ b, s.journal.Holds s.journal.ended b → disk' b.toNat = cache b.toNat) ∧
      ∀ b, ¬InLog start size b → (∀ c, s.journal.Holds s.journal.ended c → c.toNat ≠ b) →
        disk' b = disk b := by
    simp only [← content _]
    refine ⟨fun b listed => ?_, fun b outside missing => ?_⟩
    · exact (rest.home _ (t.home b listed)).trans (if_pos (mem_map_of_mem listed))
    · refine (rest.home b outside).trans (if_neg fun found => ?_)
      obtain ⟨c, listed, same⟩ := mem_map.mp found
      exact missing c listed same
  have large : 0 < size := Nat.zero_lt_of_lt fits
  rcases t.commit_cut cache clear cut with ⟨_, rest⟩ | ⟨_, committed | rest⟩
  · obtain ⟨disk', recovered, final⟩ := rest.recoverThrough large cuts
    exact ⟨disk', recovered, .inl final.home⟩
  · obtain ⟨disk', recovered, final⟩ := committed.recoverThrough cuts
    exact ⟨disk', recovered, .inr (whole final)⟩
  · obtain ⟨disk', recovered, final⟩ := rest.recoverThrough large cuts
    exact ⟨disk', recovered, .inr (whole final)⟩

end

def sharedCommit (first second : P) : List (Label P) :=
  [.beginOp first, .test first 70, .beginOp second, .test second 71, .logWrite first,
    .logWrite second, .test first 71, .logWrite first, .endOp first, .endOp second,
    .commit second, .commit second, .commit second, .commit second, .commit second,
    .commit second, .commit second, .commit second, .commit second, .commit second,
    .commit second]

theorem group_commit_shared :
    ∃ s, run (step 30) (boot (Fin 2)) (sharedCommit 0 1) = some s ∧
      s.committing = false ∧ (s.journal.commits 0).header = [70, 71] ∧
      s.journal.Complete 0 := by
  have finished : ((run (step 30) (boot (Fin 2)) (sharedCommit 0 1)).map fun s =>
      (s.committing, (s.journal.commits 0).header, s.journal.ended)) =
        some (false, [70, 71], 1) := by decide
  obtain ⟨s, reached, equal⟩ := Option.map_eq_some_iff.mp finished
  obtain ⟨off, rest⟩ := Prod.mk.inj equal
  obtain ⟨header, ended⟩ := Prod.mk.inj rest
  have complete := (group_commit 30 (sharedCommit 0 1) s reached).2.2.2.1 0 (by omega)
  exact ⟨s, reached, off, header, complete⟩

theorem group_commit_crash_atomic_single : ∃ (s : State Unit) (disk' : Nat → Block),
    run (step 30) (boot Unit) [.beginOp (), .test () 70, .logWrite (), .endOp ()] = some s ∧
      LogState.recoverThrough 2 (writes (fun _ _ => 0)
        ((LogState.commit 2 ⟨fun _ _ => 7, [], s.journal.lh⟩).issued.take 2)) [1] = some disk' := by
  have reached : run (step 30) (boot Unit) [.beginOp (), .test () 70, .logWrite (), .endOp ()] =
    some _ := rfl
  have home : ¬InLog 2 30 70 := by simp [InLog]
  obtain ⟨disk', recovered, _⟩ := group_commit_crash_atomic () reached rfl
    (by decide) (forall_mem_singleton.mpr home) (fun _ _ => 0) (fun _ _ => 7) (by decide) 2 [1]
  exact ⟨_, disk', reached, recovered⟩

end StraceXv6.Kernel.GroupLog
