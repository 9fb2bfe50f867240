import StraceXv6.Kernel.ConsoleInput.Discipline

namespace StraceXv6.Kernel.ConsoleInput

open List Function Data

/-! What is read from the console is what was committed, in order. -/

/-- The bytes that were taken, each with the call that took it. -/
def taken (history : List Event) : List (Nat × UInt8) :=
  history.filterMap fun
    | .key _ => none
    | .taken call c => some (call, c)

def takenBy (bytes : List (Nat × UInt8)) (call : Nat) : List UInt8 :=
  (bytes.filter fun entry => entry.1 = call).map Prod.snd

/-- How a read ends: the bytes that it takes from the input, those that it copies, its result,
and the byte that is next then. -/
inductive Ended (size : Int32) : List UInt8 → List UInt8 → Int32 → Option UInt8 → Prop where
  | full {bytes : List UInt8} {next : Option UInt8} (plain : Plain bytes)
      (length : bytes.length = size.toInt.toNat) :
      Ended size bytes bytes (.ofNat bytes.length) next
  | newline {bytes : List UInt8} {next : Option UInt8} (plain : Plain bytes)
      (more : bytes.length < size.toInt.toNat) :
      Ended size (bytes ++ ['\n'.toUInt8]) (bytes ++ ['\n'.toUInt8])
        (.ofNat (bytes.length + 1)) next
  | beforeEof {bytes : List UInt8} (plain : Plain bytes) (has : bytes ≠ [])
      (more : bytes.length < size.toInt.toNat) :
      Ended size bytes bytes (.ofNat bytes.length) (some (ctrl 'D'))
  | eof {next : Option UInt8} (more : 0 < size.toInt.toNat) : Ended size [ctrl 'D'] [] 0 next
  | killed {bytes : List UInt8} (plain : Plain bytes) (more : bytes.length < size.toInt.toNat) :
      Ended size bytes bytes (-1) none

theorem takenBy_append_same (bytes : List (Nat × UInt8)) (call : Nat) (more : List UInt8) :
    takenBy (bytes ++ more.map (call, ·)) call = takenBy bytes call ++ more := by
  simp [takenBy, filter_map, comp_def]

theorem takenBy_append_other (bytes : List (Nat × UInt8)) {call other : Nat}
    (different : other ≠ call) (more : List UInt8) :
    takenBy (bytes ++ more.map (call, ·)) other = takenBy bytes other := by
  simp [takenBy, filter_map, comp_def, Ne.symm different]

namespace Phase

def call : Phase → Option Nat
  | .idle => none
  | .reading call _ _ _ _ => some call

@[simp] theorem call_wake (phase : Phase) : phase.wake.call = phase.call := by
  cases phase <;> rfl

@[simp] theorem wake_wake (phase : Phase) : phase.wake.wake = phase.wake := by
  cases phase <;> rfl

theorem wake_ne_asleep (phase : Phase) {call : Nat} {size : Int32} {n : Nat}
    {dst : List UInt8} : phase.wake ≠ .reading call size n dst true := by
  cases phase <;> simp [wake]

end Phase

structure Numbered {P : Type} (doing : P → Phase) (calls : Nat) (bytes : List (Nat × UInt8))
    (reads : List Read) : Prop where
  tags : ∀ entry ∈ bytes, entry.1 < calls ∧
    ((∃ read ∈ reads, read.call = entry.1) ∨ ∃ p, (doing p).call = some entry.1)
  numbers : ∀ p call, (doing p).call = some call → call < calls
  current : ∀ p call size n dst, doing p = .reading call size n dst false →
    takenBy bytes call = dst ∧ dst.length + n = size.toInt.toNat ∧ Plain dst
  alone : ∀ p q call, (doing p).call = some call → (doing q).call = some call → p = q
  ended : ∀ read ∈ reads, read.call < calls ∧ (∀ p, (doing p).call ≠ some read.call) ∧
    Ended read.size (takenBy bytes read.call) read.bytes read.result read.next
  once : (reads.map Read.call).Nodup

namespace Numbered

variable {P : Type} [DecidableEq P] {doing : P → Phase} {calls : Nat}
  {bytes : List (Nat × UInt8)} {reads : List Read} {p : P}

omit [DecidableEq P] in
theorem takenBy_fresh (numbered : Numbered doing calls bytes reads) : takenBy bytes calls = [] := by
  rw [takenBy, map_eq_nil_iff, filter_eq_nil_iff]
  intro entry member same
  have earlier := (numbered.tags entry member).1
  rw [of_decide_eq_true same] at earlier
  exact absurd earlier (Nat.lt_irrefl _)

theorem begin (numbered : Numbered doing calls bytes reads) (idle : doing p = .idle)
    (size : Int32) :
    Numbered (update doing p (.reading calls size size.toInt.toNat [] false)) (calls + 1)
      bytes reads := by
  have calling : ∀ q call, (update doing p
      (.reading calls size size.toInt.toNat [] false) q).call = some call →
        q ≠ p ∧ (doing q).call = some call ∨ q = p ∧ call = calls := by
    intro q call now
    by_cases mine : q = p
    · rw [mine, update_self] at now
      exact .inr ⟨mine, (Option.some.inj now).symm⟩
    · rw [update_of_ne mine] at now
      exact .inl ⟨mine, now⟩
  refine ⟨?_, ?_, ?_, ?_, ?_, numbered.once⟩
  · intro entry member
    obtain ⟨below, whose⟩ := numbered.tags entry member
    refine ⟨Nat.lt_succ_of_lt below, whose.imp_right ?_⟩
    rintro ⟨q, call⟩
    refine ⟨q, ?_⟩
    rwa [update_of_ne]
    rintro rfl
    rw [idle] at call
    exact absurd call (by simp [Phase.call])
  · intro q call now
    rcases calling q call now with ⟨-, before⟩ | ⟨-, rfl⟩
    · exact Nat.lt_succ_of_lt (numbered.numbers q call before)
    · exact Nat.lt_succ_self _
  · intro q call size' n dst now
    by_cases mine : q = p
    · rw [mine, update_self] at now
      obtain ⟨rfl, rfl, rfl, rfl, -⟩ := Phase.reading.inj now
      exact ⟨numbered.takenBy_fresh, Nat.zero_add _, fun c member => absurd member not_mem_nil⟩
    · rw [update_of_ne mine] at now
      exact numbered.current q call size' n dst now
  · intro q q' call first second
    rcases calling q call first with ⟨-, before⟩ | ⟨rfl, rfl⟩
    · rcases calling q' call second with ⟨-, before'⟩ | ⟨-, rfl⟩
      · exact numbered.alone q q' call before before'
      · exact absurd (numbered.numbers q _ before) (Nat.lt_irrefl _)
    · rcases calling q' _ second with ⟨-, before'⟩ | ⟨rfl, -⟩
      · exact absurd (numbered.numbers q' _ before') (Nat.lt_irrefl _)
      · rfl
  · intro read member
    obtain ⟨below, nobody, ended⟩ := numbered.ended read member
    refine ⟨Nat.lt_succ_of_lt below, fun q now => ?_, ended⟩
    rcases calling q _ now with ⟨-, before⟩ | ⟨-, same⟩
    · exact nobody q before
    · omega

variable {call n : Nat} {dst more : List UInt8} {size : Int32}

theorem go (numbered : Numbered doing calls bytes reads)
    (mine : doing p = .reading call size n dst false) (plain : Plain more)
    (fits : more.length ≤ n) :
    Numbered (update doing p (.reading call size (n - more.length) (dst ++ more) false))
      calls (bytes ++ more.map (call, ·)) reads := by
  have number : (doing p).call = some call := by rw [mine]; rfl
  have same : ∀ q, (update doing p
      (.reading call size (n - more.length) (dst ++ more) false) q).call = (doing q).call := by
    intro q
    by_cases own : q = p
    · rw [own, update_self, number]
      rfl
    · rw [update_of_ne own]
  refine ⟨?_, ?_, ?_, ?_, ?_, numbered.once⟩
  · simp only [same]
    intro entry member
    rcases mem_append.mp member with before | new
    · exact numbered.tags entry before
    · obtain ⟨c, -, rfl⟩ := mem_map.mp new
      exact ⟨numbered.numbers p call number, .inr ⟨p, number⟩⟩
  · simpa only [same] using numbered.numbers
  · intro q call' size' n' dst' now
    by_cases own : q = p
    · rw [own, update_self] at now
      obtain ⟨rfl, rfl, rfl, rfl, -⟩ := Phase.reading.inj now
      obtain ⟨copied, length, before⟩ := numbered.current p call size n dst mine
      refine ⟨?_, ?_, before.append plain⟩
      · rw [takenBy_append_same, copied]
      · rw [length_append]
        omega
    · rw [update_of_ne own] at now
      have other : call' ≠ call := by
        rintro rfl
        exact own (numbered.alone q p call' (by rw [now]; rfl) number)
      rw [takenBy_append_other _ other]
      exact numbered.current q call' size' n' dst' now
  · simpa only [same] using numbered.alone
  · simp only [same]
    intro read member
    obtain ⟨below, nobody, ended⟩ := numbered.ended read member
    have other : read.call ≠ call := fun equal => nobody p (equal ▸ number)
    rw [takenBy_append_other _ other]
    exact ⟨below, nobody, ended⟩

theorem finish {copied : List UInt8} {result : Int32} {next : Option UInt8}
    (numbered : Numbered doing calls bytes reads)
    (mine : doing p = .reading call size n dst false)
    (ended : Ended size (dst ++ more) copied result next) :
    Numbered (update doing p .idle) calls (bytes ++ more.map (call, ·))
      (reads ++ [⟨call, size, copied, result, next⟩]) := by
  have number : (doing p).call = some call := by rw [mine]; rfl
  have calling : ∀ q call', (update doing p .idle q).call = some call' →
      (doing q).call = some call' ∧ q ≠ p := by
    intro q call' now
    by_cases own : q = p
    · rw [own, update_self] at now
      exact absurd now (by simp [Phase.call])
    · rw [update_of_ne own] at now
      exact ⟨now, own⟩
  refine ⟨?_, ?_, ?_, ?_, ?_, ?_⟩
  · intro entry member
    have tagged : entry.1 < calls ∧
        ((∃ read ∈ reads, read.call = entry.1) ∨ ∃ p, (doing p).call = some entry.1) := by
      rcases mem_append.mp member with before | new
      · exact numbered.tags entry before
      · obtain ⟨c, -, rfl⟩ := mem_map.mp new
        exact ⟨numbered.numbers p call number, .inr ⟨p, number⟩⟩
    refine ⟨tagged.1, ?_⟩
    rcases tagged.2 with ⟨read, old, same⟩ | ⟨q, current⟩
    · exact .inl ⟨read, mem_append_left _ old, same⟩
    · by_cases own : q = p
      · rw [own, number] at current
        exact .inl ⟨_, mem_append_right _ (mem_singleton_self _),
          Option.some.inj current⟩
      · refine .inr ⟨q, ?_⟩
        rwa [update_of_ne own]
  · exact fun q call' now => numbered.numbers q call' (calling q call' now).1
  · intro q call' size' n' dst' now
    obtain ⟨before, own⟩ := calling q call' (by rw [now]; rfl)
    rw [update_of_ne own] at now
    have other : call' ≠ call := by
      rintro rfl
      exact own (numbered.alone q p call' before number)
    rw [takenBy_append_other _ other]
    exact numbered.current q call' size' n' dst' now
  · exact fun q q' call' first second =>
      numbered.alone q q' call' (calling q call' first).1 (calling q' call' second).1
  · intro read member
    rcases mem_append.mp member with old | new
    · obtain ⟨below, nobody, before⟩ := numbered.ended read old
      have other : read.call ≠ call := fun equal => nobody p (equal ▸ number)
      rw [takenBy_append_other _ other]
      exact ⟨below, fun q now => nobody q (calling q _ now).1, before⟩
    · rw [mem_singleton.mp new]
      refine ⟨numbered.numbers p call number, fun q now => ?_, ?_⟩
      · obtain ⟨also, own⟩ := calling q call now
        exact own (numbered.alone q p call also number)
      · rw [takenBy_append_same, (numbered.current p call size n dst mine).1]
        exact ended
  · rw [map_append, map_singleton]
    refine nodup_append.mpr ⟨numbered.once, by simp, ?_⟩
    intro other before last only
    obtain ⟨read, member, rfl⟩ := mem_map.mp before
    rw [mem_singleton.mp only]
    exact fun equal => (numbered.ended read member).2.1 p (equal ▸ number)

end Numbered

variable {n : Nat} {scanned : List UInt8 × Stop} {unread : List UInt8}

theorem ended_of_scans {size : Int32} {dst : List UInt8} (plain : Plain dst)
    (length : dst.length + n = size.toInt.toNat) (scans : Scans unread n scanned)
    (ends : scanned.2 ≠ .empty) :
    Ended size (dst ++ unread.take (taking size.toInt.toNat n scanned)) (dst ++ scanned.1)
      (.ofNat (size.toInt.toNat - (n - scanned.1.length)))
      (unread.drop (taking size.toInt.toNat n scanned)).head? := by
  generalize target : size.toInt.toNat = bound at length
  cases scans with
  | @full bytes rest others =>
    have count : taking bound bytes.length (bytes, .full) = bytes.length := rfl
    have total : bound - (bytes.length - bytes.length) = (dst ++ bytes).length := by
      rw [length_append]
      omega
    rw [count, take_left, total]
    refine .full (plain.append others) ?_
    rw [length_append, target, length]
  | @newline bytes rest n others more =>
    have count : taking bound n (bytes ++ ['\n'.toUInt8], .newline) =
      (bytes ++ ['\n'.toUInt8]).length := rfl
    have total : bound - (n - (bytes ++ ['\n'.toUInt8]).length) = (dst ++ bytes).length + 1 := by
      rw [length_append, length_append, length_singleton]
      omega
    rw [append_cons bytes _ rest, count, take_left, total, ← append_assoc]
    refine .newline (plain.append others) ?_
    rw [length_append, target]
    omega
  | @eof bytes rest n others more =>
    by_cases whole : bound ≤ n - bytes.length
    · -- Nothing has been copied, so that the mark is taken.
      have nothing : bytes = [] := eq_nil_of_length_eq_zero (by omega)
      have before : dst = [] := eq_nil_of_length_eq_zero (by omega)
      have count : taking bound n (bytes, .eof) = 1 := by
        rw [taking, if_pos ⟨rfl, whole⟩, nothing]
        rfl
      have total : bound - (n - bytes.length) = 0 := by omega
      rw [count, total, nothing, before]
      exact .eof (by omega)
    · have count : taking bound n (bytes, .eof) = bytes.length := by
        rw [taking, if_neg fun all => whole all.2]
      have total : bound - (n - bytes.length) = (dst ++ bytes).length := by
        rw [length_append]
        omega
      rw [count, take_left, drop_left, total]
      refine .beforeEof (plain.append others) ?_ ?_
      · intro nothing
        rw [← length_eq_zero_iff, length_append] at nothing
        omega
      · rw [length_append, target]
        omega
  | empty => exact absurd rfl ends

theorem Scans.of_empty (scans : Scans unread n scanned) (empty : scanned.2 = .empty)
    (target : Nat) :
    scanned.1 = unread ∧ Plain unread ∧ unread.length < n ∧
      taking target n scanned = unread.length := by
  cases scans with
  | full | newline | eof => cases empty
  | empty plain more => exact ⟨rfl, plain, more, rfl⟩

theorem ofNat_ne_neg_one {count : Nat} (small : count < 2 ^ 31) : Int32.ofNat count ≠ -1 := by
  intro same
  have value := congrArg Int32.toInt same
  rw [Int32.toInt_ofNat_of_lt small] at value
  change (count : Int) = -1 at value
  omega

theorem discipline_key (history : List Event) (c : UInt8) :
    discipline (history ++ [.key c]) = (discipline history).edit c := by
  rw [discipline, foldl_append]
  rfl

theorem discipline_taken (history : List Event) (call : Nat) (bytes : List UInt8) :
    discipline (history ++ bytes.map (.taken call)) =
      (discipline history).consume bytes.length := by
  induction bytes generalizing history with
  | nil => rw [map_nil, append_nil]; rfl
  | cons c rest induction =>
    rw [map_cons, append_cons, induction, discipline, foldl_append,
      length_cons, Nat.add_comm rest.length]
    exact congrArg (Discipline.mk _ · _) (Nat.add_assoc ..)

theorem taken_key (history : List Event) (c : UInt8) :
    taken (history ++ [.key c]) = taken history := by
  rw [taken, filterMap_append]
  exact append_nil _

theorem taken_taken (history : List Event) (call : Nat) (bytes : List UInt8) :
    taken (history ++ bytes.map (.taken call)) = taken history ++ bytes.map (call, ·) := by
  rw [taken, filterMap_append, filterMap_map]
  exact congrArg _ (filterMap_eq_map ▸ rfl)

namespace Discipline

theorem unread_consume (d : Discipline) (count : Nat) :
    (d.consume count).unread = d.unread.drop count := List.drop_drop.symm

theorem consumed_edit (d : Discipline) (c : UInt8) : (d.edit c).consumed = d.consumed := by
  unfold edit insert
  split_ifs <;> rfl

theorem committed_edit (d : Discipline) (c : UInt8) :
    d.committed <+: (d.edit c).committed := by
  have more : ∀ c, d.committed <+: d.typed ++ [c] := by
    intro c
    rw [typed, append_assoc]
    exact prefix_append _ _
  unfold edit insert
  split_ifs
  all_goals first | exact prefix_rfl | exact more _

end Discipline

namespace Input

theorem killLine_eq (input : Input) :
    input.killLine.buf = input.buf ∧ input.killLine.r = input.r ∧ input.killLine.w = input.w := by
  fun_induction killLine input with
  | case1 input more induction => exact induction
  | case2 input => exact ⟨rfl, rfl, rfl⟩

theorem backspace_eq (input : Input) :
    input.backspace.buf = input.buf ∧ input.backspace.r = input.r ∧
      input.backspace.w = input.w := by
  unfold backspace
  split <;> exact ⟨rfl, rfl, rfl⟩

/-- No character changes `r`; `w` changes only with a wakeup, and a character that erases
changes nothing but `e`. -/
theorem key_keeps (input : Input) (c : UInt8) :
    (input.key c).1.r = input.r ∧ ((input.key c).2 = false → (input.key c).1.w = input.w) ∧
      (c = ctrl 'U' ∨ c = ctrl 'H' ∨ c = 0x7f →
        (input.key c).1.buf = input.buf ∧ (input.key c).1.w = input.w) := by
  unfold key
  by_cases kill : c = ctrl 'U'
  · rw [if_neg (by rw [kill]; decide), if_pos kill]
    obtain ⟨buf, r, w⟩ := input.killLine_eq
    exact ⟨r, fun _ => w, fun _ => ⟨buf, w⟩⟩
  by_cases erase : c = ctrl 'H' ∨ c = 0x7f
  · rw [if_neg (by rcases erase with rfl | rfl <;> decide), if_neg kill, if_pos erase]
    obtain ⟨buf, r, w⟩ := input.backspace_eq
    exact ⟨r, fun _ => w, fun _ => ⟨buf, w⟩⟩
  have keeps : ∀ erases : c = ctrl 'U' ∨ c = ctrl 'H' ∨ c = 0x7f, False :=
    fun erases => erases.elim kill erase
  rw [if_neg kill, if_neg erase]
  generalize (if c = '\r'.toUInt8 then '\n'.toUInt8 else c) = stored
  dsimp only
  split_ifs
  next => exact ⟨rfl, fun _ => rfl, fun erases => (keeps erases).elim⟩
  next => exact ⟨rfl, fun quiet => absurd quiet (by decide), fun erases => (keeps erases).elim⟩
  next => exact ⟨rfl, fun _ => rfl, fun erases => (keeps erases).elim⟩
  next => exact ⟨rfl, fun _ => rfl, fun erases => (keeps erases).elim⟩

theorem copy_empty {input : Input} (empty : input.r = input.w) (target n : Nat) :
    (input.copy target n).1 = input := by
  cases n with
  | zero => rfl
  | succ n => rw [copy, if_pos empty]

end Input

namespace State

variable {P : Type} {s s' : State P}

def doing (s : State P) (p : P) : Phase := (s.phase p).wake

structure Sound (s : State P) : Prop where
  represents : Represents s.input (discipline s.history)
  stream : (taken s.history).map Prod.snd =
    (discipline s.history).committed.take (discipline s.history).consumed
  numbered : Numbered s.doing s.calls (taken s.history) s.reads
  waits : ∀ p call size n dst, s.phase p = .reading call size n dst true → s.input.r = s.input.w
  survives : (∃ read ∈ s.reads, read.result = -1) → ∃ p, s.killed p = true

theorem doing_wakeup (s : State P) : s.wakeup.doing = s.doing := by
  funext p
  exact (s.phase p).wake_wake

theorem Sound.key (sound : Sound s) (c : UInt8) : Sound (s.key c) := by
  have represents := sound.represents.key c
  have stream : (taken (s.history ++ [.key c])).map Prod.snd =
      ((discipline s.history).edit c).committed.take ((discipline s.history).edit c).consumed := by
    obtain ⟨more, grown⟩ := (discipline s.history).committed_edit c
    rw [taken_key, sound.stream, Discipline.consumed_edit, ← grown,
      take_append_of_le_length sound.represents.read]
  rw [← discipline_key] at represents stream
  unfold State.key
  dsimp only
  split
  next wakes =>
    refine ⟨represents, stream, ?_, ?_, sound.survives⟩
    · rw [doing_wakeup]
      change Numbered s.doing s.calls (taken (s.history ++ [.key c])) s.reads
      rw [taken_key]
      exact sound.numbered
    · intro p call size n dst asleep
      exact absurd asleep (Phase.wake_ne_asleep _)
  next quiet =>
    obtain ⟨r, w, -⟩ := s.input.key_keeps c
    refine ⟨represents, stream, ?_, ?_, sound.survives⟩
    · change Numbered s.doing s.calls (taken (s.history ++ [.key c])) s.reads
      rw [taken_key]
      exact sound.numbered
    · intro p call size n dst asleep
      change (s.input.key c).1.r = (s.input.key c).1.w
      rw [r, w (Bool.eq_false_iff.mpr quiet)]
      exact sound.waits p call size n dst asleep

theorem Sound.consoleintr (sound : Sound s) (chars : List UInt8) :
    Sound (s.consoleintr chars) := by
  induction chars generalizing s with
  | nil => exact sound
  | cons c rest induction => exact induction (sound.key c)

/-- A pass takes the bytes that it scans, and the mark of the end of the file with nothing
before it. -/
theorem between_copy (sound : Sound s) (target n : Nat) :
    s.input.between s.input.r (s.input.copy target n).1.r =
      (discipline s.history).unread.take
        (taking target n (scan (discipline s.history).unread n)) := by
  obtain ⟨-, -, -, after⟩ := sound.represents.copy target n
  rw [after.r, sound.represents.r]
  generalize taking target n (scan (discipline s.history).unread n) = count at after
  have read : (discipline s.history).consumed + count ≤ (discipline s.history).committed.length :=
    after.read
  rw [Discipline.consume, sound.represents.between (Nat.le_refl _) (Nat.le_add_right _ _)
    (read.trans (Represents.committed_le _)), Discipline.typed, take_append_of_le_length read,
    drop_take, Nat.add_sub_cancel_left]
  rfl

theorem next?_eq {input : Input} {d : Discipline} (represents : Represents input d) :
    input.next? = d.unread.head? := by
  unfold Input.next?
  cases unread : d.unread with
  | nil =>
    rw [if_pos (represents.unread_iff.mpr unread)]
    rfl
  | cons c rest =>
    obtain ⟨some, first, -, -⟩ := represents.front unread
    rw [if_neg some, first]
    rfl

theorem Sound.take (sound : Sound s) (call target n : Nat) :
    let bytes := (discipline s.history).unread.take
      (taking target n (scan (discipline s.history).unread n))
    let next := s.take call (s.input.copy target n).1
    Represents next.input (discipline next.history) ∧
      (taken next.history).map Prod.snd =
        (discipline next.history).committed.take (discipline next.history).consumed ∧
      taken next.history = taken s.history ++ bytes.map (call, ·) := by
  intro bytes next
  obtain ⟨-, -, -, after⟩ := sound.represents.copy target n
  have read : (discipline s.history).consumed +
      taking target n (scan (discipline s.history).unread n) ≤
        (discipline s.history).committed.length := after.read
  have history : next.history = s.history ++ bytes.map (.taken call) := by
    change _ ++ List.map _ (s.input.between s.input.r (s.input.copy target n).1.r) = _
    rw [between_copy sound]
  have length : bytes.length = taking target n (scan (discipline s.history).unread n) := by
    change (List.take _ (List.drop _ _)).length = _
    rw [length_take, length_drop]
    omega
  rw [history, discipline_taken, taken_taken, length]
  refine ⟨after, ?_, rfl⟩
  rw [map_append, sound.stream, map_map]
  change _ ++ List.map id bytes = List.take (_ + _) _
  rw [map_id, take_add]
  rfl

variable {call n : Nat} {dst : List UInt8} {p : P} {size : Int32}

theorem Sound.asleep (sound : Sound s) (phase : s.phase p = .reading call size n dst true)
    (target left : Nat) : (s.input.copy target left).1.r = (s.input.copy target left).1.w := by
  have empty := sound.waits p call size n dst phase
  rw [Input.copy_empty empty]
  exact empty

variable [DecidableEq P]

theorem doing_setPhase (s : State P) (p : P) (phase : Phase) :
    (s.setPhase p phase).doing = update s.doing p phase.wake := by
  funext q
  exact apply_update (fun _ => Phase.wake) s.phase p phase q

theorem Sound.finish (sound : Sound s) {copied : List UInt8} {result : Int32}
    {next : Option UInt8} (phase : s.phase p = .reading call size n dst false)
    (ended : Ended size (dst ++ (discipline s.history).unread.take
      (taking size.toInt.toNat n (scan (discipline s.history).unread n))) copied result next)
    (survives : result = -1 → s.killed p = true) :
    Sound ((s.take call (s.input.copy size.toInt.toNat n).1).finish p
      ⟨call, size, copied, result, next⟩) := by
  have mine : s.doing p = .reading call size n dst false := by
    rw [doing, phase]
    rfl
  obtain ⟨represents, stream, grown⟩ := sound.take call size.toInt.toNat n
  refine ⟨represents, stream, ?_, ?_, ?_⟩
  · change Numbered (State.doing (setPhase _ p .idle)) s.calls
      (taken (s.take call (s.input.copy size.toInt.toNat n).1).history) _
    rw [doing_setPhase, grown]
    exact sound.numbered.finish mine ended
  · intro q call' size' n' dst' asleep
    change update s.phase p .idle q = _ at asleep
    by_cases own : q = p
    · rw [own, update_self] at asleep
      cases asleep
    · rw [update_of_ne own] at asleep
      exact sound.asleep asleep _ _
  · rintro ⟨read, member, failed⟩
    rcases mem_append.mp member with old | new
    · exact sound.survives ⟨read, old, failed⟩
    · rw [mem_singleton.mp new] at failed
      exact ⟨p, survives failed⟩

theorem Sound.read (sound : Sound s) (phase : s.phase p = .reading call size n dst false) :
    Sound (s.read p call size n dst) := by
  have mine : s.doing p = .reading call size n dst false := by
    rw [doing, phase]
    rfl
  obtain ⟨copied, length, plain⟩ := sound.numbered.current p call size n dst mine
  obtain ⟨bytes, left, waits, after⟩ := sound.represents.copy size.toInt.toNat n
  have scans := scans_scan (discipline s.history).unread n
  have next := next?_eq after
  rw [Discipline.unread_consume] at next
  unfold State.read
  dsimp only
  rw [bytes, left, next]
  split
  next empty =>
    rw [waits, decide_eq_true_eq] at empty
    obtain ⟨all, others, more, count⟩ := scans.of_empty empty size.toInt.toNat
    split
    next killed =>
      refine sound.finish phase ?_ fun _ => killed
      rw [all, count, take_length, drop_length]
      refine .killed (plain.append others) ?_
      rw [length_append]
      omega
    next =>
      obtain ⟨represents, stream, grown⟩ := sound.take call size.toInt.toNat n
      refine ⟨represents, stream, ?_, ?_, sound.survives⟩
      · change Numbered _ s.calls
          (taken (s.take call (s.input.copy size.toInt.toNat n).1).history) s.reads
        rw [doing_setPhase, grown, all, count, take_length]
        exact sound.numbered.go mine others more.le
      · intro q call' size' n' dst' asleep
        change update s.phase p _ q = _ at asleep
        by_cases own : q = p
        · refine after.unread_iff.mpr ?_
          rw [Discipline.unread_consume, count, drop_length]
        · rw [update_of_ne own] at asleep
          exact sound.asleep asleep _ _
  next ends =>
    rw [waits, decide_eq_true_eq] at ends
    refine sound.finish phase (ended_of_scans plain length scans ends) fun failed => ?_
    refine absurd failed (ofNat_ne_neg_one ?_)
    have small := size.toInt_lt
    omega

theorem Sound.step (sound : Sound s) {label : Label P} (stepped : s.step label = some s') :
    Sound s' := by
  cases label with
  | consoleintr chars =>
    cases stepped
    exact sound.consoleintr chars
  | consoleread p n =>
    obtain ⟨idle, rfl⟩ := of_guard stepped
    refine ⟨sound.represents, sound.stream, ?_, ?_, sound.survives⟩
    · change Numbered (s.setPhase p _).doing (s.calls + 1) (taken s.history) s.reads
      rw [doing_setPhase]
      refine sound.numbered.begin ?_ n
      rw [doing, idle]
      rfl
    · intro q call size left dst asleep
      change update s.phase p _ q = _ at asleep
      by_cases own : q = p
      · rw [own, update_self] at asleep
        cases asleep
      · rw [update_of_ne own] at asleep
        exact sound.waits q call size left dst asleep
  | proceed p =>
    simp only [State.step] at stepped
    split at stepped
    next call size n dst phase =>
      cases stepped
      exact sound.read phase
    next => cases stepped
  | kill p =>
    cases stepped
    refine ⟨sound.represents, sound.stream, ?_, ?_, fun _ => ⟨p, update_self ..⟩⟩
    · change Numbered (s.setPhase p (s.phase p).wake).doing s.calls (taken s.history) s.reads
      rw [doing_setPhase, Phase.wake_wake]
      change Numbered (update s.doing p (s.doing p)) _ _ _
      rw [update_eq_self]
      exact sound.numbered
    · intro q call size n dst asleep
      change update s.phase p _ q = _ at asleep
      by_cases own : q = p
      · rw [own, update_self] at asleep
        exact absurd asleep (Phase.wake_ne_asleep _)
      · rw [update_of_ne own] at asleep
        exact sound.waits q call size n dst asleep

omit [DecidableEq P] in
theorem sound_boot (buf : Fin inputBuf → UInt8) : Sound (boot buf : State P) where
  represents := ⟨.nil buf, rfl, rfl, rfl, Nat.le_refl _, not_mem_nil⟩
  stream := rfl
  numbered := by
    refine ⟨?_, ?_, ?_, ?_, ?_, nodup_nil⟩
    all_goals simp [boot, doing, taken, Phase.wake, Phase.call]
  waits := fun p call size n dst asleep => absurd asleep (by simp [boot])
  survives := fun ⟨_, member, _⟩ => absurd member not_mem_nil

theorem sound_of_run {buf : Fin inputBuf → UInt8} {labels : List (Label P)}
    (reached : run step (boot buf) labels = some s) : Sound s :=
  run_preserves Sound (fun _ _ _ sound stepped => sound.step stepped) (sound_boot buf) reached

structure Disciplined (s : State P) : Prop where
  room : (s.input.e - s.input.r).toNat ≤ inputBuf
  order : (s.input.w - s.input.r).toNat ≤ (s.input.e - s.input.r).toNat
  /-- No character changes what was committed and not read, and one that erases no index but
  `e`. -/
  keeps : ∀ c, (s.input.key c).1.r = s.input.r ∧
    (s.input.key c).1.between s.input.r s.input.w = s.input.between s.input.r s.input.w ∧
    (c = ctrl 'U' ∨ c = ctrl 'H' ∨ c = 0x7f → (s.input.key c).1.w = s.input.w)
  /-- The committed input is what the reads have taken, in order, and what is left to read. -/
  committed : (discipline s.history).committed =
    (taken s.history).map Prod.snd ++ s.input.between s.input.r s.input.w
  line : (discipline s.history).line = s.input.between s.input.w s.input.e
  /-- Each byte was taken by a read that has returned or is under way. -/
  tags : ∀ entry ∈ taken s.history,
    (∃ read ∈ s.reads, read.call = entry.1) ∨ ∃ p, (s.phase p).call = some entry.1
  once : (s.reads.map Read.call).Nodup
  returned : ∀ read ∈ s.reads,
    Ended read.size (takenBy (taken s.history) read.call) read.bytes read.result read.next
  reading : ∀ p call size n dst asleep, s.phase p = .reading call size n dst asleep →
    takenBy (taken s.history) call = dst ∧ Plain dst ∧ (asleep = true → s.input.r = s.input.w)
  survives : (∀ p, s.killed p = false) → ∀ read ∈ s.reads, read.result ≠ -1

theorem run_keeps_discipline {buf : Fin inputBuf → UInt8} {labels : List (Label P)}
    (reached : run step (boot buf) labels = some s) : Disciplined s := by
  have sound := sound_of_run reached
  have represents := sound.represents
  have shorter := Represents.committed_le (discipline s.history)
  have near := represents.near
  have read := represents.read
  have unread : s.input.between s.input.r s.input.w = (discipline s.history).unread := by
    rw [represents.r, represents.w, represents.between (Nat.le_refl _) read shorter,
      Discipline.typed, take_left]
    rfl
  refine ⟨?_, ?_, ?_, ?_, ?_, ?_, sound.numbered.once, ?_, ?_, ?_⟩
  · rw [represents.held_eq]
    exact represents.held_le
  · rw [represents.e, represents.w, represents.r,
      toNat_ofNat_sub_ofNat represents.queue.put near, toNat_ofNat_sub_ofNat read (by omega)]
    omega
  · intro c
    obtain ⟨r, -, erases⟩ := s.input.key_keeps c
    refine ⟨r, ?_, fun also => (erases also).2⟩
    obtain ⟨more, grown⟩ := (discipline s.history).committed_edit c
    have same := (discipline s.history).consumed_edit c
    have longer : (discipline s.history).committed.length ≤
        ((discipline s.history).edit c).typed.length := by
      rw [Discipline.typed, ← grown, append_assoc, length_append]
      exact Nat.le_add_right _ _
    rw [unread, represents.r, represents.w,
      (represents.key c).between (Nat.le_of_eq same) read longer, Discipline.typed, ← grown,
      append_assoc, take_left]
    rfl
  · rw [unread, sound.stream]
    exact (take_append_drop _ _).symm
  · rw [represents.w, represents.e, represents.between read shorter (Nat.le_refl _),
      take_length, Discipline.typed, drop_left]
  · intro entry member
    refine (sound.numbered.tags entry member).2.imp_right ?_
    rintro ⟨p, call⟩
    exact ⟨p, (s.phase p).call_wake ▸ call⟩
  · exact fun read member => (sound.numbered.ended read member).2.2
  · intro p call size n dst asleep phase
    have mine : s.doing p = .reading call size n dst false := by
      rw [doing, phase]
      rfl
    obtain ⟨copied, -, plain⟩ := sound.numbered.current p call size n dst mine
    refine ⟨copied, plain, ?_⟩
    rintro rfl
    exact sound.waits p call size n dst phase
  · intro alive read member failed
    obtain ⟨p, killed⟩ := sound.survives ⟨read, member, failed⟩
    rw [alive p] at killed
    cases killed

def lineThenEof : List (Label Unit) :=
  [.consoleread () 9, .proceed (),
    .consoleintr ['l'.toUInt8, 'x'.toUInt8, ctrl 'H', 's'.toUInt8, '\r'.toUInt8, ctrl 'D'],
    .proceed (), .consoleread () 9, .proceed ()]

theorem lineThenEof_keeps_discipline : ∃ s : State Unit,
    run step (boot fun _ => 0) lineThenEof = some s ∧
      s.reads.map (fun read => (read.bytes, read.result)) =
        [(['l'.toUInt8, 's'.toUInt8, '\n'.toUInt8], 3), ([], 0)] ∧
      (discipline s.history).committed =
        ['l'.toUInt8, 's'.toUInt8, '\n'.toUInt8, ctrl 'D'] ∧ Disciplined s := by
  have runs : (run step (boot fun _ => 0) lineThenEof).map (fun s : State Unit =>
      (s.reads.map (fun read => (read.bytes, read.result)), (discipline s.history).committed)) =
      some ([(['l'.toUInt8, 's'.toUInt8, '\n'.toUInt8], 3), ([], 0)],
        ['l'.toUInt8, 's'.toUInt8, '\n'.toUInt8, ctrl 'D']) := by decide +kernel
  obtain ⟨s, reached, result⟩ := Option.map_eq_some_iff.mp runs
  obtain ⟨reads, committed⟩ := Prod.mk.inj result
  exact ⟨s, reached, reads, committed, run_keeps_discipline reached⟩

end State

end StraceXv6.Kernel.ConsoleInput
