import Mathlib.Data.List.Induction
import StraceXv6.Data.Ring
import StraceXv6.Kernel.ConsoleInput.Machine

namespace StraceXv6.Kernel.ConsoleInput

open List Data

/-! What the ring is for: lines that are edited until they are committed, and read after that. -/

/-- The input that was committed, how much of it was read, and the line that is edited. -/
structure Discipline where
  committed : List UInt8
  consumed : Nat
  line : List UInt8

namespace Discipline

def typed (d : Discipline) : List UInt8 := d.committed ++ d.line

def held (d : Discipline) : Nat := d.typed.length - d.consumed

def unread (d : Discipline) : List UInt8 := d.committed.drop d.consumed

/-- A line is committed with its end, or when there is no more room. -/
def insert (d : Discipline) (c : UInt8) : Discipline :=
  if c = '\n'.toUInt8 ∨ c = ctrl 'D' ∨ d.held + 1 = inputBuf then
    { d with committed := d.typed ++ [c], line := [] }
  else { d with line := d.line ++ [c] }

def edit (d : Discipline) (c : UInt8) : Discipline :=
  if c = ctrl 'P' ∨ c = 0 then d
  else if c = ctrl 'U' then { d with line := [] }
  else if c = ctrl 'H' ∨ c = 0x7f then { d with line := d.line.dropLast }
  else if d.held < inputBuf then d.insert (if c = '\r'.toUInt8 then '\n'.toUInt8 else c)
  else d

def consume (d : Discipline) (count : Nat) : Discipline :=
  { d with consumed := d.consumed + count }

def follow (d : Discipline) : Event → Discipline
  | .key c => d.edit c
  | .taken _ _ => d.consume 1

end Discipline

/-- What the characters typed, and the bytes taken meanwhile, lead to. -/
def discipline (history : List Event) : Discipline :=
  history.foldl Discipline.follow ⟨[], 0, []⟩

inductive Stop where
  | full
  | newline
  | eof
  | empty
  deriving DecidableEq

/-- What a read of at most `n` bytes is to get. -/
def scan : List UInt8 → Nat → List UInt8 × Stop
  | _, 0 => ([], .full)
  | [], _ + 1 => ([], .empty)
  | c :: rest, n + 1 =>
    if c = ctrl 'D' then ([], .eof)
    else if c = '\n'.toUInt8 then ([c], .newline)
    else
      let scanned := scan rest n
      (c :: scanned.1, scanned.2)

/-- How many bytes a read takes from the input, which is one more than it gets if it finds
the end of the file at once. -/
def taking (target n : Nat) (scanned : List UInt8 × Stop) : Nat :=
  if scanned.2 = .eof ∧ target ≤ n - scanned.1.length then scanned.1.length + 1
  else scanned.1.length

theorem taking_cons (target n : Nat) (c : UInt8) (scanned : List UInt8 × Stop) :
    taking target (n + 1) (c :: scanned.1, scanned.2) = 1 + taking target n scanned := by
  simp only [taking, length_cons, Nat.add_sub_add_right]
  split <;> omega

def Plain (bytes : List UInt8) : Prop := ∀ c ∈ bytes, c ≠ ctrl 'D' ∧ c ≠ '\n'.toUInt8

theorem Plain.append {bytes more : List UInt8} (plain : Plain bytes) (also : Plain more) :
    Plain (bytes ++ more) := by
  intro c member
  exact (mem_append.mp member).elim (plain c) (also c)

inductive Scans : List UInt8 → Nat → List UInt8 × Stop → Prop where
  | full {bytes rest : List UInt8} (plain : Plain bytes) :
      Scans (bytes ++ rest) bytes.length (bytes, .full)
  | newline {bytes rest : List UInt8} {n : Nat} (plain : Plain bytes) (more : bytes.length < n) :
      Scans (bytes ++ '\n'.toUInt8 :: rest) n (bytes ++ ['\n'.toUInt8], .newline)
  | eof {bytes rest : List UInt8} {n : Nat} (plain : Plain bytes) (more : bytes.length < n) :
      Scans (bytes ++ ctrl 'D' :: rest) n (bytes, .eof)
  | empty {bytes : List UInt8} {n : Nat} (plain : Plain bytes) (more : bytes.length < n) :
      Scans bytes n (bytes, .empty)

theorem Scans.cons {c : UInt8} (plain : Plain [c]) {unread : List UInt8} {n : Nat}
    {scanned : List UInt8 × Stop} (scans : Scans unread n scanned) :
    Scans (c :: unread) (n + 1) (c :: scanned.1, scanned.2) := by
  cases scans with
  | full others => exact .full (plain.append others)
  | newline others more => exact .newline (plain.append others) (Nat.succ_lt_succ more)
  | eof others more => exact .eof (plain.append others) (Nat.succ_lt_succ more)
  | empty others more => exact .empty (plain.append others) (Nat.succ_lt_succ more)

theorem scans_scan (unread : List UInt8) (n : Nat) : Scans unread n (scan unread n) := by
  have none : Plain [] := fun c member => absurd member not_mem_nil
  fun_induction scan unread n with
  | case1 unread => exact .full none
  | case2 n => exact .empty none (Nat.succ_pos n)
  | case3 rest n => exact .eof none (Nat.succ_pos n)
  | case4 rest n => exact .newline none (Nat.succ_pos n)
  | case5 c rest n eof newline scanned induction =>
    refine induction.cons fun other member => ?_
    rw [mem_singleton.mp member]
    exact ⟨eof, newline⟩

/-- The ring holds what was typed and not read; its indices run on modulo 2^32. -/
structure Represents (input : Input) (d : Discipline) : Prop where
  queue : RingQueue d.typed d.consumed input.buf
  r : input.r = .ofNat d.consumed
  w : input.w = .ofNat d.committed.length
  e : input.e = .ofNat d.typed.length
  read : d.consumed ≤ d.committed.length
  single : '\n'.toUInt8 ∉ d.line

namespace Represents

variable {input : Input} {d : Discipline}

theorem committed_le (d : Discipline) : d.committed.length ≤ d.typed.length := by
  rw [Discipline.typed, length_append]
  exact Nat.le_add_right _ _

theorem near (represents : Represents input d) : d.typed.length < d.consumed + 2 ^ 32 :=
  represents.queue.room.trans_lt (Nat.add_lt_add_left (by decide) d.consumed)

theorem get (represents : Represents input d) {position : Nat} (later : d.consumed ≤ position)
    (bound : position < d.typed.length) :
    input.get (.ofNat position) = d.typed.get ⟨position, bound⟩ := by
  rw [Input.get, slot_ofNat (by decide)]
  exact represents.queue.pending position bound later

theorem line_iff (represents : Represents input d) : input.e = input.w ↔ d.line = [] := by
  have shorter := committed_le d
  have near := represents.near
  have read := represents.read
  rw [represents.e, represents.w, eq_comm, ofNat_eq_ofNat_iff shorter (by omega),
    Discipline.typed, length_append, ← length_eq_zero_iff]
  omega

theorem unread_iff (represents : Represents input d) : input.r = input.w ↔ d.unread = [] := by
  have shorter := committed_le d
  have near := represents.near
  have read := represents.read
  rw [represents.r, represents.w, ofNat_eq_ofNat_iff read (by omega), Discipline.unread,
    drop_eq_nil_iff]
  omega

theorem held_eq (represents : Represents input d) : (input.e - input.r).toNat = d.held := by
  rw [represents.e, represents.r, toNat_ofNat_sub_ofNat represents.queue.put represents.near]
  rfl

theorem held_le (represents : Represents input d) : d.held ≤ inputBuf :=
  Nat.sub_le_iff_le_add'.mpr represents.queue.room

theorem between (represents : Represents input d) {start stop : Nat} (later : d.consumed ≤ start)
    (before : start ≤ stop) (bound : stop ≤ d.typed.length) :
    input.between (.ofNat start) (.ofNat stop) = (d.typed.take stop).drop start := by
  have near := represents.near
  rw [Input.between, toNat_ofNat_sub_ofNat before (by omega)]
  refine ext_getElem (by simp; omega) fun i inside _ => ?_
  rw [length_map, length_range] at inside
  rw [getElem_map, getElem_range, ← UInt32.ofNat_add,
    represents.get (by omega) (by omega)]
  simp

variable {c : UInt8}

theorem shorten {line : List UInt8} (represents : Represents input d)
    (last : d.line = line ++ [c]) :
    Represents { input with e := input.e - 1 } { d with line := line } := by
  have typed : d.typed = d.committed ++ line ++ [c] := by
    rw [Discipline.typed, last, append_assoc]
  have queue := represents.queue
  have read := represents.read
  rw [typed] at queue
  refine ⟨queue.unpush ?_, represents.r, represents.w, ?_, read, ?_⟩
  · rw [length_append]
    omega
  · change input.e - 1 = .ofNat (d.committed ++ line).length
    rw [represents.e, typed, @List.length_append _ _ [c]]
    exact ofNat_succ_sub_one _
  · intro member
    refine represents.single ?_
    rw [last]
    exact mem_append_left _ member

theorem backspace (represents : Represents input d) :
    Represents input.backspace { d with line := d.line.dropLast } := by
  unfold Input.backspace
  rcases eq_nil_or_concat d.line with none | ⟨line, c, last⟩
  · rw [if_neg (not_not.mpr (represents.line_iff.mpr none)), none]
    rw [show ({ d with line := [].dropLast } : Discipline) = d by rw [dropLast_nil, ← none]]
    exact represents
  · rw [concat_eq_append] at last
    have some : d.line ≠ [] := by
      rw [last]
      exact append_ne_nil_of_right_ne_nil _ (cons_ne_nil c [])
    rw [if_pos fun same => some (represents.line_iff.mp same), last, dropLast_concat]
    exact represents.shorten last

theorem killLine (represents : Represents input d) :
    Represents input.killLine { d with line := [] } := by
  obtain ⟨committed, consumed, line⟩ := d
  induction line using List.reverseRecOn generalizing input with
  | nil =>
    rw [Input.killLine, if_neg fun more => more.1 (represents.line_iff.mpr rfl)]
    exact represents
  | append_singleton line c induction =>
    have goes : input.e ≠ input.w ∧ input.get (input.e - 1) ≠ '\n'.toUInt8 := by
      refine ⟨fun same => ?_, ?_⟩
      · exact append_ne_nil_of_right_ne_nil _ (cons_ne_nil c [])
          (represents.line_iff.mp same)
      · have length : (committed ++ (line ++ [c])).length = (committed ++ line).length + 1 := by
          rw [← append_assoc, @List.length_append _ _ [c]]
          rfl
        have read : consumed ≤ committed.length := represents.read
        have e : input.e = .ofNat (committed ++ (line ++ [c])).length := represents.e
        rw [e, length, ofNat_succ_sub_one, represents.get
          (by rw [length_append]; exact Nat.le_add_right_of_le read)
          (by change _ < (committed ++ (line ++ [c])).length; omega)]
        intro newline
        refine represents.single (mem_append_right _ (mem_singleton.mpr ?_))
        rw [← newline]
        simp [Discipline.typed]
    rw [Input.killLine, if_pos goes]
    exact induction (represents.shorten rfl)

theorem store (represents : Represents input d) (room : d.held < inputBuf) (c : UInt8) :
    RingQueue (d.typed ++ [c]) d.consumed (input.store c).buf ∧
      (input.store c).e = .ofNat (d.typed ++ [c]).length := by
  have put := represents.queue.put
  refine ⟨?_, ?_⟩
  · change RingQueue _ _ (Function.update input.buf (Fin.ofNat inputBuf input.e.toNat) c)
    rw [represents.e, slot_ofNat (by decide)]
    refine represents.queue.push ?_ c
    rw [Discipline.held] at room
    omega
  · change input.e + 1 = _
    rw [represents.e, length_append, length_singleton, UInt32.ofNat_add]
    rfl

theorem fills_iff (represents : Represents input d) (room : d.held < inputBuf) (c : UInt8) :
    (input.store c).e = (input.store c).r + 128 ↔ d.held + 1 = inputBuf := by
  have put := represents.queue.put
  have top : (input.store c).r + 128 = .ofNat (d.consumed + 128) := by
    change input.r + 128 = _
    rw [represents.r, UInt32.ofNat_add]
    rfl
  rw [Discipline.held] at room ⊢
  change _ < 128 at room
  rw [(represents.store room c).2, top, length_append, length_singleton,
    ofNat_eq_ofNat_iff (by omega) (by omega)]
  change _ ↔ d.typed.length - d.consumed + 1 = 128
  omega

theorem insert (represents : Represents input d) (room : d.held < inputBuf) (c : UInt8) :
    Represents
      (if c = '\n'.toUInt8 ∨ c = ctrl 'D' ∨ (input.store c).e = (input.store c).r + 128 then
        { input.store c with w := (input.store c).e }
      else input.store c) (d.insert c) := by
  obtain ⟨queue, e⟩ := represents.store room c
  have read := represents.read
  have shorter := committed_le d
  unfold Discipline.insert
  simp only [represents.fills_iff room c]
  split
  next =>
    have typed : Discipline.typed ⟨d.typed ++ [c], d.consumed, []⟩ = d.typed ++ [c] :=
      append_nil _
    refine ⟨?_, represents.r, e, ?_, ?_, not_mem_nil⟩
    · rw [typed]
      exact queue
    · rw [typed]
      exact e
    · change d.consumed ≤ (d.typed ++ [c]).length
      rw [length_append]
      omega
  next goes =>
    have typed : Discipline.typed ⟨d.committed, d.consumed, d.line ++ [c]⟩ = d.typed ++ [c] :=
      (append_assoc ..).symm
    refine ⟨?_, represents.r, represents.w, ?_, read, ?_⟩
    · rw [typed]
      exact queue
    · rw [typed]
      exact e
    · intro member
      rcases mem_append.mp member with before | new
      · exact represents.single before
      · exact goes (.inl (mem_singleton.mp new).symm)

theorem key (represents : Represents input d) (c : UInt8) :
    Represents (input.key c).1 (d.edit c) := by
  have room : input.e - input.r < 128 ↔ d.held < inputBuf := by
    rw [UInt32.lt_iff_toNat_lt, represents.held_eq]
    rfl
  unfold Input.key Discipline.edit
  by_cases list : c = ctrl 'P'
  · rw [if_pos list, if_pos (.inl list)]
    exact represents
  rw [if_neg list]
  by_cases kill : c = ctrl 'U'
  · rw [if_pos kill, if_neg (by rw [kill]; decide), if_pos kill]
    exact represents.killLine
  rw [if_neg kill]
  by_cases erase : c = ctrl 'H' ∨ c = 0x7f
  · rw [if_pos erase, if_neg (by rcases erase with rfl | rfl <;> decide), if_neg kill,
      if_pos erase]
    exact represents.backspace
  rw [if_neg erase]
  by_cases nul : c = 0
  · rw [if_neg fun goes => goes.1 nul, if_pos (.inr nul)]
    exact represents
  rw [if_neg (not_or.mpr ⟨list, nul⟩), if_neg kill, if_neg erase]
  by_cases free : d.held < inputBuf
  · rw [if_pos ⟨nul, room.mpr free⟩, if_pos free]
    generalize (if c = '\r'.toUInt8 then '\n'.toUInt8 else c) = stored
    have inserted := represents.insert free stored
    dsimp only
    split
    next commits =>
      rw [if_pos commits] at inserted
      exact inserted
    next goes =>
      rw [if_neg goes] at inserted
      exact inserted
  · rw [if_neg fun goes => free (room.mp goes.2), if_neg free]
    exact represents

theorem consume (represents : Represents input d) (more : d.consumed < d.committed.length) :
    Represents { input with r := input.r + 1 } (d.consume 1) := by
  refine ⟨represents.queue.pop (more.trans_le (committed_le d)), ?_, represents.w, represents.e,
    more, represents.single⟩
  change input.r + 1 = .ofNat (d.consumed + 1)
  rw [represents.r, UInt32.ofNat_add]
  rfl

theorem front (represents : Represents input d) {rest : List UInt8}
    (unread : d.unread = c :: rest) :
    input.r ≠ input.w ∧ input.get input.r = c ∧ d.consumed < d.committed.length ∧
      (d.consume 1).unread = rest := by
  have more : d.consumed < d.committed.length := by
    refine Nat.lt_of_not_le fun all => ?_
    rw [Discipline.unread, drop_of_length_le all] at unread
    exact cons_ne_nil c rest unread.symm
  rw [Discipline.unread, drop_eq_getElem_cons more] at unread
  obtain ⟨first, others⟩ := List.cons.inj unread
  refine ⟨fun none => ?_, ?_, more, others⟩
  · rw [represents.unread_iff, Discipline.unread, drop_eq_nil_iff] at none
    omega
  · rw [represents.r, represents.get (Nat.le_refl _) (more.trans_le (committed_le d)), ← first]
    simp [Discipline.typed, more]

/-- The loop of `consoleread` scans the bytes that are committed and not read. -/
theorem copy (represents : Represents input d) (target n : Nat) :
    (input.copy target n).2.1 = (scan d.unread n).1 ∧
      (input.copy target n).2.2.1 = n - (scan d.unread n).1.length ∧
      (input.copy target n).2.2.2 = decide ((scan d.unread n).2 = .empty) ∧
      Represents (input.copy target n).1 (d.consume (taking target n (scan d.unread n))) := by
  induction n generalizing input d with
  | zero => exact ⟨by cases d.unread <;> rfl, by cases d.unread <;> rfl, by cases d.unread <;> rfl,
      by cases d.unread <;> exact represents⟩
  | succ n induction =>
    rw [Input.copy]
    cases unread : d.unread with
    | nil =>
      rw [if_pos (represents.unread_iff.mpr unread)]
      exact ⟨rfl, rfl, rfl, represents⟩
    | cons c rest =>
      obtain ⟨some, first, more, others⟩ := represents.front unread
      rw [if_neg some, first, scan]
      dsimp only
      split
      next eof =>
        refine ⟨rfl, rfl, rfl, ?_⟩
        dsimp only
        split
        next short =>
          rw [taking, if_neg fun all => absurd all.2 (by simpa using short),
            UInt32.add_sub_cancel]
          exact represents
        next whole =>
          rw [taking, if_pos ⟨rfl, by simpa using whole⟩]
          exact represents.consume more
      next byte =>
        split
        next newline => exact ⟨rfl, rfl, rfl, represents.consume more⟩
        next =>
          obtain ⟨bytes, left, waits, after⟩ := induction (represents.consume more)
          rw [others] at bytes left waits after
          refine ⟨?_, ?_, waits, ?_⟩
          · rw [bytes]
          · rw [left]
            simp
          · rw [taking_cons]
            rw [Discipline.consume, Discipline.consume, Nat.add_assoc] at after
            exact after

end Represents

end StraceXv6.Kernel.ConsoleInput
