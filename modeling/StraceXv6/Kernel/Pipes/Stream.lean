import StraceXv6.Data.Ring
import StraceXv6.Kernel.Pipes.Machine

namespace StraceXv6.Kernel.Pipes

open List Function Data

/-! The bytes that are read from a pipe are those written to it, in order. -/

/-- What a pipe holds after a history of bytes of which some have been taken; the counters
run on modulo 2^32. -/
structure Carries (pipe : Pipe) (history : List UInt8) (taken : Nat) : Prop where
  queue : RingQueue history taken pipe.data
  nread : pipe.nread = .ofNat taken
  nwrite : pipe.nwrite = .ofNat history.length

namespace Carries

variable {pipe : Pipe} {history : List UInt8} {taken : Nat}

theorem near (carries : Carries pipe history taken) : history.length < taken + 2 ^ 32 :=
  carries.queue.room.trans_lt (Nat.add_lt_add_left (by decide) taken)

theorem full_iff (carries : Carries pipe history taken) :
    pipe.full = true ↔ history.length = taken + pipesize := by
  have put := carries.queue.put
  have room := carries.queue.room
  have top : pipe.nread + 512 = UInt32.ofNat (taken + 512) := by
    rw [carries.nread, UInt32.ofNat_add]
    rfl
  rw [Pipe.full, decide_eq_true_eq, top, carries.nwrite]
  exact ofNat_eq_ofNat_iff room (by change taken + 512 < _; omega)

theorem empty_iff (carries : Carries pipe history taken) :
    pipe.empty = true ↔ taken = history.length := by
  rw [Pipe.empty, decide_eq_true_eq, carries.nread, carries.nwrite]
  exact ofNat_eq_ofNat_iff carries.queue.put carries.near

theorem put (carries : Carries pipe history taken) (room : pipe.full = false) (byte : UInt8) :
    Carries (pipe.put byte) (history ++ [byte]) taken := by
  have free : history.length < taken + pipesize := by
    refine lt_of_le_of_ne carries.queue.room fun full => ?_
    rw [carries.full_iff.mpr full] at room
    cases room
  refine ⟨?_, carries.nread, ?_⟩
  · change RingQueue _ _ (update pipe.data (Fin.ofNat pipesize pipe.nwrite.toNat) byte)
    rw [carries.nwrite, slot_ofNat (by decide)]
    exact carries.queue.push free byte
  · change pipe.nwrite + 1 = _
    rw [carries.nwrite, length_append, length_singleton, UInt32.ofNat_add]
    rfl

theorem front (carries : Carries pipe history taken) (more : pipe.empty = false) :
    history[taken]? = some pipe.front := by
  have less : taken < history.length := by
    refine lt_of_le_of_ne carries.queue.put fun empty => ?_
    rw [carries.empty_iff.mpr empty] at more
    cases more
  rw [List.getElem?_eq_getElem less, Pipe.front, carries.nread, slot_ofNat (by decide),
    carries.queue.pending taken less (Nat.le_refl taken)]
  rfl

theorem drop (carries : Carries pipe history taken) (more : pipe.empty = false) :
    Carries pipe.drop history (taken + 1) := by
  have less : taken < history.length := by
    refine lt_of_le_of_ne carries.queue.put fun empty => ?_
    rw [carries.empty_iff.mpr empty] at more
    cases more
  refine ⟨carries.queue.pop less, ?_, carries.nwrite⟩
  change pipe.nread + 1 = _
  rw [carries.nread, UInt32.ofNat_add]
  rfl

end Carries

namespace Pipe

theorem fill_append (pipe : Pipe) (bytes : List UInt8) :
    (pipe.fill bytes).2.1 ++ (pipe.fill bytes).2.2 = bytes := by
  induction bytes generalizing pipe with
  | nil => rfl
  | cons byte rest induction =>
    rw [fill]
    split
    next => rfl
    next => rw [cons_append, induction]

theorem ends_fill (pipe : Pipe) (bytes : List UInt8) :
    (pipe.fill bytes).1.nread = pipe.nread ∧ (pipe.fill bytes).1.readopen = pipe.readopen ∧
      (pipe.fill bytes).1.writeopen = pipe.writeopen := by
  induction bytes generalizing pipe with
  | nil => exact ⟨rfl, rfl, rfl⟩
  | cons byte rest induction =>
    rw [fill]
    split
    next => exact ⟨rfl, rfl, rfl⟩
    next => exact induction (pipe.put byte)

theorem full_fill (pipe : Pipe) (bytes : List UInt8) (left : (pipe.fill bytes).2.2 ≠ []) :
    (pipe.fill bytes).1.full = true := by
  induction bytes generalizing pipe with
  | nil => exact absurd rfl left
  | cons byte rest induction =>
    rw [fill] at left ⊢
    split at left
    next full =>
      rw [if_pos full]
      exact full
    next full =>
      rw [if_neg full]
      exact induction (pipe.put byte) left

theorem ends_copy (pipe : Pipe) (n : Nat) :
    (pipe.copy n).1.nwrite = pipe.nwrite ∧ (pipe.copy n).1.readopen = pipe.readopen ∧
      (pipe.copy n).1.writeopen = pipe.writeopen := by
  induction n generalizing pipe with
  | zero => exact ⟨rfl, rfl, rfl⟩
  | succ n induction =>
    rw [copy]
    split
    next => exact ⟨rfl, rfl, rfl⟩
    next => exact induction pipe.drop

end Pipe

namespace Carries

variable {history : List UInt8} {pipe : Pipe} {taken : Nat}

theorem fill (carries : Carries pipe history taken) (bytes : List UInt8) :
    Carries (pipe.fill bytes).1 (history ++ (pipe.fill bytes).2.1) taken := by
  induction bytes generalizing pipe history with
  | nil => simpa [Pipe.fill] using carries
  | cons byte rest induction =>
    rw [Pipe.fill]
    split
    next => simpa using carries
    next room =>
      have stored := induction (carries.put (Bool.eq_false_iff.mpr room) byte)
      rw [append_assoc, singleton_append] at stored
      exact stored

theorem copy (carries : Carries pipe history taken) (n : Nat) :
    (pipe.copy n).2 = (history.drop taken).take (pipe.copy n).2.length ∧
      Carries (pipe.copy n).1 history (taken + (pipe.copy n).2.length) := by
  induction n generalizing pipe taken with
  | zero => exact ⟨rfl, carries⟩
  | succ n induction =>
    rw [Pipe.copy]
    split
    next => exact ⟨rfl, carries⟩
    next more =>
      have some := Bool.eq_false_iff.mpr more
      obtain ⟨same, after⟩ := induction (carries.drop some)
      refine ⟨?_, ?_⟩
      · have front := carries.front some
        rw [drop_eq_getElem?_toList_append, front]
        simp only [Option.toList_some, singleton_append, length_cons,
          take_succ_cons, ← same]
      · rw [length_cons]
        simpa [Nat.add_comm, Nat.add_left_comm, Nat.add_assoc] using after

end Carries

namespace Phase

def call : Phase → Option Nat
  | .idle => none
  | .writing call _ _ _ _ => some call
  | .reading call _ _ => some call

@[simp] theorem rouse_wake (phase : Phase) (writable : Bool) :
    (phase.wake writable).rouse = phase.rouse := by
  cases phase with
  | idle | writing | reading => cases writable <;> rfl

@[simp] theorem rouse_rouse (phase : Phase) : phase.rouse.rouse = phase.rouse := by
  cases phase <;> rfl

end Phase

def storedBy (accepted : List (Nat × UInt8)) (call : Nat) : List UInt8 :=
  (accepted.filter fun entry => entry.1 = call).map Prod.snd

theorem storedBy_append_same (accepted : List (Nat × UInt8)) (call : Nat) (bytes : List UInt8) :
    storedBy (accepted ++ bytes.map (call, ·)) call = storedBy accepted call ++ bytes := by
  simp [storedBy, filter_map, comp_def]

theorem storedBy_append_other (accepted : List (Nat × UInt8)) {call other : Nat}
    (different : other ≠ call) (bytes : List UInt8) :
    storedBy (accepted ++ bytes.map (call, ·)) other = storedBy accepted other := by
  simp [storedBy, filter_map, comp_def, Ne.symm different]

structure Numbered {P : Type} (doing : P → Phase) (calls : Nat) (accepted : List (Nat × UInt8))
    (delivered : List Delivered) (written : List Written) : Prop where
  tags : ∀ entry ∈ accepted, entry.1 < calls
  current : ∀ p call, (doing p).call = some call → call < calls
  alone : ∀ p q call, (doing p).call = some call → (doing q).call = some call → p = q
  progress : ∀ p call n bytes rest, doing p = .writing call n bytes rest false →
    storedBy accepted call ++ rest = bytes ∧ bytes.length = n.toInt.toNat
  wrote : ∀ w ∈ written, w.call < calls ∧ (∀ p, (doing p).call ≠ some w.call) ∧
    (0 ≤ w.n → w.result = w.n →
      storedBy accepted w.call = w.bytes ∧ w.bytes.length = w.n.toInt.toNat)
  read : ∀ d ∈ delivered, d.call < calls ∧ ∀ p, (doing p).call ≠ some d.call
  once : (delivered.map Delivered.call).Nodup

namespace Numbered

variable {P : Type} [DecidableEq P] {doing : P → Phase} {calls call : Nat}
  {accepted : List (Nat × UInt8)} {delivered : List Delivered} {written : List Written} {p : P}
  {bytes rest : List UInt8} {n : Int32}

omit [DecidableEq P] in
theorem call_ne (numbered : Numbered doing calls accepted delivered written) {q : P}
    (mine : (doing p).call = some call) (other : q ≠ p) : (doing q).call ≠ some call :=
  fun also => other (numbered.alone q p call also mine)

theorem setPhase (numbered : Numbered doing calls accepted delivered written) {phase : Phase}
    {later : Nat} (grows : calls ≤ later)
    (own : ∀ call, phase.call = some call →
      (doing p).call = some call ∨ call = calls ∧ calls < later)
    (progress : ∀ call n bytes rest, phase = .writing call n bytes rest false →
      storedBy accepted call ++ rest = bytes ∧ bytes.length = n.toInt.toNat) :
    Numbered (update doing p phase) later accepted delivered written := by
  have calling : ∀ q call, (update doing p phase q).call = some call →
      (doing q).call = some call ∨ q = p ∧ call = calls ∧ calls < later := by
    intro q call now
    by_cases mine : q = p
    · rw [mine, update_self] at now
      rw [mine]
      exact (own call now).imp_right fun new => ⟨rfl, new⟩
    · rw [update_of_ne mine] at now
      exact .inl now
  have old : ∀ {call}, call < calls → (∀ q, (doing q).call ≠ some call) →
      ∀ q, (update doing p phase q).call ≠ some call := by
    intro call below nobody q now
    cases calling q call now with
    | inl before => exact nobody q before
    | inr new => omega
  refine ⟨?_, ?_, ?_, ?_, ?_, ?_, numbered.once⟩
  · exact fun entry member => (numbered.tags entry member).trans_le grows
  · intro q call now
    cases calling q call now with
    | inl before => exact (numbered.current q call before).trans_le grows
    | inr new => exact new.2.1 ▸ new.2.2
  · intro q r call first second
    cases calling q call first with
    | inl before =>
      cases calling r call second with
      | inl also => exact numbered.alone q r call before also
      | inr new =>
        have below := numbered.current q call before
        omega
    | inr new =>
      cases calling r call second with
      | inl before =>
        have below := numbered.current r call before
        omega
      | inr also => exact new.1.trans also.1.symm
  · intro q call n bytes rest now
    by_cases mine : q = p
    · rw [mine, update_self] at now
      exact progress call n bytes rest now
    · rw [update_of_ne mine] at now
      exact numbered.progress q call n bytes rest now
  · intro w member
    obtain ⟨below, nobody, complete⟩ := numbered.wrote w member
    exact ⟨below.trans_le grows, old below nobody, complete⟩
  · intro d member
    obtain ⟨below, nobody⟩ := numbered.read d member
    exact ⟨below.trans_le grows, old below nobody⟩

theorem leave (numbered : Numbered doing calls accepted delivered written) :
    Numbered (update doing p .idle) calls accepted delivered written :=
  numbered.setPhase (Nat.le_refl calls) (fun _ none => absurd none (by simp [Phase.call]))
    fun _ _ _ _ idle => absurd idle (by simp)

theorem accept (numbered : Numbered doing calls accepted delivered written) {stored : List UInt8}
    (now : doing p = .writing call n bytes (stored ++ rest) false) :
    Numbered (update doing p (.writing call n bytes rest false)) calls
      (accepted ++ stored.map (call, ·)) delivered written := by
  have mine : (doing p).call = some call := by
    rw [now]
    rfl
  have below := numbered.current p call mine
  have same : ∀ q, (update doing p (.writing call n bytes rest false) q).call =
      (doing q).call := by
    intro q
    by_cases here : q = p
    · rw [here, update_self, mine]
      rfl
    · rw [update_of_ne here]
  refine ⟨?_, ?_, ?_, ?_, ?_, ?_, numbered.once⟩
  · intro entry member
    cases mem_append.mp member with
    | inl before => exact numbered.tags entry before
    | inr new =>
      obtain ⟨byte, _, rfl⟩ := mem_map.mp new
      exact below
  · intro q other
    rw [same]
    exact numbered.current q other
  · intro q r other
    rw [same, same]
    exact numbered.alone q r other
  · intro q other m given left after
    by_cases here : q = p
    · rw [here, update_self] at after
      obtain ⟨rfl, rfl, rfl, rfl, _⟩ := Phase.writing.inj after
      obtain ⟨whole, length⟩ := numbered.progress p call n bytes (stored ++ rest) now
      rw [storedBy_append_same, append_assoc]
      exact ⟨whole, length⟩
    · rw [update_of_ne here] at after
      have different : other ≠ call := by
        rintro rfl
        refine numbered.call_ne mine here ?_
        rw [after]
        rfl
      rw [storedBy_append_other accepted different]
      exact numbered.progress q other m given left after
  · intro w member
    obtain ⟨earlier, nobody, complete⟩ := numbered.wrote w member
    have different : w.call ≠ call := fun equal => nobody p (equal ▸ mine)
    refine ⟨earlier, fun q => ?_, ?_⟩
    · rw [same]
      exact nobody q
    · rw [storedBy_append_other accepted different]
      exact complete
  · intro d member
    obtain ⟨earlier, nobody⟩ := numbered.read d member
    refine ⟨earlier, fun q => ?_⟩
    rw [same]
    exact nobody q

theorem call_left (numbered : Numbered doing calls accepted delivered written)
    (mine : (doing p).call = some call) (q : P) : (update doing p .idle q).call ≠ some call := by
  by_cases here : q = p
  · rw [here, update_self]
    exact Option.some_ne_none call ∘ Eq.symm
  · rw [update_of_ne here]
    exact numbered.call_ne mine here

theorem finish (numbered : Numbered doing calls accepted delivered written) {result : Int32}
    (now : doing p = .writing call n bytes rest false) (complete : 0 ≤ n → result = n → rest = []) :
    Numbered (update doing p .idle) calls accepted delivered
      (⟨call, n, bytes, result⟩ :: written) := by
  have mine : (doing p).call = some call := by
    rw [now]
    rfl
  obtain ⟨whole, length⟩ := numbered.progress p call n bytes rest now
  have left : Numbered (update doing p .idle) calls accepted delivered written :=
    numbered.leave
  refine { left with wrote := ?_ }
  intro w member
  cases mem_cons.mp member with
  | inl equal =>
    rw [equal]
    refine ⟨numbered.current p call mine, numbered.call_left mine, ?_⟩
    intro positive returned
    rw [complete positive returned, append_nil] at whole
    exact ⟨whole, length⟩
  | inr before => exact left.wrote w before

theorem deliver (numbered : Numbered doing calls accepted delivered written) {d : Delivered}
    (mine : (doing p).call = some d.call) :
    Numbered (update doing p .idle) calls accepted (delivered ++ [d]) written := by
  have left : Numbered (update doing p .idle) calls accepted delivered written :=
    numbered.leave
  refine { left with read := ?_, once := ?_ }
  · intro other member
    cases mem_append.mp member with
    | inl before => exact left.read other before
    | inr new =>
      rw [mem_singleton.mp new]
      exact ⟨numbered.current p d.call mine, numbered.call_left mine⟩
  · rw [map_append, map_singleton]
    refine nodup_append.mpr ⟨numbered.once, by simp, ?_⟩
    intro call before last only
    obtain ⟨other, member, rfl⟩ := mem_map.mp before
    rw [mem_singleton.mp only]
    exact fun equal => (numbered.read other member).2 p (equal ▸ mine)

end Numbered

namespace State

variable {P : Type} {s s' : State P}

def input (s : State P) : List UInt8 := s.accepted.map Prod.snd

def output (s : State P) : List UInt8 := s.delivered.flatMap Delivered.bytes

def doing (s : State P) (p : P) : Phase := (s.phase p).rouse

variable {p : P}

theorem doing_of_phase {phase : Phase} (now : s.phase p = phase) : s.doing p = phase.rouse := by
  rw [doing, now]

theorem doing_wakeup (s : State P) (writable : Bool) : (s.wakeup writable).doing = s.doing := by
  funext p
  exact (s.phase p).rouse_wake writable

theorem doing_setPhase [DecidableEq P] (s : State P) (p : P) (phase : Phase) :
    (s.setPhase p phase).doing = update s.doing p phase.rouse := by
  funext q
  exact apply_update (fun _ => Phase.rouse) s.phase p phase q

structure Streamed (s : State P) : Prop where
  carries : Carries s.pipe s.input s.output.length
  delivers : s.output <+: s.input
  numbered : Numbered s.doing s.calls s.accepted s.delivered s.written

namespace Streamed

theorem still (streamed : Streamed s) (data : s'.pipe.data = s.pipe.data)
    (nread : s'.pipe.nread = s.pipe.nread) (nwrite : s'.pipe.nwrite = s.pipe.nwrite)
    (input : s'.input = s.input) (output : s'.output = s.output)
    (numbered : Numbered s'.doing s'.calls s'.accepted s'.delivered s'.written) : Streamed s' := by
  refine ⟨⟨?_, ?_, ?_⟩, ?_, numbered⟩
  · rw [data, input, output]
    exact streamed.carries.queue
  · rw [nread, output]
    exact streamed.carries.nread
  · rw [nwrite, input]
    exact streamed.carries.nwrite
  · rw [input, output]
    exact streamed.delivers

variable {call : Nat} {rest bytes : List UInt8} {n : Int32} {p : P}

theorem store (streamed : Streamed s) {stored : List UInt8}
    (pipe : s'.pipe = (s.pipe.fill rest).1) (bytes : stored = (s.pipe.fill rest).2.1)
    (accepted : s'.accepted = s.accepted ++ stored.map (call, ·)) (output : s'.output = s.output)
    (numbered : Numbered s'.doing s'.calls s'.accepted s'.delivered s'.written) : Streamed s' := by
  have grown : s'.input = s.input ++ stored := by
    rw [input, input, accepted, map_append, map_map]
    exact congrArg _ (map_id' stored)
  refine ⟨?_, ?_, numbered⟩
  · rw [pipe, grown, output, bytes]
    exact streamed.carries.fill rest
  · rw [output, grown]
    exact streamed.delivers.trans (prefix_append _ _)

theorem pipeclose (streamed : Streamed s) (writable : Bool) :
    Streamed (s.pipeclose writable) := by
  have closed : Streamed ((s.setPipe (s.pipe.close writable)).wakeup writable) := by
    refine streamed.still ?_ ?_ ?_ rfl rfl ?_
    · cases writable <;> rfl
    · cases writable <;> rfl
    · cases writable <;> rfl
    · rw [doing_wakeup]
      exact streamed.numbered
  unfold State.pipeclose
  dsimp only
  split
  next => exact closed.still rfl rfl rfl rfl rfl closed.numbered
  next => exact closed

variable [DecidableEq P]

theorem numbered_fill (streamed : Streamed s)
    (phase : s.phase p = .writing call n bytes rest false) :
    Numbered (update s.doing p (.writing call n bytes (s.pipe.fill rest).2.2 false))
      s.calls (s.accepted ++ (s.pipe.fill rest).2.1.map (call, ·)) s.delivered s.written := by
  refine streamed.numbered.accept ?_
  rw [s.pipe.fill_append]
  exact doing_of_phase phase

theorem numbered_finish (streamed : Streamed s) {result : Int32}
    (phase : s.phase p = .writing call n bytes rest false)
    (complete : 0 ≤ n → result = n → (s.pipe.fill rest).2.2 = []) :
    Numbered (update s.doing p .idle) s.calls
      (s.accepted ++ (s.pipe.fill rest).2.1.map (call, ·)) s.delivered
      (⟨call, n, bytes, result⟩ :: s.written) := by
  have finished := (streamed.numbered_fill phase).finish (p := p) (update_self ..) complete
  rwa [update_idem] at finished

theorem numbered_call (streamed : Streamed s) {phase : Phase}
    (begins : (p, true) ∈ s.refs ∧ (∃ n bytes, phase = .writing s.calls n bytes bytes false ∧
        bytes.length = n.toInt.toNat) ∨
      (p, false) ∈ s.refs ∧ ∃ n, phase = .reading s.calls n false) :
    Numbered (update s.doing p phase.rouse) (s.calls + 1) s.accepted s.delivered
      s.written := by
  have nothing : storedBy s.accepted s.calls = [] := by
    rw [storedBy, map_eq_nil_iff, filter_eq_nil_iff]
    intro entry member same
    have earlier := streamed.numbered.tags entry member
    rw [of_decide_eq_true same] at earlier
    exact absurd earlier (Nat.lt_irrefl _)
  refine streamed.numbered.setPhase (Nat.le_succ _) ?_ ?_
  · intro call number
    refine .inr ⟨?_, Nat.lt_succ_self _⟩
    cases begins with
    | inl writes =>
      obtain ⟨_, n, bytes, rfl, _⟩ := writes
      exact (Option.some.inj number).symm
    | inr reads =>
      obtain ⟨_, n, rfl⟩ := reads
      exact (Option.some.inj number).symm
  · intro call n bytes rest writes
    cases begins with
    | inl begins =>
      obtain ⟨_, m, given, rfl, length⟩ := begins
      obtain ⟨rfl, rfl, rfl, rfl, _⟩ := Phase.writing.inj writes
      rw [nothing]
      exact ⟨rfl, length⟩
    | inr begins =>
      obtain ⟨_, m, rfl⟩ := begins
      exact absurd writes (by simp [Phase.rouse, Phase.wakeReader, Phase.wakeWriter])

theorem copied (streamed : Streamed s) (phase : s.phase p = .reading call n false) :
    Streamed ((((s.setPipe (s.pipe.copy n.toInt.toNat).1).setPhase p .idle).deliver
      ⟨call, n, (s.pipe.copy n.toInt.toNat).2,
        .ofNat (s.pipe.copy n.toInt.toNat).2.length⟩).wakeup false) := by
  obtain ⟨piece, after⟩ := streamed.carries.copy n.toInt.toNat
  have grown : State.output ((((s.setPipe (s.pipe.copy n.toInt.toNat).1).setPhase p .idle).deliver
      ⟨call, n, (s.pipe.copy n.toInt.toNat).2,
        .ofNat (s.pipe.copy n.toInt.toNat).2.length⟩).wakeup false) =
      s.output ++ (s.pipe.copy n.toInt.toNat).2 := by
    simp [output, deliver, setPhase, setPipe, wakeup]
  refine ⟨?_, ?_, ?_⟩
  · rw [grown, length_append]
    exact after
  · rw [grown]
    obtain ⟨pending, whole⟩ := streamed.delivers
    change _ <+: s.input
    rw [piece, ← whole, drop_left]
    exact (prefix_append_right_inj _).mpr ( take_prefix _ _)
  · rw [doing_wakeup]
    change Numbered (State.doing (setPhase _ p .idle)) _ _ _ _
    rw [doing_setPhase]
    exact streamed.numbered.deliver (by rw [doing_of_phase phase]; rfl)

theorem moved (streamed : Streamed s) {label : Label P} (moved : Moved s label s') :
    Streamed s' := by
  cases moved with
  | @called p _ phase idle begins =>
    refine streamed.still rfl rfl rfl rfl rfl ?_
    change Numbered (s.setPhase p phase).doing _ _ _ _
    rw [doing_setPhase]
    exact streamed.numbered_call begins
  | @wrote p call n bytes rest phase done =>
    refine streamed.store rfl rfl rfl rfl ?_
    rw [doing_wakeup]
    change Numbered (State.doing (setPhase _ p .idle)) _ _ _ _
    rw [doing_setPhase]
    exact streamed.numbered_finish phase fun _ _ => done
  | @refused p call n bytes rest phase left _ =>
    refine streamed.store rfl rfl rfl rfl ?_
    change Numbered (State.doing (setPhase _ p .idle)) _ _ _ _
    rw [doing_setPhase]
    refine streamed.numbered_finish phase fun positive equal => ?_
    rw [← equal] at positive
    cases positive
  | @filled p call n bytes rest phase left _ =>
    refine streamed.store rfl rfl rfl rfl ?_
    rw [doing_wakeup, doing_setPhase]
    exact streamed.numbered_fill phase
  | @interrupted p call n phase =>
    refine streamed.still rfl rfl rfl rfl ?_ ?_
    · simp [output, deliver, setPhase]
    · change Numbered (s.setPhase p .idle).doing _ _ _ _
      rw [doing_setPhase]
      exact streamed.numbered.deliver (by rw [doing_of_phase phase]; rfl)
  | @waited p call n phase =>
    have same : (Phase.reading call n true).rouse = s.doing p := (doing_of_phase phase).symm
    refine streamed.still rfl rfl rfl rfl rfl ?_
    rw [doing_setPhase, same, update_eq_self]
    exact streamed.numbered
  | copied phase => exact streamed.copied phase
  | @killed p =>
    refine streamed.still rfl rfl rfl rfl rfl ?_
    change Numbered (s.setPhase p (s.phase p).rouse).doing _ _ _ _
    rw [doing_setPhase, Phase.rouse_rouse]
    change Numbered (update s.doing p (s.doing p)) _ _ _ _
    rw [update_eq_self]
    exact streamed.numbered
  | duplicated | dropped => exact streamed.still rfl rfl rfl rfl rfl streamed.numbered
  | @closed p writable =>
    refine Streamed.pipeclose ?_ writable
    exact streamed.still rfl rfl rfl rfl rfl streamed.numbered

end Streamed

theorem streamed_pipealloc (p : P) (data : Fin pipesize → UInt8) :
    Streamed (pipealloc p data) where
  carries := ⟨.nil data, rfl, rfl⟩
  delivers := nil_prefix
  numbered := by
    refine ⟨?_, ?_, ?_, ?_, ?_, ?_, nodup_nil⟩
    all_goals simp [pipealloc, doing, Phase.rouse, Phase.wakeReader, Phase.wakeWriter, Phase.call]

variable [DecidableEq P]

theorem streamed_of_run {data : Fin pipesize → UInt8} {labels : List (Label P)}
    (reached : run step (pipealloc p data) labels = some s) : Streamed s :=
  run_preserves Streamed (fun _ _ _ streamed stepped => streamed.moved (moved_of_step stepped))
    (streamed_pipealloc p data) reached

theorem bytes_in_every_run {p : P} {data : Fin pipesize → UInt8} {labels : List (Label P)}
    (reached : run step (pipealloc p data) labels = some s) :
    (s.pipe.nwrite - s.pipe.nread).toNat ≤ pipesize ∧
    s.output <+: s.input ∧
    (∀ d ∈ s.delivered, d.bytes <:+: s.input) ∧
    (s.delivered.map Delivered.call).Nodup ∧
    (∀ w ∈ s.written, 0 ≤ w.n → w.result = w.n →
      storedBy s.accepted w.call = w.bytes ∧ w.bytes.length = w.n.toInt.toNat) := by
  have streamed := streamed_of_run reached
  refine ⟨?_, streamed.delivers, ?_, streamed.numbered.once, ?_⟩
  · rw [streamed.carries.nread, streamed.carries.nwrite,
      toNat_ofNat_sub_ofNat streamed.carries.queue.put streamed.carries.near]
    exact Nat.sub_le_iff_le_add'.mpr streamed.carries.queue.room
  · intro d member
    obtain ⟨before, after, split⟩ := append_of_mem member
    refine List.IsInfix.trans ?_ streamed.delivers.isInfix
    refine ⟨before.flatMap Delivered.bytes, after.flatMap Delivered.bytes, ?_⟩
    rw [output, split]
    simp
  · exact fun w member => (streamed.numbered.wrote w member).2.2

def readThenWrite : List (Label (Fin 2)) :=
  [.dup 0 1 true, .piperead 0 2, .proceed 0, .pipewrite 1 (fun i => .ofNat (i + 7)) 3, .proceed 1,
    .proceed 0]

theorem bytes_in_readThenWrite : ∃ s : State (Fin 2),
    run step (pipealloc 0 fun _ => 5) readThenWrite = some s ∧ s.output = [7, 8] ∧
      s.input = [7, 8, 9] ∧ s.output <+: s.input := by
  have runs : (run step (pipealloc 0 fun _ => 5) readThenWrite).map (fun s : State (Fin 2) =>
      (s.output, s.input)) = some ([7, 8], [7, 8, 9]) := by decide +kernel
  obtain ⟨s, reached, result⟩ := Option.map_eq_some_iff.mp runs
  obtain ⟨output, input⟩ := Prod.mk.inj result
  exact ⟨s, reached, output, input, (bytes_in_every_run reached).2.1⟩

end State

end StraceXv6.Kernel.Pipes
