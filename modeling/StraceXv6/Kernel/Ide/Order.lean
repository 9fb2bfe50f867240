import Mathlib.Data.Fintype.Card
import StraceXv6.Data.Update
import StraceXv6.Kernel.Ide.Machine

namespace StraceXv6.Kernel.Ide

open List Function Data
open Kernel.Bio (nbuf BufIx Buf)

namespace State

variable {P D : Type}

/-! Requests are served in the order of the queue. -/

/-- The queue is this list.  The requests before it are completed, its own are still as they
were made, and the first of them is the command that the disk has. -/
structure Ordered (s : State P D) (list : List BufIx) : Prop where
  holds : s.idequeue.Holds none list
  nodup : list.Nodup
  done : (s.queued.take s.completed.length).map Prod.fst = s.completed
  pending : s.queued.drop s.completed.length = list.map s.request
  started : s.started = s.queued.take (s.completed.length + (list.take 1).length)
  counted : s.interrupts = s.completed.length
  listed : ∀ b ∈ list, ∃ p call asleep, s.phase p = .waiting b call asleep ∧
    s.completed.length ≤ call
  entering : ∀ {p b}, s.phase p = .entering b → b ∉ list ∧ finished (s.buf b) = false
  waiting : ∀ {p b call asleep}, s.phase p = .waiting b call asleep →
    (s.queued.map Prod.fst)[call]? = some b ∧
      (s.completed.length ≤ call → finished (s.buf b) = false)
  active : ∀ {p b}, (s.phase p).uses = some b → b ∈ s.active
  apart : ∀ {p q b}, (s.phase p).uses = some b → (s.phase q).uses = some b → p = q
  once : s.active.Nodup
  returned : ∀ call ∈ s.returned, call.call < s.completed.length ∧ call.valid = true ∧
    call.dirty = false

section

variable {s s' : State P D} {list : List BufIx}

theorem Ordered.queued_eq (ordered : s.Ordered list) :
    s.queued.map Prod.fst = s.completed ++ list := by
  have parts : (s.queued.take s.completed.length ++ s.queued.drop s.completed.length).map
      Prod.fst = s.completed ++ list := by
    have names : (list.map s.request).map Prod.fst = list := by
      rw [map_map]
      exact map_id list
    rw [map_append, ordered.done, ordered.pending, names]
  rwa [take_append_drop] at parts

theorem Ordered.length_queued (ordered : s.Ordered list) :
    s.queued.length = s.completed.length + list.length := by
  have lengths := congrArg List.length ordered.queued_eq
  rwa [length_map, length_append] at lengths

variable {call : Nat} {b b' : BufIx} {asleep : Bool} {phase : Phase}
  {started : List (BufIx × Command D)} {p : P}

theorem Ordered.getElem?_eq (ordered : s.Ordered list) (open_ : s.completed.length ≤ call) :
    (s.queued.map Prod.fst)[call]? = list[call - s.completed.length]? := by
  rw [ordered.queued_eq, List.getElem?_append_right open_]

theorem Ordered.mem_active (ordered : s.Ordered list) (member : b ∈ list) : b ∈ s.active := by
  obtain ⟨p, call, asleep, waiting, _⟩ := ordered.listed b member
  exact ordered.active (p := p) (by rw [waiting]; rfl)

theorem Ordered.not_mem_of_finished (ordered : s.Ordered list)
    (finish : finished (s.buf b) = true) : b ∉ list := by
  intro member
  obtain ⟨p, call, asleep, waiting, open_⟩ := ordered.listed b member
  rw [(ordered.waiting waiting).2 open_] at finish
  exact Bool.false_ne_true finish

theorem ordered_ideinit (buf : BufIx → Buf D) (havedisk1 : Bool) (next : BufIx → Option BufIx) :
    (ideinit buf havedisk1 next : State P D).Ordered [] where
  holds := rfl
  nodup := nodup_nil
  done := rfl
  pending := rfl
  started := rfl
  counted := rfl
  listed := fun b member => absurd member not_mem_nil
  entering := fun phase => by cases phase
  waiting := fun phase => by cases phase
  active := fun uses => by cases uses
  apart := fun uses => by cases uses
  once := nodup_nil
  returned := fun call member => absurd member not_mem_nil

theorem Ordered.touched (ordered : s.Ordered list) (buf : Buf D) (outside : b ∉ s.active) :
    ({ s with buf := update s.buf b buf } : State P D).Ordered list := by
  have others : ∀ {b'}, b' ∈ s.active → update s.buf b buf b' = s.buf b' := by
    intro b' member
    have differs : b' ≠ b := fun same => outside (same ▸ member)
    exact update_of_ne differs ..
  refine { ordered with pending := ?_, entering := ?_, waiting := ?_ }
  · rw [ordered.pending]
    apply map_congr_left
    intro b' member
    exact congrArg (fun found => (b', command found)) (others (ordered.mem_active member)).symm
  · intro p b' entering
    have used := ordered.active (p := p) (by rw [entering]; rfl)
    obtain ⟨absent, unfinished⟩ := ordered.entering entering
    exact ⟨absent, (congrArg finished (others used)).trans unfinished⟩
  · intro p b' call asleep waiting
    have used := ordered.active (p := p) (by rw [waiting]; rfl)
    obtain ⟨number, unfinished⟩ := ordered.waiting waiting
    exact ⟨number, fun open_ => (congrArg finished (others used)).trans (unfinished open_)⟩

theorem uses_wake (b : BufIx) (phase : Phase) : (phase.wake b).uses = phase.uses := by
  cases phase <;> rfl

theorem waiting_of_wake (waits : phase.wake b = .waiting b' call asleep) :
    ∃ before, phase = .waiting b' call before := by
  cases phase with
  | idle | entering => cases waits
  | waiting b₁ call₁ asleep₁ =>
    obtain ⟨rfl, rfl, _⟩ := Phase.waiting.inj waits
    exact ⟨asleep₁, rfl⟩

theorem entering_of_wake (enters : phase.wake b = .entering b') : phase = .entering b' := by
  cases phase with
  | idle | waiting => cases enters
  | entering => exact enters

theorem Ordered.completed (ordered : s.Ordered (b :: list)) (reply : Option D)
    (commands : started = s.queued.take (s.completed.length + 1 + (list.take 1).length)) :
    ({ s.complete b reply with started := started } : State P D).Ordered list := by
  obtain ⟨outside, nodup⟩ := nodup_cons.mp ordered.nodup
  have elsewhere : ∀ {b'}, b' ∈ list → b' ≠ b := by
    rintro b' member rfl
    exact outside member
  have others : ∀ {b'}, b' ≠ b → (s.complete b reply).buf b' = s.buf b' :=
    fun other => update_of_ne other ..
  have lengths := ordered.length_queued
  rw [length_cons] at lengths
  have length_completed : (s.completed ++ [b]).length = s.completed.length + 1 :=
    length_append
  have pending := ordered.pending
  rw [map_cons] at pending
  have split : s.queued.take (s.completed.length + 1) =
      s.queued.take s.completed.length ++ [s.request b] := by
    have here : s.queued[s.completed.length]? = some (s.request b) := by
      have first : (s.queued.drop s.completed.length)[0]? = some (s.request b) := by
        rw [pending]
        rfl
      rwa [List.getElem?_drop] at first
    rw [take_add_one, here]
    rfl
  -- the request that was completed is the one with the number `completed.length`
  have later : ∀ {p b' call asleep}, s.phase p = .waiting b' call asleep →
      s.completed.length ≤ call → b' ≠ b → s.completed.length + 1 ≤ call := by
    intro p b' call asleep waiting open_ other
    rcases Nat.lt_or_eq_of_le open_ with more | same
    · exact more
    · have number := (ordered.waiting waiting).1
      rw [ordered.getElem?_eq open_, ← same, Nat.sub_self] at number
      exact absurd (Option.some.inj number).symm other
  exact {
    holds := ordered.holds.pop
    nodup := nodup
    done := by
      change (s.queued.take (s.completed ++ [b]).length).map Prod.fst = s.completed ++ [b]
      rw [length_completed, split, map_append, ordered.done]
      rfl
    pending := by
      change s.queued.drop (s.completed ++ [b]).length = list.map (s.complete b reply).request
      have rest := congrArg (List.drop 1) pending
      rw [drop_drop, drop_succ_cons, drop_zero] at rest
      rw [length_completed, rest]
      apply map_congr_left
      intro b' member
      exact congrArg (fun found => (b', command found)) (others (elsewhere member)).symm
    started := by
      change started = s.queued.take ((s.completed ++ [b]).length + _)
      rw [commands, length_completed]
    counted := by
      change s.interrupts + 1 = (s.completed ++ [b]).length
      rw [length_completed, ordered.counted]
    listed := by
      intro b' member
      obtain ⟨q, call, asleep, waiting, open_⟩ := ordered.listed b' (mem_cons_of_mem b member)
      refine ⟨q, call, asleep && b' ≠ b, ?_, ?_⟩
      · change (s.phase q).wake b = _
        rw [waiting]
        rfl
      · change (s.completed ++ [b]).length ≤ call
        rw [length_completed]
        exact later waiting open_ (elsewhere member)
    entering := by
      intro q b' entering
      obtain ⟨absent, unfinished⟩ := ordered.entering (entering_of_wake entering)
      have other : b' ≠ b := by
        rintro rfl
        exact absent mem_cons_self
      refine ⟨fun member => absent (mem_cons_of_mem b member), ?_⟩
      exact (congrArg finished (others other)).trans unfinished
    waiting := by
      intro q b' call asleep waiting
      obtain ⟨before, waits⟩ := waiting_of_wake waiting
      obtain ⟨number, unfinished⟩ := ordered.waiting waits
      refine ⟨number, fun open_ => ?_⟩
      have more : s.completed.length + 1 ≤ call := by
        rw [← length_completed]
        exact open_
      -- a request behind the head is for another buffer
      have other : b' ≠ b := by
        rintro rfl
        rw [ordered.getElem?_eq (Nat.le_of_succ_le more)] at number
        obtain ⟨k, rfl⟩ := Nat.exists_eq_add_of_le more
        rw [Nat.add_assoc, Nat.add_sub_cancel_left, Nat.add_comm 1 k, List.getElem?_cons_succ] at number
        exact outside (mem_of_getElem? number)
      exact (congrArg finished (others other)).trans (unfinished (Nat.le_of_succ_le more))
    active := by
      intro q b' uses
      exact ordered.active ((uses_wake b (s.phase q)).symm.trans uses)
    apart := by
      intro q r b' uses uses'
      exact ordered.apart ((uses_wake b (s.phase q)).symm.trans uses)
        ((uses_wake b (s.phase r)).symm.trans uses')
    once := ordered.once
    returned := by
      intro call member
      obtain ⟨closed, flags⟩ := ordered.returned call member
      refine ⟨?_, flags⟩
      change call.call < (s.completed ++ [b]).length
      rw [length_completed]
      exact Nat.lt_succ_of_lt closed }

theorem idestart_ne_endless (s : State P D) (b : BufIx) :
    s.idestart (some b) ≠ .error .endless := by
  unfold idestart
  split
  next => exact fun equal => by cases equal
  next =>
    split
    next => exact fun equal => by cases equal
    next => exact fun equal => by cases equal

theorem eq_of_idestart (done : s.idestart (some b) = .ok s') :
    s' = { s with started := s.started ++ [s.request b] } := by
  rw [idestart] at done
  split at done
  next => cases done
  next =>
    split at done
    next => cases done
    next => exact (Except.ok.inj done).symm

theorem Ordered.ideintr (ordered : s.Ordered list) (due : s.interrupts < s.started.length)
    {reply : Option D} (done : s.ideintr reply = .ok s') : ∃ rest, s'.Ordered rest := by
  have lengths := ordered.length_queued
  rw [ordered.counted, ordered.started, length_take] at due
  cases list with
  | nil =>
    rw [take_nil, length_nil] at due
    omega
  | cons b rest =>
    refine ⟨rest, ?_⟩
    have rest_eq := ordered.holds.pop.head_eq
    rw [State.ideintr, ordered.holds.head_eq] at done
    change (if (s.idequeue.pop b).head ≠ none then _ else _) = _ at done
    rw [rest_eq] at done
    cases rest with
    | nil =>
      rw [if_neg (not_not.mpr (by rfl))] at done
      obtain rfl := Except.ok.inj done
      exact ordered.completed reply ordered.started
    | cons c rest =>
      rw [if_pos (by exact Option.some_ne_none c)] at done
      change (s.complete b reply).idestart (s.idequeue.pop b).head = _ at done
      rw [rest_eq] at done
      rw [eq_of_idestart done]
      apply ordered.completed reply
      have other : c ≠ b := by
        rintro rfl
        exact (nodup_cons.mp ordered.nodup).1 mem_cons_self
      have same : (s.complete b reply).request c = s.request c :=
        congrArg (fun found => (c, command found)) (update_of_ne other ..)
      have second : s.queued[s.completed.length + 1]? = some (s.request c) := by
        have found : (s.queued.drop s.completed.length)[1]? = some (s.request c) := by
          rw [ordered.pending]
          rfl
        rwa [List.getElem?_drop] at found
      change s.started ++ [(s.complete b reply).request c] =
        s.queued.take (s.completed.length + 1 + 1)
      have first : s.started = s.queued.take (s.completed.length + 1) := ordered.started
      rw [same, first, take_add_one (i := s.completed.length + 1), second]
      rfl

variable [DecidableEq P]

theorem Ordered.entered (ordered : s.Ordered list) (idle : s.phase p = .idle)
    (outside : b ∉ s.active) (unfinished : finished (s.buf b) = false) :
    ({ s.setPhase p (.entering b) with active := b :: s.active } : State P D).Ordered list := by
  have users : ∀ {q b'}, ((s.setPhase p (.entering b)).phase q).uses = some b' →
      q = p ∧ b' = b ∨ (s.phase q).uses = some b' := by
    intro q b' uses
    rcases of_update (rfl : (s.setPhase p (.entering b)).phase q = _) with ⟨same, new⟩ | ⟨_, old⟩
    · rw [← new] at uses
      exact .inl ⟨same, (Option.some.inj uses).symm⟩
    · rw [← old] at uses
      exact .inr uses
  refine { ordered with listed := ?_, entering := ?_, waiting := ?_, active := ?_, apart := ?_, once := ?_ }
  · intro b' member
    obtain ⟨q, call, asleep, waiting, open_⟩ := ordered.listed b' member
    refine ⟨q, call, asleep, (update_of_ne ?_ ..).trans waiting, open_⟩
    rintro rfl
    rw [idle] at waiting
    cases waiting
  · intro q b' entering
    rcases of_update entering with ⟨_, new⟩ | ⟨_, old⟩
    · obtain rfl := Phase.entering.inj new
      exact ⟨fun member => outside (ordered.mem_active member), unfinished⟩
    · exact ordered.entering old
  · intro q b' call asleep waiting
    exact ordered.waiting (of_update_ne waiting (by simp)).2
  · intro q b' uses
    rcases users uses with ⟨_, rfl⟩ | before
    · exact mem_cons_self
    · exact mem_cons_of_mem _ (ordered.active before)
  · intro q r b' uses uses'
    rcases users uses with ⟨rfl, rfl⟩ | before
    · rcases users uses' with ⟨rfl, _⟩ | before'
      · rfl
      · exact absurd (ordered.active before') outside
    · rcases users uses' with ⟨_, rfl⟩ | before'
      · exact absurd (ordered.active before) outside
      · exact ordered.apart before before'
  · exact nodup_cons.mpr ⟨outside, ordered.once⟩

theorem Ordered.rephase (ordered : s.Ordered list) (waits : s.phase p = .waiting b call asleep)
    (asleep' : Bool) : (s.setPhase p (.waiting b call asleep')).Ordered list := by
  have same_uses : ∀ q, ((s.setPhase p (.waiting b call asleep')).phase q).uses =
      (s.phase q).uses :=
    apply_update_eq Phase.uses (by rw [waits]; rfl)
  refine { ordered with listed := ?_, entering := ?_, waiting := ?_, active := ?_, apart := ?_ }
  · intro b' member
    obtain ⟨q, call', asleep₁, waiting, open_⟩ := ordered.listed b' member
    by_cases same : q = p
    · rw [same, waits] at waiting
      obtain ⟨rfl, rfl, _⟩ := Phase.waiting.inj waiting
      exact ⟨p, call, asleep', update_self .., open_⟩
    · exact ⟨q, call', asleep₁, (update_of_ne same ..).trans waiting, open_⟩
  · intro q b' entering
    exact ordered.entering (of_update_ne entering (by simp)).2
  · intro q b' call' asleep₁ waiting
    rcases of_update waiting with ⟨_, new⟩ | ⟨_, old⟩
    · obtain ⟨rfl, rfl, _⟩ := Phase.waiting.inj new
      exact ordered.waiting waits
    · exact ordered.waiting old
  · intro q b' uses
    rw [same_uses] at uses
    exact ordered.active uses
  · intro q r b' uses uses'
    rw [same_uses] at uses uses'
    exact ordered.apart uses uses'

theorem Ordered.left (ordered : s.Ordered list) (waits : s.phase p = .waiting b call asleep)
    (finish : finished (s.buf b) = true) :
    ({ s.setPhase p .idle with
        active := s.active.erase b
        returned := ⟨call, (s.buf b).valid, (s.buf b).dirty⟩ :: s.returned } :
      State P D).Ordered list := by
  have waits_uses : (s.phase p).uses = some b := by
    rw [waits]
    rfl
  have users : ∀ {q b'}, ((s.setPhase p .idle).phase q).uses = some b' →
      q ≠ p ∧ (s.phase q).uses = some b' := by
    intro q b' uses
    rcases of_update (rfl : (s.setPhase p .idle).phase q = _) with ⟨_, new⟩ | ⟨other, old⟩
    · rw [← new] at uses
      cases uses
    · rw [← old] at uses
      exact ⟨other, uses⟩
  have closed : call < s.completed.length := by
    by_contra open_
    have unfinished := (ordered.waiting waits).2 (Nat.le_of_not_lt open_)
    rw [finish] at unfinished
    exact Bool.false_ne_true unfinished.symm
  refine { ordered with
    listed := ?_, entering := ?_, waiting := ?_, active := ?_, apart := ?_, once := ?_, returned := ?_ }
  · intro b' member
    obtain ⟨q, call', asleep', waiting, open_⟩ := ordered.listed b' member
    refine ⟨q, call', asleep', (update_of_ne ?_ ..).trans waiting, open_⟩
    rintro rfl
    rw [waits] at waiting
    obtain ⟨rfl, rfl, _⟩ := Phase.waiting.inj waiting
    exact ordered.not_mem_of_finished finish member
  · intro q b' entering
    exact ordered.entering (of_update_ne entering (by simp)).2
  · intro q b' call' asleep' waiting
    exact ordered.waiting (of_update_ne waiting (by simp)).2
  · intro q b' uses
    obtain ⟨other, before⟩ := users uses
    have differs : b' ≠ b := by
      rintro rfl
      exact other (ordered.apart before waits_uses)
    exact (mem_erase_of_ne differs).mpr (ordered.active before)
  · intro q r b' uses uses'
    exact ordered.apart (users uses).2 (users uses').2
  · exact ordered.once.erase b
  · intro earlier member
    rcases mem_cons.mp member with rfl | member
    · rw [finished, Bool.and_eq_true, Bool.not_eq_true'] at finish
      exact ⟨closed, finish.1, finish.2⟩
    · exact ordered.returned earlier member

theorem Ordered.waited (ordered : s.Ordered list) (waits : s.phase p = .waiting b call asleep) :
    (s.wait p b call).Ordered list := by
  unfold wait
  split
  next finish => exact ordered.left waits finish
  next => exact ordered.rephase waits true

theorem Ordered.locked (ordered : s.Ordered list) (enters : s.phase p = .entering b)
    {idequeue : Queue BufIx} (holds : idequeue.Holds none (list ++ [b]))
    (commands : started = (s.queued ++ [s.request b]).take (s.completed.length + 1)) :
    (({ s.enqueue b idequeue with started := started } : State P D).setPhase p
      (.waiting b s.queued.length true)).Ordered (list ++ [b]) := by
  obtain ⟨outside, unfinished⟩ := ordered.entering enters
  have enters_uses : (s.phase p).uses = some b := by
    rw [enters]
    rfl
  have lengths := ordered.length_queued
  have same_uses : ∀ q, (update s.phase p (.waiting b s.queued.length true) q).uses =
      (s.phase q).uses :=
    apply_update_eq Phase.uses (by rw [enters]; rfl)
  exact {
    holds := holds
    nodup := nodup_append.mpr ⟨ordered.nodup, nodup_singleton b, by
      intro a member a' single
      rw [mem_singleton.mp single]
      rintro rfl
      exact outside member⟩
    done := by
      change ((s.queued ++ [s.request b]).take s.completed.length).map Prod.fst = s.completed
      rw [take_append_of_le_length (by omega), ordered.done]
    pending := by
      change (s.queued ++ [s.request b]).drop s.completed.length = (list ++ [b]).map s.request
      rw [drop_append_of_le_length (by omega), ordered.pending, map_append]
      rfl
    started := by
      change started = (s.queued ++ [s.request b]).take _
      rw [commands]
      cases list <;> rfl
    counted := ordered.counted
    listed := by
      intro b' member
      rcases mem_append.mp member with member | single
      · obtain ⟨q, call, asleep, waiting, open_⟩ := ordered.listed b' member
        refine ⟨q, call, asleep, (update_of_ne ?_ ..).trans waiting, open_⟩
        rintro rfl
        rw [enters] at waiting
        cases waiting
      · rw [mem_singleton.mp single]
        refine ⟨p, _, _, update_self .., ?_⟩
        change s.completed.length ≤ s.queued.length
        omega
    entering := by
      intro q b' entering
      obtain ⟨other, before⟩ := of_update_ne entering (by simp)
      change s.phase q = _ at before
      obtain ⟨absent, open_⟩ := ordered.entering before
      refine ⟨fun member => ?_, open_⟩
      rcases mem_append.mp member with member | single
      · exact absent member
      · rw [mem_singleton.mp single] at before
        exact other (ordered.apart (by rw [before]; rfl) enters_uses)
    waiting := by
      intro q b' call asleep waiting
      change ((s.queued ++ [s.request b]).map Prod.fst)[call]? = some b' ∧ _
      rw [map_append]
      rcases of_update waiting with ⟨_, new⟩ | ⟨_, old⟩
      · obtain ⟨rfl, rfl, _⟩ := Phase.waiting.inj new
        refine ⟨?_, fun _ => unfinished⟩
        rw [List.getElem?_append_right (by rw [length_map]), length_map, Nat.sub_self]
        rfl
      · obtain ⟨number, open_⟩ := ordered.waiting old
        obtain ⟨inside, _⟩ := List.getElem?_eq_some_iff.mp number
        exact ⟨(List.getElem?_append_left inside).trans number, open_⟩
    active := by
      intro q b' uses
      exact ordered.active ((same_uses q).symm.trans uses)
    apart := by
      intro q r b' uses uses'
      exact ordered.apart ((same_uses q).symm.trans uses) ((same_uses r).symm.trans uses')
    once := ordered.once
    returned := ordered.returned }

/-- The queue is never too long for the loop of `iderw`, which puts the request at its
end and starts it if it is alone. -/
theorem Ordered.lock (ordered : s.Ordered list) {p : P} {b : BufIx}
    (enters : s.phase p = .entering b) :
    s.lock p b ≠ .error .endless ∧
      ∀ s', s.lock p b = .ok s' → s'.Ordered (list ++ [b]) := by
  obtain ⟨outside, unfinished⟩ := ordered.entering enters
  have room : list.length < nbuf := by
    have all := List.Nodup.length_le_card (nodup_cons.mpr ⟨outside, ordered.nodup⟩)
    rw [Fintype.card_fin, length_cons] at all
    exact all
  obtain ⟨idequeue, pushed, holds⟩ := ordered.holds.push outside ordered.nodup room
  have lengths := ordered.length_queued
  have sleeps : ∀ started : List (BufIx × Command D),
      ({ s.enqueue b idequeue with started := started } : State P D).wait p b s.queued.length =
        ({ s.enqueue b idequeue with started := started } : State P D).setPhase p
          (.waiting b s.queued.length true) := by
    intro started
    exact if_neg (by rw [enqueue, unfinished]; exact Bool.false_ne_true)
  rw [State.lock, pushed]
  dsimp only
  rw [holds.head_eq]
  cases list with
  | nil =>
    rw [if_pos (by rfl)]
    cases result : (s.enqueue b idequeue).idestart (some b) with
    | error stop =>
      refine ⟨fun equal => ?_, fun s' equal => by cases equal⟩
      obtain rfl := Except.error.inj equal
      exact idestart_ne_endless _ b result
    | ok next =>
      refine ⟨fun equal => (by cases equal), fun s' done => ?_⟩
      obtain rfl := Except.ok.inj done
      rw [eq_of_idestart result, sleeps]
      apply ordered.locked enters holds
      have all : s.started = s.queued := by
        rw [ordered.started, take_of_length_le]
        exact lengths.le
      change s.started ++ [s.request b] = _
      rw [all, take_of_length_le]
      rw [length_append]
      exact Nat.succ_le_succ lengths.le
  | cons first rest =>
    have ahead : (first :: rest ++ [b]).head? ≠ some b := by
      intro same
      cases same
      exact outside mem_cons_self
    rw [if_neg ahead]
    refine ⟨fun equal => (by cases equal), fun s' done => ?_⟩
    obtain rfl := Except.ok.inj done
    refine Eq.mpr (congrArg (Ordered · _) (sleeps s.started)) (ordered.locked enters holds ?_)
    rw [length_cons] at lengths
    rw [ordered.started, take_append_of_le_length (by omega)]
    rfl

theorem Moved.ordered (moved : Moved s s') (ordered : s.Ordered list) :
    ∃ rest, s'.Ordered rest := by
  cases moved with
  | entered idle outside unfinished => exact ⟨list, ordered.entered idle outside unfinished⟩
  | locked enters done => exact ⟨_, (ordered.lock enters).2 _ done⟩
  | resumed waits => exact ⟨list, ordered.waited waits⟩
  | stirred waits => exact ⟨list, ordered.rephase waits false⟩
  | interrupted due done => exact ordered.ideintr due done
  | touched outside => exact ⟨list, ordered.touched _ outside⟩

theorem ordered_run {buf : BufIx → Buf D} {havedisk1 : Bool} {next : BufIx → Option BufIx}
    {labels : List (Label P D)} (reached : run step (ideinit buf havedisk1 next) labels = some s) :
    ∃ rest, s.Ordered rest := by
  refine run_preserves (fun s : State P D => ∃ rest, s.Ordered rest) ?_
    ⟨[], ordered_ideinit buf havedisk1 next⟩ reached
  rintro s label s' ⟨list, ordered⟩ stepped
  exact (moved_of_step stepped).ordered ordered

/-- Whatever the processes and the disk do, the queue has no buffer twice and its head is the
one buffer whose command the disk has; the requests are completed in the order in which they
were queued, and each one is started once, as it was made; and `iderw` returns when its own
request is completed, with B_VALID and without B_DIRTY.  Its loop over the queue ends. -/
theorem run_serves_in_order {buf : BufIx → Buf D} {havedisk1 : Bool}
    {next : BufIx → Option BufIx} {labels : List (Label P D)}
    (reached : run step (ideinit buf havedisk1 next) labels = some s) :
    (∃ list, s.idequeue.Holds none list ∧ list.Nodup ∧
      s.queued.map Prod.fst = s.completed ++ list ∧ s.interrupts = s.completed.length ∧
      (s.started.drop s.interrupts).map Prod.fst = s.idequeue.head.toList ∧
      s.started = s.queued.take (s.completed.length + s.idequeue.head.toList.length)) ∧
    (∀ call ∈ s.returned, call.call < s.completed.length ∧ call.valid = true ∧
      call.dirty = false) ∧
    ∀ p b, s.phase p = .entering b → s.lock p b ≠ .error .endless := by
  obtain ⟨list, ordered⟩ := ordered_run reached
  have head : s.idequeue.head.toList = list.take 1 := by
    rw [ordered.holds.head_eq]
    cases list <;> rfl
  refine ⟨⟨list, ordered.holds, ordered.nodup, ordered.queued_eq, ordered.counted, ?_, ?_⟩,
    ordered.returned, fun p b enters => (ordered.lock enters).1⟩
  · rw [head, ordered.started, ordered.counted, drop_take, ordered.pending,
      Nat.add_sub_cancel_left, map_take, map_map]
    change (list.map id).take _ = _
    rw [map_id]
    cases list <;> rfl
  · rw [head]
    exact ordered.started

end

def twoReaders : List (Label Bool Nat) :=
  [.iderw true 4, .iderw false 7, .lock true, .lock false, .ideintr (some 40), .resume true,
    .ideintr (some 70), .resume false]

def emptyBuffers (b : BufIx) : Buf Nat := ⟨true, false, false, 0, .ofNat (b.val + 100), 0⟩

theorem run_serves_twoReaders :
    ∃ s : State Bool Nat,
      run step (ideinit emptyBuffers false fun _ => none) twoReaders = some s ∧
      (s.completed = [4, 7] ∧ s.returned.length = 2) ∧
      ∀ call ∈ s.returned, call.call < s.completed.length ∧ call.valid = true ∧
        call.dirty = false := by
  have reached : run step (ideinit emptyBuffers false fun _ => none) twoReaders = some _ := rfl
  exact ⟨_, reached, ⟨by decide, by decide⟩, (run_serves_in_order reached).2.1⟩

end State

end StraceXv6.Kernel.Ide
