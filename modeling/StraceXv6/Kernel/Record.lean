import StraceXv6.Data.Ring
import StraceXv6.Kernel.Console
import StraceXv6.Kernel.Proc
import StraceXv6.Kernel.Strace
import StraceXv6.Kernel.SyscallTable
import Mathlib.Data.Fintype.Basic
import Mathlib.Tactic.FinCases

namespace StraceXv6.Kernel

open List Function Data

/-! Recording a traced system call into the ring of the last `N` messages. -/

abbrev N : Nat := 10

inductive TraceArray where
  | trace1 | trace2 | trace3 | trace4 | trace5 | trace6 | trace7 | trace8
  | trace9 | trace10
  deriving DecidableEq

def clearedTrace : List UInt8 := List.replicate 1000 0

structure Options where
  flagE : Int32
  flagF : Int32
  flagS : Int32
  flagO : Int32
  syscallFlag : Int32
  deriving DecidableEq

def Options.zero : Options := ⟨0, 0, 0, 0, 0⟩

def setOptions (options : Options) (inputE inputF inputS inputO : Int32) :
    Options :=
  { options with
    flagE := inputE, flagF := inputF, flagS := inputS, flagO := inputO }

def setCallFlag (options : Options) (input : Int32) : Options :=
  { options with syscallFlag := input }

structure TraceState where
  options : Options
  callcount : Int32
  trace : TraceArray → List UInt8
  sysbuf : Fin N → Option TraceArray
  console : List UInt8

namespace TraceState

def boot : TraceState where
  options := .zero
  callcount := 0
  trace := fun _ => clearedTrace
  sysbuf := fun _ => none
  console := []

def slot (k : TraceState) (index : Fin N) : Option (List UInt8) :=
  (k.sysbuf index).map fun array => cstr (k.trace array)

/-- One case of `store_trace`: clear the array, copy the message up to its NUL
and point the slot at the array. -/
def copyTo (k : TraceState) (array : TraceArray) (index : Fin N)
    (traceMessage : List UInt8) : TraceState :=
  { k with
    trace := Function.update k.trace array
      (overlay (cstr traceMessage) clearedTrace)
    sysbuf := Function.update k.sysbuf index (some array) }

end TraceState

def writeTrace (destination : List UInt8) (pidInput : Int32)
    (pnameInput sysnameInput : List UInt8) (returnvalueInput : Int32) :
    List UInt8 :=
  let destination := strcat destination (lit "TRACE: pid = ")
  let destination := strcat destination (itoa pidInput 10)
  let destination := strcat destination (lit " | command_name = ")
  let destination := strcat destination pnameInput
  let destination := strcat destination (lit " | syscall = ")
  let destination := strcat destination sysnameInput
  let destination := strcat destination (lit " | return value: ")
  strcat destination (itoa returnvalueInput 10)

def storeTrace (k : TraceState) (traceMessage : List UInt8)
    (callcount : Int32) : TraceState :=
  match callcount.toInt with
  | 0 => k.copyTo .trace1 0 traceMessage
  | 1 => k.copyTo .trace2 1 traceMessage
  | 2 => k.copyTo .trace3 2 traceMessage
  | 3 => k.copyTo .trace4 3 traceMessage
  | 4 => k.copyTo .trace5 4 traceMessage
  | 5 => k.copyTo .trace6 5 traceMessage
  | 6 => k.copyTo .trace7 6 traceMessage
  | 7 => k.copyTo .trace8 7 traceMessage
  | 8 => k.copyTo .trace9 8 traceMessage
  | 9 => k.copyTo .trace10 9 traceMessage
  | _ => k

def traceFormat : List UInt8 :=
  lit "\x1b[1;92mTRACE: pid = %d | command_name = %s | syscall = %s | return value: %d\n\x1b[0m\n"

def tempTrace (target : Proc) (syscallId : Sys) : List UInt8 :=
  writeTrace clearedTrace target.pid target.name.bytes
    syscallId.name target.eax.toInt32

def message (target : Proc) (syscallId : Sys) : List UInt8 :=
  cstr (tempTrace target syscallId)

namespace TraceState

def print (k : TraceState) (target : Proc) (syscallId : Sys) : TraceState :=
  { k with
    console := k.console ++ cprintf traceFormat
      [.int target.pid, .str (some target.name.bytes),
        .str (some syscallId.name), .int target.eax.toInt32] }

def wrap (k : TraceState) : TraceState :=
  { k with callcount := if k.callcount % 10 = 0 then 0 else k.callcount }

def increment (k : TraceState) : TraceState :=
  { k with callcount := k.callcount + 1 }

end TraceState

/-- The print-and-store sequence that every accepting branch of
`record_syscall` repeats. -/
def insertTrace (k : TraceState) (target : Proc) (syscallId : Sys) :
    TraceState :=
  let k := (k.print target syscallId).wrap
  (storeTrace k (tempTrace target syscallId) k.callcount).increment

def recordSyscall (k : TraceState) (target : Proc) (syscallId : Sys) :
    TraceState :=
  if k.options.flagF ≠ 0 ∨ k.options.flagE ≠ 0 ∨ k.options.flagS ≠ 0 then
    if k.options.flagS ≠ 0 then
      if target.eax ≠ -1 then
        if k.options.flagE ≠ 0 then
          if k.options.syscallFlag = syscallId.number then
            insertTrace k target syscallId
          else k
        else insertTrace k target syscallId
      else k
    else if k.options.flagF ≠ 0 then
      if target.eax = -1 then
        if k.options.flagE ≠ 0 then
          if k.options.syscallFlag = syscallId.number then
            insertTrace k target syscallId
          else k
        else insertTrace k target syscallId
      else k
    else if k.options.flagE ≠ 0 ∧ k.options.flagF = 0 then
      if k.options.syscallFlag = syscallId.number then
        insertTrace k target syscallId
      else k
    else k
  else insertTrace k target syscallId

/-- The options select by outcome first and by system call second. -/
def Accepts (options : Options) (ret : UInt32) (syscallId : Sys) : Prop :=
  ((options.flagS ≠ 0 ∧ ret ≠ -1) ∨
    (options.flagS = 0 ∧ options.flagF ≠ 0 ∧ ret = -1) ∨
    (options.flagS = 0 ∧ options.flagF = 0)) ∧
  (options.flagE = 0 ∨ syscallId.number = options.syscallFlag)

instance (options : Options) (ret : UInt32) (syscallId : Sys) :
    Decidable (Accepts options ret syscallId) :=
  inferInstanceAs (Decidable (_ ∧ _))

theorem recordSyscall_eq (k : TraceState) (target : Proc) (syscallId : Sys) :
    recordSyscall k target syscallId =
      if Accepts k.options target.eax syscallId then
        insertTrace k target syscallId
      else k := by
  simp only [recordSyscall, Accepts, eq_comm (a := syscallId.number)]
  by_cases successOnly : k.options.flagS = 0 <;>
    by_cases failureOnly : k.options.flagF = 0 <;>
    by_cases byCall : k.options.flagE = 0 <;>
    by_cases failed : target.eax = -1 <;>
    simp [successOnly, failureOnly, byCall, failed]

theorem message_eq (target : Proc) (syscallId : Sys) :
    message target syscallId =
      lit "TRACE: pid = " ++ itoa target.pid 10 ++
        lit " | command_name = " ++ target.name.bytes ++
        lit " | syscall = " ++ syscallId.name ++
        lit " | return value: " ++ itoa target.eax.toInt32 10 := by
  simp only [message, tempTrace, writeTrace, clearedTrace,
    cstr_strcat, cstr_replicate_nul, nil_append, cstr_eq_self (noNul_itoa_ten _),
    cstr_eq_self target.name.noNul, cstr_eq_self syscallId.noNul_name]
  rfl

theorem length_message_le (target : Proc) (syscallId : Sys) :
    (message target syscallId).length ≤ 200 := by
  have pid := length_itoa_le target.pid 10
  have name := target.name.short
  have sysname := syscallId.length_name_le
  have ret := length_itoa_le target.eax.toInt32 10
  rw [message_eq]
  simp only [length_append]
  have constants : (lit "TRACE: pid = ").length = 13 ∧
      (lit " | command_name = ").length = 18 ∧
      (lit " | syscall = ").length = 13 ∧
      (lit " | return value: ").length = 17 := by decide
  omega

theorem length_message_lt (target : Proc) (syscallId : Sys) :
    (message target syscallId).length < 1000 := by
  have bound := length_message_le target syscallId
  omega

def TraceArray.own (index : Fin N) : TraceArray :=
  match index with
  | 0 => .trace1
  | 1 => .trace2
  | 2 => .trace3
  | 3 => .trace4
  | 4 => .trace5
  | 5 => .trace6
  | 6 => .trace7
  | 7 => .trace8
  | 8 => .trace9
  | 9 => .trace10

theorem TraceArray.own_injective : Function.Injective TraceArray.own := by
  decide

namespace TraceState

def Owned (k : TraceState) : Prop :=
  ∀ index array, k.sysbuf index = some array → array = .own index

theorem owned_boot : boot.Owned := by
  intro index array points
  contradiction

variable {k : TraceState}

theorem Owned.copyTo (owned : k.Owned) (index : Fin N) (traceMessage : List UInt8) :
    (k.copyTo (.own index) index traceMessage).Owned := by
  intro other array points
  simp only [TraceState.copyTo, update_apply] at points
  split at points
  next same =>
    subst same
    exact (Option.some.inj points).symm
  next => exact owned other array points

theorem Owned.slot_copyTo (owned : k.Owned) (index : Fin N) (traceMessage : List UInt8) :
    (k.copyTo (.own index) index traceMessage).slot =
      update k.slot index (some (cstr traceMessage)) := by
  funext other
  by_cases same : other = index
  · subst same
    simp only [slot, TraceState.copyTo, update_self, Option.map_some,
      clearedTrace, cstr_overlay_replicate (noNul_cstr traceMessage)]
  · rw [update_of_ne same]
    simp only [slot, TraceState.copyTo, update_of_ne same]
    cases points : k.sysbuf other with
    | none => rfl
    | some array =>
      have different : array ≠ .own index := by
        rw [owned other array points]
        exact fun equal => same (TraceArray.own_injective equal)
      simp only [Option.map_some, update_of_ne different]

end TraceState

variable {callcount : Int32} {events : List (Proc × Sys)} {k : TraceState}

theorem storeTrace_eq_copyTo (k : TraceState) (traceMessage : List UInt8) (index : Fin N)
    (inside : callcount.toInt = index.val) :
    storeTrace k traceMessage callcount =
      k.copyTo (.own index) index traceMessage := by
  simp only [storeTrace, inside]
  fin_cases index <;> rfl

theorem storeTrace_eq_self (k : TraceState) (traceMessage : List UInt8)
    (outside : ¬(0 ≤ callcount.toInt ∧ callcount.toInt < N)) :
    storeTrace k traceMessage callcount = k := by
  rw [show ((N : Nat) : Int) = 10 from rfl] at outside
  unfold storeTrace
  split <;> first | rfl | omega

@[simp] theorem storeTrace_callcount (k : TraceState)
    (traceMessage : List UInt8) (callcount : Int32) :
    (storeTrace k traceMessage callcount).callcount = k.callcount := by
  unfold storeTrace
  split <;> rfl

@[simp] theorem storeTrace_options (k : TraceState)
    (traceMessage : List UInt8) (callcount : Int32) :
    (storeTrace k traceMessage callcount).options = k.options := by
  unfold storeTrace
  split <;> rfl

/-- The ring holds the messages of the recorded events, and the cursor stands
after the newest one. -/
structure Records (k : TraceState) (events : List (Proc × Sys)) : Prop where
  owned : k.Owned
  holds : RingHolds (events.map fun event => message event.1 event.2) k.slot
  position : k.callcount.toInt = cursor N events.length

theorem records_boot : Records .boot [] where
  owned := TraceState.owned_boot
  holds := ringHolds_nil
  position := rfl

theorem toInt_succ {c : Int32} (below : c.toInt < 2 ^ 31 - 1) :
    (c + 1).toInt = c.toInt + 1 := by
  have lower := c.le_toInt
  rw [Int32.toInt_add, Int32.toInt_one]
  exact Int.bmod_eq_of_le (by omega) (by omega)

private theorem Records.wrapped (records : Records k events) :
    (if k.callcount % 10 = 0 then (0 : Int32) else k.callcount).toInt =
      (events.length % N : Nat) := by
  have reset := cursor_reset N events.length
  have remainder : (k.callcount % 10).toInt = (cursor N events.length % N : Nat) := by
    rw [Int32.toInt_mod, records.position]
    exact (Int.ofNat_tmod _ _).symm
  rw [← reset]
  by_cases wraps : k.callcount % 10 = 0
  · rw [if_pos wraps, if_pos]
    · rfl
    · rw [wraps] at remainder
      exact Int.ofNat.inj (remainder.symm.trans Int32.toInt_zero)
  · rw [if_neg wraps, if_neg]
    · exact records.position
    · intro zero
      rw [zero] at remainder
      exact wraps (Int32.toInt_inj.mp remainder)

theorem Records.insertTrace (records : Records k events) (target : Proc) (syscallId : Sys) :
    Records (insertTrace k target syscallId)
      (events ++ [(target, syscallId)]) := by
  let wrapped := (k.print target syscallId).wrap
  let index : Fin N := Fin.ofNat N events.length
  have position : wrapped.callcount.toInt = index.val := records.wrapped
  have owned : wrapped.Owned := records.owned
  have stored : storeTrace wrapped (tempTrace target syscallId) wrapped.callcount =
      wrapped.copyTo (.own index) index (tempTrace target syscallId) :=
    storeTrace_eq_copyTo wrapped _ index position
  change Records
    (storeTrace wrapped (tempTrace target syscallId) wrapped.callcount).increment _
  rw [stored]
  constructor
  · exact owned.copyTo index (tempTrace target syscallId)
  · have pushed := records.holds.push (message target syscallId)
    rw [length_map] at pushed
    rw [map_append]
    change RingHolds _
      (wrapped.copyTo (.own index) index (tempTrace target syscallId)).slot
    rw [owned.slot_copyTo]
    exact pushed
  · have inside : index.val < 10 := index.isLt
    rw [length_append, length_singleton, cursor_succ]
    change (wrapped.callcount + 1).toInt = _
    rw [toInt_succ (by omega), position]
    rfl

theorem Records.recordSyscall (records : Records k events) (target : Proc) (syscallId : Sys) :
    Records (recordSyscall k target syscallId)
      (if Accepts k.options target.eax syscallId then
        events ++ [(target, syscallId)] else events) := by
  rw [recordSyscall_eq]
  split
  · exact records.insertTrace target syscallId
  · exact records

inductive Call where
  | record (target : Proc) (syscallId : Sys)
  | setOptions (inputE inputF inputS inputO : Int32)
  | setCallFlag (input : Int32)

def Call.perform (k : TraceState) : Call → TraceState
  | .record target syscallId => recordSyscall k target syscallId
  | .setOptions inputE inputF inputS inputO =>
    { k with options := Kernel.setOptions k.options inputE inputF inputS inputO }
  | .setCallFlag input =>
    { k with options := Kernel.setCallFlag k.options input }

/-- The events that the filter in force at each of them accepts. -/
def acceptedFrom (options : Options) : List Call → List (Proc × Sys)
  | [] => []
  | .record target syscallId :: rest =>
    if Accepts options target.eax syscallId then
      (target, syscallId) :: acceptedFrom options rest
    else acceptedFrom options rest
  | .setOptions inputE inputF inputS inputO :: rest =>
    acceptedFrom (setOptions options inputE inputF inputS inputO) rest
  | .setCallFlag input :: rest => acceptedFrom (setCallFlag options input) rest

theorem recordSyscall_options (k : TraceState) (target : Proc)
    (syscallId : Sys) :
    (recordSyscall k target syscallId).options = k.options := by
  rw [recordSyscall_eq]
  split
  · exact storeTrace_options _ _ _
  · rfl

theorem Records.perform (records : Records k events) (calls : List Call) :
    Records (calls.foldl Call.perform k)
      (events ++ acceptedFrom k.options calls) := by
  induction calls generalizing k events with
  | nil => simpa [acceptedFrom] using records
  | cons call rest induction =>
    cases call with
    | record target syscallId =>
      have next := induction (records.recordSyscall target syscallId)
      rw [recordSyscall_options] at next
      change Records (rest.foldl Call.perform (Kernel.recordSyscall k target syscallId)) _
      rw [acceptedFrom]
      split at next
      next accepts =>
        rwa [if_pos accepts, ← singleton_append, ← append_assoc]
      next rejects => rwa [if_neg rejects]
    | setOptions inputE inputF inputS inputO =>
      exact induction (k := Call.perform k (.setOptions inputE inputF inputS inputO))
        ⟨records.owned, records.holds, records.position⟩
    | setCallFlag input =>
      exact induction (k := Call.perform k (.setCallFlag input))
        ⟨records.owned, records.holds, records.position⟩

/-- The text was written to the slot the cursor has just passed. -/
def Stored (before after : TraceState) (text : List UInt8) : Prop :=
  before.callcount ≠ after.callcount ∧
    ∃ index : Fin N,
      after.callcount.toInt = index.val + 1 ∧ after.slot index = some text

private theorem cursor_ne_succ (count : Nat) :
    cursor N count ≠ count % N + 1 := by
  have reset := cursor_reset N count
  intro equal
  rw [equal] at reset
  unfold N at reset
  split at reset <;> omega

private theorem Records.stored_insertTrace (records : Records k events) (target : Proc)
    (syscallId : Sys) :
    Stored k (Kernel.insertTrace k target syscallId)
      (message target syscallId) := by
  have next := records.insertTrace target syscallId
  have moved := next.position
  rw [length_append, length_singleton, cursor_succ] at moved
  constructor
  · intro equal
    rw [← equal, records.position] at moved
    exact cursor_ne_succ events.length (Int.ofNat.inj moved)
  · refine ⟨Fin.ofNat N events.length, moved, ?_⟩
    rw [next.holds.recent events.length (by simp) (by simp)]
    simp

private theorem exists_recent_of_lt {count index : Nat} (below : index < count)
    (inside : index < N) : ∃ j, j < count ∧ count ≤ j + N ∧ j % N = index := by
  refine ⟨index + N * ((count - 1 - index) / N), ?_, ?_, ?_⟩
  · have quotient := Nat.mul_div_le (count - 1 - index) N
    omega
  · have remainder := Nat.lt_mul_div_succ (count - 1 - index) (show 0 < N by decide)
    rw [Nat.mul_succ] at remainder
    omega
  · rw [Nat.add_mul_mod_self_left, Nat.mod_eq_of_lt inside]

/-- Over every sequence of recordings and option changes from boot, exactly the
accepted events are stored, and the ring is the tail of their list. -/
theorem recordSyscall_run_refines (calls : List Call) :
    let k := calls.foldl Call.perform .boot
    let events := acceptedFrom .zero calls
    (∀ earlier target syscallId later,
      calls = earlier ++ .record target syscallId :: later →
      let before := earlier.foldl Call.perform .boot
      let after := recordSyscall before target syscallId
      (Stored before after (message target syscallId) ↔
        Accepts before.options target.eax syscallId) ∧
      (¬Accepts before.options target.eax syscallId → after = before)) ∧
    (∀ j (bound : j < events.length), events.length ≤ j + N →
      k.slot (Fin.ofNat N j) =
        some (message (events.get ⟨j, bound⟩).1 (events.get ⟨j, bound⟩).2)) ∧
    (∀ index : Fin N,
      (∀ j, j < events.length → events.length ≤ j + N → j % N ≠ index.val) →
        k.slot index = none) ∧
    k.callcount.toInt =
      if events.length = 0 then 0 else ((events.length - 1) % N : Nat) + 1 := by
  intro k events
  have records : Records k events := records_boot.perform calls
  refine ⟨?_, ?_, ?_, ?_⟩
  · intro earlier target syscallId later split before after
    have reached : Records before ([] ++ acceptedFrom .zero earlier) :=
      records_boot.perform earlier
    by_cases accepts : Accepts before.options target.eax syscallId
    · have inserted : after = insertTrace before target syscallId := by
        rw [show after = recordSyscall before target syscallId from rfl,
          recordSyscall_eq, if_pos accepts]
      rw [inserted]
      exact ⟨iff_of_true (reached.stored_insertTrace target syscallId) accepts,
        fun rejects => absurd accepts rejects⟩
    · have unchanged : after = before := by
        rw [show after = recordSyscall before target syscallId from rfl,
          recordSyscall_eq, if_neg accepts]
      rw [unchanged]
      exact ⟨iff_of_false (fun stored => stored.1 rfl) accepts, fun _ => rfl⟩
  · intro j bound recent
    rw [records.holds.recent j (by simpa using bound) (by simpa using recent)]
    simp
  · intro index missed
    apply records.holds.vacant
    rw [length_map]
    by_contra filled
    obtain ⟨j, below, recent, residue⟩ :=
      exists_recent_of_lt (show index.val < events.length by omega) index.isLt
    exact missed j below recent residue
  · rw [records.position, cursor]

end StraceXv6.Kernel
