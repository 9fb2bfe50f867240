import StraceXv6.Kernel.Dump

namespace StraceXv6.Kernel

/-! The added system calls that take arguments.  None of them looks at what
`argint` and `argptr` return, so an argument that cannot be fetched is whatever
the uninitialised local holds. -/

inductive AddedCall where
  | strace | dump | setCallFlag | setOptions
  deriving DecidableEq

/-- The locals of the four handlers, before anything is fetched into them. -/
structure Locals where
  input : Int32
  temp : UInt32
  inputIdx : Int32
  inputE : Int32
  inputF : Int32
  inputS : Int32
  inputO : Int32

structure Served where
  result : Int32
  traced : Int32
  options : Options
  stores : List (UInt32 × UInt8)

def sysStrace (u : UserSpace) (input : Int32) : Int32 × Int32 :=
  let input := (u.argint 0).getD input
  (0, if input &&& 1 ≠ 0 then input else 0)

def sysSetCallFlag (u : UserSpace) (options : Options) (input : Int32) :
    Int32 × Options :=
  let input := (u.argint 0).getD input
  (input, setCallFlag options input)

def sysSetOptions (u : UserSpace) (options : Options)
    (inputE inputF inputS inputO : Int32) : Int32 × Options :=
  let inputE := (u.argint 0).getD inputE
  let inputF := (u.argint 1).getD inputF
  let inputS := (u.argint 2).getD inputS
  let inputO := (u.argint 3).getD inputO
  (0, setOptions options inputE inputF inputS inputO)

namespace AddedCall

section

variable (k : TraceState) (wild : Int32 → List UInt8) (u : UserSpace) (traced : Int32)

def serve (locals : Locals) : AddedCall → Served
  | .strace =>
    let served := sysStrace u locals.input
    ⟨served.1, served.2, k.options, []⟩
  | .dump =>
    let served := sysDump k wild u locals.temp locals.inputIdx
    ⟨served.1, traced, k.options, served.2⟩
  | .setCallFlag =>
    let served := sysSetCallFlag u k.options locals.input
    ⟨served.1, traced, served.2, []⟩
  | .setOptions =>
    let served := sysSetOptions u k.options locals.inputE locals.inputF
      locals.inputS locals.inputO
    ⟨served.1, traced, served.2, []⟩

def Rejects (locals : Locals) (call : AddedCall) : Prop :=
  call.serve k wild u traced locals = ⟨-1, traced, k.options, []⟩

def Fetched : AddedCall → Prop
  | .strace | .setCallFlag => (u.argint 0).isSome
  | .dump => (u.argptr 0 1).isSome ∧ (u.argint 1).isSome
  | .setOptions =>
    (u.argint 0).isSome ∧ (u.argint 1).isSome ∧ (u.argint 2).isSome ∧
      (u.argint 3).isSome

end

variable {k : TraceState} {wild : Int32 → List UInt8} {u : UserSpace} {traced : Int32}

/-- `set_call_flag` returns the flag it was given, the other three return 0. -/
theorem not_rejects_of_not_fetched {call : AddedCall} (missing : ¬call.Fetched u) :
    ¬call.Rejects k wild u traced ⟨0, 0, 0, 0, 0, 0, 0⟩ := by
  intro rejects
  have failed : (call.serve k wild u traced ⟨0, 0, 0, 0, 0, 0, 0⟩).result = -1 :=
    congrArg Served.result rejects
  have nonzero : (0 : Int32) ≠ -1 := by decide
  cases call with
  | strace | dump | setOptions => exact nonzero failed
  | setCallFlag =>
    change ¬(u.argint 0).isSome at missing
    rw [Option.not_isSome_iff_eq_none] at missing
    change (u.argint 0).getD 0 = -1 at failed
    rw [missing] at failed
    exact nonzero failed

end AddedCall

/-- A missing argument is rejected without effect, whatever the locals hold, only
when there is no missing argument. -/
theorem added_calls_reject_iff_fetched (call : AddedCall) (k : TraceState)
    (wild : Int32 → List UInt8) (u : UserSpace) (traced : Int32) :
    (¬call.Fetched u → ∀ locals, call.Rejects k wild u traced locals) ↔
      call.Fetched u := by
  constructor
  · intro rejects
    by_contra missing
    exact AddedCall.not_rejects_of_not_fetched missing (rejects missing _)
  · intro fetched missing
    exact absurd fetched missing

def emptyStack : UserSpace where
  sz := 4096
  esp := 4096
  memory := fun _ => 0

theorem strace_leaks_local :
    ¬AddedCall.strace.Fetched emptyStack ∧
      AddedCall.strace.serve .boot (fun _ => []) emptyStack 0 ⟨3, 0, 0, 0, 0, 0, 0⟩ =
        ⟨0, 3, .zero, []⟩ := by
  refine ⟨?_, ?_⟩
  · change ¬(emptyStack.argint 0).isSome = true
    decide
  · rfl

end StraceXv6.Kernel
