import StraceXv6.Data.CString

namespace StraceXv6.Kernel

open Data

/-- The entries of `syscalls[]`; every number from 1 to 27 has one. -/
inductive Sys where
  | fork | exit | wait | pipe | read | kill | exec | fstat | chdir | dup
  | getpid | sbrk | sleep | uptime | open | write | mknod | unlink | link
  | mkdir | close | strace | dump | setCallFlag | getN | setOptions
  | getCallcount
  deriving DecidableEq, Repr

namespace Sys

def number : Sys → Int32
  | .fork => 1
  | .exit => 2
  | .wait => 3
  | .pipe => 4
  | .read => 5
  | .kill => 6
  | .exec => 7
  | .fstat => 8
  | .chdir => 9
  | .dup => 10
  | .getpid => 11
  | .sbrk => 12
  | .sleep => 13
  | .uptime => 14
  | .open => 15
  | .write => 16
  | .mknod => 17
  | .unlink => 18
  | .link => 19
  | .mkdir => 20
  | .close => 21
  | .strace => 22
  | .dump => 23
  | .setCallFlag => 24
  | .getN => 25
  | .setOptions => 26
  | .getCallcount => 27

def name : Sys → List UInt8
  | .fork => lit "fork"
  | .exit => lit "exit"
  | .wait => lit "wait"
  | .pipe => lit "pipe"
  | .read => lit "read"
  | .kill => lit "kill"
  | .exec => lit "exec"
  | .fstat => lit "fstat"
  | .chdir => lit "chdir"
  | .dup => lit "dup"
  | .getpid => lit "getpid"
  | .sbrk => lit "sbrk"
  | .sleep => lit "sleep"
  | .uptime => lit "uptime"
  | .open => lit "open"
  | .write => lit "write"
  | .mknod => lit "mknod"
  | .unlink => lit "unlink"
  | .link => lit "link"
  | .mkdir => lit "mkdir"
  | .close => lit "close"
  | .strace => lit "strace"
  | .dump => lit "dump"
  | .setCallFlag => lit "set_call_flag"
  | .getN => lit "getN"
  | .setOptions => lit "set_options"
  | .getCallcount => lit "get_callcount"

def all : List Sys :=
  [.fork, .exit, .wait, .pipe, .read, .kill, .exec, .fstat, .chdir, .dup,
    .getpid, .sbrk, .sleep, .uptime, .open, .write, .mknod, .unlink, .link,
    .mkdir, .close, .strace, .dump, .setCallFlag, .getN, .setOptions,
    .getCallcount]

/-- `syscalls[id]`, or nothing when `id` is not the number of a system call. -/
def ofNumber? (id : Int32) : Option Sys :=
  all.find? fun sys => sys.number = id

theorem ofNumber?_eq_some {id : Int32} {sys : Sys} :
    ofNumber? id = some sys ↔ sys.number = id := by
  constructor
  · intro found
    simpa using List.find?_some found
  · intro equal
    subst equal
    cases sys <;> decide

theorem number_injective : Function.Injective number := by
  intro left right equal
  have found : ofNumber? right.number = some left := ofNumber?_eq_some.mpr equal
  rw [ofNumber?_eq_some.mpr rfl] at found
  exact (Option.some.inj found).symm

theorem number_ne_zero (sys : Sys) : sys.number ≠ 0 := by
  cases sys <;> decide

theorem name_injective : Function.Injective name := by
  intro left right equal
  have found : ∀ sys : Sys, all.find? (fun other => other.name = sys.name) = some sys := by
    intro sys
    cases sys <;> decide
  have same := found right
  rw [← equal, found left] at same
  exact Option.some.inj same

theorem noNul_name (sys : Sys) : (0 : UInt8) ∉ sys.name := by
  cases sys <;> decide

theorem noNewline_name (sys : Sys) : '\n'.toUInt8 ∉ sys.name := by
  cases sys <;> decide

theorem length_name_le (sys : Sys) : sys.name.length ≤ 13 := by
  cases sys <;> decide

end Sys

end StraceXv6.Kernel
