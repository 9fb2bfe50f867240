import Mathlib.Data.UInt

namespace StraceXv6.Kernel

/-! Fetching system call arguments from the memory of the calling process.  A
result `none` is the return value -1, which leaves the destination unassigned. -/

structure UserSpace where
  sz : UInt32
  esp : UInt32
  memory : UInt32 → UInt8

namespace UserSpace

def word (u : UserSpace) (addr : UInt32) : UInt32 :=
  (u.memory addr).toUInt32 ||| (u.memory (addr + 1)).toUInt32 <<< 8 |||
    (u.memory (addr + 2)).toUInt32 <<< 16 ||| (u.memory (addr + 3)).toUInt32 <<< 24

def fetchint (u : UserSpace) (addr : UInt32) : Option Int32 :=
  if addr ≥ u.sz ∨ addr + 4 > u.sz then none
  else some (u.word addr).toInt32

def argint (u : UserSpace) (n : UInt32) : Option Int32 :=
  u.fetchint (u.esp + 4 + 4 * n)

def argptr (u : UserSpace) (n : UInt32) (size : Int32) : Option UInt32 :=
  (u.argint n).bind fun i =>
    if i.toUInt32 ≥ u.sz ∨ i.toUInt32 + size.toUInt32 > u.sz then none
    else some i.toUInt32

/-- The loop of `fetchstr`, which finds the NUL; there are `ep - s` turns at most. -/
def nulFrom (u : UserSpace) : Nat → UInt32 → Option UInt32
  | 0, _ => none
  | turns + 1, s =>
    if s < u.sz then if u.memory s = 0 then some s else u.nulFrom turns (s + 1) else none

def fetchstr (u : UserSpace) (addr : UInt32) : Option Int32 :=
  if addr ≥ u.sz then none
  else (u.nulFrom (u.sz - addr).toNat addr).map fun s => (s - addr).toInt32

def argstr (u : UserSpace) (n : UInt32) : Option (UInt32 × Int32) :=
  (u.argint n).bind fun addr =>
    (u.fetchstr addr.toUInt32).map fun length => (addr.toUInt32, length)

end UserSpace

end StraceXv6.Kernel
