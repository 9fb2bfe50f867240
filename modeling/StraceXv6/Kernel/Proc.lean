import StraceXv6.Data.CString

namespace StraceXv6.Kernel

/-- The contents of `name[16]`, which always keeps a terminating NUL. -/
structure ProcName where
  bytes : List UInt8
  noNul : (0 : UInt8) ∉ bytes
  short : bytes.length ≤ 15
  deriving DecidableEq

/-- The fields of `struct proc` that system calls and their tracing read; `eax`
is the saved user register `tf->eax`. -/
structure Proc where
  pid : Int32
  name : ProcName
  traced : Int32
  eax : UInt32
  deriving DecidableEq

def Proc.ls : Proc where
  pid := 3
  name := ⟨Data.lit "ls", by decide, by decide⟩
  traced := 1
  eax := 0

end StraceXv6.Kernel
