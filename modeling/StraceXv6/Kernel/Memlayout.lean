import Mathlib.Data.UInt

namespace StraceXv6.Kernel

abbrev extmem : UInt32 := 0x100000

abbrev phystop : UInt32 := 0xE000000

abbrev devspace : UInt32 := 0xFE000000

abbrev kernbase : UInt32 := 0x80000000

abbrev kernlink : UInt32 := kernbase + extmem

abbrev pgsize : Nat := 4096

end StraceXv6.Kernel
