import Mathlib.Data.Nat.Bitwise
import StraceXv6.Kernel.Memlayout

namespace StraceXv6.Kernel.Vm

/-! The x86 memory management unit: addresses and page table entries. -/

abbrev npdentries : Nat := 1024

abbrev nptentries : Nat := 1024

def pdx (va : UInt32) : Nat := ((va >>> 22) &&& 0x3FF).toNat

def ptx (va : UInt32) : Nat := ((va >>> 12) &&& 0x3FF).toNat

def pgroundup (sz : UInt32) : UInt32 := (sz + 4096 - 1) &&& ~~~(4096 - 1)

def pgrounddown (a : UInt32) : UInt32 := a &&& ~~~(4096 - 1)

abbrev pteP : UInt32 := 0x001

abbrev pteW : UInt32 := 0x002

abbrev pteU : UInt32 := 0x004

def pteAddr (pte : UInt32) : UInt32 := pte &&& ~~~0xFFF

def pteFlags (pte : UInt32) : UInt32 := pte &&& 0xFFF

def v2p (page : Nat) : UInt32 := UInt32.ofNat (pgsize * page)

def frame (pte : UInt32) : Nat := (pteAddr pte).toNat / pgsize

def present (pte : UInt32) : Prop := pte &&& pteP ≠ 0

instance : DecidablePred present := fun pte => inferInstanceAs (Decidable (pte &&& pteP ≠ 0))

abbrev userPages : Nat := 0x80000

def vpn (va : UInt32) : Nat := va.toNat / pgsize

def pages (sz : UInt32) : Nat := (sz.toNat + (pgsize - 1)) / pgsize

theorem and_mask {x k : Nat} (small : x < 2 ^ 32) (low : k ≤ 32) :
    x &&& (2 ^ 32 - 2 ^ k) = 2 ^ k * (x / 2 ^ k) := by
  apply Nat.eq_of_testBit_eq
  intro i
  have mask : (2 ^ 32 - 2 ^ k : Nat) = 2 ^ k * (2 ^ (32 - k) - 1) := by
    rw [Nat.mul_sub, ← Nat.pow_add, Nat.add_sub_cancel' low, Nat.mul_one]
  rw [Nat.testBit_and, mask, Nat.testBit_two_pow_mul, Nat.testBit_two_pow_mul,
    Nat.testBit_two_pow_sub_one, Nat.testBit_div_two_pow]
  by_cases above : k ≤ i
  · have same : i - k + k = i := Nat.sub_add_cancel above
    by_cases high : i - k < 32 - k
    · simp [above, high, same]
    · have zero : x.testBit i = false :=
        Nat.testBit_lt_two_pow (small.trans_le (Nat.pow_le_pow_right (by decide) (by omega)))
      simp [above, high, same, zero]
  · simp [above]

theorem toNat_pgrounddown (a : UInt32) : (pgrounddown a).toNat = pgsize * vpn a := by
  change (a &&& 0xFFFFF000).toNat = 2 ^ 12 * (a.toNat / 2 ^ 12)
  rw [UInt32.toNat_and]
  exact and_mask (k := 12) a.toNat_lt (by decide)

theorem toNat_pteAddr (pte : UInt32) : (pteAddr pte).toNat = pgsize * (pte.toNat / pgsize) :=
  toNat_pgrounddown pte

theorem toNat_pteFlags (pte : UInt32) : (pteFlags pte).toNat = pte.toNat % pgsize := by
  change (pte &&& 0xFFF).toNat = pte.toNat % 2 ^ 12
  rw [UInt32.toNat_and]
  exact Nat.and_two_pow_sub_one_eq_mod pte.toNat 12

theorem frame_eq (pte : UInt32) : frame pte = pte.toNat / pgsize := by
  rw [frame, toNat_pteAddr, Nat.mul_div_cancel_left _ (by decide)]

theorem pdx_eq (va : UInt32) : pdx va = vpn va / nptentries := by
  have bound := va.toNat_lt
  rw [pdx, UInt32.toNat_and, UInt32.toNat_shiftRight]
  change va.toNat >>> 22 &&& (2 ^ 10 - 1) = _
  rw [Nat.and_two_pow_sub_one_eq_mod, Nat.shiftRight_eq_div_pow, vpn]
  change va.toNat / 2 ^ 22 % 2 ^ 10 = va.toNat / 4096 / 1024
  omega

theorem ptx_eq (va : UInt32) : ptx va = vpn va % nptentries := by
  rw [ptx, UInt32.toNat_and, UInt32.toNat_shiftRight]
  change va.toNat >>> 12 &&& (2 ^ 10 - 1) = _
  rw [Nat.and_two_pow_sub_one_eq_mod, Nat.shiftRight_eq_div_pow, vpn]

theorem present_iff (pte : UInt32) : present pte ↔ pte.toNat % 2 = 1 := by
  have value : (pte &&& pteP).toNat = pte.toNat % 2 := by
    rw [UInt32.toNat_and]
    exact Nat.and_two_pow_sub_one_eq_mod pte.toNat 1
  rw [present, ne_eq, ← UInt32.toNat_inj, value]
  change ¬pte.toNat % 2 = 0 ↔ _
  omega

@[simp] theorem not_present_zero : ¬present 0 := by decide

variable {page : Nat} {flags : UInt32}

theorem toNat_v2p (small : page < 2 ^ 20) : (v2p page).toNat = pgsize * page := by
  rw [v2p, UInt32.toNat_ofNat', Nat.mod_eq_of_lt]
  change 4096 * page < 2 ^ 32
  omega

theorem or_pteP_lt (low : flags.toNat < pgsize) : (flags ||| pteP).toNat < pgsize := by
  rw [UInt32.toNat_or]
  exact Nat.or_lt_two_pow (n := 12) low (by decide)

theorem toNat_entry (small : page < 2 ^ 20) (low : flags.toNat < pgsize) :
    (v2p page ||| flags ||| pteP).toNat = pgsize * page + (flags ||| pteP).toNat := by
  rw [UInt32.or_assoc, UInt32.toNat_or, toNat_v2p small]
  exact (Nat.two_pow_add_eq_or_of_lt (i := 12) (or_pteP_lt low) page).symm

theorem present_entry (page : Nat) (flags : UInt32) : present (v2p page ||| flags ||| pteP) := by
  rw [present_iff, UInt32.toNat_or]
  change (_ ||| 1) % 2 = 1
  rw [Nat.or_mod_two_eq_one]
  exact .inr rfl

theorem frame_entry (small : page < 2 ^ 20) (low : flags.toNat < pgsize) :
    frame (v2p page ||| flags ||| pteP) = page := by
  have below := or_pteP_lt low
  rw [frame_eq, toNat_entry small low]
  change _ < 4096 at below
  change (4096 * page + _) / 4096 = page
  omega

theorem pteFlags_entry (small : page < 2 ^ 20) (low : flags.toNat < pgsize) :
    pteFlags (v2p page ||| flags ||| pteP) = flags ||| pteP := by
  have below := or_pteP_lt low
  rw [← UInt32.toNat_inj, toNat_pteFlags, toNat_entry small low]
  change _ < 4096 at below
  change (4096 * page + _) % 4096 = _
  omega

theorem pteFlags_or_pteP {pte : UInt32} (mapped : present pte) :
    pteFlags pte ||| pteP = pteFlags pte := by
  rw [present_iff] at mapped
  rw [← UInt32.toNat_inj, UInt32.toNat_or, toNat_pteFlags]
  apply Nat.eq_of_testBit_eq
  intro i
  change (pte.toNat % 4096 ||| 2 ^ 0).testBit i = _
  rw [Nat.testBit_or, Nat.testBit_two_pow]
  by_cases low : 0 = i
  · subst low
    have odd : pte.toNat % 4096 % 2 = 1 := by omega
    rw [Nat.testBit_zero, odd]
    rfl
  · simp [low]

end StraceXv6.Kernel.Vm
