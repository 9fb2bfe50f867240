import Mathlib.Data.List.Range
import Mathlib.Data.UInt
import StraceXv6.Data.Copies

namespace StraceXv6

open UInt32 List Function Data

abbrev AddressSpace : Type := UInt32 → UInt8

/-- The loop `while (n-- > 0) *d++ = *s++`. -/
def copyUp (memory : AddressSpace) (d s : UInt32) : Nat → AddressSpace
  | 0 => memory
  | n + 1 => copyUp (Function.update memory d (memory s)) (d + 1) (s + 1) n

/-- The loop `while (n-- > 0) *--d = *--s`. -/
def copyDown (memory : AddressSpace) (d s : UInt32) : Nat → AddressSpace
  | 0 => memory
  | n + 1 => copyDown (Function.update memory (d - 1) (memory (s - 1))) (d - 1) (s - 1) n

def Kernel.memmove (memory : AddressSpace) (dst src n : UInt32) : UInt32 × AddressSpace :=
  if src < dst ∧ src + n > dst then (dst, copyDown memory (dst + n) (src + n) n.toNat)
  else (dst, copyUp memory dst src n.toNat)

/-- The count is signed: a negative one copies nothing. -/
def User.memmove (memory : AddressSpace) (vdst vsrc : UInt32) (n : Int32) :
    UInt32 × AddressSpace :=
  (vdst, copyUp memory vdst vsrc n.toInt.toNat)

structure Moved (before after : AddressSpace) (dst src : UInt32) (n : Nat) : Prop where
  moved : ∀ i < n, after (dst + .ofNat i) = before (src + .ofNat i)
  frame : ∀ a : UInt32, a.toNat < dst.toNat ∨ dst.toNat + n ≤ a.toNat → after a = before a

/-- The bytes of the destination that are in the source as well repeat the source. -/
def Repeats (memory : AddressSpace) (dst src : UInt32) (n : Nat) : Prop :=
  ∀ i, dst.toNat + i < src.toNat + n → memory (dst + .ofNat i) = memory (src + .ofNat i)

section

variable {memory : AddressSpace} {d s : UInt32} {n i j : Nat}

theorem toNat_offset (inside : d.toNat + i < 2 ^ 32) :
    (d + .ofNat i : UInt32).toNat = d.toNat + i := by
  rw [UInt32.toNat_add, UInt32.toNat_ofNat']
  omega

theorem offset_succ (d : UInt32) (i : Nat) : d + .ofNat (i + 1) = d + 1 + .ofNat i := by
  rw [UInt32.ofNat_add, UInt32.add_comm (.ofNat i), UInt32.add_assoc]
  rfl

/-- The copies of the bytes with the given offsets, in that order. -/
def copyAll (memory : AddressSpace) (d s : UInt32) (order : List Nat) : AddressSpace :=
  copies memory (order.map fun i => (d + .ofNat i, s + .ofNat i))

theorem copyUp_eq (memory : AddressSpace) (d s : UInt32) (n : Nat) :
    copyUp memory d s n = copyAll memory d s (List.range n) := by
  induction n generalizing memory d s with
  | zero => rfl
  | succ n induction =>
    rw [copyUp, induction, copyAll, copyAll, range_succ_eq_map, map_cons, map_map,
      copies]
    simp only [comp_def, Nat.succ_eq_add_one, offset_succ]
    change _ = copies (update memory (d + 0) (memory (s + 0))) _
    rw [add_zero, add_zero]

theorem copyDown_eq (memory : AddressSpace) (d s : UInt32) (n : Nat) :
    copyDown memory (d + .ofNat n) (s + .ofNat n) n =
      copyAll memory d s (List.range n).reverse := by
  induction n generalizing memory with
  | zero => rfl
  | succ n induction =>
    have pred : ∀ p : UInt32, p + .ofNat (n + 1) - 1 = p + .ofNat n := by
      intro p
      rw [offset_succ, add_assoc, add_comm 1, ← add_assoc,
        UInt32.add_sub_cancel]
    rw [copyDown, pred, pred, induction, range_succ, reverse_append]
    rfl

variable {order : List Nat}

theorem copyAll_frame (bound : ∀ i ∈ order, i < n) (target : d.toNat + n ≤ 2 ^ 32) {a : UInt32}
    (outside : a.toNat < d.toNat ∨ d.toNat + n ≤ a.toNat) :
    copyAll memory d s order a = memory a := by
  apply copies_of_untouched
  intro pair member same
  obtain ⟨i, among, rfl⟩ := mem_map.mp member
  have below := bound i among
  have place := toNat_offset (d := d) (i := i) (by omega)
  rw [← same, place] at outside
  omega

theorem moved_copyAll (all : ∀ i, i ∈ order ↔ i < n) (source : s.toNat + n ≤ 2 ^ 32)
    (target : d.toNat + n ≤ 2 ^ 32)
    (safe : order.Pairwise fun i j => d.toNat + i ≠ s.toNat + j ∧ i ≠ j) :
    Moved memory (copyAll memory d s order) d s n := by
  have apart : order.Pairwise fun i j =>
      d + .ofNat i ≠ s + .ofNat j ∧ d + .ofNat i ≠ d + .ofNat j := by
    refine safe.imp_of_mem ?_
    intro i j first second distinct
    have fromTarget := toNat_offset (d := d) (i := i) (by have := (all i).mp first; omega)
    have inTarget := toNat_offset (d := d) (i := j) (by have := (all j).mp second; omega)
    have inSource := toNat_offset (d := s) (i := j) (by have := (all j).mp second; omega)
    rw [ne_eq, ne_eq, ← UInt32.toNat_inj, ← UInt32.toNat_inj, fromTarget, inTarget, inSource]
    omega
  refine ⟨?_, fun a => copyAll_frame (fun i => (all i).mp) target⟩
  intro i below
  exact copies_of_mem memory (pairwise_map.mpr apart)
    (mem_map_of_mem ((all i).mpr below))

end

/-- Going down the source is read before it is overwritten if it begins below. -/
theorem Kernel.memmove_moved (memory : AddressSpace) {dst src n : UInt32}
    (source : src.toNat + n.toNat ≤ 2 ^ 32) (target : dst.toNat + n.toNat ≤ 2 ^ 32) :
    Moved memory (Kernel.memmove memory dst src n).2 dst src n.toNat := by
  have members : ∀ i, i ∈ List.range n.toNat ↔ i < n.toNat := fun i => mem_range
  unfold Kernel.memmove
  split
  next inside =>
    have above := lt_iff_toNat_lt.mp inside.1
    change Moved memory (copyDown memory (dst + n) (src + n) n.toNat) dst src n.toNat
    have down := copyDown_eq memory dst src n.toNat
    rw [UInt32.ofNat_toNat] at down
    rw [down]
    refine moved_copyAll (fun i => mem_reverse.trans (members i)) source target ?_
    refine pairwise_reverse.mpr (pairwise_lt_range.imp ?_)
    intro i j ordered
    omega
  next outside =>
    change Moved memory (copyUp memory dst src n.toNat) dst src n.toNat
    rw [copyUp_eq]
    refine moved_copyAll members source target (pairwise_lt_range.imp_of_mem ?_)
    intro i j first second ordered
    have below := (members j).mp second
    -- the source ends below `2 ^ 32` unless the destination is not above it
    have apart : ¬(src.toNat < dst.toNat ∧ dst.toNat < src.toNat + n.toNat) := by
      intro inside
      apply outside
      rw [gt_iff_lt, UInt32.lt_iff_toNat_lt, UInt32.lt_iff_toNat_lt, UInt32.toNat_add]
      omega
    omega

section

variable {memory : AddressSpace} {d s : UInt32} {n i : Nat}

/-- Going up, a byte gets what the bytes before it have left at its source. -/
theorem copyUp_apply (target : d.toNat + n ≤ 2 ^ 32) (below : i < n) :
    copyUp memory d s n (d + .ofNat i) = copyUp memory d s i (s + .ofNat i) := by
  have order : List.range n = List.range i ++ i :: (List.range (n - i - 1)).map (i + 1 + ·) := by
    rw [show n = i + 1 + (n - i - 1) by omega, range_add, range_succ,
      show i + 1 + (n - i - 1) - i - 1 = n - i - 1 by omega, append_assoc]
    rfl
  rw [copyUp_eq, copyUp_eq, order, copyAll, map_append, map_cons]
  refine copies_split memory ?_
  intro pair member same
  obtain ⟨j, among, rfl⟩ := mem_map.mp member
  obtain ⟨k, later, rfl⟩ := mem_map.mp among
  have bound := mem_range.mp later
  have here := toNat_offset (d := d) (i := i) (by omega)
  have there := toNat_offset (d := d) (i := i + 1 + k) (by omega)
  rw [← UInt32.toNat_inj, here, there] at same
  omega

/-- If the destination begins inside the source, the bytes between the two beginnings
are repeated. -/
theorem copyUp_overlap (target : d.toNat + n ≤ 2 ^ 32) (above : s.toNat < d.toNat)
    (below : i < n) :
    copyUp memory d s n (d + .ofNat i) =
      if s.toNat + i < d.toNat then memory (s + .ofNat i)
      else copyUp memory d s n (d + .ofNat (s.toNat + i - d.toNat)) := by
  rw [copyUp_apply target below]
  have place := toNat_offset (d := s) (i := i) (by omega)
  split
  next early =>
    rw [copyUp_eq]
    refine copyAll_frame (n := i) (fun j => mem_range.mp) (by omega) (.inl ?_)
    rwa [place]
  next late =>
    have again : s + .ofNat i = d + .ofNat (s.toNat + i - d.toNat) := by
      rw [← UInt32.toNat_inj, place, toNat_offset (by omega)]
      omega
    rw [again, copyUp_apply (by omega) (by omega), copyUp_apply target (by omega)]

theorem moved_copyUp_iff (source : s.toNat + n ≤ 2 ^ 32) (target : d.toNat + n ≤ 2 ^ 32) :
    Moved memory (copyUp memory d s n) d s n ↔
      (s.toNat < d.toNat → d.toNat < s.toNat + n → Repeats memory d s n) := by
  constructor
  · intro moves above inside i overlap
    have later := moves.moved (d.toNat - s.toNat + i) (by omega)
    have earlier := moves.moved i (by omega)
    rw [copyUp_overlap target above (by omega), if_neg (by omega),
      show s.toNat + (d.toNat - s.toNat + i) - d.toNat = i by omega, earlier] at later
    have place : s + .ofNat (d.toNat - s.toNat + i) = d + .ofNat i := by
      rw [← UInt32.toNat_inj, toNat_offset (by omega), toNat_offset (by omega)]
      omega
    rw [← place, later]
  · intro repeats
    rw [copyUp_eq]
    by_cases overlap : s.toNat < d.toNat ∧ d.toNat < s.toNat + n
    · refine ⟨?_, fun a => copyAll_frame (fun i => mem_range.mp) target⟩
      rw [← copyUp_eq]
      intro i
      -- the byte that is read was itself copied from one period earlier
      induction i using Nat.strongRecOn with
      | ind i induction =>
        intro below
        rw [copyUp_overlap target overlap.1 below]
        split
        next => rfl
        next late =>
          have place : s + .ofNat i = d + .ofNat (s.toNat + i - d.toNat) := by
            rw [← UInt32.toNat_inj, toNat_offset (by omega), toNat_offset (by omega)]
            omega
          rw [induction _ (by omega) (by omega), place]
          exact (repeats overlap.1 overlap.2 _ (by omega)).symm
    · refine moved_copyAll (fun i => mem_range) source target
        (pairwise_lt_range.imp_of_mem ?_)
      intro i j first second ordered
      have bound := mem_range.mp second
      omega

end

/-- The kernel's `memmove` moves every range.  The user library's copies upwards only: a
destination that begins inside the source has to hold the repeated source already. -/
theorem memmove_moves (memory : AddressSpace) (dst src : UInt32) :
    (∀ n : UInt32, src.toNat + n.toNat ≤ 2 ^ 32 → dst.toNat + n.toNat ≤ 2 ^ 32 →
      Moved memory (Kernel.memmove memory dst src n).2 dst src n.toNat) ∧
    ∀ n : Int32, 0 ≤ n.toInt → src.toNat + n.toInt.toNat ≤ 2 ^ 32 →
      dst.toNat + n.toInt.toNat ≤ 2 ^ 32 →
      (Moved memory (User.memmove memory dst src n).2 dst src n.toInt.toNat ↔
        (src.toNat < dst.toNat → dst.toNat < src.toNat + n.toInt.toNat →
          Repeats memory dst src n.toInt.toNat)) := by
  constructor
  · intro n source target
    exact Kernel.memmove_moved memory source target
  · intro n _ source target
    exact moved_copyUp_iff source target

theorem memmove_moves_two :
    Moved UInt32.toUInt8 (Kernel.memmove UInt32.toUInt8 1 0 2).2 1 0 2 ∧
      Moved UInt32.toUInt8 (User.memmove UInt32.toUInt8 0 1 2).2 0 1 2 := by
  have down := (memmove_moves UInt32.toUInt8 0 1).2 2 (by decide) (by decide) (by decide)
  exact ⟨(memmove_moves UInt32.toUInt8 1 0).1 2 (by decide) (by decide),
    down.mpr fun above => absurd above (by decide)⟩

/-- Two bytes moved up by one: the first of them arrives twice. -/
theorem User.memmove_overlap :
    (User.memmove UInt32.toUInt8 1 0 2).2 2 = 0 ∧
      ¬Moved UInt32.toUInt8 (User.memmove UInt32.toUInt8 1 0 2).2 1 0 2 := by
  refine ⟨by decide, ?_⟩
  intro moves
  have second := moves.moved 1 (by decide)
  cases second

end StraceXv6
