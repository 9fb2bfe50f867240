import StraceXv6.Kernel.Arguments
import StraceXv6.Kernel.Record

namespace StraceXv6.Kernel

open Option List Data

/-! Copying a slot of the ring into user memory.  The index is not checked, so
`sysbuf[index]` may lie outside the array or be null; `wild index` is the memory
found there. -/

def slotAt (k : TraceState) (index : Int32) : Option (List UInt8) :=
  if inside : 0 ≤ index.toInt ∧ index.toInt < N then
    k.slot ⟨index.toInt.toNat, by omega⟩
  else none

variable {index : Int32} {slot : Fin N} {k : TraceState} {input sz : UInt32}

theorem slotAt_of_eq (k : TraceState) (inside : index.toInt = slot.val) :
    slotAt k index = k.slot slot := by
  have bound := slot.isLt
  rw [slotAt, dif_pos ⟨by omega, by omega⟩]
  congr 1
  apply Fin.ext
  change index.toInt.toNat = slot.val
  omega

theorem slotAt_ofInt (k : TraceState) {slot : Nat} (bound : slot < N) :
    slotAt k (Int32.ofInt slot) = k.slot (Fin.ofNat N slot) := by
  apply slotAt_of_eq
  change slot < 10 at bound
  rw [Fin.val_ofNat, Nat.mod_eq_of_lt bound, Int32.toInt_ofInt]
  change Int.bmod slot 4294967296 = slot
  exact Int.bmod_eq_of_le (by omega) (by omega)

def sysbufText (k : TraceState) (wild : Int32 → List UInt8) (index : Int32) :
    List UInt8 :=
  (slotAt k index).getD (cstr (wild index))

theorem sysbufText_of_slot (wild : Int32 → List UInt8) {text : List UInt8}
    (position : index.toInt = slot.val) (holds : k.slot slot = some text) :
    sysbufText k wild index = text := by
  rw [sysbufText, slotAt_of_eq k position, holds]
  rfl

/-- The return value and the bytes stored, each with its address. -/
def dump (k : TraceState) (wild : Int32 → List UInt8) (input : UInt32)
    (index : Int32) : Int32 × List (UInt32 × UInt8) :=
  (0, (sysbufText k wild index ++ [0]).mapIdx fun i byte =>
    (input + UInt32.ofNat i, byte))

/-- `temp` and `inputIdx` are what the uninitialised locals hold. -/
def sysDump (k : TraceState) (wild : Int32 → List UInt8) (u : UserSpace)
    (temp : UInt32) (inputIdx : Int32) : Int32 × List (UInt32 × UInt8) :=
  dump k wild ((u.argptr 0 1).getD temp) ((u.argint 1).getD inputIdx)

/-- The call fails without a store, or copies a filled slot into the memory of
the process. -/
def DumpSafe (k : TraceState) (wild : Int32 → List UInt8) (u : UserSpace)
    (temp : UInt32) (inputIdx : Int32) : Prop :=
  sysDump k wild u temp inputIdx = (-1, []) ∨
    (∃ slot : Fin N, ((u.argint 1).getD inputIdx).toInt = slot.val ∧
      (k.slot slot).isSome) ∧
      ∀ store ∈ (sysDump k wild u temp inputIdx).2, store.1 < u.sz

/-- Both arguments can be fetched, the index names a filled slot, and its
message with the NUL ends below `sz`. -/
def DumpFits (k : TraceState) (u : UserSpace) : Prop :=
  ∃ addr index, ∃ slot : Fin N, ∃ text,
    u.argptr 0 1 = some addr ∧ u.argint 1 = some index ∧
      index.toInt = slot.val ∧ k.slot slot = some text ∧
      addr.toNat + text.length < u.sz.toNat

private theorem forall_below_iff {length : Nat} :
    (∀ i ≤ length, input + UInt32.ofNat i < sz) ↔
      input.toNat + length < sz.toNat := by
  have limit := sz.toNat_lt
  simp only [UInt32.lt_iff_toNat_lt, UInt32.toNat_add, UInt32.toNat_ofNat']
  constructor
  · intro below
    have start := below 0 (Nat.zero_le _)
    have bound := input.toNat_lt
    by_contra beyond
    -- the byte that would land on `sz` itself
    have last := below (sz.toNat - input.toNat) (by omega)
    omega
  · intro fits i bound
    omega

theorem dump_below_iff {wild : Int32 → List UInt8} :
    (∀ store ∈ (dump k wild input index).2, store.1 < sz) ↔
      input.toNat + (sysbufText k wild index).length < sz.toNat := by
  rw [← forall_below_iff]
  constructor
  · intro all i bound
    have inside : i < (sysbufText k wild index ++ [0]).length := by
      rw [length_append, length_singleton]
      omega
    exact all _ (mem_mapIdx.mpr ⟨i, inside, rfl⟩)
  · intro all store member
    obtain ⟨i, bound, equal⟩ := mem_mapIdx.mp member
    rw [length_append, length_singleton] at bound
    rw [← equal]
    exact all i (by omega)

private theorem sysDump_ne_failure (k : TraceState) (wild : Int32 → List UInt8)
    (u : UserSpace) (temp : UInt32) (inputIdx : Int32) :
    sysDump k wild u temp inputIdx ≠ (-1, []) := by
  intro failed
  have value : (0 : Int32) = -1 := congrArg Prod.fst failed
  contradiction

/-- `sys_dump` is safe whatever its uninitialised locals hold exactly when both
arguments are good and the whole message fits. -/
theorem dumpSafe_iff_fits (k : TraceState) (wild : Int32 → List UInt8)
    (u : UserSpace) :
    (∀ temp inputIdx, DumpSafe k wild u temp inputIdx) ↔ DumpFits k u := by
  constructor
  · intro safe
    rcases safe (-1) 10 with failed | ⟨⟨slot, position, filled⟩, below⟩
    · exact absurd failed (sysDump_ne_failure k wild u _ _)
    · rw [sysDump, dump_below_iff] at below
      have limit := u.sz.toNat_lt
      have bound : slot.val < 10 := slot.isLt
      cases fetchedIndex : u.argint 1 with
      | none =>
        rw [fetchedIndex] at position
        change (10 : Int) = slot.val at position
        omega
      | some index =>
        cases fetchedAddr : u.argptr 0 1 with
        | none =>
          rw [fetchedAddr] at below
          change 4294967295 + _ < _ at below
          omega
        | some addr =>
          rw [fetchedIndex, getD_some] at position below
          rw [fetchedAddr, getD_some] at below
          obtain ⟨text, holds⟩ := isSome_iff_exists.mp filled
          refine ⟨addr, index, slot, text, fetchedAddr, fetchedIndex,
            position, holds, ?_⟩
          rwa [sysbufText_of_slot wild position holds] at below
  · rintro ⟨addr, index, slot, text, fetchedAddr, fetchedIndex, position, holds, fits⟩
    intro temp inputIdx
    refine .inr ⟨⟨slot, ?_, ?_⟩, ?_⟩
    · rw [fetchedIndex]
      exact position
    · rw [holds]
      rfl
    · rw [sysDump, dump_below_iff, fetchedAddr, fetchedIndex, getD_some,
        getD_some, sysbufText_of_slot wild position holds]
      exact fits

def lastByte : UserSpace where
  sz := 4096
  esp := 4000
  memory := fun addr =>
    if addr = 4004 then 0xff else if addr = 4005 then 0x0f else 0

theorem sysDump_overruns_lastByte :
    ¬∀ temp inputIdx, DumpSafe (insertTrace .boot .ls .open) (fun _ => [])
      lastByte temp inputIdx := by
  intro safe
  rcases safe 0 0 with failed | ⟨_, below⟩
  · exact absurd failed (sysDump_ne_failure _ _ _ _ _)
  · have beyond := below (4096, 82) (mem_iff_getElem?.mpr ⟨1, by rfl⟩)
    exact absurd beyond (by decide)

end StraceXv6.Kernel
