import Mathlib.Data.UInt
import StraceXv6.Data.CString

namespace StraceXv6.Kernel.Mp

open List Data

/-! `mpinit` on the configuration table that `mpsearch` has found.  The table is the bytes from
`conf` on, and an address is an offset into it. -/

def ncpuMax : Nat := 8

def mpproc : UInt8 := 0
def mpbus : UInt8 := 1
def mpioapic : UInt8 := 2
def mpiointr : UInt8 := 3
def mplintr : UInt8 := 4

def mpboot : UInt8 := 2

def headerSize : Nat := 44

variable (conf : Nat → UInt8)

def confLength : Nat := (conf 4).toNat + 256 * (conf 5).toNat

def sum (len : Nat) : UInt8 := ((List.range len).map conf).sum

/-- The tests of `mpconfig`: the signature, the version and the checksum. -/
def mpconfig : Bool :=
  (List.range 4).map conf = lit "PCMP" ∧ (conf 6 = 1 ∨ conf 6 = 4) ∧ sum conf (confLength conf) = 0

/-- `cpus` are the elements that have been written, each with its `id`. -/
structure State where
  p : Nat := headerSize
  ismp : Bool := true
  ncpu : Nat := 0
  bcpu : Nat := 0
  ioapicid : UInt8 := 0
  cpus : List (Nat × UInt8) := []

def turn (s : State) : State :=
  let type := conf s.p
  if type = mpproc then
    { s with
      p := s.p + 20
      ismp := s.ismp && s.ncpu = (conf (s.p + 1)).toNat
      bcpu := if conf (s.p + 3) &&& mpboot ≠ 0 then s.ncpu else s.bcpu
      cpus := s.cpus ++ [(s.ncpu, UInt8.ofNat s.ncpu)]
      ncpu := s.ncpu + 1 }
  else if type = mpioapic then { s with p := s.p + 8, ioapicid := conf (s.p + 1) }
  else if type = mpbus ∨ type = mpiointr ∨ type = mplintr then { s with p := s.p + 8 }
  else { s with ismp := false }

def loop : Nat → State → State
  | 0, s => s
  | fuel + 1, s => if s.p < confLength conf then loop fuel (turn conf s) else s

def conclude (s : State) : State := if s.ismp then s else { s with ncpu := 1, ioapicid := 0 }

/-- What `mpinit` leaves when the loop ends within so many turns. -/
def mpinit (fuel : Nat) : Option State :=
  if mpconfig conf then
    let s := loop conf fuel {}
    if s.p < confLength conf then none else some (conclude s)
  else some { ismp := false }

def written (fuel : Nat) : List Nat :=
  if mpconfig conf then (loop conf fuel {}).cpus.map Prod.fst else []

def entrySize (type : UInt8) : Nat := if type = mpproc then 20 else 8

/-- The table holds entries of these known types from the offset to its end. -/
inductive Entries : Nat → List UInt8 → Prop where
  | done {p : Nat} (ended : confLength conf ≤ p) : Entries p []
  | entry {p : Nat} {types : List UInt8} (inside : p < confLength conf) (known : conf p ≤ mplintr)
      (rest : Entries (p + entrySize (conf p)) types) : Entries p (conf p :: types)

variable {conf}

theorem p_turn (s : State) : (turn conf s).p =
    if conf s.p ≤ mplintr then s.p + entrySize (conf s.p) else s.p := by
  simp only [turn, entrySize]
  generalize conf s.p = type
  by_cases proc : type = mpproc
  · simp only [proc, if_true]
    rfl
  · have cases : type = mpioapic ∨ (type = mpbus ∨ type = mpiointr ∨ type = mplintr) ↔
        type ≤ mplintr := by
      revert proc
      simp only [← UInt8.toNat_inj, UInt8.le_iff_toNat_le, mpproc, mpioapic, mpbus, mpiointr,
        mplintr, UInt8.reduceToNat]
      omega
    rw [if_neg proc, if_neg proc]
    grind

theorem count_mpproc {type : UInt8} (other : type ≠ mpproc) : [type].count mpproc = 0 :=
  count_eq_zero_of_not_mem fun member => other (mem_singleton.mp member).symm

theorem ncpu_turn (s : State) : (turn conf s).ncpu = s.ncpu + [conf s.p].count mpproc := by
  rw [turn]
  split
  · next proc => rw [proc]; rfl
  · next other =>
    rw [count_mpproc other]
    split
    · rfl
    · split <;> rfl

def Indexed (s : State) : Prop := ∀ i, i ∈ s.cpus.map Prod.fst ↔ i < s.ncpu

variable {s : State}

theorem Indexed.turn (indexed : Indexed s) : Indexed (turn conf s) := by
  intro i
  have here := indexed i
  rw [Mp.turn]
  split
  · simp only [map_append, mem_append, here, map_singleton, mem_singleton]
    omega
  · split
    · exact here
    · split <;> exact here

theorem Indexed.loop (indexed : Indexed s) (fuel : Nat) : Indexed (loop conf fuel s) := by
  induction fuel generalizing s with
  | zero => exact indexed
  | succ fuel induction =>
    rw [Mp.loop]
    split
    · exact induction indexed.turn
    · exact indexed

theorem exists_entries_of_loop {fuel : Nat} (ended : confLength conf ≤ (loop conf fuel s).p) :
    ∃ types, Entries conf s.p types ∧ (loop conf fuel s).ncpu = s.ncpu + types.count mpproc := by
  induction fuel generalizing s with
  | zero => exact ⟨[], .done ended, rfl⟩
  | succ fuel induction =>
    rw [loop] at ended ⊢
    split at ended
    · next inside =>
      obtain ⟨types, entries, counted⟩ := induction ended
      rw [if_pos inside, counted, ncpu_turn]
      rw [p_turn] at entries
      split at entries
      · next known =>
        refine ⟨conf s.p :: types, .entry inside known entries, ?_⟩
        rw [Nat.add_assoc, ← count_append, singleton_append]
      · next unknown =>
        have other : conf s.p ≠ mpproc := fun proc => unknown (proc ▸ by decide)
        exact ⟨types, entries, by rw [count_mpproc other]; rfl⟩
    · next outside =>
      rw [if_neg outside]
      exact ⟨[], .done ended, rfl⟩

theorem Entries.loop {types : List UInt8} (entries : Entries conf s.p types) (fuel : Nat) :
    (Mp.loop conf fuel s).ncpu ≤ s.ncpu + types.count mpproc ∧
      (types.length ≤ fuel → confLength conf ≤ (Mp.loop conf fuel s).p) := by
  induction fuel generalizing s types with
  | zero =>
    refine ⟨Nat.le_add_right _ _, fun enough => ?_⟩
    obtain rfl := length_eq_zero_iff.mp (Nat.le_zero.mp enough)
    cases entries
    assumption
  | succ fuel induction =>
    generalize at_ : s.p = p at entries
    cases entries with
    | done ended =>
      rw [Mp.loop, at_, if_neg (not_lt.mpr ended)]
      exact ⟨Nat.le_add_right _ _, fun _ => at_.symm ▸ ended⟩
    | entry inside known rest =>
      rw [Mp.loop, at_, if_pos inside]
      obtain ⟨fewer, ends⟩ := induction (s := turn conf s)
        (by rw [p_turn, at_, if_pos known]; exact rest)
      refine ⟨?_, fun enough => ends (Nat.le_of_succ_le_succ enough)⟩
      rw [ncpu_turn, at_, Nat.add_assoc, ← count_append, singleton_append] at fewer
      exact fewer

/-- The loop of `mpinit` passes only entries that it knows, and nothing bounds the number of
processors. -/
theorem mpinit_ends_within_cpus_iff (conf : Nat → UInt8) :
    (∃ fuel, (mpinit conf fuel).isSome) ∧ (∀ fuel, ∀ i ∈ written conf fuel, i < ncpuMax) ↔
      (mpconfig conf → ∃ types, Entries conf headerSize types ∧
        types.count mpproc ≤ ncpuMax) := by
  by_cases accepted : mpconfig conf
  · have indexed : Indexed {} := fun i => by simp
    have below : ∀ fuel, (∀ i ∈ written conf fuel, i < ncpuMax) ↔
        (loop conf fuel {}).ncpu ≤ ncpuMax := by
      intro fuel
      rw [written, if_pos accepted]
      simp only [indexed.loop fuel _]
      exact ⟨fun each => Nat.le_of_not_lt fun more => lt_irrefl _ (each _ more),
        fun few i less => less.trans_le few⟩
    have ends : ∀ fuel, (mpinit conf fuel).isSome ↔ confLength conf ≤ (loop conf fuel {}).p := by
      intro fuel
      rw [mpinit, if_pos accepted]
      dsimp only
      split <;> simp <;> omega
    simp only [below, ends, accepted, true_implies]
    constructor
    · rintro ⟨⟨fuel, ended⟩, few⟩
      obtain ⟨types, entries, counted⟩ := exists_entries_of_loop ended
      have few := few fuel
      exact ⟨types, entries, by rw [counted] at few; simpa using few⟩
    · rintro ⟨types, entries, few⟩
      refine ⟨⟨types.length, (Entries.loop (s := {}) entries _).2 le_rfl⟩, fun fuel => ?_⟩
      have counted := (Entries.loop (s := {}) entries fuel).1
      simp only [Nat.zero_add] at counted
      exact counted.trans few
  · simp [mpinit, written, accepted]

def table (length checksum : UInt8) (entries : List UInt8) (i : Nat) : UInt8 :=
  (lit "PCMP" ++ [length, 0, 1, checksum] ++ List.replicate 36 0 ++ entries).getD i 0

theorem mpinit_unknown_type_and_nine_processors :
    (mpconfig (table 45 157 [5]) = true ∧ ∀ fuel, mpinit (table 45 157 [5]) fuel = none) ∧
      mpconfig (table 224 239 (List.replicate 180 0)) = true ∧
      8 ∈ written (table 224 239 (List.replicate 180 0)) 9 := by
  have accepted : mpconfig (table 45 157 [5]) = true := by decide +kernel
  refine ⟨⟨accepted, fun fuel => ?_⟩, by decide +kernel, by decide +kernel⟩
  rw [mpinit, if_pos accepted]
  refine if_pos (not_le.mp fun ended => ?_)
  obtain ⟨types, entries, -⟩ := exists_entries_of_loop ended
  cases entries with
  | done ended => exact absurd ended (by decide)
  | entry _ known _ => exact absurd known (by decide)

end StraceXv6.Kernel.Mp
