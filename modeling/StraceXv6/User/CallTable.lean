import StraceXv6.Kernel.Record

namespace StraceXv6.User

open List Data
open Kernel

/-! The shell's own table of system call names, which `-e` looks names up in. -/

def systemCallMap : List (List UInt8) :=
  [lit "fork", lit "exit", lit "wait", lit "pipe", lit "read", lit "kill",
    lit "exec", lit "fstat", lit "chdir", lit "dup", lit "getpid", lit "sbrk",
    lit "sleep", lit "uptime", lit "open", lit "write", lit "mknod",
    lit "unlink", lit "link", lit "mkdir", lit "close", lit "strace",
    lit "dump", lit "getN", lit "set_options", lit "set_call_flag",
    lit "get_callcount"]

/-- The search keeps the last entry that `streq` accepts. -/
def foundCall (word : List UInt8) : Int32 :=
  (List.range 27).foldl
    (fun found i =>
      if streq (systemCallMap.getD i []) word then Int32.ofNat (i + 1) else found) 0

/-- `-e word` selects the system call of that name and no other, alone or on top
of a selection by outcome. -/
structure SelectsByName (word : List UInt8) : Prop where
  named : ∀ sys : Sys, sys.name = word → foundCall word = sys.number
  unnamed : (∀ sys : Sys, sys.name ≠ word) → foundCall word = 0
  kept : ∀ flagF flagS ret sys,
    Accepts ⟨1, flagF, flagS, 0, foundCall word⟩ ret sys ↔
      Accepts ⟨0, flagF, flagS, 0, 0⟩ ret sys ∧ sys.name = word

private theorem foldl_eq_init_or (accepts : Nat → Bool) (indices : List Nat)
    (init : Int32) :
    indices.foldl (fun found i => if accepts i then Int32.ofNat (i + 1) else found) init =
        init ∧ (∀ i ∈ indices, accepts i = false) ∨
      ∃ i ∈ indices, accepts i ∧
        indices.foldl (fun found i => if accepts i then Int32.ofNat (i + 1) else found) init =
          Int32.ofNat (i + 1) := by
  induction indices generalizing init with
  | nil => exact .inl ⟨rfl, nofun⟩
  | cons i rest induction =>
    rw [foldl_cons]
    rcases induction (if accepts i then Int32.ofNat (i + 1) else init) with
      ⟨unchanged, rejected⟩ | ⟨j, member, accepted, last⟩
    · cases here : accepts i with
      | false =>
        rw [here] at unchanged
        refine .inl ⟨unchanged, ?_⟩
        intro j member
        rcases mem_cons.mp member with same | later
        · rw [same]
          exact here
        · exact rejected j later
      | true =>
        rw [here] at unchanged
        exact .inr ⟨i, mem_cons_self, here, unchanged⟩
    · exact .inr ⟨j, mem_cons_of_mem _ member, accepted, last⟩

private theorem exists_index (sys : Sys) :
    ∃ i ∈ List.range 27, systemCallMap.getD i [] = sys.name := by
  cases sys <;> decide

private theorem exists_named {i : Nat} (bound : i ∈ List.range 27) :
    ∃ sys : Sys, systemCallMap.getD i [] = sys.name := by
  have listed : ∀ i ∈ List.range 27, ∃ sys ∈ Sys.all,
      systemCallMap.getD i [] = sys.name := by decide
  obtain ⟨sys, _, equal⟩ := listed i bound
  exact ⟨sys, equal⟩

variable {word : List UInt8}

theorem foundCall_eq_zero_iff (noNul : (0 : UInt8) ∉ word) :
    foundCall word = 0 ↔ ∀ sys : Sys, ¬word <+: sys.name := by
  have matched : ∀ sys : Sys, streq sys.name word = true ↔ word <+: sys.name := by
    intro sys
    rw [streq_eq_isPrefixOf noNul (.inl sys.noNewline_name), isPrefixOf_iff_prefix]
  rcases foldl_eq_init_or (fun i => streq (systemCallMap.getD i []) word)
    (List.range 27) 0 with ⟨zero, rejected⟩ | ⟨i, bound, accepted, last⟩
  · refine iff_of_true zero ?_
    intro sys starts
    obtain ⟨i, bound, equal⟩ := exists_index sys
    have rejects := rejected i bound
    rw [equal, (matched sys).mpr starts] at rejects
    contradiction
  · refine iff_of_false ?_ ?_
    · have positive : ∀ i ∈ List.range 27, Int32.ofNat (i + 1) ≠ 0 := by decide
      intro zero
      exact positive i bound (last.symm.trans zero)
    · obtain ⟨sys, equal⟩ := exists_named bound
      intro none
      rw [equal] at accepted
      exact none sys ((matched sys).mp accepted)

/-- The tables number these three differently. -/
def Misnumbered (sys : Sys) : Prop :=
  sys = .getN ∨ sys = .setOptions ∨ sys = .setCallFlag

theorem foundCall_name_iff (sys : Sys) :
    foundCall sys.name = sys.number ↔ ¬Misnumbered sys := by
  unfold Misnumbered
  cases sys <;> decide

private theorem selectsByName_of_number
    (named : ∀ sys : Sys, sys.name = word → foundCall word = sys.number)
    (unnamed : (∀ sys : Sys, sys.name ≠ word) → foundCall word = 0) : SelectsByName word := by
  refine ⟨named, unnamed, ?_⟩
  intro flagF flagS ret sys
  have same : sys.number = foundCall word ↔ sys.name = word := by
    constructor
    · intro equal
      by_cases exists_name : ∃ other : Sys, other.name = word
      · obtain ⟨other, spelled⟩ := exists_name
        rw [named other spelled] at equal
        rw [Sys.number_injective equal]
        exact spelled
      · push Not at exists_name
        rw [unnamed exists_name] at equal
        exact absurd equal sys.number_ne_zero
    · intro spelled
      exact (named sys spelled).symm
  simp only [Accepts, same]
  simp

end StraceXv6.User
