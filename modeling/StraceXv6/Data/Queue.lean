import Mathlib.Data.List.Nodup
import Mathlib.Data.Option.Basic

namespace StraceXv6.Data

open List

/-! Singly linked lists that end with a null pointer. -/

structure Queue (A : Type*) where
  head : Option A
  next : A → Option A

namespace Queue

variable {A : Type*}

def at_ (queue : Queue A) : Option A → Option A
  | none => queue.head
  | some a => queue.next a

/-- The address at the end of the list, `none` if there was not enough fuel. -/
def tail (queue : Queue A) : Nat → Option A → Option (Option A)
  | 0, _ => none
  | fuel + 1, address =>
    match queue.at_ address with
    | none => some address
    | some a => queue.tail fuel (some a)

def pop (queue : Queue A) (a : A) : Queue A := { queue with head := queue.next a }

section

variable [DecidableEq A]

def assign (queue : Queue A) (address value : Option A) : Queue A :=
  match address with
  | none => { queue with head := value }
  | some a => { queue with next := Function.update queue.next a value }

def push (queue : Queue A) (fuel : Nat) (a : A) : Option (Queue A) :=
  let cleared := queue.assign (some a) none
  (cleared.tail fuel none).map fun address => cleared.assign address (some a)

end

def Holds (queue : Queue A) : Option A → List A → Prop
  | address, [] => queue.at_ address = none
  | address, a :: rest => queue.at_ address = some a ∧ queue.Holds (some a) rest

section

variable {queue queue' : Queue A} {address : Option A} {list : List A} {a : A}

theorem Holds.head_eq (holds : queue.Holds none list) : queue.head = list.head? := by
  cases list with
  | nil => exact holds
  | cons a rest => exact holds.1

theorem Holds.congr (holds : queue.Holds address list)
    (same : ∀ x, x = address ∨ x ∈ list.map some → queue'.at_ x = queue.at_ x) :
    queue'.Holds address list := by
  induction list generalizing address with
  | nil => exact (same address (.inl rfl)).trans holds
  | cons a rest induction =>
    refine ⟨(same address (.inl rfl)).trans holds.1, induction holds.2 ?_⟩
    intro x among
    cases among with
    | inl here => exact same x (.inr (here ▸ mem_cons_self))
    | inr later => exact same x (.inr (mem_cons_of_mem _ later))

theorem Holds.pop (holds : queue.Holds none (a :: list)) : (queue.pop a).Holds none list := by
  cases list with
  | nil => exact holds.2
  | cons b rest =>
    refine ⟨holds.2.1, holds.2.2.congr fun x among => ?_⟩
    cases x with
    | none =>
      rcases among with same | among
      · exact absurd same (Option.some_ne_none b).symm
      · simp at among
    | some x => rfl

section

variable [DecidableEq A]

theorem at_assign (queue : Queue A) (address value : Option A) :
    (queue.assign address value).at_ address = value := by
  cases address with
  | none => rfl
  | some a => exact Function.update_self a value queue.next

theorem at_assign_of_ne {other : Option A} (apart : other ≠ address) (value : Option A) :
    (queue.assign address value).at_ other = queue.at_ other := by
  cases address with
  | none =>
    cases other with
    | none => exact absurd rfl apart
    | some b => rfl
  | some a =>
    cases other with
    | none => rfl
    | some b =>
      have differs : b ≠ a := fun same => apart (congrArg some same)
      exact Function.update_of_ne differs value queue.next

variable {fuel : Nat}

theorem Holds.tail (holds : queue.Holds address list) (free : queue.next a = none)
    (fresh : some a ∉ address :: list.map some) (apart : (address :: list.map some).Nodup)
    (enough : list.length < fuel) :
    ∃ last ∈ address :: list.map some, queue.tail fuel address = some last ∧
      (queue.assign last (some a)).Holds address (list ++ [a]) := by
  induction list generalizing address fuel with
  | nil =>
    cases fuel with
    | zero => exact absurd enough (Nat.not_lt_zero _)
    | succ fuel =>
      refine ⟨address, mem_cons_self, ?_, at_assign queue address (some a), ?_⟩
      · rw [Queue.tail, holds]
      · change (queue.assign address (some a)).at_ (some a) = none
        have differs : some a ≠ address := fun same => fresh (same ▸ mem_cons_self)
        rw [at_assign_of_ne differs]
        exact free
  | cons b rest induction =>
    cases fuel with
    | zero => exact absurd enough (Nat.not_lt_zero _)
    | succ fuel =>
      rw [map_cons] at fresh apart
      obtain ⟨outside, apart⟩ := nodup_cons.mp apart
      obtain ⟨last, among, found, after⟩ := induction holds.2
        (fun member => fresh (mem_cons_of_mem _ member)) apart
        (Nat.lt_of_succ_lt_succ enough)
      refine ⟨last, mem_cons_of_mem _ among, ?_, ?_, after⟩
      · rw [Queue.tail, holds.1]
        exact found
      · have differs : address ≠ last := fun same => outside (same ▸ among)
        rw [at_assign_of_ne differs]
        exact holds.1

theorem Holds.push (holds : queue.Holds none list) (fresh : a ∉ list) (apart : list.Nodup)
    (enough : list.length < fuel) :
    ∃ queue', queue.push fuel a = some queue' ∧ queue'.Holds none (list ++ [a]) := by
  have outside : some a ∉ list.map some := fun member =>
    fresh ((mem_map_of_injective (Option.some_injective A)).mp member)
  have cleared : (queue.assign (some a) none).Holds none list := by
    refine holds.congr fun x among => at_assign_of_ne ?_ none
    rintro rfl
    exact among.elim (Option.some_ne_none a) outside
  have nodup : ((none : Option A) :: list.map some).Nodup :=
    nodup_cons.mpr ⟨by simp, apart.map (Option.some_injective A)⟩
  obtain ⟨last, _, found, after⟩ := cleared.tail (at_assign queue (some a) none)
    (fun member => (mem_cons.mp member).elim (Option.some_ne_none a) outside) nodup enough
  refine ⟨_, ?_, after⟩
  rw [Queue.push, found]
  rfl

end

end

end Queue

end StraceXv6.Data
