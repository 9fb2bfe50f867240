import Mathlib.Data.List.Nodup

namespace StraceXv6.Data

open List Function

/-! Circular doubly linked lists.  A node is an element, or the head, which is `none`. -/

structure Links (A : Type*) where
  next : Option A → Option A
  prev : Option A → Option A

namespace Links

variable {A : Type*}

def empty : Links A := ⟨fun _ => none, fun _ => none⟩

section

variable [DecidableEq A]

def setNext (links : Links A) (node target : Option A) : Links A :=
  { links with next := Function.update links.next node target }

def setPrev (links : Links A) (node target : Option A) : Links A :=
  { links with prev := Function.update links.prev node target }

def unlink (links : Links A) (b : A) : Links A :=
  (links.setPrev (links.next (some b)) (links.prev (some b))).setNext (links.prev (some b))
    (links.next (some b))

def insertFront (links : Links A) (b : A) : Links A :=
  (((links.setNext (some b) (links.next none)).setPrev (some b) none).setPrev (links.next none)
    (some b)).setNext none (some b)

end

/-- Follow `next` up to an element that passes the test, or to the head; `none` if there
was not enough fuel. -/
def scan (next : Option A → Option A) (test : A → Bool) : Nat → Option A → Option (Option A)
  | _, none => some none
  | 0, some _ => none
  | fuel + 1, some b => if test b then some (some b) else scan next test fuel (next (some b))

/-- The links lead from one node to another, over the elements in between, and back. -/
def Path (links : Links A) : Option A → List A → Option A → Prop
  | a, [], z => links.next a = z ∧ links.prev z = a
  | a, b :: rest, z => links.next a = some b ∧ links.prev (some b) = a ∧ Path links (some b) rest z

section

variable {links links' : Links A} {a z : Option A} {xs ys : List A} {b : A}

theorem path_append : Path links a (xs ++ b :: ys) z ↔
    Path links a xs (some b) ∧ Path links (some b) ys z := by
  induction xs generalizing a with
  | nil =>
    rw [nil_append, Path, Path]
    exact and_assoc.symm
  | cons x xs induction =>
    rw [cons_append, Path, Path, induction]
    exact ⟨fun path => ⟨⟨path.1, path.2.1, path.2.2.1⟩, path.2.2.2⟩,
      fun path => ⟨path.1.1, path.1.2.1, path.1.2.2, path.2⟩⟩

theorem Path.congr (path : Path links a xs z)
    (next : ∀ x, x = a ∨ x ∈ xs.map some → links'.next x = links.next x)
    (prev : ∀ x, x ∈ xs.map some ∨ x = z → links'.prev x = links.prev x) :
    Path links' a xs z := by
  induction xs generalizing a with
  | nil => exact ⟨(next a (.inl rfl)).trans path.1, (prev z (.inr rfl)).trans path.2⟩
  | cons x xs induction =>
    refine ⟨(next a (.inl rfl)).trans path.1, ?_, induction path.2.2 ?_ ?_⟩
    · exact (prev (some x) (.inl mem_cons_self)).trans path.2.1
    · intro y member
      apply next
      cases member with
      | inl same => exact .inr (same ▸ mem_cons_self)
      | inr among => exact .inr (mem_cons_of_mem _ among)
    · intro y member
      apply prev
      cases member with
      | inl among => exact .inl (mem_cons_of_mem _ among)
      | inr same => exact .inr same

theorem Path.next_mem (path : Path links a xs z) :
    links.next a ∈ xs.map some ∨ links.next a = z := by
  cases xs with
  | nil => exact .inr path.1
  | cons x xs =>
    rw [path.1]
    exact .inl mem_cons_self

theorem Path.prev_mem (path : Path links a xs z) :
    links.prev z = a ∨ links.prev z ∈ xs.map some := by
  induction xs generalizing a with
  | nil => exact .inl path.2
  | cons x xs induction =>
    cases induction path.2.2 with
    | inl first =>
      rw [first]
      exact .inr mem_cons_self
    | inr later => exact .inr (mem_cons_of_mem _ later)

theorem Path.reverse (path : Path links a xs z) :
    Path ⟨links.prev, links.next⟩ z xs.reverse a := by
  induction xs generalizing a with
  | nil => exact ⟨path.2, path.1⟩
  | cons x xs induction =>
    rw [reverse_cons, path_append]
    exact ⟨induction path.2.2, path.2.1, path.1⟩

theorem Path.scan_eq (path : Path links a xs none) (test : A → Bool) {fuel : Nat}
    (enough : xs.length ≤ fuel) :
    scan links.next test fuel (links.next a) = some (xs.find? test) := by
  induction xs generalizing a fuel with
  | nil =>
    rw [path.1]
    cases fuel <;> rfl
  | cons x xs induction =>
    rw [path.1]
    cases fuel with
    | zero => exact absurd enough (Nat.not_succ_le_zero _)
    | succ fuel =>
      rw [scan, List.find?_cons]
      cases test x with
      | true => rfl
      | false => exact induction path.2.2 (Nat.le_of_succ_le_succ enough)

end

theorem path_empty : Path (empty : Links A) none [] none := ⟨rfl, rfl⟩

section

variable [DecidableEq A] {links : Links A} {order : List A} {b : A} {a : Option A}

theorem next_insertFront_head : (links.insertFront b).next none = some b := by
  change update (update links.next (some b) (links.next none)) none (some b)
    none = _
  rw [update_self]

theorem next_insertFront_self : (links.insertFront b).next (some b) = links.next none := by
  change update (update links.next (some b) _) none (some b) (some b) = _
  rw [update_of_ne (by simp), update_self]

theorem next_insertFront_of_ne (notHead : a ≠ none) (notSelf : a ≠ some b) :
    (links.insertFront b).next a = links.next a := by
  change update (update links.next (some b) _) none (some b) a = _
  rw [update_of_ne notHead, update_of_ne notSelf]

theorem prev_insertFront_next : (links.insertFront b).prev (links.next none) = some b :=
  update_self ..

theorem prev_insertFront_self (other : some b ≠ links.next none) :
    (links.insertFront b).prev (some b) = none := by
  change update (update links.prev (some b) none) _ (some b) (some b) = _
  rw [update_of_ne other, update_self]

theorem prev_insertFront_of_ne (notNext : a ≠ links.next none) (notSelf : a ≠ some b) :
    (links.insertFront b).prev a = links.prev a := by
  change update (update links.prev (some b) none) _ (some b) a = _
  rw [update_of_ne notNext, update_of_ne notSelf]

theorem Path.insertFront (path : Path links none order none) (nodup : order.Nodup)
    (new : b ∉ order) : Path (links.insertFront b) none (b :: order) none := by
  have notSelf : ∀ x ∈ order.map some, x ≠ some b := by
    intro x member same
    obtain ⟨y, among, rfl⟩ := mem_map.mp member
    exact new (Option.some.inj same ▸ among)
  have notHead : ∀ (xs : List A), ∀ x ∈ xs.map some, x ≠ none := by
    intro xs x member same
    obtain ⟨y, _, rfl⟩ := mem_map.mp member
    cases same
  have other : some b ≠ links.next none := by
    intro same
    cases path.next_mem with
    | inl among => exact notSelf _ among same.symm
    | inr last => exact absurd (same.trans last) (by simp)
  refine ⟨next_insertFront_head, prev_insertFront_self other, ?_⟩
  cases order with
  | nil =>
    refine ⟨next_insertFront_self.trans path.1, ?_⟩
    have head : (links.insertFront b).prev (links.next none) = some b := prev_insertFront_next
    rwa [path.1] at head
  | cons x xs =>
    obtain ⟨next, _, rest⟩ := path
    have first : (links.insertFront b).prev (links.next none) = some b := prev_insertFront_next
    rw [next] at first
    refine ⟨next_insertFront_self.trans next, first, rest.congr ?_ ?_⟩
    · intro y member
      have among : y ∈ (x :: xs).map some := by
        cases member with
        | inl same => exact same ▸ mem_cons_self
        | inr later => exact mem_cons_of_mem _ later
      exact next_insertFront_of_ne (notHead _ y among) (notSelf y among)
    · intro y member
      apply prev_insertFront_of_ne
      · rw [next]
        rintro rfl
        cases member with
        | inl later =>
          obtain ⟨y, among, same⟩ := mem_map.mp later
          exact (nodup_cons.mp nodup).1 (Option.some.inj same ▸ among)
        | inr last => cases last
      · cases member with
        | inl later => exact notSelf y (mem_cons_of_mem _ later)
        | inr last =>
          rw [last]
          simp

theorem next_unlink_of_ne (other : a ≠ links.prev (some b)) :
    (links.unlink b).next a = links.next a :=
  update_of_ne other ..

theorem prev_unlink_of_ne (other : a ≠ links.next (some b)) :
    (links.unlink b).prev a = links.prev a :=
  update_of_ne other ..

theorem next_unlink : (links.unlink b).next (links.prev (some b)) = links.next (some b) :=
  update_self ..

theorem prev_unlink : (links.unlink b).prev (links.next (some b)) = links.prev (some b) :=
  update_self ..

theorem Path.unlink {before after : List A} (first : Path links a before (some b))
    (second : Path links (some b) after none) (nodup : (before ++ b :: after).Nodup)
    (start : a ∉ (before ++ b :: after).map some) :
    Path (links.unlink b) a (before ++ after) none := by
  induction before generalizing a with
  | nil =>
    obtain ⟨_, prev⟩ := first
    have forth : (links.unlink b).next (links.prev (some b)) = links.next (some b) := next_unlink
    have back : (links.unlink b).prev (links.next (some b)) = links.prev (some b) := prev_unlink
    rw [prev] at forth back
    cases after with
    | nil =>
      rw [second.1] at forth back
      exact ⟨forth, back⟩
    | cons y ys =>
      obtain ⟨next, _, rest⟩ := second
      rw [next] at forth back
      refine ⟨forth, back, rest.congr ?_ ?_⟩
      · intro x member
        apply next_unlink_of_ne
        rw [prev]
        rintro rfl
        apply start
        refine mem_cons_of_mem _ ?_
        cases member with
        | inl same => exact same ▸ mem_cons_self
        | inr later => exact mem_cons_of_mem _ later
      · intro x member
        apply prev_unlink_of_ne
        rw [next]
        rintro rfl
        cases member with
        | inl later =>
          obtain ⟨z, among, same⟩ := mem_map.mp later
          have distinct := (nodup_cons.mp nodup).2
          exact (nodup_cons.mp distinct).1 (Option.some.inj same ▸ among)
        | inr last => cases last
  | cons x xs induction =>
    obtain ⟨next, prev, rest⟩ := first
    rw [cons_append] at nodup start
    obtain ⟨absent, distinct⟩ := nodup_cons.mp nodup
    refine ⟨?_, ?_, induction rest distinct ?_⟩
    · rw [next_unlink_of_ne, next]
      rintro rfl
      apply start
      cases rest.prev_mem with
      | inl same =>
        rw [same]
        exact mem_cons_self
      | inr among =>
        refine mem_cons_of_mem _ ?_
        rw [map_append]
        exact mem_append_left _ among
    · rw [prev_unlink_of_ne, prev]
      intro same
      cases second.next_mem with
      | inl among =>
        rw [← same] at among
        obtain ⟨y, member, equal⟩ := mem_map.mp among
        apply absent
        exact mem_append_right _ (mem_cons_of_mem _ (Option.some.inj equal ▸ member))
      | inr last => exact absurd (same.trans last) (by simp)
    · intro member
      obtain ⟨y, among, same⟩ := mem_map.mp member
      exact absent (Option.some.inj same ▸ among)

theorem Path.foldl_insertFront {xs : List A} (path : Path links none order none)
    (nodup : (xs.reverse ++ order).Nodup) :
    Path (xs.foldl Links.insertFront links) none (xs.reverse ++ order) none := by
  induction xs generalizing links order with
  | nil => exact path
  | cons x xs induction =>
    rw [reverse_cons, append_assoc] at nodup ⊢
    obtain ⟨absent, distinct⟩ := nodup_cons.mp (nodup_append'.mp nodup).2.1
    exact induction (path.insertFront distinct absent) nodup

theorem Path.toFront (path : Path links none order none) (nodup : order.Nodup)
    (member : b ∈ order) :
    Path ((links.unlink b).insertFront b) none (b :: order.erase b) none := by
  obtain ⟨before, after, rfl⟩ := append_of_mem member
  obtain ⟨first, second⟩ := path_append.mp path
  have absent : b ∉ before := by
    intro early
    exact (nodup_append'.mp nodup).2.2 early mem_cons_self
  have left := first.unlink second nodup (by simp)
  rw [erase_append_right _ absent, erase_cons_head]
  have distinct : (before ++ after).Nodup := nodup.sublist (by simp)
  refine left.insertFront distinct ?_
  rw [mem_append, not_or]
  exact ⟨absent, (nodup_cons.mp (nodup_append'.mp nodup).2.1).1⟩

end

end Links

end StraceXv6.Data
