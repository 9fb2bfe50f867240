import StraceXv6.Data.Ownership
import StraceXv6.Kernel.Vm.Memory

namespace StraceXv6.Kernel.Vm

open Function Data Data.Command

/-! What a page directory maps, and the pages of memory that it is made of. -/

namespace Memory

def table (m : Memory) (d i : Nat) : Option Nat :=
  if present (m.entryAt ⟨d, i⟩) then some (frame (m.entryAt ⟨d, i⟩)) else none

def entry (m : Memory) (d v : Nat) : UInt32 :=
  match m.table d (v / nptentries) with
  | none => 0
  | some t => m.entryAt ⟨t, v % nptentries⟩

def taken (m : Memory) (f : Nat) : Bool := decide (f ∉ m.freelist)

end Memory

inductive Holder
  | directory
  | table (i : Nat)
  | page (v : Nat)
  deriving DecidableEq

namespace Memory

/-- The pages of memory that a directory is made of; those that it maps at `KERNBASE`
and above are not its own. -/
def holds (m : Memory) (d : Nat) : Holder → Option Nat
  | .directory => some d
  | .table i => m.table d i
  | .page v =>
    if v < userPages ∧ present (m.entry d v) then some (frame (m.entry d v)) else none

variable {m m' : Memory} {d : Nat}

@[simp] theorem page_setPage_self (m : Memory) (f : Nat) (content : Page) :
    (m.setPage f content).page f = content := update_self ..

variable {f g t v i : Nat} {slot : Slot}

theorem page_setPage_of_ne (distinct : g ≠ f) (m : Memory) (content : Page) :
    (m.setPage f content).page g = m.page g := update_of_ne distinct ..

theorem page_setEntryAt_of_ne (distinct : g ≠ slot.page) (m : Memory) (pte : UInt32) :
    (m.setEntryAt slot pte).page g = m.page g := update_of_ne distinct ..

theorem entryAt_setEntryAt (inside : slot.index < nptentries) (m : Memory) (pte : UInt32) :
    (m.setEntryAt slot pte).entryAt slot = pte := by
  rw [entryAt, setEntryAt, page_setPage_self]
  apply getWord_setWord
  change 4 * slot.index + 4 ≤ 4096
  change slot.index < 1024 at inside
  omega

theorem entryAt_setEntryAt_of_ne {other : Slot}
    (distinct : other.page ≠ slot.page ∨ other.index ≠ slot.index) (m : Memory) (pte : UInt32) :
    (m.setEntryAt slot pte).entryAt other = m.entryAt other := by
  rw [entryAt, entryAt]
  by_cases same : other.page = slot.page
  · rw [same, setEntryAt, page_setPage_self,
      getWord_setWord_of_ne (distinct.resolve_left (not_not.mpr same))]
  · rw [page_setEntryAt_of_ne same]

theorem table_congr (same : m'.page d = m.page d) : m'.table d = m.table d := by
  funext i
  rw [table, table, entryAt, entryAt, same]

theorem entry_congr (same : m'.page d = m.page d)
    (tables : ∀ {i t}, m.table d i = some t → m'.page t = m.page t) :
    m'.entry d = m.entry d := by
  funext v
  rw [entry, entry, table_congr same]
  split
  next => rfl
  next t isTable => simp only [entryAt, tables isTable]

theorem holds_congr (tables : m'.table d = m.table d) (entries : m'.entry d = m.entry d) :
    m'.holds d = m.holds d := by
  funext holder
  cases holder with
  | directory => rfl
  | table i => exact congrFun tables i
  | page v => simp only [holds, entries]

theorem entry_eq (isTable : m.table d (v / nptentries) = some t) :
    m.entry d v = m.entryAt ⟨t, v % nptentries⟩ := by
  rw [entry, isTable]

theorem entry_eq_zero (absent : m.table d (v / nptentries) = none) : m.entry d v = 0 := by
  rw [entry, absent]

theorem table_isSome_of_present (mapped : present (m.entry d v)) :
    (m.table d (v / nptentries)).isSome = true := by
  cases found : m.table d (v / nptentries) with
  | none =>
    rw [entry_eq_zero found] at mapped
    exact absurd mapped not_present_zero
  | some t => rfl

theorem holds_page (user : v < userPages) (mapped : present (m.entry d v)) :
    m.holds d (.page v) = some (frame (m.entry d v)) := if_pos ⟨user, mapped⟩

theorem holds_page_eq_some :
    m.holds d (.page v) = some f ↔
      (v < userPages ∧ present (m.entry d v)) ∧ frame (m.entry d v) = f := by
  rw [holds]
  split
  next both => simp only [both, and_true, Option.some.injEq, true_and]
  next neither => simp only [neither, reduceCtorEq, false_and]

theorem entries_setPage (notDirectory : f ≠ d) (notTable : ∀ i, m.table d i ≠ some f)
    (content : Page) :
    (m.setPage f content).table d = m.table d ∧ (m.setPage f content).entry d = m.entry d := by
  have same : (m.setPage f content).page d = m.page d :=
    page_setPage_of_ne notDirectory.symm m content
  refine ⟨table_congr same, entry_congr same ?_⟩
  intro i t isTable
  apply page_setPage_of_ne
  rintro rfl
  exact notTable i isTable

def put (m : Memory) (f : Nat) : Memory :=
  { m.setPage f (fun _ => 1) with freelist := f :: m.freelist }

theorem table_eq_none (past : npdentries ≤ i) : m.table d i = none := by
  rw [table, entryAt, getWord_eq_zero, if_neg not_present_zero]
  change 4096 ≤ 4 * i
  change 1024 ≤ i at past
  omega

def addTable (m : Memory) (d i f : Nat) : Memory :=
  (m.setPage f fun _ => 0).setEntryAt ⟨d, i⟩ (v2p f ||| (pteW ||| pteU) ||| pteP)

theorem entries_addTable (inside : i < npdentries) (small : f < 2 ^ 20) (notDirectory : f ≠ d)
    (notTable : ∀ i, m.table d i ≠ some f) (absent : m.table d i = none)
    (tablesApart : ∀ j, m.table d j ≠ some d) :
    (m.addTable d i f).table d = update (m.table d) i (some f) ∧
      (m.addTable d i f).entry d = m.entry d := by
  have cleared := entries_setPage notDirectory notTable (m := m) fun _ => 0
  have flags : (pteW ||| pteU).toNat < pgsize := by decide
  have tables : (m.addTable d i f).table d = update (m.table d) i (some f) := by
    funext j
    by_cases same : j = i
    · subst same
      rw [update_self, table, addTable, entryAt_setEntryAt inside,
        if_pos (present_entry _ _), frame_entry small flags]
    · rw [update_of_ne same, table, addTable,
        entryAt_setEntryAt_of_ne (.inr same), ← cleared.1, table]
  refine ⟨tables, ?_⟩
  funext v
  by_cases same : v / nptentries = i
  · subst same
    have isTable : (m.addTable d (v / nptentries) f).table d (v / nptentries) = some f := by
      rw [tables, update_self]
    rw [entry_eq isTable, entry_eq_zero absent, addTable,
      entryAt_setEntryAt_of_ne (.inl notDirectory), entryAt, page_setPage_self, getWord_zero]
  · rw [entry, tables, update_of_ne same, entry]
    split
    next => rfl
    next t isTable =>
      have other : t ≠ f := by
        rintro rfl
        exact notTable _ isTable
      have notHere : t ≠ d := by
        rintro rfl
        exact tablesApart _ isTable
      rw [addTable, entryAt_setEntryAt_of_ne (.inl notHere), entryAt,
        page_setPage_of_ne other, entryAt]

theorem entries_setEntryAt (isTable : m.table d (v / nptentries) = some t)
    (once : ∀ {j}, m.table d j = some t → j = v / nptentries) (notDirectory : t ≠ d)
    (pte : UInt32) :
    (m.setEntryAt ⟨t, v % nptentries⟩ pte).table d = m.table d ∧
      (m.setEntryAt ⟨t, v % nptentries⟩ pte).entry d = update (m.entry d) v pte := by
  have tables : (m.setEntryAt ⟨t, v % nptentries⟩ pte).table d = m.table d :=
    table_congr (page_setEntryAt_of_ne notDirectory.symm ..)
  refine ⟨tables, ?_⟩
  funext u
  by_cases same : u = v
  · subst same
    rw [update_self, entry, tables, isTable]
    exact entryAt_setEntryAt (Nat.mod_lt _ (by decide)) m pte
  · rw [update_of_ne same, entry, tables, entry]
    split
    next => rfl
    next t' isTable' =>
      apply entryAt_setEntryAt_of_ne
      by_cases sameTable : t' = t
      · subst sameTable
        right
        intro sameIndex
        have quotient := once isTable'
        change u % 1024 = v % 1024 at sameIndex
        change u / 1024 = v / 1024 at quotient
        omega
      · exact .inl sameTable

end Memory

def Image.Usable (kernel : Image) (f : Nat) : Prop :=
  kernel.finish.toNat ≤ kernbase.toNat + pgsize * f ∧ pgsize * f < phystop.toNat

namespace Image.Usable

variable {kernel : Image} {f : Nat} (usable : kernel.Usable f)

include usable

theorem lt : f < 0xE000 := by
  have below := usable.2
  change 4096 * f < 0xE000000 at below
  omega

theorem small : f < 2 ^ 20 := usable.lt.trans (by decide)

theorem pos : 0 < f := by
  have above := usable.1
  have data := kernel.text
  have ordered := kernel.ordered
  change _ ≤ 0x80000000 + 4096 * f at above
  change 0x80100000 < _ at data
  omega

end Image.Usable

/-- The page directory at `d`: no page of memory has two uses in it, and its pages and
those on the free list are all the pages that are not reserved. -/
structure Directory (kernel : Image) (reserved : Nat → Prop) (m : Memory) (d : Nat) : Prop where
  accounted : Accounted reserved m.taken (m.holds d)
  once : m.freelist.Nodup
  usable : ∀ {f}, ¬reserved f → kernel.Usable f

namespace Directory

variable {kernel : Image} {reserved : Nat → Prop} {m m' : Memory} {d : Nat}

section

variable (directory : Directory kernel reserved m d)

include directory

variable {f t v : Nat} {rest : List Nat}

theorem alone (first second : Holder) (held : m.holds d first = some f)
    (also : m.holds d second = some f) : first = second := directory.accounted.alone held also

theorem apart (holder : Holder) (held : m.holds d holder = some f) : ¬reserved f :=
  directory.accounted.apart held

theorem usable_of_holds (holder : Holder) (held : m.holds d holder = some f) :
    kernel.Usable f := directory.usable (directory.apart holder held)

theorem table_ne_directory (i : Nat) : m.table d i ≠ some d := by
  intro isTable
  exact absurd (directory.alone (.table i) .directory isTable rfl) (by simp)

theorem table_inj {i j : Nat} (isTable : m.table d i = some t) (also : m.table d j = some t) :
    i = j :=
  Holder.table.inj (directory.alone (.table i) (.table j) isTable also)

theorem frame_ne_directory (user : v < userPages) (mapped : present (m.entry d v)) :
    frame (m.entry d v) ≠ d := by
  intro same
  have held := m.holds_page user mapped
  rw [same] at held
  exact absurd (directory.alone (.page v) .directory held rfl) (by simp)

theorem frame_ne_table (user : v < userPages) (mapped : present (m.entry d v)) (i : Nat) :
    m.table d i ≠ some (frame (m.entry d v)) := by
  intro isTable
  exact absurd (directory.alone (.page v) (.table i) (m.holds_page user mapped) isTable) (by simp)

theorem frame_inj {u : Nat} (user : v < userPages) (mapped : present (m.entry d v))
    (user' : u < userPages) (mapped' : present (m.entry d u))
    (same : frame (m.entry d v) = frame (m.entry d u)) : v = u := by
  have held := m.holds_page user mapped
  rw [same] at held
  exact Holder.page.inj (directory.accounted.alone held (m.holds_page user' mapped'))

theorem free_iff (f : Nat) :
    f ∈ m.freelist ↔ ¬reserved f ∧ ∀ holder, m.holds d holder ≠ some f := by
  have marked := directory.accounted.marked_iff f
  rw [Memory.taken, decide_eq_true_iff] at marked
  constructor
  · intro free
    refine ⟨fun kept => ?_, fun holder held => ?_⟩
    · exact marked.mpr (.inl kept) free
    · exact marked.mpr (.inr ⟨holder, held⟩) free
  · rintro ⟨kept, unheld⟩
    by_contra absent
    rcases marked.mp absent with isKept | ⟨holder, held⟩
    · exact kept isKept
    · exact unheld holder held

theorem of_holds (held : m'.holds d = m.holds d) (list : m'.freelist = m.freelist) :
    Directory kernel reserved m' d where
  accounted := by
    have same : m'.taken = m.taken := by
      funext f
      rw [Memory.taken, Memory.taken, list]
    rw [held, same]
    exact directory.accounted
  once := list ▸ directory.once
  usable := directory.usable

theorem setPage (notDirectory : f ≠ d) (notTable : ∀ i, m.table d i ≠ some f) (content : Page) :
    Directory kernel reserved (m.setPage f content) d := by
  obtain ⟨tables, entries⟩ := Memory.entries_setPage notDirectory notTable content
  exact directory.of_holds (Memory.holds_congr tables entries) rfl

omit directory in
theorem taken_false (free : m.freelist = f :: rest) : m.taken f = false := by
  rw [Memory.taken, free]
  simp

theorem not_reserved_head (free : m.freelist = f :: rest) :
    ¬reserved f := directory.accounted.not_reserved (taken_false free)

theorem holds_ne_head (free : m.freelist = f :: rest) (holder : Holder) :
    m.holds d holder ≠ some f :=
  directory.accounted.not_owns (taken_false free) holder

theorem take (free : m.freelist = f :: rest) :
    Directory kernel (fun g => reserved g ∨ g = f) { m with freelist := rest } d where
  accounted := by
    have once := directory.once
    rw [free, List.nodup_cons] at once
    have marks : ({ m with freelist := rest } : Memory).taken =
        update m.taken f true := by
      funext g
      rw [update_apply, Memory.taken, Memory.taken, free]
      split
      next same => simp [same, once.1]
      next distinct => simp [distinct]
    rw [marks]
    exact directory.accounted.reserve (taken_false free)
  once := by
    have once := directory.once
    rw [free, List.nodup_cons] at once
    exact once.2
  usable := fun kept => directory.usable fun isReserved => kept (.inl isReserved)

theorem setKernelEntry (above : userPages ≤ v) (isTable : m.table d (v / nptentries) = some t)
    (pte : UInt32) : Directory kernel reserved (m.setEntryAt ⟨t, v % nptentries⟩ pte) d := by
  have notDirectory : t ≠ d := by
    rintro rfl
    exact directory.table_ne_directory _ isTable
  obtain ⟨tables, entries⟩ := Memory.entries_setEntryAt isTable
    (fun also => directory.table_inj also isTable) notDirectory pte
  refine directory.of_holds ?_ rfl
  funext holder
  cases holder with
  | directory => rfl
  | table i => exact congrFun tables i
  | page u =>
    rw [Memory.holds, entries, Memory.holds]
    by_cases same : u = v
    · subst same
      rw [if_neg fun both => absurd both.1 (Nat.not_lt_of_le above),
        if_neg fun both => absurd both.1 (Nat.not_lt_of_le above)]
    · rw [update_of_ne same]

end

section

variable {f : Nat} (directory : Directory kernel (fun g => reserved g ∨ g = f) m d)
  (open_ : ¬reserved f) (usable : kernel.Usable f)

include directory open_ usable

omit open_ usable in
theorem unheld (holder : Holder) : m.holds d holder ≠ some f :=
  fun held => directory.accounted.apart held (.inr rfl)

omit open_ in
theorem usable_of_not {g : Nat} (kept : ¬reserved g) : kernel.Usable g := by
  by_cases same : g = f
  · exact same ▸ usable
  · exact directory.usable fun either => either.elim kept same

theorem addTable {i : Nat} (inside : i < npdentries) (absent : m.table d i = none) :
    Directory kernel reserved (m.addTable d i f) d where
  accounted := by
    obtain ⟨tables, entries⟩ := Memory.entries_addTable inside usable.small
      (fun same => directory.unheld .directory (congrArg some same.symm))
      (fun j => directory.unheld (.table j)) absent directory.table_ne_directory
    have held : (m.addTable d i f).holds d =
        update (m.holds d) (.table i) (some f) := by
      funext holder
      cases holder with
      | directory => rfl
      | table j =>
        rw [Memory.holds, tables, update_apply, update_apply]
        simp only [Holder.table.injEq]
        rfl
      | page v =>
        rw [update_of_ne (by simp)]
        simp only [Memory.holds, entries]
    have marks : (m.addTable d i f).taken = m.taken := rfl
    rw [held, marks]
    exact directory.accounted.adopt open_ absent
  once := directory.once
  usable := directory.usable_of_not usable

theorem map {v t : Nat} (user : v < userPages) (isTable : m.table d (v / nptentries) = some t)
    (unmapped : ¬present (m.entry d v)) {flags : UInt32} (low : flags.toNat < pgsize) :
    Directory kernel reserved
      (m.setEntryAt ⟨t, v % nptentries⟩ (v2p f ||| flags ||| pteP)) d where
  accounted := by
    have notDirectory : t ≠ d := by
      rintro rfl
      exact directory.table_ne_directory _ isTable
    obtain ⟨tables, entries⟩ := Memory.entries_setEntryAt isTable
      (fun also => directory.table_inj also isTable) notDirectory (v2p f ||| flags ||| pteP)
    have held : (m.setEntryAt ⟨t, v % nptentries⟩ (v2p f ||| flags ||| pteP)).holds d =
        update (m.holds d) (.page v) (some f) := by
      funext holder
      cases holder with
      | directory => rfl
      | table j => exact congrFun tables j
      | page u =>
        by_cases same : u = v
        · subst same
          have mapped : present ((m.setEntryAt ⟨t, u % nptentries⟩
              (v2p f ||| flags ||| pteP)).entry d u) := by
            rw [entries, update_self]
            exact present_entry f flags
          rw [update_self, Memory.holds_page user mapped, entries,
            update_self, frame_entry usable.small low]
        · have other : Holder.page u ≠ .page v := fun equal => same (Holder.page.inj equal)
          rw [update_of_ne other]
          simp only [Memory.holds, entries, update_of_ne same]
    have marks : (m.setEntryAt ⟨t, v % nptentries⟩ (v2p f ||| flags ||| pteP)).taken =
        m.taken := rfl
    rw [held, marks]
    exact directory.accounted.adopt open_ (if_neg fun both => unmapped both.2)
  once := directory.once
  usable := directory.usable_of_not usable

end

theorem unmap (directory : Directory kernel reserved m d) {v t : Nat} (user : v < userPages)
    (isTable : m.table d (v / nptentries) = some t) (mapped : present (m.entry d v)) :
    Directory kernel reserved
      ((m.put (frame (m.entry d v))).setEntryAt ⟨t, v % nptentries⟩ 0) d := by
  have notDirectory : t ≠ d := by
    rintro rfl
    exact directory.table_ne_directory _ isTable
  have cleared := Memory.entries_setPage (directory.frame_ne_directory user mapped)
    (directory.frame_ne_table user mapped) (m := m) fun _ => 1
  have held := m.holds_page user mapped
  generalize frame (m.entry d v) = f at held cleared
  obtain ⟨tables, entries⟩ := Memory.entries_setEntryAt
    (m := m.put f) (d := d) (v := v) (t := t)
    ((congrFun cleared.1 _).trans isTable)
    (fun also => directory.table_inj ((congrFun cleared.1 _).symm.trans also) isTable)
    notDirectory 0
  exact {
    accounted := by
      have holders : ((m.put f).setEntryAt ⟨t, v % nptentries⟩ 0).holds d =
          update (m.holds d) (.page v) none := by
        funext holder
        cases holder with
        | directory => rfl
        | table j => exact (congrFun tables j).trans (congrFun cleared.1 j)
        | page u =>
          rw [Memory.holds, entries]
          by_cases same : u = v
          · subst same
            simp
          · have other : Holder.page u ≠ .page v := fun equal => same (Holder.page.inj equal)
            rw [update_of_ne other, update_of_ne same]
            simp only [Memory.holds, ← cleared.2]
            rfl
      have marks : ((m.put f).setEntryAt ⟨t, v % nptentries⟩ 0).taken =
          update m.taken f false := by
        funext g
        rw [update_apply]
        change decide (g ∉ f :: m.freelist) = _
        split
        next same => simp [same]
        next distinct => simp [Memory.taken, distinct]
      rw [holders, marks]
      exact directory.accounted.release held
    once := by
      have absent := directory.accounted.marked_of_owns held
      rw [Memory.taken, decide_eq_true_iff] at absent
      exact List.nodup_cons.mpr ⟨absent, directory.once⟩
    usable := directory.usable }

end Directory

end StraceXv6.Kernel.Vm
