import StraceXv6.Kernel.Vm.Sizes

namespace StraceXv6.Kernel.Vm

open List Data Data.Command

/-! Growing the user's part of a page directory, and the pages that it takes. -/

section

variable {kernel : Image} {reserved : Nat → Prop} {m m' m'' : Memory} {d : Nat}
  {fails : Panic → Prop}

structure Taken (kernel : Image) (reserved : Nat → Prop) (d f : Nat) (content : Page)
    (m m' : Memory) : Prop where
  directory : Directory kernel (fun g => reserved g ∨ g = f) m' d
  open_ : ¬reserved f
  usable : kernel.Usable f
  tables : m'.table d = m.table d
  entries : m'.entry d = m.entry d
  extended : Extends d m m'
  filled : m'.page f = content
  list : m.freelist = f :: m'.freelist

variable {f k start : Nat} {newsz oldsz : UInt32}

theorem Directory.taken (directory : Directory kernel reserved m d) {rest : List Nat}
    (free : m.freelist = f :: rest) (content : Page) :
    Taken kernel reserved d f content m
      ({ m with freelist := rest }.setPage f content) := by
  have open_ := directory.not_reserved_head free
  have notDirectory : f ≠ d := by
    rintro rfl
    exact directory.holds_ne_head free .directory rfl
  have notTable : ∀ i, m.table d i ≠ some f := fun i => directory.holds_ne_head free (.table i)
  obtain ⟨tables, entries⟩ := Memory.entries_setPage (m := { m with freelist := rest })
    notDirectory notTable content
  exact {
    directory := (directory.take free).setPage notDirectory notTable content
    open_ := open_
    usable := directory.usable open_
    tables := tables
    entries := entries
    extended := {
      shorter := by
        rw [free]
        exact subset_cons_self f rest
      tables := fun isTable => .inl ((congrFun tables _).symm.trans isTable)
      stays := (congrFun tables _).trans
      kept := by
        intro g used _ _
        rw [free, mem_cons, not_or] at used
        exact Memory.page_setPage_of_ne used.1 _ _ }
    filled := Memory.page_setPage_self ..
    list := free }

def NewTable (m : Memory) (d start k : Nat) : Prop :=
  m.table d ((start + k) / nptentries) = none ∧ (k = 0 ∨ (start + k) % nptentries = 0)

instance (m : Memory) (d start k : Nat) : Decidable (NewTable m d start k) :=
  inferInstanceAs (Decidable (_ ∧ _))

def cost (m : Memory) (d start : Nat) : Nat → Nat
  | 0 => 0
  | k + 1 => cost m d start k + 1 + if NewTable m d start k then 1 else 0

structure Grown (kernel : Image) (reserved : Nat → Prop) (d start k : Nat) (m m' : Memory) :
    Prop where
  directory : Directory kernel reserved m' d
  tables : ∀ i, (m'.table d i).isSome = true ↔
    (m.table d i).isSome = true ∨ ∃ v, start ≤ v ∧ v < start + k ∧ v / nptentries = i
  entries : ∀ {v}, v < start ∨ start + k ≤ v → m'.entry d v = m.entry d v
  mapped : ∀ {v}, start ≤ v → v < start + k →
    ∃ f, f < 2 ^ 20 ∧ m'.entry d v = v2p f ||| (pteW ||| pteU) ||| pteP ∧
      m'.page f = fun _ => 0
  extended : Extends d m m'

namespace Grown

variable {start k : Nat}

theorem zero (directory : Directory kernel reserved m d) (start : Nat) :
    Grown kernel reserved d start 0 m m where
  directory := directory
  tables := by
    intro i
    refine ⟨.inl, ?_⟩
    rintro (before | ⟨v, above, below, _⟩)
    · exact before
    · omega
  entries := fun _ => rfl
  mapped := by
    intro v above below
    omega
  extended := .refl d m

theorem newTable (grown : Grown kernel reserved d start k m m') :
    m'.table d ((start + k) / nptentries) = none ↔ NewTable m d start k := by
  rw [← Option.not_isSome_iff_eq_none, grown.tables, not_or, NewTable,
    Option.not_isSome_iff_eq_none]
  apply and_congr_right
  intro _
  constructor
  · intro nothing
    by_contra both
    rw [not_or] at both
    refine nothing ⟨start + k - 1, by omega, by omega, ?_⟩
    change (start + k - 1) / 1024 = (start + k) / 1024
    change k ≠ 0 ∧ (start + k) % 1024 ≠ 0 at both
    omega
  · rintro either ⟨v, above, below, same⟩
    change k = 0 ∨ (start + k) % 1024 = 0 at either
    change v / 1024 = (start + k) / 1024 at same
    omega

theorem present_of_mapped (grown : Grown kernel reserved d start k m m') {v : Nat}
    (above : start ≤ v) (below : v < start + k) : present (m'.entry d v) := by
  obtain ⟨f, _, entry, _⟩ := grown.mapped above below
  rw [entry]
  exact present_entry _ _

variable {f : Nat} {middle : Memory}

theorem next (grown : Grown kernel reserved d start k m m') (user : start + k ≤ userPages)
    (taken : Taken kernel reserved d f (fun _ => 0) m' middle)
    (mapped : Mapped kernel reserved d (start + k) (v2p f ||| (pteW ||| pteU) ||| pteP)
      middle m'') :
    Grown kernel reserved d start (k + 1) m m'' where
  directory := mapped.directory
  tables := by
    intro i
    rw [mapped.tables, taken.tables, grown.tables, or_assoc]
    apply or_congr_right
    constructor
    · rintro (⟨v, above, below, same⟩ | rfl)
      · exact ⟨v, above, by omega, same⟩
      · exact ⟨start + k, by omega, by omega, rfl⟩
    · rintro ⟨v, above, below, same⟩
      by_cases last : v = start + k
      · exact .inr (last ▸ same.symm)
      · exact .inl ⟨v, above, by omega, same⟩
  entries := by
    intro v outside
    rw [mapped.entries, Function.update_of_ne (by omega), taken.entries]
    exact grown.entries (by omega)
  mapped := by
    intro v above below
    by_cases last : v = start + k
    · refine ⟨f, taken.usable.small, ?_, ?_⟩
      · rw [last, mapped.entries, Function.update_self]
      · rw [mapped.extended.kept, taken.filled]
        · intro free
          have once := grown.directory.once
          rw [taken.list, nodup_cons] at once
          exact once.1 free
        · rintro rfl
          exact taken.directory.unheld .directory rfl
        · exact fun i => taken.directory.unheld (.table i)
    · obtain ⟨g, small, entry, zeros⟩ := grown.mapped above (by omega)
      refine ⟨g, small, ?_, ?_⟩
      · rw [mapped.entries, Function.update_of_ne last, taken.entries, entry]
      · have framed : frame (m'.entry d v) = g := by
          rw [entry, frame_entry small (by decide)]
        have kept := (taken.extended.trans mapped.extended).page_of_mapped grown.directory
          (v := v) (by omega) (grown.present_of_mapped above (by omega))
        rw [framed] at kept
        rw [kept, zeros]
  extended := grown.extended.trans (taken.extended.trans mapped.extended)

theorem spent_next (grown : Grown kernel reserved d start k m m')
    (spent : m.freelist.length = m'.freelist.length + cost m d start k) {pte : UInt32}
    {content : Page} (taken : Taken kernel reserved d f content m' middle)
    (mapped : Mapped kernel reserved d (start + k) pte middle m'') :
    m.freelist.length = m''.freelist.length + cost m d start (k + 1) := by
  have tables := mapped.spent
  rw [taken.tables] at tables
  simp only [grown.newTable] at tables
  rw [taken.list, length_cons] at spent
  rw [cost]
  omega

end Grown

structure Refused (kernel : Image) (reserved : Nat → Prop) (d start stop : Nat) (m m' : Memory) :
    Prop where
  directory : Directory kernel reserved m' d
  entries : ∀ {v}, v < start ∨ stop ≤ v → m'.entry d v = m.entry d v
  unmapped : ∀ {v}, start ≤ v → v < stop → ¬present (m'.entry d v)
  kept : ∀ {v}, v < userPages → present (m.entry d v) →
    m'.page (frame (m.entry d v)) = m.page (frame (m.entry d v))
  untouched : ∀ {g}, reserved g → g ∉ m.freelist → m'.page g = m.page g

/-- What `allocuvm` leaves when it grows from `start` pages to `stop`: all pages are mapped,
or none of them.  If `mappages` finds no page for a page table, then the page that was to
be mapped is lost; if it is the last one, `allocuvm` does not notice. -/
inductive Allocated (kernel : Image) (reserved : Nat → Prop) (d start stop : Nat)
    (newsz : UInt32) (m : Memory) : UInt32 → Memory → Prop
  | grown {after : Memory}
      (spent : m.freelist.length = after.freelist.length + cost m d start (stop - start))
      (grown : Grown kernel reserved d start (stop - start) m after) :
      Allocated kernel reserved d start stop newsz m newsz after
  | refused {k : Nat} {after : Memory} (before : start + k < stop)
      (spent : m.freelist.length = cost m d start k)
      (refused : Refused kernel reserved d start stop m after) :
      Allocated kernel reserved d start stop newsz m 0 after
  | lost {k f : Nat} {after : Memory} (before : start + k + 1 < stop)
      (table : NewTable m d start k) (spent : m.freelist.length = cost m d start k + 1)
      (free : f ∈ m.freelist)
      (refused : Refused kernel (fun g => reserved g ∨ g = f) d start stop m after) :
      Allocated kernel reserved d start stop newsz m 0 after
  | unnoticed {k f : Nat} {after : Memory} (last : start + k + 1 = stop)
      (table : NewTable m d start k) (spent : m.freelist.length = cost m d start k + 1)
      (free : f ∈ m.freelist)
      (grown : Grown kernel (fun g => reserved g ∨ g = f) d start k m after)
      (empty : after.freelist = []) :
      Allocated kernel reserved d start stop newsz m newsz after

theorem Grown.deallocuvm {initially : Nat → Prop} (grown : Grown kernel reserved d start k m m')
    (isStart : pages oldsz = start) (larger : oldsz < newsz) (limit : newsz ≤ kernbase)
    (inside : start + k ≤ pages newsz)
    (unmapped : ∀ {v}, start ≤ v → v < pages newsz → ¬present (m.entry d v))
    (initial : Directory kernel initially m d) :
    Ensures (deallocuvm kernel d newsz oldsz) m'
      (fun _ m'' => Refused kernel reserved d start (pages newsz) m m'') fails := by
  subst isStart
  have bound := pages_le limit
  refine (deallocuvm_ensures larger limit grown.directory ?_).weaken ?_
  · by_cases none : k = 0
    · subst none
      refine .inr (.inr fun above below => ?_)
      rw [grown.entries (.inr above)]
      exact unmapped above below
    · exact .inr (.inl (Memory.table_isSome_of_present
        (grown.present_of_mapped (Nat.le_refl _) (by omega))))
  · intro _ m'' returned
    have cleared := returned.2
    exact {
      directory := cleared.directory
      entries := by
        intro v outside
        rw [cleared.entries outside, grown.entries (by omega)]
      unmapped := cleared.unmapped
      kept := by
        intro v user mapped
        have outside : v < pages oldsz ∨ pages newsz ≤ v := by
          by_contra within
          exact unmapped (by omega) (by omega) mapped
        have same := grown.entries (v := v) (by omega)
        rw [← grown.extended.page_of_mapped initial user mapped, ← same]
        exact cleared.page_of_mapped grown.directory bound outside user (same ▸ mapped)
      untouched := by
        intro g isReserved used
        have apart : ∀ holder, m'.holds d holder ≠ some g :=
          fun holder held => grown.directory.apart holder held isReserved
        rw [cleared.kept, grown.extended.kept used]
        · rintro rfl
          exact apart .directory rfl
        · exact fun i isTable => apart (.table i) (grown.extended.stays isTable)
        · exact fun free => ((grown.directory.free_iff g).mp free).1 isReserved
        · exact fun i => apart (.table i)
        · rintro v - below mapped rfl
          exact apart (.page v) (m'.holds_page (below.trans_le bound) mapped) }

theorem Grown.lose {content : Page} {middle : Memory}
    (grown : Grown kernel reserved d start k m m') (user : start + k ≤ userPages)
    (taken : Taken kernel reserved d f content m' middle) :
    Grown kernel (fun g => reserved g ∨ g = f) d start k m middle where
  directory := taken.directory
  tables := by
    intro i
    rw [taken.tables]
    exact grown.tables i
  entries := by
    intro v outside
    rw [taken.entries]
    exact grown.entries outside
  mapped := by
    intro v above below
    obtain ⟨g, small, entry, zeros⟩ := grown.mapped above below
    have framed : frame (m'.entry d v) = g := by
      rw [entry, frame_entry small (by decide)]
    have kept := taken.extended.page_of_mapped grown.directory (v := v) (by omega)
      (grown.present_of_mapped above below)
    rw [framed] at kept
    refine ⟨g, small, ?_, ?_⟩
    · rw [taken.entries, entry]
    · rw [kept, zeros]
  extended := grown.extended.trans taken.extended

theorem allocuvmLoop_ensures (limit : newsz < kernbase) (ordered : oldsz ≤ newsz)
    (unmapped : ∀ {v}, pages oldsz ≤ v → v < pages newsz → ¬present (m.entry d v))
    (initial : Directory kernel reserved m d) :
    ∀ {turns k : Nat} {m' : Memory} {a : UInt32}, a.toNat = pgsize * (pages oldsz + k) →
      pages newsz < pages oldsz + k + turns → pages oldsz + k ≤ pages newsz →
      Grown kernel reserved d (pages oldsz) k m m' →
      m.freelist.length = m'.freelist.length + cost m d (pages oldsz) k →
      Ensures (allocuvmLoop kernel d oldsz newsz turns a) m'
        (Allocated kernel reserved d (pages oldsz) (pages newsz) newsz m) fails := by
  have below : newsz ≤ kernbase := UInt32.le_of_lt limit
  have bound : pages newsz ≤ 0x80000 := pages_le below
  -- a page is mapped only if the size grows
  have larger : ∀ {k}, pages oldsz + k < pages newsz → oldsz < newsz := by
    intro k more
    refine UInt32.lt_of_le_of_ne ordered ?_
    rintro rfl
    omega
  intro turns
  induction turns with
  | zero =>
    intro k m' a starts enough inside
    omega
  | succ turns induction =>
    intro k m' a starts enough inside grown spent
    rw [allocuvmLoop]
    by_cases more : pages oldsz + k < pages newsz
    · rw [if_pos ((lt_iff_lt_pages starts).mpr more)]
      have next : (a + 4096).toNat = pgsize * (pages oldsz + (k + 1)) := by
        rw [UInt32.toNat_add, starts]
        change (4096 * (pages oldsz + k) + 4096) % 2 ^ 32 = 4096 * (pages oldsz + (k + 1))
        omega
      cases free : m'.freelist with
      | nil =>
        rw [ensures_bind, ensures_kalloc_nil free]
        rw [free, length_nil, Nat.zero_add] at spent
        refine (grown.deallocuvm rfl (larger more) below inside unmapped initial).seq ?_
        exact fun _ m'' refused => .refused more spent refused
      | cons f rest =>
        rw [ensures_bind, ensures_kalloc_cons free, ensures_bind, ensures_memset,
          ensures_bind, mappages_one starts]
        have taken := grown.directory.taken free fun _ => 0
        have missing : ¬present (m'.entry d (pages oldsz + k)) := by
          rw [grown.entries (.inr (Nat.le_refl _))]
          exact unmapped (Nat.le_add_right ..) more
        generalize ({ m' with freelist := rest } : Memory).setPage f (fun _ => 0) = middle
          at taken
        have user : pages oldsz + k ≤ userPages := Nat.le_of_lt (more.trans_le bound)
        refine (mapPage_user (vpn_of_toNat starts) (more.trans_le bound) taken.directory
          taken.open_ taken.usable (taken.entries ▸ missing) (by decide)).weaken ?_
        rintro ok m'' (⟨rfl, mapped⟩ | ⟨rfl, rfl, absent, empty⟩)
        · exact induction next (by omega) more (grown.next user taken mapped)
            (grown.spent_next spent taken mapped)
        · have lost := grown.lose user taken
          rw [taken.tables, grown.newTable] at absent
          rw [taken.list, empty] at spent
          have member : f ∈ m.freelist := grown.extended.shorter (by simp [taken.list])
          cases turns with
          | zero => omega
          | succ turns =>
          rw [allocuvmLoop]
          by_cases again : pages oldsz + (k + 1) < pages newsz
          · rw [if_pos ((lt_iff_lt_pages next).mpr again), ensures_bind,
              ensures_kalloc_nil empty]
            refine (lost.deallocuvm rfl (larger more) below inside unmapped initial).seq ?_
            exact fun _ _ refused => .lost again absent (by simp [spent, Nat.add_comm])
              member refused
          · rw [if_neg fun lower => again ((lt_iff_lt_pages next).mp lower)]
            exact .unnoticed (by omega) absent (by simp [spent, Nat.add_comm]) member lost
              empty
    · have all : pages newsz - pages oldsz = k := by omega
      rw [if_neg fun lower => more ((lt_iff_lt_pages starts).mp lower)]
      rw [← all] at spent grown
      exact .grown spent grown

theorem allocuvm_ensures (limit : newsz < kernbase) (ordered : oldsz ≤ newsz)
    (unmapped : ∀ {v}, pages oldsz ≤ v → v < pages newsz → ¬present (m.entry d v))
    (directory : Directory kernel reserved m d) :
    Ensures (allocuvm kernel d oldsz newsz) m
      (Allocated kernel reserved d (pages oldsz) (pages newsz) newsz m) fails := by
  have bound : pages newsz ≤ 0x80000 := pages_le (UInt32.le_of_lt limit)
  have below : oldsz ≤ kernbase := UInt32.le_trans ordered (UInt32.le_of_lt limit)
  have grows : pages oldsz ≤ pages newsz := by
    rw [UInt32.le_iff_toNat_le] at ordered
    change (oldsz.toNat + 4095) / 4096 ≤ (newsz.toNat + 4095) / 4096
    omega
  rw [allocuvm, if_neg (UInt32.not_le.mpr limit), if_neg (UInt32.not_lt.mpr ordered)]
  exact allocuvmLoop_ensures limit ordered unmapped directory (toNat_pgroundup below)
    (by omega) grows (.zero directory _) rfl

end

structure Populated (kernel : Image) (reserved : Nat → Prop) (size k : Nat) (m : Memory)
    (d : Nat) : Prop where
  directory : Directory kernel reserved m d
  tables : ∀ i, (m.table d i).isSome = true ↔ KernelTable i ∨ 1024 * i < k
  mapped : ∀ v, present (m.entry d v) ↔ KernelPage v ∨ v < k
  supervisor : ∀ {v}, userPages ≤ v → m.entry d v &&& pteU = 0
  spent : m.freelist.length + 64 + k + (k + 1023) / 1024 = size

section

variable {kernel : Image} {reserved : Nat → Prop} {m m' m'' : Memory} {d size k : Nat}
  {fails : Panic → Prop}

theorem not_kernelPage {v : Nat} (user : v < userPages) : ¬KernelPage v := by
  change v < 0x80000 at user
  unfold KernelPage
  omega

theorem Built.populated (built : Built kernel reserved size (2 ^ 20) m d) :
    Populated kernel reserved size 0 m d where
  directory := built.directory
  tables := by
    intro i
    rw [built.tables]
    unfold KernelTable
    omega
  mapped := by
    intro v
    rw [built.mapped]
    unfold KernelPage
    omega
  supervisor := fun _ => built.supervisor _
  spent := built.spent

namespace Populated

theorem unmapped (populated : Populated kernel reserved size k m d) {v : Nat} (above : k ≤ v)
    (user : v < userPages) : ¬present (m.entry d v) := by
  rw [populated.mapped]
  rintro (isKernel | below)
  · exact not_kernelPage user isKernel
  · omega

theorem absent_iff (populated : Populated kernel reserved size k m d) (user : k < userPages) :
    m.table d (k / nptentries) = none ↔ k % 1024 = 0 := by
  rw [← Option.not_isSome_iff_eq_none, populated.tables]
  change k < 0x80000 at user
  change ¬(KernelTable (k / 1024) ∨ 1024 * (k / 1024) < k) ↔ _
  unfold KernelTable
  omega

theorem next (populated : Populated kernel reserved size k m d) (user : k < userPages) {f : Nat}
    {content : Page} {pte : UInt32} (taken : Taken kernel reserved d f content m m')
    (mapped : Mapped kernel reserved d k pte m' m'') (here : present pte) :
    Populated kernel reserved size (k + 1) m'' d where
  directory := mapped.directory
  tables := by
    intro i
    rw [mapped.tables, taken.tables, populated.tables, or_assoc]
    apply or_congr_right
    change _ ∨ i = k / 1024 ↔ _
    omega
  mapped := by
    intro v
    rw [mapped.entries, Function.update_apply, taken.entries]
    split
    next same => exact iff_of_true here (.inr (by omega))
    next other =>
      rw [populated.mapped]
      apply or_congr_right
      omega
  supervisor := by
    intro v above
    have other : v ≠ k := by omega
    rw [mapped.entries, Function.update_of_ne other, taken.entries]
    exact populated.supervisor above
  spent := by
    have before := populated.spent
    have tables := mapped.spent
    rw [taken.tables] at tables
    simp only [populated.absent_iff user] at tables
    rw [taken.list, length_cons] at before
    split at tables
    next => omega
    next => omega

theorem newTable_iff (populated : Populated kernel reserved size k m d) {j : Nat}
    (user : k + j < userPages) : NewTable m d k j ↔ (k + j) % 1024 = 0 := by
  rw [NewTable, ← Option.not_isSome_iff_eq_none, populated.tables]
  change k + j < 0x80000 at user
  change ¬(KernelTable ((k + j) / 1024) ∨ 1024 * ((k + j) / 1024) < k) ∧
    (j = 0 ∨ (k + j) % 1024 = 0) ↔ _
  unfold KernelTable
  omega

variable {n : Nat}

theorem cost_eq (populated : Populated kernel reserved size k m d) (user : k + n ≤ userPages) :
    cost m d k n + (k + 1023) / 1024 = n + (k + n + 1023) / 1024 := by
  induction n with
  | zero => simp [cost]
  | succ n induction =>
    have before := induction (by omega)
    rw [cost]
    simp only [populated.newTable_iff (j := n) (by omega)]
    split
    next => omega
    next => omega

theorem grow (populated : Populated kernel reserved size k m d) (user : k + n ≤ userPages)
    (grown : Grown kernel reserved d k n m m')
    (spent : m.freelist.length = m'.freelist.length + cost m d k n) :
    Populated kernel reserved size (k + n) m' d where
  directory := grown.directory
  tables := by
    intro i
    rw [grown.tables, populated.tables, or_assoc]
    apply or_congr_right
    constructor
    · rintro (below | ⟨v, _, below, same⟩)
      · omega
      · change v / 1024 = i at same
        omega
    · intro below
      by_cases before : 1024 * i < k
      · exact .inl before
      · refine .inr ⟨1024 * i, by omega, below, ?_⟩
        change 1024 * i / 1024 = i
        omega
  mapped := by
    intro v
    by_cases new : k ≤ v ∧ v < k + n
    · exact iff_of_true (grown.present_of_mapped new.1 new.2) (.inr new.2)
    · rw [grown.entries (by omega), populated.mapped]
      apply or_congr_right
      omega
  supervisor := by
    intro v above
    rw [grown.entries (by omega)]
    exact populated.supervisor above
  spent := by
    have before := populated.spent
    have taken := populated.cost_eq user
    omega

theorem allocated {stop : Nat} {newsz result : UInt32}
    (populated : Populated kernel reserved size k m d) (inside : stop ≤ userPages)
    (grows : k ≤ stop)
    (room : stop + (stop + 1023) / 1024 ≤ m.freelist.length + k + (k + 1023) / 1024)
    (allocated : Allocated kernel reserved d k stop newsz m result m') :
    result = newsz ∧ Populated kernel reserved size stop m' d ∧
      Grown kernel reserved d k (stop - k) m m' := by
  have sum : k + (stop - k) = stop := by omega
  cases allocated with
  | grown spent grown =>
    have all := populated.grow (by rwa [sum]) grown spent
    rw [sum] at all
    exact ⟨rfl, all, grown⟩
  | @refused j _ before spent _ | @lost j _ _ before _ spent _ _ =>
    have used := populated.cost_eq (n := j) (by omega)
    omega
  | @unnoticed j _ _ last table spent _ _ _ =>
    have used := populated.cost_eq (n := j) (by omega)
    have boundary := (populated.newTable_iff (j := j) (by omega)).mp table
    omega

end Populated

end

end StraceXv6.Kernel.Vm
