import StraceXv6.Kernel.Vm.Setup

namespace StraceXv6.Kernel.Vm

open List Data Data.Command

/-! Shrinking, growing and freeing the user's part of a page directory. -/

section

variable {kernel : Image} {reserved : Nat → Prop} {m m' m'' : Memory} {d v start stop : Nat}
  {fails : Panic → Prop} {sz oldsz newsz : UInt32}

theorem lt_iff_lt_pages {a : UInt32} (starts : a.toNat = pgsize * v) : a < sz ↔ v < pages sz := by
  rw [UInt32.lt_iff_toNat_lt, starts, pages]
  change 4096 * v < sz.toNat ↔ v < (sz.toNat + 4095) / 4096
  omega

theorem pages_le (below : sz ≤ kernbase) : pages sz ≤ userPages := by
  rw [UInt32.le_iff_toNat_le] at below
  change sz.toNat ≤ 0x80000000 at below
  change (sz.toNat + 4095) / 4096 ≤ 0x80000
  omega

theorem toNat_pgroundup (below : sz ≤ kernbase) : (pgroundup sz).toNat = pgsize * pages sz := by
  rw [UInt32.le_iff_toNat_le] at below
  change sz.toNat ≤ 0x80000000 at below
  have sum : (sz + 4096 - 1).toNat = sz.toNat + 4095 := by
    rw [UInt32.toNat_sub, UInt32.toNat_add]
    change (2 ^ 32 - 1 + (sz.toNat + 4096) % 2 ^ 32) % 2 ^ 32 = _
    omega
  change (pgrounddown (sz + 4096 - 1)).toNat = pgsize * ((sz.toNat + 4095) / pgsize)
  rw [toNat_pgrounddown, vpn, sum]

structure Cleared (kernel : Image) (reserved : Nat → Prop) (d start stop : Nat) (m m' : Memory) :
    Prop where
  directory : Directory kernel reserved m' d
  tables : m'.table d = m.table d
  entries : ∀ {v}, v < start ∨ stop ≤ v → m'.entry d v = m.entry d v
  unmapped : ∀ {v}, start ≤ v → v < stop → ¬present (m'.entry d v)
  freed : ∀ {g}, g ∈ m'.freelist → g ∈ m.freelist ∨
    ∃ v, start ≤ v ∧ v < stop ∧ present (m.entry d v) ∧ frame (m.entry d v) = g
  kept : ∀ {g}, g ∉ m.freelist → (∀ i, m.table d i ≠ some g) →
    (∀ v, start ≤ v → v < stop → present (m.entry d v) → frame (m.entry d v) ≠ g) →
    m'.page g = m.page g

namespace Cleared

variable {start stop : Nat}

theorem page_of_reserved (cleared : Cleared kernel reserved d start stop m m')
    (directory : Directory kernel reserved m d) (user : stop ≤ userPages) {g : Nat}
    (kept : reserved g) : m'.page g = m.page g := by
  apply cleared.kept
  · exact fun free => ((directory.free_iff g).mp free).1 kept
  · exact fun i isTable => directory.apart (.table i) isTable kept
  · intro v _ below mapped same
    have held := m.holds_page (below.trans_le user) mapped
    rw [same] at held
    exact directory.accounted.apart held kept

theorem page_of_mapped (cleared : Cleared kernel reserved d start stop m m')
    (directory : Directory kernel reserved m d) (limit : stop ≤ userPages) {v : Nat}
    (outside : v < start ∨ stop ≤ v) (user : v < userPages) (mapped : present (m.entry d v)) :
    m'.page (frame (m.entry d v)) = m.page (frame (m.entry d v)) := by
  apply cleared.kept
  · exact fun free => ((directory.free_iff _).mp free).2 _ (m.holds_page user mapped)
  · exact directory.frame_ne_table user mapped
  · intro u above below also same
    have equal := directory.frame_inj (below.trans_le limit) also user mapped same
    omega

end Cleared

structure Swept (kernel : Image) (reserved : Nat → Prop) (d : Nat) (swept : Nat → Prop)
    (m m' : Memory) : Prop where
  directory : Directory kernel reserved m' d
  tables : m'.table d = m.table d
  entries : ∀ {v}, ¬(swept v ∧ present (m.entry d v)) → m'.entry d v = m.entry d v
  unmapped : ∀ {v}, swept v → ¬present (m'.entry d v)
  freed : ∀ {g}, g ∈ m'.freelist → g ∈ m.freelist ∨
    ∃ v, swept v ∧ present (m.entry d v) ∧ frame (m.entry d v) = g
  kept : ∀ {g}, g ∉ m.freelist → (∀ i, m.table d i ≠ some g) →
    (∀ v, swept v → present (m.entry d v) → frame (m.entry d v) ≠ g) →
    m'.page g = m.page g

namespace Swept

variable {first second : Nat → Prop}

theorem none (directory : Directory kernel reserved m d)
    (unmapped : ∀ {v}, first v → ¬present (m.entry d v)) :
    Swept kernel reserved d first m m :=
  ⟨directory, rfl, fun _ => rfl, unmapped, .inl, fun _ _ _ => rfl⟩

theorem congr (swept : Swept kernel reserved d first m m')
    (same : ∀ {v}, present (m.entry d v) → (second v ↔ first v)) :
    Swept kernel reserved d second m m' where
  directory := swept.directory
  tables := swept.tables
  entries := fun outside => swept.entries fun both => outside ⟨(same both.2).mpr both.1, both.2⟩
  unmapped := by
    intro v member
    by_cases mapped : present (m.entry d v)
    · exact swept.unmapped ((same mapped).mp member)
    · rw [swept.entries fun both => mapped both.2]
      exact mapped
  freed := by
    intro g free
    rcases swept.freed free with before | ⟨v, member, mapped, framed⟩
    · exact .inl before
    · exact .inr ⟨v, (same mapped).mpr member, mapped, framed⟩
  kept := fun used notTable notMapped => swept.kept used notTable fun v member mapped =>
    notMapped v ((same mapped).mpr member) mapped

theorem trans (before : Swept kernel reserved d first m m')
    (after : Swept kernel reserved d second m' m'') (apart : ∀ {v}, first v → ¬second v) :
    Swept kernel reserved d (fun v => first v ∨ second v) m m'' where
  directory := after.directory
  tables := after.tables.trans before.tables
  entries := by
    intro v outside
    have same := before.entries fun both => outside ⟨.inl both.1, both.2⟩
    rw [← same]
    apply after.entries
    rw [same]
    exact fun both => outside ⟨.inr both.1, both.2⟩
  unmapped := by
    rintro v (early | late)
    · rw [after.entries fun both => apart early both.1]
      exact before.unmapped early
    · exact after.unmapped late
  freed := by
    intro g free
    rcases after.freed free with free | ⟨v, member, mapped, framed⟩
    · rcases before.freed free with free | ⟨v, member, rest⟩
      · exact .inl free
      · exact .inr ⟨v, .inl member, rest⟩
    · rw [before.entries fun both => apart both.1 member] at mapped framed
      exact .inr ⟨v, .inr member, mapped, framed⟩
  kept := by
    intro g used notTable notMapped
    rw [after.kept, before.kept used notTable fun v member => notMapped v (.inl member)]
    · intro free
      rcases before.freed free with free | ⟨v, member, mapped, framed⟩
      · exact used free
      · exact notMapped v (.inl member) mapped framed
    · rw [before.tables]
      exact notTable
    · intro v member
      rw [before.entries fun both => apart both.1 member]
      exact notMapped v (.inr member)

theorem cleared {start stop : Nat}
    (swept : Swept kernel reserved d (fun v => start ≤ v ∧ v < stop) m m') :
    Cleared kernel reserved d start stop m m' where
  directory := swept.directory
  tables := swept.tables
  entries := fun outside => swept.entries fun both => by omega
  unmapped := fun above below => swept.unmapped ⟨above, below⟩
  freed := by
    intro g free
    rcases swept.freed free with before | ⟨v, ⟨above, below⟩, rest⟩
    · exact .inl before
    · exact .inr ⟨v, above, below, rest⟩
  kept := fun used notTable notMapped => swept.kept used notTable fun v within =>
    notMapped v within.1 within.2

end Swept

theorem freeEntry_ensures (directory : Directory kernel reserved m d) {t : Nat}
    (user : v < userPages) (isTable : m.table d (v / nptentries) = some t) :
    Ensures (freeEntry kernel ⟨t, v % nptentries⟩) m
      (fun _ m' => Swept kernel reserved d (· = v) m m') fails := by
  simp only [freeEntry, ensures_bind, ensures_getEntry, ← Memory.entry_eq isTable]
  by_cases mapped : present (m.entry d v)
  · have usable := directory.usable_of_holds (.page v) (m.holds_page user mapped)
    have somewhere : pteAddr (m.entry d v) ≠ 0 := by
      have positive := usable.pos
      rw [frame] at positive
      intro zero
      rw [zero] at positive
      cases positive
    simp only [if_pos mapped, if_neg somewhere, ensures_bind, ensures_kfree usable,
      ensures_setEntry]
    have notDirectory : t ≠ d := by
      rintro rfl
      exact directory.table_ne_directory _ isTable
    have filled := Memory.entries_setPage (directory.frame_ne_directory user mapped)
      (directory.frame_ne_table user mapped) (m := m) fun _ => 1
    have result := directory.unmap user isTable mapped
    generalize framed : frame (m.entry d v) = f at *
    obtain ⟨tables, entries⟩ := Memory.entries_setEntryAt
      (m := m.put f) (d := d) (v := v) (t := t) ((congrFun filled.1 _).trans isTable)
      (fun also => directory.table_inj ((congrFun filled.1 _).symm.trans also) isTable)
      notDirectory 0
    exact {
      directory := result
      tables := tables.trans filled.1
      entries := by
        intro u outside
        have other : u ≠ v := by
          rintro rfl
          exact outside ⟨rfl, mapped⟩
        rw [entries, Function.update_of_ne other]
        exact congrFun filled.2 u
      unmapped := by
        rintro u rfl
        rw [entries, Function.update_self]
        exact not_present_zero
      freed := by
        intro g free
        cases mem_cons.mp free with
        | inl same => exact .inr ⟨v, rfl, mapped, framed.trans same.symm⟩
        | inr before => exact .inl before
      kept := by
        intro g _ notTable notMapped
        have distinct : g ≠ f := fun same => notMapped v rfl mapped (framed.trans same.symm)
        refine (Memory.page_setEntryAt_of_ne ?_ _ _).trans
          (Memory.page_setPage_of_ne distinct _ _)
        rintro rfl
        exact notTable _ isTable }
  · rw [if_neg mapped]
    apply Swept.none directory
    rintro u rfl
    exact mapped

/-- The pages that the loop of `deallocuvm` comes to.  Where it goes past a missing page table
it stays at the same offset in the next one, so that until it has met a table it does not come
to the pages before that offset. -/
def Scanned (m : Memory) (d start stop v : Nat) : Prop :=
  start ≤ v ∧ v < stop ∧ (start % 1024 ≤ v % 1024 ∨
    ∃ i, start / 1024 ≤ i ∧ i < v / 1024 ∧ (m.table d i).isSome = true)

theorem scanned_skip (absent : m.table d (start / nptentries) = none)
    (mapped : present (m.entry d v)) :
    Scanned m d start stop v ↔ Scanned m d (start + 1024) stop v := by
  have here : v / 1024 ≠ start / 1024 := by
    intro same
    have isSome := Memory.table_isSome_of_present mapped
    change (m.table d (v / 1024)).isSome = true at isSome
    change m.table d (start / 1024) = none at absent
    rw [same, absent] at isSome
    exact Bool.false_ne_true isSome
  have other : ∀ {i}, (m.table d i).isSome = true → i ≠ start / 1024 := by
    rintro i isSome rfl
    change m.table d (start / 1024) = none at absent
    rw [absent] at isSome
    exact Bool.false_ne_true isSome
  constructor
  · rintro ⟨above, below, offset | ⟨i, first, last, isSome⟩⟩
    · exact ⟨by omega, below, .inl (by omega)⟩
    · have differs := other isSome
      exact ⟨by omega, below, .inr ⟨i, by omega, last, isSome⟩⟩
  · rintro ⟨above, below, offset | ⟨i, first, last, isSome⟩⟩
    · exact ⟨by omega, below, .inl (by omega)⟩
    · exact ⟨by omega, below, .inr ⟨i, by omega, last, isSome⟩⟩

theorem scanned_iff (gapless : start % 1024 = 0 ∨ (m.table d (start / nptentries)).isSome = true) :
    Scanned m d start stop v ↔ start ≤ v ∧ v < stop := by
  refine ⟨fun scanned => ⟨scanned.1, scanned.2.1⟩, fun within => ⟨within.1, within.2, ?_⟩⟩
  rcases gapless with boundary | isSome
  · exact .inl (by omega)
  · by_cases same : v / 1024 = start / 1024
    · exact .inl (by omega)
    · exact .inr ⟨start / 1024, Nat.le_refl _, by omega, isSome⟩

theorem deallocuvmLoop_ensures (limit : pages oldsz ≤ userPages) :
    ∀ {turns : Nat} {m : Memory} {a : UInt32} {v : Nat}, a.toNat = pgsize * v →
      0 < turns → pages oldsz < v + turns → Directory kernel reserved m d →
      Ensures (deallocuvmLoop kernel d oldsz turns a) m
        (fun _ m' => Swept kernel reserved d (Scanned m d v (pages oldsz)) m m') fails := by
  intro turns
  induction turns with
  | zero =>
    intro m a v starts positive
    exact absurd positive (Nat.lt_irrefl 0)
  | succ turns induction =>
    intro m a v starts _ enough directory
    rw [deallocuvmLoop]
    by_cases more : v < pages oldsz
    · rw [if_pos ((lt_iff_lt_pages starts).mpr more), ensures_bind, ensures_walkpgdir,
        vpn_of_toNat starts]
      have bound : v < 0x80000 := more.trans_le limit
      cases found : m.table d (v / nptentries) with
      | none =>
        have next : (a + (1024 - 1) * 4096 + 4096).toNat = pgsize * (v + 1024) := by
          rw [UInt32.toNat_add, UInt32.toNat_add, starts]
          change ((4096 * v + 0x3FF000) % 2 ^ 32 + 4096) % 2 ^ 32 = 4096 * (v + 1024)
          omega
        refine (induction next (by omega) (by omega) directory).weaken ?_
        exact fun _ m' swept => swept.congr fun mapped => scanned_skip found mapped
      | some t =>
        have next : (a + 4096).toNat = pgsize * (v + 1) := by
          rw [UInt32.toNat_add, starts]
          change (4096 * v + 4096) % 2 ^ 32 = 4096 * (v + 1)
          omega
        refine (freeEntry_ensures directory bound found).seq ?_
        intro _ m' first
        refine (induction next (by omega) (by omega) first.directory).weaken ?_
        intro _ m'' rest
        have here : (m.table d (v / nptentries)).isSome = true := by
          rw [found]
          rfl
        have after : (v + 1) % 1024 = 0 ∨ (m'.table d ((v + 1) / nptentries)).isSome = true := by
          by_cases boundary : (v + 1) % 1024 = 0
          · exact .inl boundary
          · have same : (v + 1) / nptentries = v / nptentries := by
              change (v + 1) / 1024 = v / 1024
              omega
            rw [first.tables, same]
            exact .inr here
        refine (first.trans rest ?_).congr fun {u} _ => ?_
        · rintro u rfl scanned
          exact absurd scanned.1 (Nat.not_succ_le_self u)
        · rw [scanned_iff (.inr here), scanned_iff after]
          omega
    · rw [if_neg fun below => more ((lt_iff_lt_pages starts).mp below)]
      apply Swept.none directory
      rintro u ⟨above, below, _⟩
      omega

theorem deallocuvm_sweeps (smaller : newsz < oldsz) (limit : oldsz ≤ kernbase)
    (directory : Directory kernel reserved m d) :
    Ensures (deallocuvm kernel d oldsz newsz) m
      (fun result m' => result = newsz ∧
        Swept kernel reserved d (Scanned m d (pages newsz) (pages oldsz)) m m') fails := by
  have below : newsz ≤ kernbase := UInt32.le_trans (UInt32.le_of_lt smaller) limit
  have bound := pages_le limit
  rw [deallocuvm, if_neg (UInt32.not_le.mpr smaller)]
  refine (deallocuvmLoop_ensures bound (toNat_pgroundup below) (by decide) ?_ directory).seq ?_
  · change _ ≤ 0x80000 at bound
    omega
  · exact fun _ m' swept => ⟨rfl, swept⟩

theorem deallocuvm_ensures (smaller : newsz < oldsz) (limit : oldsz ≤ kernbase)
    (directory : Directory kernel reserved m d) (gapless : pages newsz % 1024 = 0 ∨
      (m.table d (pages newsz / nptentries)).isSome = true ∨
      ∀ {u}, pages newsz ≤ u → u < pages oldsz → ¬present (m.entry d u)) :
    Ensures (deallocuvm kernel d oldsz newsz) m
      (fun result m' => result = newsz ∧
        Cleared kernel reserved d (pages newsz) (pages oldsz) m m') fails := by
  refine (deallocuvm_sweeps smaller limit directory).weaken ?_
  intro _ m' returned
  refine ⟨returned.1, (returned.2.congr fun {v} mapped => ?_).cleared⟩
  rcases gapless with boundary | isSome | nothing
  · exact (scanned_iff (.inl boundary)).symm
  · exact (scanned_iff (.inr isSome)).symm
  · exact ⟨fun within => absurd mapped (nothing within.1 within.2),
      fun scanned => ⟨scanned.1, scanned.2.1⟩⟩

theorem freeTables_ensures (usable : ∀ {i t}, m.table d i = some t → kernel.Usable t ∧ t ≠ d)
    (alone : ∀ {i j t}, m.table d i = some t → m.table d j = some t → i = j) :
    ∀ {indices : List Nat} {m' : Memory}, indices.Nodup → m'.page d = m.page d →
      m'.freelist.Nodup → (∀ {i t}, i ∈ indices → m.table d i = some t → t ∉ m'.freelist) →
      Ensures (freeTables kernel d indices) m'
        (fun _ m'' =>
          m''.freelist.Nodup ∧
          (∀ f, f ∈ m''.freelist ↔
            f ∈ m'.freelist ∨ ∃ i ∈ indices, m.table d i = some f) ∧
          ∀ g, (∀ i, m.table d i ≠ some g) → m''.page g = m'.page g)
        fails := by
  intro indices
  induction indices with
  | nil =>
    intro m' _ _ once _
    exact ⟨once, fun f => by simp, fun _ _ => rfl⟩
  | cons i rest induction =>
    intro m' distinct same once apart
    rw [nodup_cons] at distinct
    have tables : m'.table d = m.table d := Memory.table_congr same
    simp only [freeTables, ensures_bind, ensures_getEntry]
    by_cases found : present (m'.entryAt ⟨d, i⟩)
    · have isTable : m.table d i = some (frame (m'.entryAt ⟨d, i⟩)) := by
        rw [← tables]
        exact if_pos found
      obtain ⟨accepted, notDirectory⟩ := usable isTable
      rw [if_pos found, ensures_bind, ensures_kfree accepted]
      have absent := apart mem_cons_self isTable
      generalize frame (m'.entryAt ⟨d, i⟩) = t at *
      refine (induction distinct.2 ?_ (nodup_cons.mpr ⟨absent, once⟩) ?_).weaken ?_
      · exact (Memory.page_setPage_of_ne notDirectory.symm _ _).trans same
      · intro j s member also free
        cases mem_cons.mp free with
        | inl equal =>
          subst equal
          exact distinct.1 (alone isTable also ▸ member)
        | inr before => exact apart (mem_cons_of_mem i member) also before
      · rintro _ m'' ⟨once, free, kept⟩
        refine ⟨once, fun f => ?_, fun g notTable => ?_⟩
        · rw [free f]
          change (f ∈ t :: m'.freelist ∨ _) ↔ _
          simp only [mem_cons, exists_eq_or_imp, isTable, Option.some.injEq]
          rw [eq_comm, or_assoc, or_left_comm]
        · rw [kept g notTable]
          apply Memory.page_setPage_of_ne
          rintro rfl
          exact notTable i isTable
    · have noTable : m.table d i = none := by
        rw [← tables]
        exact if_neg found
      rw [if_neg found]
      refine (induction distinct.2 same once fun member => apart
        (mem_cons_of_mem i member)).weaken ?_
      rintro _ m'' ⟨once, free, kept⟩
      refine ⟨once, fun f => ?_, kept⟩
      rw [free f]
      simp [noTable]

structure Freed (kernel : Image) (reserved : Nat → Prop) (m m' : Memory) : Prop where
  sound : Sound kernel m'
  free : ∀ f, f ∈ m'.freelist ↔ ¬reserved f
  kept : ∀ g, reserved g → m'.page g = m.page g

theorem freevm_ensures (directory : Directory kernel reserved m d) :
    Ensures (freevm kernel d) m (fun _ m' => Freed kernel reserved m m') fails := by
  have nonempty : (0 : UInt32) < kernbase := by decide
  have first : pages 0 = 0 := by decide
  have last : pages kernbase = userPages := by decide
  rw [freevm]
  refine (deallocuvm_ensures nonempty (UInt32.le_refl _) directory
    (.inl (by rw [first]))).seq ?_
  intro _ m₁ returned
  have cleared := returned.2
  rw [first, last] at cleared
  have owned := cleared.directory
  have unmapped : ∀ {v}, v < userPages → ¬present (m₁.entry d v) :=
    fun user => cleared.unmapped (Nat.zero_le _) user
  refine (freeTables_ensures (m := m₁) ?_ ?_ nodup_range rfl owned.once ?_).seq ?_
  · intro i t isTable
    refine ⟨owned.usable_of_holds (.table i) isTable, ?_⟩
    rintro rfl
    exact owned.table_ne_directory i isTable
  · exact owned.table_inj
  · intro i t _ isTable free
    exact ((owned.free_iff t).mp free).2 (.table i) isTable
  · rintro _ m₂ ⟨once, free, kept⟩
    have usable := owned.usable_of_holds .directory rfl
    rw [ensures_kfree usable]
    have inside : ∀ {i t}, m₁.table d i = some t → i ∈ List.range npdentries := by
      intro i t isTable
      by_contra outside
      rw [Memory.table_eq_none (by simpa using outside)] at isTable
      cases isTable
    have notFree : d ∉ m₂.freelist := by
      rw [free d]
      rintro (before | ⟨i, _, isTable⟩)
      · exact ((owned.free_iff d).mp before).2 .directory rfl
      · exact owned.table_ne_directory i isTable
    have all : ∀ f, f ∈ d :: m₂.freelist ↔ ¬reserved f := by
      intro f
      rw [mem_cons, free f, owned.free_iff f]
      constructor
      · rintro (rfl | ⟨kept, _⟩ | ⟨i, _, isTable⟩)
        · exact owned.apart .directory rfl
        · exact kept
        · exact owned.apart (.table i) isTable
      · intro open_
        by_cases held : ∃ holder, m₁.holds d holder = some f
        · obtain ⟨holder, held⟩ := held
          cases holder with
          | directory => exact .inl (Option.some.inj held).symm
          | table i => exact .inr (.inr ⟨i, inside held, held⟩)
          | page v =>
            rw [Memory.holds_page_eq_some] at held
            exact absurd held.1.2 (unmapped held.1.1)
        · exact .inr (.inl ⟨open_, not_exists.mp held⟩)
    exact {
      sound := {
        once := nodup_cons.mpr ⟨notFree, once⟩
        usable := fun member => owned.usable ((all _).mp member) }
      free := all
      kept := by
        intro g isReserved
        have distinct : g ≠ d := by
          rintro rfl
          exact owned.apart .directory rfl isReserved
        refine (Memory.page_setPage_of_ne distinct _ _).trans ?_
        rw [kept g fun i isTable => owned.apart (.table i) isTable isReserved]
        exact cleared.page_of_reserved directory (Nat.le_refl _) isReserved }

end

end StraceXv6.Kernel.Vm
