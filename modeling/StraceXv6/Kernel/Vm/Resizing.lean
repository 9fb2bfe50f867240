import StraceXv6.Kernel.Vm.Leaks

namespace StraceXv6.Kernel.Vm

open List Data Data.Command

/-! What `deallocuvm` and `allocuvm` do to any page directory, between any two sizes. -/

def Memory.frames (m : Memory) (d start stop : Nat) : List Nat :=
  ((List.range' start (stop - start)).filter fun v => present (m.entry d v)).map
    fun v => frame (m.entry d v)

/-- The pages from `start` up to `stop` are gone, each of their frames is freed once, and
the other pages are as before. -/
structure Deallocated (d start stop : Nat) (m m' : Memory) : Prop where
  unmapped : ∀ {v}, start ≤ v → v < stop → ¬present (m'.entry d v)
  freed : m'.freelist.Perm (m.frames d start stop ++ m.freelist)
  others : ∀ {v}, v < start ∨ stop ≤ v → m'.entry d v = m.entry d v

/-- Behind a gap of page tables at `start`, no page is present at a lower offset in its table
than that of `start`, unless there is a table before it. -/
def Unskipped (m : Memory) (d start stop : Nat) : Prop :=
  ∀ v, start ≤ v → v < stop → v % nptentries < start % nptentries → present (m.entry d v) →
    ∃ i, start / nptentries ≤ i ∧ i < v / nptentries ∧ (m.table d i).isSome = true

section

variable {kernel : Image} {reserved : Nat → Prop} {m m' : Memory} {d start stop g : Nat}
  {fails : Panic → Prop} {newsz oldsz result : UInt32}

theorem Memory.mem_frames :
    g ∈ m.frames d start stop ↔
      ∃ v, start ≤ v ∧ v < stop ∧ present (m.entry d v) ∧ frame (m.entry d v) = g := by
  simp only [frames, mem_map, mem_filter, mem_range'_1, decide_eq_true_eq]
  constructor
  · rintro ⟨v, ⟨⟨above, below⟩, mapped⟩, framed⟩
    exact ⟨v, above, by omega, mapped, framed⟩
  · rintro ⟨v, above, below, mapped, framed⟩
    exact ⟨v, ⟨⟨above, by omega⟩, mapped⟩, framed⟩

theorem Cleared.mem_freelist (cleared : Cleared kernel reserved d start stop m m')
    (open_ : ¬reserved g)
    (unheld : ∀ holder, m.holds d holder = some g → ∃ v, start ≤ v ∧ v < stop ∧ holder = .page v) :
    g ∈ m'.freelist := by
  refine (cleared.directory.free_iff g).mpr ⟨open_, fun holder held => ?_⟩
  cases holder with
  | directory =>
    obtain ⟨v, _, _, impossible⟩ := unheld .directory held
    cases impossible
  | table i =>
    have before : m.holds d (.table i) = some g := (congrFun cleared.tables i).symm.trans held
    obtain ⟨v, _, _, impossible⟩ := unheld _ before
    cases impossible
  | page u =>
    obtain ⟨⟨user, mapped⟩, framed⟩ := Memory.holds_page_eq_some.mp held
    have outside : u < start ∨ stop ≤ u := by
      by_contra within
      exact cleared.unmapped (by omega) (by omega) mapped
    rw [cleared.entries outside] at mapped framed
    obtain ⟨v, above, below, same⟩ := unheld (.page u)
      (Memory.holds_page_eq_some.mpr ⟨⟨user, mapped⟩, framed⟩)
    obtain rfl := Holder.page.inj same
    omega

namespace Directory

theorem nodup_frames (directory : Directory kernel reserved m d) (user : stop ≤ userPages) :
    (m.frames d start stop ++ m.freelist).Nodup := by
  refine nodup_append.mpr ⟨?_, directory.once, ?_⟩
  · refine List.Nodup.map_on ?_ (List.Nodup.filter _ nodup_range')
    intro u isFirst v isSecond same
    rw [mem_filter, mem_range'_1, decide_eq_true_eq] at isFirst isSecond
    exact directory.frame_inj (by omega) isFirst.2 (by omega) isSecond.2 same
  · intro f framed g free same
    obtain ⟨v, _, below, mapped, rfl⟩ := Memory.mem_frames.mp framed
    exact ((directory.free_iff g).mp free).2 (.page v)
      (same ▸ m.holds_page (below.trans_le user) mapped)

theorem deallocated (directory : Directory kernel reserved m d)
    (cleared : Cleared kernel reserved d start stop m m') (user : stop ≤ userPages) :
    Deallocated d start stop m m' where
  unmapped := cleared.unmapped
  others := cleared.entries
  freed := by
    rw [perm_ext_iff_of_nodup cleared.directory.once (directory.nodup_frames user)]
    intro g
    rw [mem_append, Memory.mem_frames]
    constructor
    · intro free
      exact (cleared.freed free).symm
    · rintro (⟨v, above, below, mapped, framed⟩ | free)
      · have held := m.holds_page (below.trans_le user) mapped
        rw [framed] at held
        refine cleared.mem_freelist (directory.apart _ held) ?_
        exact fun holder also => ⟨v, above, below, directory.alone holder _ also held⟩
      · obtain ⟨open_, unheld⟩ := (directory.free_iff g).mp free
        exact cleared.mem_freelist open_
          fun holder held => absurd held (unheld holder)

end Directory

theorem unskipped_iff : Unskipped m d start stop ↔
    ∀ v, start ≤ v → v < stop → present (m.entry d v) → Scanned m d start stop v := by
  constructor
  · intro unskipped v above below mapped
    refine ⟨above, below, ?_⟩
    by_cases offset : start % 1024 ≤ v % 1024
    · exact .inl offset
    · exact .inr (unskipped v above below (Nat.lt_of_not_le offset) mapped)
  · intro scanned v above below offset mapped
    exact (scanned v above below mapped).2.2.resolve_left (Nat.not_le_of_lt offset)

theorem deallocuvm_skips (limit : oldsz ≤ kernbase) (directory : Directory kernel reserved m d)
    {v : Nat} (above : pages newsz ≤ v) (below : v < pages oldsz)
    (missed : ¬Scanned m d (pages newsz) (pages oldsz) v) :
    Ensures (deallocuvm kernel d oldsz newsz) m (fun _ m' => m'.entry d v = m.entry d v)
      fails := by
  have smaller : newsz < oldsz := by
    by_contra larger
    have ordered := UInt32.le_iff_toNat_le.mp (UInt32.not_lt.mp larger)
    change (newsz.toNat + 4095) / 4096 ≤ v at above
    change v < (oldsz.toNat + 4095) / 4096 at below
    omega
  refine (deallocuvm_sweeps smaller limit directory).weaken ?_
  exact fun _ m' returned => returned.2.entries fun both => missed both.1

/-- `deallocuvm` clears the range, for any directory, as long as the loop leaves no page out
behind a gap. -/
theorem deallocuvm_deallocates_iff {oldsz newsz : UInt32} (limit : oldsz ≤ kernbase)
    (directory : Directory kernel reserved m d) :
    Ensures (deallocuvm kernel d oldsz newsz) m
      (fun result m' => result = (if oldsz ≤ newsz then oldsz else newsz) ∧
        Deallocated d (pages newsz) (pages oldsz) m m') (fun _ => False) ↔
      Unskipped m d (pages newsz) (pages oldsz) := by
  have user := pages_le limit
  rw [unskipped_iff]
  constructor
  · intro ensures v above below mapped
    by_contra missed
    obtain ⟨result, m', done, deallocated⟩ := ensures.exists_ok
    have kept : Ensures (deallocuvm kernel d oldsz newsz) m _ fun _ => False :=
      deallocuvm_skips limit directory above below missed
    have same := kept.of_ok done
    exact deallocated.2.unmapped above below (same ▸ mapped)
  · intro scanned
    by_cases larger : oldsz ≤ newsz
    · have empty : pages oldsz ≤ pages newsz := by
        rw [UInt32.le_iff_toNat_le] at larger
        change (oldsz.toNat + 4095) / 4096 ≤ (newsz.toNat + 4095) / 4096
        omega
      have nothing : Cleared kernel reserved d (pages newsz) (pages oldsz) m m :=
        (Swept.none directory fun within => by omega).cleared
      rw [deallocuvm, if_pos larger, if_pos larger]
      exact ⟨rfl, directory.deallocated nothing user⟩
    · rw [if_neg larger]
      refine (deallocuvm_sweeps (UInt32.not_le.mp larger) limit directory).weaken ?_
      intro _ m' returned
      refine ⟨returned.1, directory.deallocated (returned.2.congr fun {v} mapped => ?_).cleared user⟩
      exact ⟨fun within => scanned v within.1 within.2 mapped,
        fun member => ⟨member.1, member.2.1⟩⟩

/-- The pages from `start` up to `stop` are mapped, for writing and for the user, each to a
frame of its own that was free and holds zeros; the other pages are as before. -/
structure Extended (d start stop : Nat) (m m' : Memory) : Prop where
  mapped : ∀ {v}, start ≤ v → v < stop → ∃ f ∈ m.freelist, f ∉ m'.freelist ∧
    m'.entry d v = v2p f ||| (pteW ||| pteU) ||| pteP ∧ frame (m'.entry d v) = f ∧
    m'.page f = fun _ => 0
  own : ∀ {u v}, start ≤ u → u < stop → start ≤ v → v < stop →
    frame (m'.entry d u) = frame (m'.entry d v) → u = v
  others : ∀ {v}, v < start ∨ stop ≤ v → m'.entry d v = m.entry d v

/-- The pages are as before, and what was taken is free again, but for page tables. -/
structure Restored (d : Nat) (m m' : Memory) : Prop where
  mappings : ∀ v, present (m.entry d v) ∨ present (m'.entry d v) → m'.entry d v = m.entry d v
  data : ∀ f ∈ m.freelist, f ∈ m'.freelist ∨ ∃ i, m'.table d i = some f

/-- What `allocuvm` is for. -/
def AllOrNothing (d : Nat) (oldsz newsz : UInt32) (m : Memory) (result : UInt32) (m' : Memory) :
    Prop :=
  (result = newsz ∨ result = 0) ∧
    (result = newsz → Extended d (pages oldsz) (pages newsz) m m') ∧
    (result = 0 → Restored d m m')

theorem Restored.refl (d : Nat) (m : Memory) : Restored d m m :=
  ⟨fun _ _ => rfl, fun _ free => .inl free⟩

theorem Grown.extended_of (grown : Grown kernel reserved d start (stop - start) m m')
    (directory : Directory kernel reserved m d) (user : stop ≤ userPages) (ordered : start ≤ stop)
    (unmapped : ∀ {v}, start ≤ v → v < stop → ¬present (m.entry d v)) :
    Extended d start stop m m' := by
  have sum : start + (stop - start) = stop := by omega
  have framed : ∀ {v}, start ≤ v → v < stop →
      ∃ f, m'.entry d v = v2p f ||| (pteW ||| pteU) ||| pteP ∧ frame (m'.entry d v) = f ∧
        m'.page f = fun _ => 0 := by
    intro v above below
    obtain ⟨f, small, entry, zeros⟩ := grown.mapped above (by omega)
    exact ⟨f, entry, by rw [entry, frame_entry small (by decide)], zeros⟩
  have present_of : ∀ {v}, start ≤ v → v < stop → present (m'.entry d v) :=
    fun above below => grown.present_of_mapped above (by omega)
  have others : ∀ {v}, v < start ∨ stop ≤ v → m'.entry d v = m.entry d v :=
    fun outside => grown.entries (by omega)
  refine ⟨?_, ?_, others⟩
  · intro v above below
    obtain ⟨f, entry, isFrame, zeros⟩ := framed above below
    have held : m'.holds d (.page v) = some f := by
      rw [m'.holds_page (below.trans_le user) (present_of above below), isFrame]
    refine ⟨f, ?_, ?_, entry, isFrame, zeros⟩
    · refine (directory.free_iff f).mpr ⟨grown.directory.apart _ held, fun holder before => ?_⟩
      -- whatever held the frame before still holds it
      have still : ∃ holder', m'.holds d holder' = some f ∧ holder' ≠ .page v := by
        cases holder with
        | directory => exact ⟨.directory, before, by simp⟩
        | table i => exact ⟨.table i, grown.extended.stays before, by simp⟩
        | page u =>
          obtain ⟨⟨isUser, mapped⟩, same⟩ := Memory.holds_page_eq_some.mp before
          have outside : u < start ∨ stop ≤ u := by
            by_contra within
            exact unmapped (by omega) (by omega) mapped
          rw [← others outside] at mapped same
          refine ⟨.page u, Memory.holds_page_eq_some.mpr ⟨⟨isUser, mapped⟩, same⟩, ?_⟩
          intro equal
          obtain rfl := Holder.page.inj equal
          omega
      obtain ⟨holder', also, other⟩ := still
      exact other (grown.directory.alone _ _ also held)
    · exact fun free => ((grown.directory.free_iff f).mp free).2 _ held
  · intro u v above below above' below' same
    exact grown.directory.frame_inj (below.trans_le user) (present_of above below)
      (below'.trans_le user) (present_of above' below') same

theorem Directory.restored (before : Directory kernel reserved m d)
    (after : Directory kernel reserved m' d)
    (mappings : ∀ v, present (m.entry d v) ∨ present (m'.entry d v) →
      m'.entry d v = m.entry d v) : Restored d m m' := by
  refine ⟨mappings, fun f free => ?_⟩
  obtain ⟨open_, unheld⟩ := (before.free_iff f).mp free
  by_cases table : ∃ i, m'.table d i = some f
  · exact .inr table
  · refine .inl ((after.free_iff f).mpr ⟨open_, fun holder held => ?_⟩)
    cases holder with
    | directory => exact unheld .directory held
    | table i => exact table ⟨i, held⟩
    | page v =>
      obtain ⟨⟨user, mapped⟩, framed⟩ := Memory.holds_page_eq_some.mp held
      have same := mappings v (.inr mapped)
      rw [same] at mapped framed
      exact unheld (.page v) (Memory.holds_page_eq_some.mpr ⟨⟨user, mapped⟩, framed⟩)

theorem Refused.restored (refused : Refused kernel reserved d start stop m m')
    (directory : Directory kernel reserved m d)
    (unmapped : ∀ {v}, start ≤ v → v < stop → ¬present (m.entry d v)) : Restored d m m' := by
  refine directory.restored refused.directory fun v mapped => refused.entries ?_
  by_contra within
  exact mapped.elim (unmapped (by omega) (by omega)) (refused.unmapped (by omega) (by omega))

/-- A page of the range finds a frame, and then no page table. -/
def Stranded (m : Memory) (d start stop : Nat) : Prop :=
  ∃ k, start + k < stop ∧ NewTable m d start k ∧ m.freelist.length = cost m d start k + 1

theorem Allocated.allOrNothing_iff
    (allocated : Allocated kernel reserved d (pages oldsz) (pages newsz) newsz m result m')
    (directory : Directory kernel reserved m d) (user : pages newsz ≤ userPages)
    (ordered : pages oldsz ≤ pages newsz)
    (unmapped : ∀ {v}, pages oldsz ≤ v → v < pages newsz → ¬present (m.entry d v)) :
    AllOrNothing d oldsz newsz m result m' ↔ ¬Stranded m d (pages oldsz) (pages newsz) := by
  have none : pages 0 = 0 := by decide
  -- the page that is stranded takes its frame, and would take one for the table
  have monotone : ∀ {j k}, k < j → NewTable m d (pages oldsz) k →
      cost m d (pages oldsz) k + 2 ≤ cost m d (pages oldsz) j := by
    intro j k less table
    have next : cost m d (pages oldsz) (k + 1) = cost m d (pages oldsz) k + 2 := by
      rw [cost, if_pos table]
    rcases Nat.lt_or_eq_of_le (show k + 1 ≤ j from less) with more | same
    · have later := cost_lt m d (pages oldsz) more
      omega
    · rw [← same, ← next]
  cases allocated with
  | grown spent grown =>
    refine iff_of_true ⟨.inl rfl, fun _ => grown.extended_of directory user ordered unmapped, ?_⟩ ?_
    · intro zero
      rw [zero, none] at grown
      exact directory.restored grown.directory fun v _ => grown.entries (by omega)
    · rintro ⟨k, inside, table, exactly⟩
      have more := monotone (by omega : k < pages newsz - pages oldsz) table
      omega
  | @refused j _ before spent refused =>
    refine iff_of_true ⟨.inr rfl, ?_, fun _ => refused.restored directory unmapped⟩ ?_
    · intro zero
      rw [← zero, none] at before
      omega
    · rintro ⟨k, inside, table, exactly⟩
      by_cases less : k < j
      · have more := monotone less table
        omega
      · rcases Nat.lt_or_eq_of_le (Nat.le_of_not_lt less) with more | same
        · have later := cost_lt m d (pages oldsz) more
          omega
        · rw [same] at spent
          omega
  | @lost k f _ before table spent free refused =>
    refine iff_of_false ?_ (not_not.mpr ⟨k, by omega, table, spent⟩)
    rintro ⟨_, _, restored⟩
    rcases (restored rfl).data f free with again | ⟨i, isTable⟩
    · exact ((refused.directory.free_iff f).mp again).1 (.inr rfl)
    · exact refused.directory.apart (.table i) isTable (.inr rfl)
  | @unnoticed k f _ last table spent free grown empty =>
    refine iff_of_false ?_ (not_not.mpr ⟨k, by omega, table, spent⟩)
    rintro ⟨_, extended, _⟩
    obtain ⟨g, _, _, entry, _⟩ := (extended rfl).mapped (Nat.le_add_right (pages oldsz) k)
      (by omega)
    rw [grown.entries (.inr (Nat.le_refl _))] at entry
    exact unmapped (Nat.le_add_right _ _) (by omega) (entry ▸ present_entry _ _)

theorem Allocated.grown_of (allocated : Allocated kernel reserved d start stop newsz m result m')
    (some : result ≠ 0) (unstranded : ¬Stranded m d start stop) :
    Grown kernel reserved d start (stop - start) m m' := by
  cases allocated with
  | grown _ grown => exact grown
  | refused | lost => exact absurd rfl some
  | @unnoticed k _ _ last table spent _ _ _ =>
    exact absurd ⟨k, by omega, table, spent⟩ unstranded

/-- Growth of any directory, over pages that are not mapped, with any number of free pages:
`allocuvm` maps all of them or leaves everything as it was, unless a page is stranded. -/
theorem allocuvm_allOrNothing_iff {oldsz newsz : UInt32} (ordered : oldsz ≤ newsz)
    (directory : Directory kernel reserved m d)
    (unmapped : ∀ {v}, pages oldsz ≤ v → v < pages newsz → ¬present (m.entry d v)) :
    Ensures (allocuvm kernel d oldsz newsz) m (AllOrNothing d oldsz newsz m) (fun _ => False) ↔
      (newsz < kernbase → ¬Stranded m d (pages oldsz) (pages newsz)) := by
  by_cases limit : newsz < kernbase
  · have user := pages_le (UInt32.le_of_lt limit)
    have grows : pages oldsz ≤ pages newsz := by
      rw [UInt32.le_iff_toNat_le] at ordered
      change (oldsz.toNat + 4095) / 4096 ≤ (newsz.toNat + 4095) / 4096
      omega
    have ensures : Ensures (allocuvm kernel d oldsz newsz) m _ fun _ => False :=
      allocuvm_ensures limit ordered unmapped directory
    obtain ⟨result, m', returned, allocated⟩ := ensures.exists_ok
    have same := allocated.allOrNothing_iff directory user grows unmapped
    constructor
    · exact fun all _ => same.mp (all.of_ok returned)
    · intro unstranded
      rw [Ensures, returned]
      exact same.mpr (unstranded limit)
  · refine iff_of_true ?_ fun less => absurd less limit
    rw [allocuvm, if_pos (UInt32.not_lt.mp limit)]
    refine ⟨.inr rfl, fun zero => ?_, fun _ => .refl d m⟩
    rw [← zero] at limit
    exact absurd (by decide) limit

end

theorem entryAt_zeroedMemory (free : List Nat) (slot : Slot) :
    (zeroedMemory free).entryAt slot = 0 := by
  rw [Memory.entryAt]
  exact getWord_zero _

theorem table_zeroedMemory (free : List Nat) (d i : Nat) : (zeroedMemory free).table d i = none := by
  rw [Memory.table, entryAt_zeroedMemory]
  exact if_neg not_present_zero

theorem entry_zeroedMemory (free : List Nat) (d v : Nat) : (zeroedMemory free).entry d v = 0 := by
  exact Memory.entry_eq_zero (table_zeroedMemory free d _)

variable {d : Nat} {free : List Nat} {m : Memory}

theorem directory_zeroedMemory {kernel : Image} (once : (d :: free).Nodup)
    (usable : ∀ f ∈ d :: free, kernel.Usable f) :
    Directory kernel (· ∉ d :: free) (zeroedMemory free) d := by
  obtain ⟨apart, once⟩ := nodup_cons.mp once
  have holds : ∀ {holder f}, (zeroedMemory free).holds d holder = some f →
      holder = .directory ∧ f = d := by
    intro holder f held
    cases holder with
    | directory => exact ⟨rfl, (Option.some.inj held).symm⟩
    | table i =>
      rw [Memory.holds, table_zeroedMemory] at held
      cases held
    | page v =>
      have mapped := (Memory.holds_page_eq_some.mp held).1.2
      rw [entry_zeroedMemory] at mapped
      exact absurd mapped not_present_zero
  exact {
    accounted := {
      alone := fun held also => (holds held).1.trans (holds also).1.symm
      apart := fun held => not_not.mpr ((holds held).2 ▸ mem_cons_self)
      marked_iff := by
        intro f
        rw [Memory.taken, decide_eq_true_iff]
        change f ∉ free ↔ _
        rw [mem_cons, not_or]
        constructor
        · intro taken
          by_cases same : f = d
          · exact .inr ⟨.directory, congrArg some same.symm⟩
          · exact .inl ⟨same, taken⟩
        · rintro (⟨_, taken⟩ | ⟨holder, held⟩)
          · exact taken
          · exact (holds held).2 ▸ apart }
    once := once
    usable := fun {f} member => usable f (not_not.mp member) }

theorem directory_small (once : (0x200 :: free).Nodup)
    (inside : 0x200 :: free ⊆ List.range' 0x200 200) :
    Directory smallKernel (· ∉ 0x200 :: free) (zeroedMemory free) 0x200 :=
  directory_zeroedMemory once fun _ member => sound_spareMemory.usable (inside member)

theorem not_stranded_pair {start stop : Nat} (single : stop ≤ start + 1)
    (two : m.freelist.length = 2) : ¬Stranded m d start stop := by
  rintro ⟨k, inside, _, exactly⟩
  obtain rfl : k = 0 := by omega
  rw [two, cost] at exactly
  omega

/-- One page goes where there is no page table, and there are frames for both. -/
theorem allocuvm_allOrNothing_pair :
    ∃ m', allocuvm smallKernel 0x200 0 4096 (zeroedMemory [0x201, 0x202]) = .ok (4096, m') ∧
      AllOrNothing 0x200 0 4096 (zeroedMemory [0x201, 0x202]) 4096 m' := by
  have returned : allocuvm smallKernel 0x200 0 4096 (zeroedMemory [0x201, 0x202]) =
    .ok (4096, _) := rfl
  refine ⟨_, returned, ((allocuvm_allOrNothing_iff (by decide) (directory_small (by decide)
    (by decide)) fun {v} _ _ => ?_).mpr fun _ => not_stranded_pair (by decide) rfl).of_ok returned⟩
  rw [entry_zeroedMemory]
  exact not_present_zero

/-- With one frame only, the page is not mapped and the frame is lost, but the size is
returned. -/
theorem allocuvm_strands_page :
    Directory smallKernel (· ∉ [0x200, 0x201]) (zeroedMemory [0x201]) 0x200 ∧
      ∃ m', allocuvm smallKernel 0x200 0 4096 (zeroedMemory [0x201]) = .ok (4096, m') ∧
        ¬present (m'.entry 0x200 0) ∧ m'.freelist = [] :=
  ⟨directory_small (by decide) (by decide), _, rfl, by decide, rfl⟩

theorem grown_small {oldsz newsz : UInt32} (limit : newsz < kernbase) (ordered : oldsz ≤ newsz)
    (single : pages newsz ≤ pages oldsz + 1) {result : UInt32} (some : result ≠ 0)
    (returned : allocuvm smallKernel 0x200 oldsz newsz (zeroedMemory [0x201, 0x202]) =
      .ok (result, m)) :
    Grown smallKernel (· ∉ [0x200, 0x201, 0x202]) 0x200 (pages oldsz)
      (pages newsz - pages oldsz) (zeroedMemory [0x201, 0x202]) m := by
  have ensures : Ensures (allocuvm smallKernel 0x200 oldsz newsz) (zeroedMemory [0x201, 0x202]) _
      fun _ => False :=
    allocuvm_ensures limit ordered
      (fun {v} _ _ => by rw [entry_zeroedMemory]; exact not_present_zero)
      (directory_small (by decide) (by decide))
  exact (ensures.of_ok returned).grown_of some (not_stranded_pair single rfl)

theorem exists_gap : ∃ m,
    allocuvm smallKernel 0x200 0x400000 0x401000 (zeroedMemory [0x201, 0x202]) =
        .ok (0x401000, m) ∧
      Directory smallKernel (· ∉ [0x200, 0x201, 0x202]) m 0x200 ∧
      present (m.entry 0x200 1024) ∧ m.table 0x200 0 = none := by
  have returned : allocuvm smallKernel 0x200 0x400000 0x401000 (zeroedMemory [0x201, 0x202]) =
    .ok (0x401000, _) := rfl
  exact ⟨_, returned, (grown_small (by decide) (by decide) (by decide) (by decide)
    returned).directory, by decide, by decide⟩

/-- Everything is freed from 0 on, where the loop is at the first page of each table. -/
theorem deallocuvm_deallocates_gap : ∃ m,
    allocuvm smallKernel 0x200 0x400000 0x401000 (zeroedMemory [0x201, 0x202]) =
        .ok (0x401000, m) ∧
      Ensures (deallocuvm smallKernel 0x200 0x401000 0) m
        (fun result m' => result = (if (0x401000 : UInt32) ≤ 0 then 0x401000 else 0) ∧
          Deallocated 0x200 (pages 0) (pages 0x401000) m m') (fun _ => False) := by
  obtain ⟨m, returned, directory, _, _⟩ := exists_gap
  refine ⟨m, returned, (deallocuvm_deallocates_iff (by decide) directory).mpr ?_⟩
  intro v _ _ offset
  exact absurd offset (Nat.not_lt_zero _)

/-- From 4096 on, the loop goes from the second page of the missing table to the second page
of the next one. -/
theorem deallocuvm_skips_page : ∃ m m',
    allocuvm smallKernel 0x200 0x400000 0x401000 (zeroedMemory [0x201, 0x202]) =
        .ok (0x401000, m) ∧
      Directory smallKernel (· ∉ [0x200, 0x201, 0x202]) m 0x200 ∧
      deallocuvm smallKernel 0x200 0x401000 4096 m = .ok (4096, m') ∧
      pages 4096 ≤ 1024 ∧ 1024 < pages 0x401000 ∧ present (m'.entry 0x200 1024) := by
  obtain ⟨m, returned, directory, mapped, absent⟩ := exists_gap
  have sweeps : Ensures (deallocuvm smallKernel 0x200 0x401000 4096) m _ fun _ => False :=
    deallocuvm_sweeps (by decide) (by decide) directory
  obtain ⟨result, m', done, rfl, swept⟩ := sweeps.exists_ok
  refine ⟨m, m', returned, directory, done, by decide, by decide, ?_⟩
  rw [swept.entries]
  · exact mapped
  · rintro ⟨⟨_, _, offset | ⟨i, _, before, isSome⟩⟩, _⟩
    · cases offset
    · obtain rfl : i = 0 := by omega
      rw [absent] at isSome
      exact Bool.false_ne_true isSome

end StraceXv6.Kernel.Vm
