import StraceXv6.Kernel.Vm.Isolation

namespace StraceXv6.Kernel.Vm

open List Data Data.Command

section

variable {kernel : Image} {reserved : Nat → Prop} {m m' m'' : Memory} {d size k : Nat}
  {fails : Panic → Prop}

inductive Copied (kernel : Image) (reserved : Nat → Prop) (size d : Nat) (sz : UInt32)
    (also : Nat → Memory → Prop) : Option Nat → Memory → Prop
  | done {after : Memory} (inside : pages sz ≤ userPages)
      (populated : Populated kernel reserved size (pages sz) after d)
      (holds : also (pages sz) after) : Copied kernel reserved size d sz also (some d) after
  | refused {k : Nat} {before after : Memory} (inside : k < pages sz)
      (spent : size = 64 + k + (k + 1023) / 1024)
      (freed : Freed kernel reserved before after) : Copied kernel reserved size d sz also none after
  | lost {k f : Nat} {before after : Memory} (inside : k < pages sz) (table : k % 1024 = 0)
      (spent : size = 65 + k + (k + 1023) / 1024) (open_ : ¬reserved f)
      (freed : Freed kernel (fun g => reserved g ∨ g = f) before after) :
      Copied kernel reserved size d sz also none after

variable {pgdir : Nat} {sz : UInt32}

theorem copyuvmLoop_ensures (also : Nat → Memory → Prop)
    (panics : (∀ panic, fails panic) ∨ pages sz ≤ userPages ∧
      ∀ {k m}, also k m → k < pages sz → present (m.entry pgdir k))
    (copies : ∀ {k f m middle m'}, Populated kernel reserved size k m d → also k m →
      k < pages sz → k < userPages →
      Taken kernel reserved d f (m.page (frame (m.entry pgdir k))) m middle →
      Mapped kernel reserved d k (v2p f ||| pteFlags (m.entry pgdir k) ||| pteP) middle m' →
      also (k + 1) m') :
    ∀ {turns k : Nat} {m : Memory} {i : UInt32}, i.toNat = pgsize * k → userPages < k + turns →
      k ≤ userPages → k ≤ pages sz → Populated kernel reserved size k m d → also k m →
      Ensures (copyuvmLoop kernel d pgdir sz turns i) m
        (Copied kernel reserved size d sz also) fails := by
  intro turns
  induction turns with
  | zero =>
    intro k m i _ enough inside
    omega
  | succ turns induction =>
    intro k m i starts enough inside within populated holds
    rw [copyuvmLoop]
    by_cases more : k < pages sz
    · rw [if_pos ((lt_iff_lt_pages starts).mpr more), ensures_bind, ensures_walkpgdir,
        vpn_of_toNat starts]
      have panics' : ¬present (m.entry pgdir k) → ∀ panic, fails panic := fun missing =>
        panics.elim id fun both => absurd (both.2 holds more) missing
      cases found : m.table pgdir (k / nptentries) with
      | none => exact panics' (Memory.entry_eq_zero found ▸ not_present_zero) _
      | some t =>
      simp only [Option.map_some, ensures_bind, ensures_getEntry, ← Memory.entry_eq found]
      by_cases present_ : present (m.entry pgdir k)
      case neg =>
          rw [if_pos present_]
          exact panics' present_ _
      rw [if_neg (not_not.mpr present_)]
      cases free : m.freelist with
      | nil =>
        rw [ensures_bind, ensures_kalloc_nil free]
        have spent := populated.spent
        rw [free, length_nil, Nat.zero_add] at spent
        refine (freevm_ensures populated.directory).seq ?_
        exact fun _ _ freed => .refused more spent.symm freed
      | cons f rest =>
        rw [ensures_bind, ensures_kalloc_cons free, ensures_bind, ensures_memmove,
          ensures_bind, mappages_one starts]
        have taken := populated.directory.taken free (m.page (frame (m.entry pgdir k)))
        change Ensures _ (({ m with freelist := rest } : Memory).setPage f
          (m.page (frame (m.entry pgdir k)))) _ _
        generalize ({ m with freelist := rest } : Memory).setPage f
          (m.page (frame (m.entry pgdir k))) = middle at taken
        by_cases user : k < userPages
        · have low : (pteFlags (m.entry pgdir k)).toNat < pgsize := by
            rw [toNat_pteFlags]
            exact Nat.mod_lt _ (by decide)
          have missing := populated.unmapped (Nat.le_refl k) user
          have next : (i + 4096).toNat = pgsize * (k + 1) := by
            rw [UInt32.toNat_add, starts]
            change k < 0x80000 at user
            change (4096 * k + 4096) % 2 ^ 32 = 4096 * (k + 1)
            omega
          refine (mapPage_user (vpn_of_toNat starts) user taken.directory taken.open_
            taken.usable (taken.entries ▸ missing) low).weaken ?_
          rintro ok m' (⟨rfl, mapped⟩ | ⟨rfl, rfl, absent, empty⟩)
          · rw [if_pos rfl]
            exact induction next (by omega) user more
              (populated.next user taken mapped (present_entry _ _))
              (copies populated holds more user taken mapped)
          · rw [taken.tables, populated.absent_iff user] at absent
            have spent := populated.spent
            rw [taken.list, empty, length_singleton] at spent
            rw [if_neg Bool.false_ne_true]
            refine (freevm_ensures taken.directory).seq ?_
            exact fun _ _ freed => .lost more absent (by omega) taken.open_ freed
        · have top : k = userPages := Nat.le_antisymm inside (Nat.le_of_not_lt user)
          have mapped : present (middle.entry d k) := by
            rw [taken.entries, populated.mapped]
            subst top
            exact .inl (.inl ⟨Nat.le_refl _, by decide⟩)
          refine mapPage_remap (vpn_of_toNat starts) mapped ?_
          exact panics.elim (fun all => all _) fun both => absurd both.1 (by omega)
    · rw [if_neg fun below => more ((lt_iff_lt_pages starts).mp below)]
      have all : k = pages sz := by omega
      subst all
      exact .done inside populated holds

theorem copyuvm_ensures (sound : Sound kernel m) :
    Ensures (copyuvm kernel pgdir sz) m
      (fun result m' =>
        (result = none ∧ m.freelist.length < 65 ∧ m'.freelist = []) ∨
        ∃ d size, m.freelist.length = size + 1 ∧
          Copied kernel (· ∉ m.freelist) size d sz (fun _ _ => True) result m')
      fun _ => True := by
  refine (setupkvm_ensures sound).seq ?_
  rintro result m₁ (⟨d, size, rfl, length, built, _⟩ | ⟨rfl, few, empty, _⟩)
  · refine (copyuvmLoop_ensures (fun _ _ => True) (.inl fun _ => trivial)
      (fun _ _ _ _ _ _ => trivial) rfl
      (by decide) (Nat.zero_le _) (Nat.zero_le _) built.populated trivial).weaken ?_
    exact fun result m' copied => .inr ⟨d, size, length, copied⟩
  · exact .inl ⟨rfl, few, empty⟩

end

def InUse (m : Memory) (d : Nat) : Prop :=
  ∀ holder f, m.holds d holder = some f → f ∉ m.freelist

/-- The address space of a process: user code reaches only pages below `KERNBASE`, which are
the directory's own. -/
structure AddressSpace (kernel : Image) (m : Memory) (d : Nat) : Prop where
  directory : Directory kernel
    (fun f => f ∉ m.freelist ∧ ∀ holder, m.holds d holder ≠ some f) m d
  supervisor : ∀ {v}, userPages ≤ v → m.entry d v &&& pteU = 0

section

variable {kernel : Image} {m m' : Memory} {d k size pgdir : Nat} {fails : Panic → Prop}
  {reserved : Nat → Prop} {sz : UInt32}

theorem Directory.reserved_iff (directory : Directory kernel reserved m d) (f : Nat) :
    reserved f ↔ f ∉ m.freelist ∧ ∀ holder, m.holds d holder ≠ some f := by
  rw [directory.free_iff]
  constructor
  · intro kept
    exact ⟨fun free => free.1 kept, fun holder held => directory.accounted.apart held kept⟩
  · rintro ⟨used, unheld⟩
    by_contra open_
    exact used ⟨open_, unheld⟩

theorem Populated.addressSpace (populated : Populated kernel reserved size k m d) :
    AddressSpace kernel m d where
  directory := by
    have same : (fun f => f ∉ m.freelist ∧ ∀ holder, m.holds d holder ≠ some f) = reserved :=
      funext fun f => propext (populated.directory.reserved_iff f).symm
    rw [same]
    exact populated.directory
  supervisor := populated.supervisor

theorem AddressSpace.sound (space : AddressSpace kernel m d) : Sound kernel m where
  once := space.directory.once
  usable := fun free => space.directory.usable fun reserved => reserved.1 free

theorem AddressSpace.inUse (space : AddressSpace kernel m d) : InUse m d :=
  fun holder _ held free => ((space.directory.free_iff _).mp free).2 holder held

theorem InUse.unchanged (inUse : InUse m d)
    (kept : ∀ g, g ∉ m.freelist → m'.page g = m.page g) :
    m'.table d = m.table d ∧ m'.entry d = m.entry d := by
  have same := kept d (inUse .directory d rfl)
  exact ⟨Memory.table_congr same,
    Memory.entry_congr same fun isTable => kept _ (inUse (.table _) _ isTable)⟩

structure Mirrors (m : Memory) (pgdir d k : Nat) (m' : Memory) : Prop where
  kept : ∀ g, g ∉ m.freelist → m'.page g = m.page g
  flags : ∀ {v}, v < k → pteFlags (m'.entry d v) = pteFlags (m.entry pgdir v)
  content : ∀ {v}, v < k →
    m'.page (frame (m'.entry d v)) = m.page (frame (m.entry pgdir v))

theorem Mirrors.next {f : Nat} {middle m'' : Memory} (mirrors : Mirrors m pgdir d k m')
    (inUse : InUse m pgdir) (user : k < userPages)
    (populated : Populated kernel (· ∉ m.freelist) size k m' d)
    (mapped : present (m.entry pgdir k))
    (taken : Taken kernel (· ∉ m.freelist) d f (m'.page (frame (m'.entry pgdir k))) m' middle)
    (maps : Mapped kernel (· ∉ m.freelist) d k
      (v2p f ||| pteFlags (m'.entry pgdir k) ||| pteP) middle m'') :
    Mirrors m pgdir d (k + 1) m'' := by
  have entries := (inUse.unchanged mirrors.kept).2
  have low : (pteFlags (m.entry pgdir k)).toNat < pgsize := by
    rw [toNat_pteFlags]
    exact Nat.mod_lt _ (by decide)
  have extended := taken.extended.trans maps.extended
  rw [entries] at taken maps
  have entry : m''.entry d k = v2p f ||| pteFlags (m.entry pgdir k) ||| pteP := by
    rw [maps.entries, Function.update_self]
  have others : ∀ {v}, v ≠ k → m''.entry d v = m'.entry d v := by
    intro v other
    rw [maps.entries, Function.update_of_ne other, taken.entries]
  refine ⟨fun g used => ?_, fun {v} below => ?_, fun {v} below => ?_⟩
  · rw [extended.page_of_reserved populated.directory used, mirrors.kept g used]
  · by_cases last : v = k
    · rw [last, entry, pteFlags_entry taken.usable.small low, pteFlags_or_pteP mapped]
    · rw [others last, mirrors.flags (by omega)]
  · by_cases last : v = k
    · have once := populated.directory.once
      rw [taken.list, nodup_cons] at once
      rw [last, entry, frame_entry taken.usable.small low,
        maps.extended.kept once.1 (fun same => taken.directory.unheld .directory (same ▸ rfl))
          fun i => taken.directory.unheld (.table i), taken.filled]
      exact mirrors.kept _ (inUse (.page k) _ (m.holds_page user mapped))
    · have below' : v < k := by omega
      rw [others last, extended.page_of_mapped populated.directory (by omega)
        ((populated.mapped v).mpr (.inr below')), mirrors.content below']

theorem copyuvm_mirrors (space : AddressSpace kernel m pgdir)
    (mapped : ∀ {v}, v < pages sz → present (m.entry pgdir v))
    (panics : (∀ panic, fails panic) ∨ pages sz ≤ userPages) :
    Ensures (copyuvm kernel pgdir sz) m
      (fun result m' =>
        (result = none ∧ m.freelist.length < 65) ∨
        ∃ d size, m.freelist.length = size + 1 ∧
          Copied kernel (· ∉ m.freelist) size d sz (Mirrors m pgdir d) result m')
      fails := by
  refine (setupkvm_ensures space.sound).seq ?_
  rintro result m₁ (⟨d, size, rfl, length, built, kept⟩ | ⟨rfl, few, _⟩)
  · refine (copyuvmLoop_ensures (Mirrors m pgdir d) ?_ ?_ rfl (by decide) (Nat.zero_le _)
      (Nat.zero_le _) built.populated
      ⟨kept, fun below => absurd below (Nat.not_lt_zero _),
        fun below => absurd below (Nat.not_lt_zero _)⟩).weaken ?_
    · refine panics.imp id fun inside => ⟨inside, fun {k m'} mirrors below => ?_⟩
      rw [(space.inUse.unchanged mirrors.kept).2]
      exact mapped below
    · intro k f m' middle m'' populated mirrors inside user taken maps
      exact mirrors.next space.inUse user populated (mapped inside) taken maps
    · exact fun result m' copied => .inr ⟨d, size, length, copied⟩
  · exact .inl ⟨rfl, few⟩

theorem Copied.done_of_some {e : Nat} {also : Nat → Memory → Prop}
    (copied : Copied kernel reserved size e sz also (some d) m') :
    d = e ∧ pages sz ≤ userPages ∧ Populated kernel reserved size (pages sz) m' d ∧
      also (pages sz) m' := by
  cases copied with
  | done inside populated holds => exact ⟨rfl, inside, populated, holds⟩

theorem isolated_of_mirrors (space : AddressSpace kernel m pgdir)
    (populated : Populated kernel (· ∉ m.freelist) size k m' d) (mirrors : Mirrors m pgdir d k m') :
    Isolated m' d pgdir := by
  obtain ⟨tables, entries⟩ := space.inUse.unchanged mirrors.kept
  -- what is held by the child was free, and what is held by the parent was not
  have free : ∀ holder {f}, m'.holds d holder = some f → f ∈ m.freelist :=
    fun holder {f} held => not_not.mp (populated.directory.apart holder held)
  have child : ∀ {f}, m'.Reaches d f → ∃ v, m'.holds d (.page v) = some f := by
    rintro f ⟨v, accessible, rfl⟩
    refine ⟨v, m'.holds_page ?_ accessible.1⟩
    by_contra above
    exact accessible.2 (populated.supervisor (Nat.le_of_not_lt above))
  have parent : ∀ {f}, m'.Reaches pgdir f → ∃ v, m.holds pgdir (.page v) = some f := by
    intro f reached
    rw [Memory.reaches_congr entries] at reached
    obtain ⟨v, accessible, rfl⟩ := reached
    refine ⟨v, m.holds_page ?_ accessible.1⟩
    by_contra above
    exact accessible.2 (space.supervisor (Nat.le_of_not_lt above))
  constructor
  · rintro f (reached | reached)
    · obtain ⟨v, held⟩ := child reached
      constructor
      · rintro rfl
        exact absurd (populated.directory.alone (.page v) .directory held rfl) (by simp)
      · rintro rfl
        exact space.inUse .directory _ rfl (free (.page v) held)
    · obtain ⟨v, held⟩ := parent reached
      constructor
      · rintro rfl
        exact space.inUse _ _ held (free .directory rfl)
      · rintro rfl
        exact absurd (space.directory.alone (.page v) .directory held rfl) (by simp)
  · rintro f i (reached | reached)
    · obtain ⟨v, held⟩ := child reached
      constructor
      · intro isTable
        exact absurd (populated.directory.alone (.page v) (.table i) held isTable) (by simp)
      · rw [tables]
        exact fun isTable => space.inUse (.table i) _ isTable (free (.page v) held)
    · obtain ⟨v, held⟩ := parent reached
      constructor
      · exact fun isTable => space.inUse _ _ held (free (.table i) isTable)
      · rw [tables]
        intro isTable
        exact absurd (space.directory.alone (.page v) (.table i) held isTable) (by simp)
  · intro f reached also
    obtain ⟨v, held⟩ := child reached
    obtain ⟨u, held'⟩ := parent also
    exact space.inUse _ _ held' (free (.page v) held)

theorem vpn_lt_pages {va : UInt32} (below : va < sz) : vpn va < pages sz := by
  rw [UInt32.lt_iff_toNat_lt] at below
  change va.toNat / 4096 < (sz.toNat + 4095) / 4096
  omega

theorem exists_vpn {v : Nat} (below : v < pages sz) : ∃ va, va < sz ∧ vpn va = v := by
  have bound := sz.toNat_lt
  change v < (sz.toNat + 4095) / 4096 at below
  have starts : (v2p v).toNat = pgsize * v := toNat_v2p (by omega)
  refine ⟨v2p v, ?_, vpn_of_toNat starts⟩
  rw [UInt32.lt_iff_toNat_lt, starts]
  change 4096 * v < _
  omega

/-- What a successful `copyuvm` gives to the child, and that parent and child do not see each
other's writes. -/
theorem copyuvm_copies {pgdir : Nat} {sz : UInt32} (space : AddressSpace kernel m pgdir)
    (mapped : ∀ va, va < sz → present (m.entry pgdir (vpn va)))
    (copied : copyuvm kernel pgdir sz m = .ok (some d, m')) :
    (∀ va, va < sz → m'.byte d va = m.byte pgdir va ∧
      pteFlags (m'.entry d (vpn va)) = pteFlags (m.entry pgdir (vpn va))) ∧
    (∀ v u, v < userPages → u < userPages → present (m'.entry d v) → present (m'.entry d u) →
      v ≠ u → frame (m'.entry d v) ≠ frame (m'.entry d u)) ∧
    (∀ other, InUse m other → ∀ v u, v < userPages → u < userPages →
      present (m'.entry d v) → present (m'.entry other u) →
      frame (m'.entry d v) ≠ frame (m'.entry other u)) ∧
    (∀ va, pgroundup sz ≤ va → va < kernbase → ¬present (m'.entry d (vpn va))) ∧
    ∀ writes, (∀ write ∈ writes, write.pgdir = d ∨ write.pgdir = pgdir) → ∀ va,
      (m'.perform writes).load d va =
        (m'.perform (writes.filter fun write => write.pgdir = d)).load d va ∧
      (m'.perform writes).load pgdir va =
        (m'.perform (writes.filter fun write => write.pgdir = pgdir)).load pgdir va := by
  have ensures : Ensures (copyuvm kernel pgdir sz) m _ fun _ => True :=
    copyuvm_mirrors space
      (fun below => by
        obtain ⟨va, inside, rfl⟩ := exists_vpn below
        exact mapped va inside)
      (.inl fun _ => trivial)
  obtain ⟨_, size, _, result⟩ := (ensures.of_ok copied).resolve_left
    fun none => Option.some_ne_none d none.1
  obtain ⟨rfl, inside, populated, mirrors⟩ := result.done_of_some
  have isolated := isolated_of_mirrors space populated mirrors
  have free : ∀ {v}, v < userPages → present (m'.entry d v) →
      frame (m'.entry d v) ∈ m.freelist := fun user here =>
    not_not.mp (populated.directory.accounted.apart (m'.holds_page user here))
  refine ⟨fun va below => ?_, fun v u user user' here here' distinct same => ?_,
    fun other inUse v u user user' here here' same => ?_, fun va above below => ?_,
    fun writes either va => ⟨?_, ?_⟩⟩
  · have within := vpn_lt_pages below
    exact ⟨congrFun (mirrors.content within) _, mirrors.flags within⟩
  · exact distinct (populated.directory.frame_inj user here user' here' same)
  · rw [(inUse.unchanged mirrors.kept).2] at here' same
    exact inUse (.page u) _ (m.holds_page user' here') (same ▸ free user here)
  · have small : sz ≤ kernbase := by
      change (sz.toNat + 4095) / 4096 ≤ 0x80000 at inside
      rw [UInt32.le_iff_toNat_le]
      change _ ≤ 0x80000000
      omega
    rw [UInt32.le_iff_toNat_le, toNat_pgroundup small] at above
    rw [UInt32.lt_iff_toNat_lt] at below
    change 4096 * pages sz ≤ va.toNat at above
    change va.toNat < 0x80000000 at below
    apply populated.unmapped
    · change pages sz ≤ va.toNat / 4096
      omega
    · change va.toNat / 4096 < 0x80000
      omega
  · exact (Isolated.perform_filter either isolated rfl rfl (fun _ => rfl) va).symm
  · exact (Isolated.perform_filter (fun write member => (either write member).symm)
      isolated.symm rfl rfl (fun _ => rfl) va).symm

def newProcess (kernel : Image) (sz : UInt32) : VmM (Option Nat) := do
  match ← setupkvm kernel with
  | none => return none
  | some pgdir => do
    if (← allocuvm kernel pgdir 0 sz) = 0 then return none
    else return some pgdir

theorem newProcess_ensures (sound : Sound kernel m) (limit : sz < kernbase) (nonempty : sz ≠ 0)
    (room : 66 + pages sz + (pages sz + 1023) / 1024 ≤ m.freelist.length) :
    Ensures (newProcess kernel sz) m
      (fun result m' => ∃ d size, result = some d ∧ m.freelist.length = size + 1 ∧
        Populated kernel (· ∉ m.freelist) size (pages sz) m' d) fails := by
  have inside : pages sz ≤ userPages := pages_le (UInt32.le_of_lt limit)
  refine (setupkvm_ensures sound).seq ?_
  rintro result m₁ (⟨d, size, rfl, length, built, kept⟩ | ⟨rfl, few, _⟩)
  · have populated := built.populated
    have none : pages 0 = 0 := by decide
    have spent := populated.spent
    refine (allocuvm_ensures limit (UInt32.zero_le) (fun {v} _ below => populated.unmapped
      (Nat.zero_le _) (below.trans_le inside)) populated.directory).seq ?_
    rw [none]
    intro result m' allocated
    obtain ⟨rfl, all, _⟩ := populated.allocated inside (Nat.zero_le _) (by omega) allocated
    rw [if_neg nonempty]
    exact ⟨d, size, rfl, length, all⟩
  · omega

theorem copyuvm_ok (space : AddressSpace kernel m pgdir)
    (mapped : ∀ {v}, v < pages sz → present (m.entry pgdir v)) (inside : pages sz ≤ userPages)
    (room : 66 + pages sz + (pages sz + 1023) / 1024 ≤ m.freelist.length) :
    ∃ d m', copyuvm kernel pgdir sz m = .ok (some d, m') := by
  have ensures : Ensures (copyuvm kernel pgdir sz) m _ fun _ => False :=
    copyuvm_mirrors space mapped (.inr inside)
  obtain ⟨result, m', returned, after⟩ := ensures.exists_ok
  rcases after with ⟨_, few⟩ | ⟨d, size, length, copied⟩
  · omega
  · cases copied with
    | done _ _ _ => exact ⟨d, m', returned⟩
    | refused below spent _ | lost below _ spent _ _ => omega

end

def smallKernel : Image where
  data := 0x80101000
  finish := 0x80102000
  aligned := by decide
  text := by decide
  ordered := by decide
  fits := by decide

def spareMemory : Memory where
  page := fun _ _ => 0
  freelist := List.range' 0x200 200

theorem sound_spareMemory : Sound smallKernel spareMemory where
  once := nodup_range'
  usable := by
    intro f free
    have bounds := mem_range'_1.mp free
    constructor
    · change 0x80102000 ≤ 0x80000000 + 4096 * f
      omega
    · change 4096 * f < 0xE000000
      omega

theorem copyuvm_copies_onePage :
    ∃ pgdir m d m', newProcess smallKernel 100 spareMemory = .ok (some pgdir, m) ∧
      copyuvm smallKernel pgdir 100 m = .ok (some d, m') ∧
      m'.byte d 99 = m.byte pgdir 99 := by
  have one : pages 100 = 1 := by decide
  -- the memory stays a variable, so that no step of the proof runs the commands
  have copies : ∀ memory, Sound smallKernel memory → memory.freelist.length = 200 →
      ∃ pgdir m d m', newProcess smallKernel 100 memory = .ok (some pgdir, m) ∧
        copyuvm smallKernel pgdir 100 m = .ok (some d, m') ∧
        m'.byte d 99 = m.byte pgdir 99 := by
    intro memory sound free
    have made : Ensures (newProcess smallKernel 100) memory _ fun _ => False :=
      newProcess_ensures sound (by decide) (by decide) (by rw [free, one]; decide)
    obtain ⟨_, m, returned, pgdir, size, rfl, length, populated⟩ := made.exists_ok
    have spent := populated.spent
    have mapped : ∀ {v}, v < pages 100 → present (m.entry pgdir v) :=
      fun below => (populated.mapped _).mpr (.inr below)
    obtain ⟨d, m', copied⟩ := copyuvm_ok populated.addressSpace mapped (by decide) (by omega)
    have below : (99 : UInt32) < 100 := by decide
    exact ⟨pgdir, m, d, m', returned, copied, ((copyuvm_copies populated.addressSpace
      (fun va inside => mapped (vpn_lt_pages inside)) copied).1 99 below).1⟩
  exact copies spareMemory sound_spareMemory length_range'

end StraceXv6.Kernel.Vm
