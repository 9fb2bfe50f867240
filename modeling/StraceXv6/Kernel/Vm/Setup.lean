import StraceXv6.Kernel.Vm.Mapping

namespace StraceXv6.Kernel.Vm

open Data Data.Command

structure Sound (kernel : Image) (m : Memory) : Prop where
  once : m.freelist.Nodup
  usable : ∀ {f}, f ∈ m.freelist → kernel.Usable f

/-- The pages of the kernel's mappings: physical memory and the devices. -/
def KernelPage (v : Nat) : Prop := 0x80000 ≤ v ∧ v < 0x8E000 ∨ 0xFE000 ≤ v ∧ v < 0x100000

def KernelTable (i : Nat) : Prop := 512 ≤ i ∧ i < 568 ∨ 1016 ≤ i ∧ i < 1024

def kernelTables (u : Nat) : Nat :=
  if u ≤ 0x8E000 then (u + 1023) / 1024 - 512 else 56 + ((u + 1023) / 1024 - 1016)

structure Built (kernel : Image) (reserved : Nat → Prop) (size u : Nat) (m : Memory) (d : Nat) :
    Prop where
  directory : Directory kernel reserved m d
  tables : ∀ i, (m.table d i).isSome = true ↔ KernelTable i ∧ 1024 * i < u
  mapped : ∀ v, present (m.entry d v) ↔ KernelPage v ∧ v < u
  supervisor : ∀ v, m.entry d v &&& pteU = 0
  spent : m.freelist.length + kernelTables u = size

theorem kernelTables_succ {u : Nat} (inside : KernelPage u) :
    kernelTables (u + 1) = kernelTables u + if u % 1024 = 0 then 1 else 0 := by
  unfold KernelPage at inside
  unfold kernelTables
  split
  next below =>
    rw [if_pos (by omega)]
    split
    next => omega
    next => omega
  next above =>
    rw [if_neg (by omega)]
    split
    next => omega
    next => omega

section

variable {kernel : Image} {reserved : Nat → Prop} {m m' : Memory} {d size u : Nat}
  {fails : Panic → Prop} {pa perm : UInt32}

theorem supervisor_entry {p : Nat} (physical : pa.toNat = pgsize * p)
    (supervisor : perm &&& pteU = 0) : (pa ||| perm ||| pteP) &&& pteU = 0 := by
  have low : pa.toNat &&& pteU.toNat = 0 := by
    rw [physical]
    change 2 ^ 12 * p &&& 2 ^ 2 = 0
    rw [Nat.and_two_pow, Nat.testBit_two_pow_mul]
    simp
  have clear : perm.toNat &&& pteU.toNat = 0 := by
    rw [← UInt32.toNat_and, supervisor]
    rfl
  rw [← UInt32.toNat_inj, UInt32.toNat_and, UInt32.toNat_or, UInt32.toNat_or,
    Nat.and_or_distrib_right, Nat.and_or_distrib_right, low, clear]
  rfl

theorem Built.mapped_next (built : Built kernel reserved size u m d) (inside : KernelPage u)
    {pte : UInt32} (mapped : Mapped kernel reserved d u pte m m') (here : present pte)
    (supervisor : pte &&& pteU = 0) : Built kernel reserved size (u + 1) m' d where
  directory := mapped.directory
  tables := by
    intro i
    rw [mapped.tables i, built.tables i]
    change _ ∨ i = u / 1024 ↔ _
    unfold KernelPage at inside
    unfold KernelTable
    omega
  mapped := by
    intro v
    rw [mapped.entries, Function.update_apply]
    split
    next same =>
      subst same
      exact iff_of_true here ⟨inside, Nat.lt_succ_self v⟩
    next other =>
      rw [built.mapped v]
      apply and_congr_right
      intro _
      omega
  supervisor := by
    intro v
    rw [mapped.entries, Function.update_apply]
    split
    next => exact supervisor
    next => exact built.supervisor v
  spent := by
    have before := built.spent
    have taken := mapped.spent
    have absent : m.table d (u / nptentries) = none ↔ u % 1024 = 0 := by
      rw [← Option.not_isSome_iff_eq_none, built.tables]
      change ¬(_ ∧ 1024 * (u / 1024) < u) ↔ _
      unfold KernelPage at inside
      change ¬(KernelTable (u / 1024) ∧ _) ↔ _
      unfold KernelTable
      omega
    simp only [absent] at taken
    rw [kernelTables_succ inside]
    omega

theorem Built.skip (built : Built kernel reserved size 0x8E000 m d) :
    Built kernel reserved size 0xFE000 m d where
  directory := built.directory
  tables := by
    intro i
    rw [built.tables i]
    unfold KernelTable
    omega
  mapped := by
    intro v
    rw [built.mapped v]
    unfold KernelPage
    omega
  supervisor := built.supervisor
  spent := built.spent

theorem mappages_kernel (p count : Nat) {va length : UInt32}
    (built : Built kernel reserved size u m d) (starts : va.toNat = pgsize * u)
    (sized : length.toNat = pgsize * (count + 1)) (physical : pa.toNat = pgsize * p)
    (fits : p + count < 2 ^ 20) (inside : ∀ {k}, k ≤ count → KernelPage (u + k))
    (supervisor : perm &&& pteU = 0) :
    Ensures (mappages d va length pa perm) m
      (fun ok m' =>
        if ok then Built kernel reserved size (u + (count + 1)) m' d ∧ Extends d m m'
        else m'.freelist = [] ∧ size < 64 ∧ Extends d m m') fails := by
  have last := inside (Nat.le_refl count)
  have bound : u + count < 2 ^ 20 := by
    unfold KernelPage at last
    omega
  refine mappages_ensures starts sized physical bound fits
    (fun k m' => Built kernel reserved size (u + k) m' d ∧ Extends d m m') ?_
    ⟨built, .refl d m⟩
  rintro k m' a pa within address physical ⟨built, extended⟩
  have here := inside within
  have above : userPages ≤ u + k := by
    change 0x80000 ≤ _
    unfold KernelPage at here
    omega
  have unmapped : ¬present (m'.entry d (u + k)) := by
    rw [built.mapped]
    exact fun both => absurd both.2 (Nat.lt_irrefl _)
  refine (mapPage_kernel (vpn_of_toNat address) above built.directory unmapped).weaken ?_
  rintro ok m'' (⟨rfl, mapped⟩ | ⟨rfl, rfl, absent, empty⟩)
  · exact ⟨built.mapped_next here mapped
      (by rw [present_iff, UInt32.toNat_or]; exact Nat.or_mod_two_eq_one.mpr (.inr rfl))
      (supervisor_entry physical supervisor), extended.trans mapped.extended⟩
  · refine ⟨empty, ?_, extended⟩
    have spent := built.spent
    have boundary : (u + k) % 1024 = 0 := by
      by_contra middle
      have missing : ¬(m''.table d ((u + k) / nptentries)).isSome = true := by simp [absent]
      rw [built.tables] at missing
      change ¬(KernelTable ((u + k) / 1024) ∧ 1024 * ((u + k) / 1024) < u + k) at missing
      unfold KernelPage at here
      unfold KernelTable at missing
      omega
    rw [empty] at spent
    rw [List.length_nil, Nat.zero_add] at spent
    rw [← spent]
    unfold KernelPage at here
    unfold kernelTables
    split
    next => omega
    next => omega

theorem toNat_sub_kernbase {a : UInt32} (above : kernbase.toNat ≤ a.toNat) :
    (a - kernbase).toNat = a.toNat - 0x80000000 := by
  have bound := a.toNat_lt
  change 0x80000000 ≤ a.toNat at above
  rw [UInt32.toNat_sub]
  change (2 ^ 32 - 0x80000000 + a.toNat) % 2 ^ 32 = _
  omega

theorem mapKernel_ensures (built : Built kernel reserved size userPages m d) :
    Ensures (mapKernel d (kmap kernel)) m
      (fun ok m' =>
        if ok then Built kernel reserved size (2 ^ 20) m' d ∧ Extends d m m'
        else m'.freelist = [] ∧ size < 64 ∧ Extends d m m') fails := by
  have text := kernel.text
  have bound : kernel.data.toNat < 0x8E000000 := kernel.ordered.trans_lt kernel.fits
  have aligned : kernel.data.toNat % 4096 = 0 := kernel.aligned
  obtain ⟨page, starts⟩ : ∃ page, kernel.data.toNat = 4096 * page :=
    ⟨kernel.data.toNat / 4096, by omega⟩
  change 0x80100000 < kernel.data.toNat at text
  have physical := toNat_sub_kernbase (a := kernel.data) (by change 0x80000000 ≤ _; omega)
  rw [starts] at text bound physical
  have readOnly : (0 : UInt32) &&& pteU = 0 := by decide
  have writable : pteW &&& pteU = 0 := by decide
  -- I/O space
  refine (mappages_kernel 0 255 built rfl rfl rfl (by decide) ?_
    writable).seq ?_
  · intro k within
    unfold KernelPage
    change 0x80000 ≤ 0x80000 + k ∧ 0x80000 + k < _ ∨ _
    omega
  intro ok m₁ result
  cases ok with
  | false => exact result
  | true =>
  obtain ⟨built₁, extended₁⟩ := result
  -- kernel text and read-only data
  refine (mappages_kernel 0x100 (page - 0x80101) built₁ rfl ?_ rfl
    (by omega) ?_ readOnly).seq ?_
  · rw [UInt32.toNat_sub, physical]
    change (2 ^ 32 - 0x100000 + (4096 * page - 0x80000000)) % 2 ^ 32 =
      4096 * (page - 0x80101 + 1)
    omega
  · intro k within
    unfold KernelPage
    change 0x80000 ≤ 0x80100 + k ∧ 0x80100 + k < _ ∨ _
    omega
  intro ok m₂ result
  cases ok with
  | false => exact ⟨result.1, result.2.1, extended₁.trans result.2.2⟩
  | true =>
  obtain ⟨built₂, extended₂⟩ := result
  have next : userPages + (255 + 1) + (page - 0x80101 + 1) = page := by
    change 0x80000 + 256 + _ = _
    omega
  rw [next] at built₂
  -- kernel data and the rest of memory
  refine (mappages_kernel (page - 0x80000) (0x8DFFF - page) built₂ starts ?_ ?_
    (by omega) ?_ writable).seq ?_
  · rw [UInt32.toNat_sub, physical]
    change (2 ^ 32 - (4096 * page - 0x80000000) + 0xE000000) % 2 ^ 32 =
      4096 * (0x8DFFF - page + 1)
    omega
  · rw [physical]
    change _ = 4096 * (page - 0x80000)
    omega
  · intro k within
    unfold KernelPage
    omega
  intro ok m₃ result
  cases ok with
  | false => exact ⟨result.1, result.2.1, (extended₁.trans extended₂).trans result.2.2⟩
  | true =>
  obtain ⟨built₃, extended₃⟩ := result
  have top : page + (0x8DFFF - page + 1) = 0x8E000 := by omega
  rw [top] at built₃
  -- devices
  refine (mappages_kernel 0xFE000 0x1FFF built₃.skip rfl rfl rfl
    (by decide) ?_ writable).seq ?_
  · intro k within
    unfold KernelPage
    omega
  intro ok m₄ result
  have extended := (extended₁.trans extended₂).trans extended₃
  cases ok with
  | false => exact ⟨result.1, result.2.1, extended.trans result.2.2⟩
  | true => exact ⟨result.1, extended.trans result.2⟩

theorem Built.fresh (sound : Sound kernel m) {rest : List Nat} (free : m.freelist = d :: rest) :
    Built kernel (· ∉ m.freelist) rest.length userPages
      ({ m with freelist := rest }.setPage d fun _ => 0) d := by
  generalize fresh : ({ m with freelist := rest } : Memory).setPage d (fun _ => 0) = m'
  have list : m'.freelist = rest := by rw [← fresh]; rfl
  have empty : ∀ i, m'.table d i = none := by
    intro i
    rw [Memory.table, Memory.entryAt, ← fresh, Memory.page_setPage_self, getWord_zero,
      if_neg not_present_zero]
  have zero : ∀ v, m'.entry d v = 0 := fun v => Memory.entry_eq_zero (empty _)
  have held : ∀ {holder f}, m'.holds d holder = some f ↔ holder = .directory ∧ d = f := by
    intro holder f
    cases holder with
    | directory => exact ⟨fun same => ⟨rfl, Option.some.inj same⟩, fun same => same.2 ▸ rfl⟩
    | table i =>
      change m'.table d i = some f ↔ _
      simp [empty i]
    | page v =>
      rw [Memory.holds_page_eq_some, zero]
      simp
  have once := sound.once
  rw [free, List.nodup_cons] at once
  exact {
    directory := {
      accounted := {
        alone := by
          intro first second f owned also
          rw [(held.mp owned).1, (held.mp also).1]
        apart := by
          intro holder f owned
          rw [← (held.mp owned).2, free]
          simp
        marked_iff := by
          intro f
          simp only [held, Memory.taken, list, free, decide_eq_true_iff, List.mem_cons]
          by_cases same : d = f
          · subst same
            simp [once.1]
          · simp [same, Ne.symm same] }
      once := by
        rw [list]
        exact once.2
      usable := fun kept => sound.usable (not_not.mp kept) }
    tables := by
      intro i
      rw [empty i]
      unfold KernelTable
      change false = true ↔ _ ∧ 1024 * i < 0x80000
      simp only [Bool.false_eq_true, false_iff]
      omega
    mapped := by
      intro v
      rw [zero v]
      unfold KernelPage
      change _ ↔ _ ∧ v < 0x80000
      refine iff_of_false not_present_zero ?_
      omega
    supervisor := by
      intro v
      rw [zero v]
      rfl
    spent := by
      rw [list]
      rfl }

/-- `setupkvm` takes 65 pages, or it fails and has used up the free list. -/
theorem setupkvm_ensures (sound : Sound kernel m) :
    Ensures (setupkvm kernel) m
      (fun result m' =>
        (∃ d size, result = some d ∧ m.freelist.length = size + 1 ∧
          Built kernel (· ∉ m.freelist) size (2 ^ 20) m' d ∧
          ∀ g, g ∉ m.freelist → m'.page g = m.page g) ∨
        (result = none ∧ m.freelist.length < 65 ∧ m'.freelist = [] ∧
          ∀ g, g ∉ m.freelist → m'.page g = m.page g))
      fails := by
  cases free : m.freelist with
  | nil =>
    simp only [setupkvm, ensures_bind, ensures_kalloc_nil free, ensures_pure]
    exact .inr ⟨trivial, by decide, free, fun _ _ => trivial⟩
  | cons d rest =>
    have placed : ¬devspace < p2v phystop := by decide
    simp only [setupkvm, ensures_bind, ensures_kalloc_cons free, ensures_memset,
      if_neg placed]
    have fresh := Built.fresh sound free
    rw [free] at fresh
    refine (mapKernel_ensures fresh).weaken ?_
    intro ok m' result
    have kept : Extends d (({ m with freelist := rest } : Memory).setPage d fun _ => 0) m' →
        ∀ g, g ∉ d :: rest → m'.page g = m.page g := by
      intro extended g used
      rw [extended.page_of_reserved fresh.directory used]
      rw [List.mem_cons, not_or] at used
      exact Memory.page_setPage_of_ne used.1 _ _
    cases ok with
    | false =>
      obtain ⟨empty, few, extended⟩ := result
      exact .inr ⟨rfl, Nat.succ_lt_succ few, empty, kept extended⟩
    | true =>
      obtain ⟨built, extended⟩ := result
      exact .inl ⟨d, rest.length, rfl, rfl, built, kept extended⟩

end

end StraceXv6.Kernel.Vm
