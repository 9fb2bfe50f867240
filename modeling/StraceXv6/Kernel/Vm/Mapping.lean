import StraceXv6.Kernel.Vm.Directory

namespace StraceXv6.Kernel.Vm

open Function Data Data.Command

/-! What the allocator, `walkpgdir` and `mappages` do to a page directory. -/

section

variable {A : Type} {m : Memory} {d : Nat} {fails : Panic → Prop}

@[simp] theorem ensures_getEntry (slot : Slot) {after : UInt32 → Memory → Prop} :
    Ensures (getEntry slot) m after fails ↔ after (m.entryAt slot) m := Iff.rfl

variable {after : Unit → Memory → Prop} {f : Nat}

@[simp] theorem ensures_setEntry (slot : Slot) (pte : UInt32) :
    Ensures (setEntry slot pte) m after fails ↔ after () (m.setEntryAt slot pte) := Iff.rfl

@[simp] theorem ensures_memset (page : Nat) (byte : UInt8) :
    Ensures (memset page byte) m after fails ↔ after () (m.setPage page fun _ => byte) := Iff.rfl

@[simp] theorem ensures_memmove (page source : Nat) :
    Ensures (memmove page source) m after fails ↔ after () (m.setPage page (m.page source)) :=
  Iff.rfl

theorem ensures_kalloc_nil {after : Option Nat → Memory → Prop} (empty : m.freelist = []) :
    Ensures kalloc m after fails ↔ after none m := by
  simp only [kalloc, ensures_bind, ensures_get, empty, ensures_pure]

theorem ensures_kalloc_cons {after : Option Nat → Memory → Prop} {rest : List Nat}
    (free : m.freelist = f :: rest) :
    Ensures kalloc m after fails ↔ after (some f) { m with freelist := rest } := by
  simp only [kalloc, ensures_bind, ensures_get, free, ensures_modify, ensures_pure]

theorem ensures_kfree {kernel : Image} (usable : kernel.Usable f) :
    Ensures (kfree kernel f) m after fails ↔ after () (m.put f) := by
  have physical := toNat_v2p usable.small
  have accepted : ¬(p2v (v2p f) < kernel.finish ∨ phystop ≤ v2p f) := by
    have above := usable.1
    have below := usable.2
    have bound := usable.lt
    rw [UInt32.lt_iff_toNat_lt, UInt32.le_iff_toNat_le, p2v, UInt32.toNat_add, physical]
    change _ ≤ 0x80000000 + 4096 * f at above
    change 4096 * f < 0xE000000 at below
    change ¬((4096 * f + 0x80000000) % 2 ^ 32 < _ ∨ 0xE000000 ≤ 4096 * f)
    omega
  simp only [kfree, if_neg accepted, ensures_bind, ensures_memset, ensures_modify]
  rfl

theorem ensures_walkpgdir (va : UInt32) {after : Option Slot → Memory → Prop} :
    Ensures (walkpgdir d va false) m after fails ↔
      after ((m.table d (vpn va / nptentries)).map (⟨·, vpn va % nptentries⟩)) m := by
  simp only [walkpgdir, ensures_bind, ensures_getEntry, Memory.table, pdx_eq, ptx_eq]
  split
  next => exact Iff.rfl
  next => exact Iff.rfl

end

/-- What is taken from the free list goes to page tables and to pages of the directory
at `d`; the other pages keep their content. -/
structure Extends (d : Nat) (m m' : Memory) : Prop where
  shorter : m'.freelist ⊆ m.freelist
  tables : ∀ {i t}, m'.table d i = some t → m.table d i = some t ∨ t ∈ m.freelist
  stays : ∀ {i t}, m.table d i = some t → m'.table d i = some t
  kept : ∀ {g}, g ∉ m.freelist → g ≠ d → (∀ i, m.table d i ≠ some g) → m'.page g = m.page g

namespace Extends

variable {d : Nat} {m m' m'' : Memory}

theorem refl (d : Nat) (m : Memory) : Extends d m m := ⟨fun _ => id, .inl, id, fun _ _ _ => rfl⟩

theorem trans (first : Extends d m m') (second : Extends d m' m'') : Extends d m m'' where
  shorter := fun _ member => first.shorter (second.shorter member)
  tables := by
    intro i t isTable
    cases second.tables isTable with
    | inl before => exact first.tables before
    | inr free => exact .inr (first.shorter free)
  stays := fun isTable => second.stays (first.stays isTable)
  kept := by
    intro g used notDirectory notTable
    rw [second.kept (fun free => used (first.shorter free)) notDirectory,
      first.kept used notDirectory notTable]
    intro i isTable
    cases first.tables isTable with
    | inl before => exact notTable i before
    | inr free => exact used free

variable {kernel : Image} {reserved : Nat → Prop}

theorem page_of_reserved (extends_ : Extends d m m') (directory : Directory kernel reserved m d)
    {g : Nat} (kept : reserved g) : m'.page g = m.page g := by
  apply extends_.kept
  · exact fun free => ((directory.free_iff g).mp free).1 kept
  · rintro rfl
    exact directory.apart .directory rfl kept
  · exact fun i isTable => directory.apart (.table i) isTable kept

theorem page_of_mapped (extends_ : Extends d m m') (directory : Directory kernel reserved m d)
    {v : Nat} (user : v < userPages) (mapped : present (m.entry d v)) :
    m'.page (frame (m.entry d v)) = m.page (frame (m.entry d v)) := by
  apply extends_.kept
  · exact fun free => ((directory.free_iff _).mp free).2 _ (m.holds_page user mapped)
  · exact directory.frame_ne_directory user mapped
  · exact directory.frame_ne_table user mapped

end Extends

section

variable {kernel : Image} {reserved : Nat → Prop} {m : Memory} {d : Nat}
  {fails : Panic → Prop}

structure Walked (kernel : Image) (reserved : Nat → Prop) (d i : Nat) (m : Memory) (t : Nat)
    (m' : Memory) : Prop where
  directory : Directory kernel reserved m' d
  tables : m'.table d = Function.update (m.table d) i (some t)
  entries : m'.entry d = m.entry d
  extended : Extends d m m'
  spent : m.freelist.length = m'.freelist.length + if m.table d i = none then 1 else 0

variable {m' : Memory} {t v : Nat} {reserved' : Nat → Prop} {a pa perm : UInt32}

theorem Walked.isTable {i : Nat} (walked : Walked kernel reserved d i m t m') :
    m'.table d i = some t := by
  rw [walked.tables, update_self]

theorem vpn_lt (va : UInt32) : vpn va < 2 ^ 20 := by
  have bound := va.toNat_lt
  change va.toNat / 4096 < _
  omega

theorem walkpgdir_ensures (directory : Directory kernel reserved m d) (va : UInt32) :
    Ensures (walkpgdir d va true) m
      (fun slot m' =>
        (∃ t, slot = some ⟨t, vpn va % nptentries⟩ ∧
          Walked kernel reserved d (vpn va / nptentries) m t m') ∨
        (slot = none ∧ m' = m ∧ m.table d (vpn va / nptentries) = none ∧ m.freelist = []))
      fails := by
  have inside : vpn va / nptentries < npdentries := by
    have bound := vpn_lt va
    change vpn va / 1024 < 1024
    omega
  simp only [walkpgdir, ensures_bind, ensures_getEntry, pdx_eq, ptx_eq]
  generalize vpn va / nptentries = i at inside
  by_cases found : present (m.entryAt ⟨d, i⟩)
  · have isTable : m.table d i = some (frame (m.entryAt ⟨d, i⟩)) := if_pos found
    rw [if_pos found, ensures_pure]
    refine .inl ⟨_, rfl, directory, ?_, rfl, .refl d m, ?_⟩
    · rw [← isTable, update_eq_self]
    · rw [if_neg (by simp [isTable]), Nat.add_zero]
  · have absent : m.table d i = none := if_neg found
    rw [if_neg found]
    cases free : m.freelist with
    | nil =>
      simp only [if_true, ensures_bind, ensures_kalloc_nil free, ensures_pure]
      exact .inr ⟨trivial, trivial, absent, trivial⟩
    | cons f rest =>
      simp only [if_true, ensures_bind, ensures_kalloc_cons free, ensures_memset,
        ensures_setEntry, ensures_pure]
      have open_ := directory.not_reserved_head free
      have taken := directory.take free
      have usable := directory.usable open_
      have notDirectory : f ≠ d := by
        rintro rfl
        exact directory.holds_ne_head free .directory rfl
      obtain ⟨tables, entries⟩ := Memory.entries_addTable
        (m := { m with freelist := rest }) inside usable.small notDirectory
        (fun j => directory.holds_ne_head free (.table j)) absent directory.table_ne_directory
      refine .inl ⟨f, rfl, ?_⟩
      exact {
        directory := taken.addTable open_ usable inside absent
        tables := tables
        entries := entries
        extended := {
          shorter := by
            rw [free]
            exact List.subset_cons_self f rest
          tables := by
            intro j t isTable
            have updated := (congrFun tables j).symm.trans isTable
            rw [update_apply] at updated
            split at updated
            next =>
              right
              rw [free, ← Option.some.inj updated]
              exact List.mem_cons_self
            next => exact .inl updated
          stays := by
            intro j t isTable
            have other : j ≠ i := by
              rintro rfl
              rw [absent] at isTable
              cases isTable
            exact (congrFun tables j).trans ((update_of_ne other ..).trans isTable)
          kept := by
            intro g used other _
            rw [free, List.mem_cons, not_or] at used
            refine (Memory.page_setEntryAt_of_ne other _ _).trans ?_
            exact Memory.page_setPage_of_ne used.1 _ _ }
        spent := by
          rw [if_pos absent, free]
          rfl }

structure Mapped (kernel : Image) (reserved : Nat → Prop) (d v : Nat) (pte : UInt32)
    (m m' : Memory) : Prop where
  directory : Directory kernel reserved m' d
  tables : ∀ i, (m'.table d i).isSome = true ↔
    (m.table d i).isSome = true ∨ i = v / nptentries
  entries : m'.entry d = Function.update (m.entry d) v pte
  extended : Extends d m m'
  spent : m.freelist.length =
    m'.freelist.length + if m.table d (v / nptentries) = none then 1 else 0

theorem Walked.mapped {pte : UInt32} (walked : Walked kernel reserved d (v / nptentries) m t m')
    (directory : Directory kernel reserved' (m'.setEntryAt ⟨t, v % nptentries⟩ pte) d) :
    Mapped kernel reserved' d v pte m (m'.setEntryAt ⟨t, v % nptentries⟩ pte) := by
  have isTable := walked.isTable
  have notDirectory : t ≠ d := by
    rintro rfl
    exact walked.directory.table_ne_directory _ isTable
  obtain ⟨tables, entries⟩ := Memory.entries_setEntryAt isTable
    (fun also => walked.directory.table_inj also isTable) notDirectory pte
  exact {
    directory := directory
    tables := by
      intro i
      rw [tables, walked.tables, update_apply]
      split
      next same => simp [same]
      next other => simp [other]
    entries := by rw [entries, walked.entries]
    extended := walked.extended.trans {
      shorter := fun _ => id
      tables := fun also => .inl ((congrFun tables _).symm.trans also)
      stays := (congrFun tables _).trans
      kept := by
        intro g _ _ notTable
        apply Memory.page_setEntryAt_of_ne
        rintro rfl
        exact notTable _ isTable }
    spent := walked.spent }

theorem mapPage_ensures (here : vpn a = v) (directory : Directory kernel reserved m d)
    (unmapped : ¬present (m.entry d v))
    (sets : ∀ {t m'}, Walked kernel reserved d (v / nptentries) m t m' →
      Directory kernel reserved' (m'.setEntryAt ⟨t, v % nptentries⟩ (pa ||| perm ||| pteP)) d) :
    Ensures (mapPage d a pa perm) m
      (fun ok m' =>
        (ok = true ∧ Mapped kernel reserved' d v (pa ||| perm ||| pteP) m m') ∨
        (ok = false ∧ m' = m ∧ m.table d (v / nptentries) = none ∧ m.freelist = []))
      fails := by
  subst here
  refine (walkpgdir_ensures directory a).seq ?_
  rintro slot m' (⟨t, rfl, walked⟩ | ⟨rfl, rfl, absent, empty⟩)
  · have entry : m'.entryAt ⟨t, vpn a % nptentries⟩ = m.entry d (vpn a) := by
      rw [← Memory.entry_eq walked.isTable, walked.entries]
    simp only [ensures_bind, ensures_getEntry, entry, if_neg unmapped, ensures_setEntry,
      ensures_pure]
    exact .inl ⟨trivial, walked.mapped (sets walked)⟩
  · exact .inr ⟨rfl, rfl, absent, empty⟩

theorem mapPage_user {f : Nat} (here : vpn a = v) (user : v < userPages)
    (directory : Directory kernel (fun g => reserved g ∨ g = f) m d) (open_ : ¬reserved f)
    (usable : kernel.Usable f) (unmapped : ¬present (m.entry d v)) (low : perm.toNat < pgsize) :
    Ensures (mapPage d a (v2p f) perm) m
      (fun ok m' =>
        (ok = true ∧ Mapped kernel reserved d v (v2p f ||| perm ||| pteP) m m') ∨
        (ok = false ∧ m' = m ∧ m.table d (v / nptentries) = none ∧ m.freelist = []))
      fails := by
  refine mapPage_ensures here directory unmapped ?_
  intro t m' walked
  refine walked.directory.map open_ usable user walked.isTable ?_ low
  rwa [walked.entries]

theorem mapPage_kernel (here : vpn a = v) (above : userPages ≤ v)
    (directory : Directory kernel reserved m d) (unmapped : ¬present (m.entry d v)) :
    Ensures (mapPage d a pa perm) m
      (fun ok m' =>
        (ok = true ∧ Mapped kernel reserved d v (pa ||| perm ||| pteP) m m') ∨
        (ok = false ∧ m' = m ∧ m.table d (v / nptentries) = none ∧ m.freelist = []))
      fails :=
  mapPage_ensures here directory unmapped fun walked =>
    walked.directory.setKernelEntry above walked.isTable _

/-- An entry that is present stops `mappages`. -/
theorem mapPage_remap (here : vpn a = v) (mapped : present (m.entry d v))
    {after : Bool → Memory → Prop} (remap : fails .remap) :
    Ensures (mapPage d a pa perm) m after fails := by
  subst here
  obtain ⟨t, isTable⟩ := Option.isSome_iff_exists.mp (Memory.table_isSome_of_present mapped)
  have entry := Memory.entry_eq isTable
  rw [Memory.table] at isTable
  split at isTable
  next found =>
    rw [Option.some.injEq] at isTable
    simp only [mapPage, walkpgdir, pdx_eq, ptx_eq, ensures_bind, ensures_getEntry,
      if_pos found, ensures_pure, isTable, ← entry, if_pos mapped, ensures_throw]
    exact remap
  next => cases isTable

theorem vpn_of_toNat (starts : a.toNat = pgsize * v) : vpn a = v := by
  rw [vpn, starts, Nat.mul_div_cancel_left _ (by decide)]

theorem mappages_one (starts : a.toNat = pgsize * v) (pa perm : UInt32) :
    mappages d a 4096 pa perm = mapPage d a pa perm := by
  have bound := a.toNat_lt
  have whole : pgrounddown a = a := by
    rw [← UInt32.toNat_inj, toNat_pgrounddown, vpn_of_toNat starts, starts]
  have last : pgrounddown (a + 4096 - 1) = a := by
    have sum : (a + 4096 - 1).toNat = 4096 * v + 4095 := by
      rw [UInt32.toNat_sub, UInt32.toNat_add, starts]
      rw [starts] at bound
      change 4096 * v < 2 ^ 32 at bound
      change (2 ^ 32 - 1 + (4096 * v + 4096) % 2 ^ 32) % 2 ^ 32 = _
      omega
    rw [← UInt32.toNat_inj, toNat_pgrounddown, vpn, sum, starts]
    change 4096 * ((4096 * v + 4095) / 4096) = 4096 * v
    omega
  rw [mappages, whole, last]
  change mapPage d a pa perm >>= _ = _
  conv_rhs => rw [← bind_pure (mapPage d a pa perm)]
  congr 1
  funext ok
  cases ok with
  | false => rfl
  | true => rw [if_pos rfl, if_pos rfl]

/-- The loop of `mappages`, by what holds when `k` pages are mapped. -/
theorem mappages_ensures {p count : Nat} {va size : UInt32} (starts : va.toNat = pgsize * v)
    (sized : size.toNat = pgsize * (count + 1)) (physical : pa.toNat = pgsize * p)
    (fits : v + count < 2 ^ 20) (fits' : p + count < 2 ^ 20) (invariant : Nat → Memory → Prop)
    {stopped : Memory → Prop}
    (turn : ∀ {k m a pa}, k ≤ count → a.toNat = pgsize * (v + k) → pa.toNat = pgsize * (p + k) →
      invariant k m →
      Ensures (mapPage d a pa perm) m
        (fun ok m' => if ok then invariant (k + 1) m' else stopped m') fails)
    (initially : invariant 0 m) :
    Ensures (mappages d va size pa perm) m
      (fun ok m' => if ok then invariant (count + 1) m' else stopped m') fails := by
  have whole : pgrounddown va = va := by
    rw [← UInt32.toNat_inj, toNat_pgrounddown, vpn_of_toNat starts, starts]
  have last : (pgrounddown (va + size - 1)).toNat = pgsize * (v + count) := by
    have sum : (va + size - 1).toNat = 4096 * (v + count) + 4095 := by
      rw [UInt32.toNat_sub, UInt32.toNat_add, starts, sized]
      change (2 ^ 32 - 1 + (4096 * v + 4096 * (count + 1)) % 2 ^ 32) % 2 ^ 32 = _
      omega
    rw [toNat_pgrounddown, vpn, sum]
    change 4096 * ((4096 * (v + count) + 4095) / 4096) = 4096 * (v + count)
    omega
  rw [mappages, whole]
  generalize pgrounddown (va + size - 1) = stop at last
  -- `k` pages are mapped, and the turns that are left are enough for the rest
  have loop : ∀ turns k m a pa, k ≤ count → count < k + turns → a.toNat = pgsize * (v + k) →
      pa.toNat = pgsize * (p + k) → invariant k m →
      Ensures (mappagesLoop d stop perm turns a pa) m
        (fun ok m' => if ok then invariant (count + 1) m' else stopped m') fails := by
    intro turns
    induction turns with
    | zero =>
      intro k m a pa inside enough
      exact absurd enough (by omega)
    | succ turns induction =>
      intro k m a pa inside enough address physical holds
      refine (turn inside address physical holds).seq ?_
      intro ok m' result
      cases ok with
      | false => exact result
      | true =>
        rw [if_pos rfl] at result ⊢
        by_cases done : k = count
        · subst done
          have same : a = stop := by rw [← UInt32.toNat_inj, address, last]
          rw [if_pos same]
          exact result
        · have other : a ≠ stop := by
            rw [ne_eq, ← UInt32.toNat_inj, address, last]
            change ¬4096 * (v + k) = 4096 * (v + count)
            omega
          rw [if_neg other]
          refine induction (k + 1) m' _ _ (by omega) (by omega) ?_ ?_ result
          · rw [UInt32.toNat_add, address]
            change (4096 * (v + k) + 4096) % 2 ^ 32 = 4096 * (v + (k + 1))
            omega
          · rw [UInt32.toNat_add, physical]
            change (4096 * (p + k) + 4096) % 2 ^ 32 = 4096 * (p + (k + 1))
            omega
  exact loop (2 ^ 20) 0 m va pa (Nat.zero_le _) (by omega) starts physical initially

end

end StraceXv6.Kernel.Vm
