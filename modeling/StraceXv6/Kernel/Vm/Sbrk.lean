import StraceXv6.Data.Signed
import StraceXv6.Kernel.Vm.Copy

namespace StraceXv6.Kernel.Vm

open Data Data.Command

/-- The new size of the process; `none` is the failure.  `switchuvm` changes no memory. -/
def growproc (kernel : Image) (pgdir : Nat) (sz : UInt32) (n : Int32) : VmM (Option UInt32) :=
  if 0 < n then do
    let newsz ← allocuvm kernel pgdir sz (sz + n.toUInt32)
    if newsz = 0 then return none else return some newsz
  else if n < 0 then do
    let newsz ← deallocuvm kernel pgdir sz (sz + n.toUInt32)
    if newsz = 0 then return none else return some newsz
  else return some sz

/-- The result, and the size of the process afterwards. -/
def sysSbrk (kernel : Image) (pgdir : Nat) (sz : UInt32) (n : Int32) : VmM (Int32 × UInt32) := do
  match ← growproc kernel pgdir sz n with
  | none => return (-1, sz)
  | some newsz => return (sz.toInt32, newsz)

/-- A process: exactly the pages of `[0, sz)` are mapped below `KERNBASE`. -/
structure Process (kernel : Image) (m : Memory) (pgdir : Nat) (sz : UInt32) : Prop where
  space : AddressSpace kernel m pgdir
  mapped : ∀ {v}, v < userPages → (present (m.entry pgdir v) ↔ v < pages sz)

structure Unchanged (m : Memory) (pgdir : Nat) (sz : UInt32) (m' : Memory) : Prop where
  entries : ∀ {v}, v < pages sz → m'.entry pgdir v = m.entry pgdir v
  content : ∀ {v}, v < pages sz →
    m'.page (frame (m.entry pgdir v)) = m.page (frame (m.entry pgdir v))

structure Resized (m : Memory) (pgdir : Nat) (sz : UInt32) (n : Int32) (newsz : UInt32)
    (m' : Memory) : Prop where
  size : (newsz.toNat : Int) = sz.toNat + n.toInt
  below : newsz < kernbase
  kept : ∀ {va}, va < sz → va < newsz → m'.byte pgdir va = m.byte pgdir va
  zeroed : ∀ {v}, pages sz ≤ v → v < pages newsz →
    m'.page (frame (m'.entry pgdir v)) = fun _ => 0
  mapped : ∀ {v}, v < userPages → (present (m'.entry pgdir v) ↔ v < pages newsz)

/-- `sbrk` fails and changes nothing, or it succeeds and does what it is to do. -/
def Honest (kernel : Image) (m : Memory) (pgdir : Nat) (sz : UInt32) (n : Int32) : Prop :=
  Ensures (sysSbrk kernel pgdir sz n) m
    (fun result m' =>
      (result.1 = -1 ∧ result.2 = sz ∧ Unchanged m pgdir sz m') ∨
      (result.1 = sz.toInt32 ∧ Resized m pgdir sz n result.2 m'))
    fun _ => False

/-- The last new page is the first one of a page table that is not there yet, and when it
comes to this page one free page is left. -/
def Starved (m : Memory) (pgdir : Nat) (sz : UInt32) (n : Int32) : Prop :=
  0 < n ∧ sz + n.toUInt32 < kernbase ∧
    ∃ k, pages sz + k + 1 = pages (sz + n.toUInt32) ∧ NewTable m pgdir (pages sz) k ∧
      m.freelist.length = cost m pgdir (pages sz) k + 1

section

variable {kernel : Image} {m m' : Memory} {pgdir : Nat} {sz : UInt32} {n : Int32}
  {fails : Panic → Prop}

/-- The pages of a process are pages of memory, and there are not more than `PHYSTOP` has. -/
theorem Process.pages_bound (process : Process kernel m pgdir sz) : pages sz ≤ 0xE000 := by
  by_contra large
  have inside : ∀ v : Fin 0xE001, v.val < userPages := fun v => v.isLt.trans (by decide)
  have mapped : ∀ v : Fin 0xE001, present (m.entry pgdir v) :=
    fun v => (process.mapped (inside v)).mpr (by omega)
  let frames : Fin 0xE001 → Fin 0xE000 := fun v =>
    ⟨frame (m.entry pgdir v), (process.space.directory.usable_of_holds (.page v)
      (m.holds_page (inside v) (mapped v))).lt⟩
  have injective : Function.Injective frames := fun v u same =>
    Fin.ext (process.space.directory.frame_inj (inside v) (mapped v) (inside u) (mapped u)
      (Fin.mk.inj same))
  have card := Fintype.card_le_of_injective frames injective
  rw [Fintype.card_fin, Fintype.card_fin] at card
  omega

theorem Process.toNat_le (process : Process kernel m pgdir sz) : sz.toNat ≤ 0xE000000 := by
  have bound := process.pages_bound
  change (sz.toNat + 4095) / 4096 ≤ 0xE000 at bound
  omega

theorem cost_lt (m : Memory) (d start : Nat) {j k : Nat} (before : j < k) :
    cost m d start j < cost m d start k := by
  induction k with
  | zero => exact absurd before (Nat.not_lt_zero j)
  | succ k induction =>
    rw [cost]
    by_cases same : j = k
    · subst same
      omega
    · have less := induction (by omega)
      omega

theorem Process.toInt32_ne (process : Process kernel m pgdir sz) : sz.toInt32 ≠ -1 := by
  intro negative
  have bound := process.toNat_le
  have value := toInt_eq sz.toInt32
  change sz.toInt32.toInt = if sz.toNat < 2 ^ 31 then (sz.toNat : Int) else _ at value
  rw [negative, if_pos (by omega)] at value
  change -1 = _ at value
  omega

theorem Process.honest_iff_unchanged (process : Process kernel m pgdir sz)
    (failed : growproc kernel pgdir sz n m = .ok (none, m')) :
    Honest kernel m pgdir sz n ↔ Unchanged m pgdir sz m' := by
  rw [Honest, sysSbrk, ensures_bind_of_ok failed, ensures_pure]
  have distinct := process.toInt32_ne
  simp [distinct.symm]

theorem Process.honest_iff_resized (process : Process kernel m pgdir sz) {newsz : UInt32}
    (succeeded : growproc kernel pgdir sz n m = .ok (some newsz, m')) :
    Honest kernel m pgdir sz n ↔ Resized m pgdir sz n newsz m' := by
  rw [Honest, sysSbrk, ensures_bind_of_ok succeeded, ensures_pure]
  have distinct := process.toInt32_ne
  simp [distinct]

theorem Process.toNat_add (process : Process kernel m pgdir sz) (positive : 0 < n) :
    ((sz + n.toUInt32).toNat : Int) = sz.toNat + n.toInt ∧ sz < sz + n.toUInt32 := by
  have bound := process.toNat_le
  have value := toInt_eq n
  have limit := n.toUInt32.toNat_lt
  rw [Int32.lt_iff_toInt_lt] at positive
  change 0 < n.toInt at positive
  rw [UInt32.lt_iff_toNat_lt, UInt32.toNat_add]
  split at value
  next => omega
  next => omega

variable {reserved : Nat → Prop}

theorem Process.resized_of_grown (process : Process kernel m pgdir sz) (positive : 0 < n)
    (limit : sz + n.toUInt32 < kernbase)
    (grown : Grown kernel reserved pgdir (pages sz) (pages (sz + n.toUInt32) - pages sz) m m') :
    Resized m pgdir sz n (sz + n.toUInt32) m' := by
  obtain ⟨size, larger⟩ := process.toNat_add positive
  have ordered : pages sz ≤ pages (sz + n.toUInt32) := by
    rw [UInt32.lt_iff_toNat_lt] at larger
    change (sz.toNat + 4095) / 4096 ≤ ((sz + n.toUInt32).toNat + 4095) / 4096
    omega
  have inside := process.pages_bound
  exact {
    size := size
    below := limit
    kept := by
      intro va below _
      have within := vpn_lt_pages below
      have user : vpn va < userPages := by
        change _ < 0x80000
        omega
      have same := grown.entries (.inl within)
      rw [Memory.byte, Memory.byte, same,
        grown.extended.page_of_mapped process.space.directory user
          ((process.mapped user).mpr within)]
    zeroed := by
      intro v above below
      obtain ⟨f, small, entry, zeros⟩ := grown.mapped above (by omega)
      rw [entry, frame_entry small (by decide), zeros]
    mapped := by
      intro v user
      by_cases old : v < pages sz
      · rw [grown.entries (.inl old), process.mapped user]
        omega
      · by_cases new : v < pages (sz + n.toUInt32)
        · exact iff_of_true (grown.present_of_mapped (by omega) (by omega)) new
        · rw [grown.entries (.inr (by omega)), process.mapped user]
          omega }

theorem Process.unchanged_of_refused (process : Process kernel m pgdir sz) {stop : Nat}
    (refused : Refused kernel reserved pgdir (pages sz) stop m m') : Unchanged m pgdir sz m' := by
  have inside := process.pages_bound
  have user : ∀ {v}, v < pages sz → v < userPages := by
    intro v below
    change v < 0x80000
    omega
  exact {
    entries := fun below => refused.entries (.inl below)
    content := fun below =>
      refused.kept (user below) ((process.mapped (user below)).mpr below) }

/-- Growth: the result of `mappages` that `allocuvm` does not look at. -/
theorem Process.honest_iff_of_pos (process : Process kernel m pgdir sz) (positive : 0 < n) :
    Honest kernel m pgdir sz n ↔ ¬Starved m pgdir sz n := by
  obtain ⟨_, larger⟩ := process.toNat_add positive
  have nonzero : sz + n.toUInt32 ≠ 0 := by
    rintro zero
    rw [zero] at larger
    exact absurd larger UInt32.not_lt_zero
  have grows : ∀ {result after},
      allocuvm kernel pgdir sz (sz + n.toUInt32) m = .ok (result, after) →
      growproc kernel pgdir sz n m =
        .ok (if result = 0 then none else some result, after) := by
    intro result after returned
    rw [growproc, if_pos positive]
    change (allocuvm kernel pgdir sz (sz + n.toUInt32) m >>= _) = _
    rw [returned]
    change (if result = 0 then _ else _ : VmM _) after = _
    split
    next => rfl
    next => rfl
  by_cases limit : sz + n.toUInt32 < kernbase
  · have unmapped : ∀ {v}, pages sz ≤ v → v < pages (sz + n.toUInt32) →
        ¬present (m.entry pgdir v) := by
      intro v above below mapped
      have user := below.trans_le (pages_le (UInt32.le_of_lt limit))
      have inside := (process.mapped user).mp mapped
      omega
    have ensures : Ensures (allocuvm kernel pgdir sz (sz + n.toUInt32)) m _ fun _ => False :=
      allocuvm_ensures limit (UInt32.le_of_lt larger) unmapped process.space.directory
    obtain ⟨result, m', returned, allocated⟩ := ensures.exists_ok
    have performed := grows returned
    have starved : Starved m pgdir sz n ↔
        ∃ k, pages sz + k + 1 = pages (sz + n.toUInt32) ∧ NewTable m pgdir (pages sz) k ∧
          m.freelist.length = cost m pgdir (pages sz) k + 1 := by
      simp [Starved, positive, limit]
    rw [starved]
    cases allocated with
    | grown spent grown =>
      rw [if_neg nonzero] at performed
      refine iff_of_true ((process.honest_iff_resized performed).mpr
        (process.resized_of_grown positive limit grown)) ?_
      rintro ⟨k, last, table, short⟩
      have all : pages (sz + n.toUInt32) - pages sz = k + 1 := by omega
      rw [all, cost, if_pos table] at spent
      omega
    | @refused j _ before spent refused =>
      rw [if_pos rfl] at performed
      refine iff_of_true ((process.honest_iff_unchanged performed).mpr
        (process.unchanged_of_refused refused)) ?_
      rintro ⟨k, last, table, short⟩
      by_cases same : j = k
      · subst same
        omega
      · have less := cost_lt m pgdir (pages sz) (by omega : j < k)
        omega
    | @lost j f _ before table' spent _ refused =>
      rw [if_pos rfl] at performed
      refine iff_of_true ((process.honest_iff_unchanged performed).mpr
        (process.unchanged_of_refused refused)) ?_
      rintro ⟨k, last, table, short⟩
      have less := cost_lt m pgdir (pages sz) (by omega : j < k)
      omega
    | @unnoticed k f _ last table spent _ grown _ =>
      rw [if_neg nonzero] at performed
      refine iff_of_false ?_ (not_not.mpr ⟨k, last, table, spent⟩)
      rw [process.honest_iff_resized performed]
      intro resized
      have user : pages sz + k < userPages :=
        (by omega : _ < pages (sz + n.toUInt32)).trans_le (pages_le (UInt32.le_of_lt limit))
      have mapped := (resized.mapped user).mpr (by omega)
      rw [grown.entries (.inr (Nat.le_refl _)), process.mapped user] at mapped
      omega
  · have returned : allocuvm kernel pgdir sz (sz + n.toUInt32) m = .ok (0, m) := by
      rw [allocuvm, if_pos (UInt32.not_lt.mp limit)]
      rfl
    have performed := grows returned
    rw [if_pos rfl] at performed
    refine iff_of_true ((process.honest_iff_unchanged performed).mpr
      ⟨fun _ => rfl, fun _ => rfl⟩) ?_
    exact fun starved => limit starved.2.1

/-- Shrinking: `deallocuvm` returns a size, and 0 is taken for an error. -/
theorem Process.honest_iff_of_neg (process : Process kernel m pgdir sz) (negative : n < 0) :
    Honest kernel m pgdir sz n ↔ sz = 0 ∨ 0 < (sz.toNat : Int) + n.toInt := by
  have bound := process.toNat_le
  have inside := process.pages_bound
  have value := toInt_eq n
  have limit := n.toUInt32.toNat_lt
  rw [Int32.lt_iff_toInt_lt] at negative
  change n.toInt < 0 at negative
  have notPositive : ¬0 < n := by
    rw [Int32.lt_iff_toInt_lt]
    change ¬0 < n.toInt
    omega
  have large : ¬n.toUInt32.toNat < 2 ^ 31 := by
    intro small
    rw [if_pos small] at value
    omega
  rw [if_neg large] at value
  have sum := UInt32.toNat_add sz n.toUInt32
  have shrinks : ∀ {result after},
      deallocuvm kernel pgdir sz (sz + n.toUInt32) m = .ok (result, after) →
      growproc kernel pgdir sz n m =
        .ok (if result = 0 then none else some result, after) := by
    intro result after returned
    have isNegative : n < 0 := by
      rw [Int32.lt_iff_toInt_lt]
      exact negative
    rw [growproc, if_neg notPositive, if_pos isNegative]
    change (deallocuvm kernel pgdir sz (sz + n.toUInt32) m >>= _) = _
    rw [returned]
    change (if result = 0 then _ else _ : VmM _) after = _
    split
    next => rfl
    next => rfl
  by_cases wraps : (sz.toNat : Int) + n.toInt < 0
  · -- the new size wraps around and is not smaller than the old one
    have returned : deallocuvm kernel pgdir sz (sz + n.toUInt32) m = .ok (sz, m) := by
      have larger : sz ≤ sz + n.toUInt32 := by
        rw [UInt32.le_iff_toNat_le, sum]
        omega
      rw [deallocuvm, if_pos larger]
      rfl
    have performed := shrinks returned
    by_cases empty : sz = 0
    · rw [if_pos empty] at performed
      exact iff_of_true ((process.honest_iff_unchanged performed).mpr
        ⟨fun _ => rfl, fun _ => rfl⟩) (.inl empty)
    · rw [if_neg empty] at performed
      refine iff_of_false ?_ (not_or.mpr ⟨empty, by omega⟩)
      rw [process.honest_iff_resized performed]
      intro resized
      have size := resized.size
      omega
  · have smaller : sz + n.toUInt32 < sz := by
      rw [UInt32.lt_iff_toNat_lt, sum]
      omega
    have size : ((sz + n.toUInt32).toNat : Int) = sz.toNat + n.toInt := by
      rw [sum]
      omega
    have ordered : pages (sz + n.toUInt32) ≤ pages sz := by
      rw [UInt32.lt_iff_toNat_lt] at smaller
      change ((sz + n.toUInt32).toNat + 4095) / 4096 ≤ (sz.toNat + 4095) / 4096
      omega
    have below : sz ≤ kernbase := by
      rw [UInt32.le_iff_toNat_le]
      change sz.toNat ≤ 0x80000000
      omega
    have user : ∀ {v}, v < pages sz → v < userPages := by
      intro v within
      change v < 0x80000
      omega
    have gapless : (m.table pgdir (pages (sz + n.toUInt32) / nptentries)).isSome = true ∨
        ∀ {u}, pages (sz + n.toUInt32) ≤ u → u < pages sz → ¬present (m.entry pgdir u) := by
      by_cases some : pages (sz + n.toUInt32) < pages sz
      · exact .inl (Memory.table_isSome_of_present ((process.mapped (user some)).mpr some))
      · exact .inr fun above within => by omega
    have ensures : Ensures (deallocuvm kernel pgdir sz (sz + n.toUInt32)) m _ fun _ => False :=
      deallocuvm_ensures smaller below process.space.directory (.inr gapless)
    obtain ⟨result, m', returned, same, cleared⟩ := ensures.exists_ok
    subst same
    have performed := shrinks returned
    by_cases zero : sz + n.toUInt32 = 0
    · rw [if_pos zero] at performed
      have nothing : pages (sz + n.toUInt32) = 0 := by
        rw [zero]
        decide
      rw [nothing] at cleared
      have first : 0 < pages sz := by
        rw [UInt32.lt_iff_toNat_lt] at smaller
        change 0 < (sz.toNat + 4095) / 4096
        omega
      have none : (sz + n.toUInt32).toNat = 0 := by
        rw [zero]
        rfl
      refine iff_of_false ?_ ?_
      · rw [process.honest_iff_unchanged performed]
        intro unchanged
        have gone := cleared.unmapped (Nat.le_refl 0) first
        rw [unchanged.entries first] at gone
        exact gone ((process.mapped (user first)).mpr first)
      · rintro (empty | positive)
        · rw [empty] at smaller
          exact absurd smaller UInt32.not_lt_zero
        · omega
    · rw [if_neg zero] at performed
      have positive : (sz + n.toUInt32).toNat ≠ 0 := by
        rw [← UInt32.toNat_inj] at zero
        exact zero
      refine iff_of_true ((process.honest_iff_resized performed).mpr ?_) (.inr (by omega))
      exact {
        size := size
        below := by
          rw [UInt32.lt_iff_toNat_lt] at smaller ⊢
          change _ < 0x80000000
          omega
        kept := by
          intro va inside' remains
          have within := vpn_lt_pages remains
          have old := vpn_lt_pages inside'
          have same := cleared.entries (.inl within)
          rw [Memory.byte, Memory.byte, same, cleared.page_of_mapped process.space.directory
            (pages_le below) (.inl within) (user old) ((process.mapped (user old)).mpr old)]
        zeroed := by
          intro v above within
          omega
        mapped := by
          intro v isUser
          by_cases kept : v < pages (sz + n.toUInt32)
          · rw [cleared.entries (.inl kept), process.mapped isUser]
            omega
          · by_cases cut : v < pages sz
            · exact iff_of_false (cleared.unmapped (by omega) cut) kept
            · rw [cleared.entries (.inr (by omega)), process.mapped isUser]
              omega }

/-- `sbrk` keeps to its contract unless it shrinks to zero or below, or the last page of a
growth finds no page for its page table. -/
theorem sysSbrk_honest_iff (process : Process kernel m pgdir sz) (n : Int32) :
    Honest kernel m pgdir sz n ↔
      (n < 0 → sz = 0 ∨ 0 < (sz.toNat : Int) + n.toInt) ∧ ¬Starved m pgdir sz n := by
  by_cases positive : 0 < n
  · rw [process.honest_iff_of_pos positive]
    refine ⟨fun fed => ⟨fun negative => ?_, fed⟩, fun both => both.2⟩
    exact absurd negative (Int32.lt_asymm positive)
  · have fed : ¬Starved m pgdir sz n := fun starved => positive starved.1
    by_cases negative : n < 0
    · rw [process.honest_iff_of_neg negative]
      exact ⟨fun kept => ⟨fun _ => kept, fed⟩, fun both => both.1 negative⟩
    · have performed : growproc kernel pgdir sz n m = .ok (some sz, m) := by
        rw [growproc, if_neg positive, if_neg negative]
        rfl
      refine iff_of_true ((process.honest_iff_resized performed).mpr ?_)
        ⟨fun isNegative => absurd isNegative negative, fed⟩
      have bound := process.toNat_le
      rw [Int32.lt_iff_toInt_lt] at positive negative
      change ¬0 < n.toInt at positive
      change ¬n.toInt < 0 at negative
      exact {
        size := by omega
        below := by
          rw [UInt32.lt_iff_toNat_lt]
          change _ < 0x80000000
          omega
        kept := fun _ _ => rfl
        zeroed := fun above within => by omega
        mapped := process.mapped }

end

theorem Populated.process {kernel : Image} {reserved : Nat → Prop} {size : Nat} {m : Memory}
    {pgdir : Nat} {sz : UInt32} (populated : Populated kernel reserved size (pages sz) m pgdir) :
    Process kernel m pgdir sz where
  space := populated.addressSpace
  mapped := by
    intro v user
    rw [populated.mapped]
    exact or_iff_right (not_kernelPage user)

theorem exists_newProcess : ∃ pgdir m,
    newProcess smallKernel 100 spareMemory = .ok (some pgdir, m) ∧
      Process smallKernel m pgdir 100 ∧ m.freelist.length = 133 := by
  have one : pages 100 = 1 := by decide
  have exist : ∀ memory, Sound smallKernel memory → memory.freelist.length = 200 →
      ∃ pgdir m, newProcess smallKernel 100 memory = .ok (some pgdir, m) ∧
        Process smallKernel m pgdir 100 ∧ m.freelist.length = 133 := by
    intro memory sound free
    have made : Ensures (newProcess smallKernel 100) memory _ fun _ => False :=
      newProcess_ensures sound (by decide) (by decide) (by rw [free, one]; decide)
    obtain ⟨_, m, returned, pgdir, _, rfl, length, populated⟩ := made.exists_ok
    have left : m.freelist.length = 133 := by
      have spent := populated.spent
      rw [one] at spent
      omega
    exact ⟨pgdir, m, returned, populated.process, left⟩
  exact exist spareMemory sound_spareMemory List.length_range'

theorem sysSbrk_honest_half : ∃ pgdir m,
    newProcess smallKernel 100 spareMemory = .ok (some pgdir, m) ∧
      Honest smallKernel m pgdir 100 (-50) := by
  obtain ⟨pgdir, m, returned, process, _⟩ := exists_newProcess
  refine ⟨pgdir, m, returned, (sysSbrk_honest_iff process (-50)).mpr ⟨fun _ => .inr ?_, ?_⟩⟩
  · decide
  · exact fun starved => absurd starved.1 (by decide)

/-- A process that gives back all of its memory is told that it failed, and has no memory. -/
theorem sysSbrk_dishonest_all : ∃ pgdir m,
    newProcess smallKernel 100 spareMemory = .ok (some pgdir, m) ∧
      Process smallKernel m pgdir 100 ∧ ¬Honest smallKernel m pgdir 100 (-100) := by
  obtain ⟨pgdir, m, returned, process, _⟩ := exists_newProcess
  refine ⟨pgdir, m, returned, process, ?_⟩
  rw [process.honest_iff_of_neg (by decide)]
  decide

end StraceXv6.Kernel.Vm
