import StraceXv6.Kernel.Vm.Resizing

namespace StraceXv6.Kernel.Vm

open Data Data.Command

/-! `copyout` on any page directory.  Addresses wrap around. -/

def address (va : UInt32) (i : Nat) : UInt32 := va + UInt32.ofNat i

def Memory.place (m : Memory) (d : Nat) (va : UInt32) : Nat × Fin pgsize :=
  (frame (m.entry d (vpn va)), pageOffset va)

/-- Each page that user code can use has a frame of its own, which is a page of memory and no
part of the directory. -/
structure Unaliased (m : Memory) (d : Nat) : Prop where
  own : ∀ {u v}, Accessible (m.entry d u) → Accessible (m.entry d v) →
    frame (m.entry d u) = frame (m.entry d v) → u = v
  apart : ∀ {f}, m.Reaches d f → f ≠ d ∧ ∀ i, m.table d i ≠ some f
  inside : ∀ {f}, m.Reaches d f → pgsize * f < phystop.toNat

structure CopiedOut (d : Nat) (va : UInt32) (bytes : List UInt8) (m : Memory) (ok : Bool)
    (m' : Memory) : Prop where
  result : ok = true ↔ ∀ i < bytes.length, Accessible (m.entry d (vpn (address va i)))
  entries : m'.entry d = m.entry d
  replaced : ok = true → ∀ i < bytes.length, bytes[i]? = some (m'.byte d (address va i))
  others : ok = true → ∀ f offset,
    (∀ i < bytes.length, m.place d (address va i) ≠ (f, offset)) →
      m'.page f offset = m.page f offset
  reached : ∀ f, ¬m.Reaches d f → m'.page f = m.page f

/-- There is a page table wherever `copyout` gets to. -/
def Tabled (m : Memory) (d : Nat) (va : UInt32) (length : Nat) : Prop :=
  ∀ i < length, (∀ j < i, Accessible (m.entry d (vpn (address va j)))) →
    (m.table d (vpn (address va i) / nptentries)).isSome = true

section

variable {kernel : Image} {reserved : Nat → Prop} {m m' : Memory} {d : Nat} {va : UInt32}
  {bytes : List UInt8}

theorem Directory.unaliased (directory : Directory kernel reserved m d)
    (supervised : Supervised m d) : Unaliased m d where
  own := fun first second same => directory.frame_inj (supervised.lt first) first.1
    (supervised.lt second) second.1 same
  apart := by
    rintro f ⟨v, accessible, rfl⟩
    exact ⟨directory.frame_ne_directory (supervised.lt accessible) accessible.1,
      directory.frame_ne_table (supervised.lt accessible) accessible.1⟩
  inside := by
    rintro f ⟨v, accessible, rfl⟩
    exact (directory.usable_of_holds (.page v)
      (m.holds_page (supervised.lt accessible) accessible.1)).2

theorem toNat_address (va : UInt32) (i : Nat) :
    (address va i).toNat = (va.toNat + i) % 2 ^ 32 := by
  rw [address, UInt32.toNat_add, UInt32.toNat_ofNat']
  omega

theorem address_inj {i j : Nat} (small : i < 2 ^ 32) (small' : j < 2 ^ 32)
    (same : address va i = address va j) : i = j := by
  have values := congrArg UInt32.toNat same
  rw [toNat_address, toNat_address] at values
  have bound := va.toNat_lt
  omega

variable {k : Nat}

theorem address_add {t : Nat} (within : (address va k).toNat % 4096 + t < 4096) :
    (address va (k + t)).toNat = (address va k).toNat + t := by
  rw [toNat_address] at within
  rw [toNat_address, toNat_address]
  omega

theorem eq_of_vpn {a b : UInt32} (page : vpn a = vpn b) (offset : pageOffset a = pageOffset b) :
    a = b := by
  have offsets := congrArg Fin.val offset
  change a.toNat / 4096 = b.toNat / 4096 at page
  change a.toNat % 4096 = b.toNat % 4096 at offsets
  apply UInt32.toNat_inj.mp
  omega

/-- The first `k` bytes are at their addresses, which user code can use, and the rest of
memory is as before. -/
structure Filled (m : Memory) (d : Nat) (va : UInt32) (bytes : List UInt8) (k : Nat)
    (m' : Memory) : Prop where
  accessible : ∀ i < k, Accessible (m.entry d (vpn (address va i)))
  written : ∀ i < k, bytes[i]? =
    some (m'.page (m.place d (address va i)).1 (m.place d (address va i)).2)
  others : ∀ f offset, (∀ i < k, m.place d (address va i) ≠ (f, offset)) →
    m'.page f offset = m.page f offset

namespace Filled

variable {k : Nat}

theorem zero (m : Memory) (d : Nat) (va : UInt32) (bytes : List UInt8) :
    Filled m d va bytes 0 m :=
  ⟨fun i before => absurd before (Nat.not_lt_zero i),
    fun i before => absurd before (Nat.not_lt_zero i), fun _ _ _ => rfl⟩

theorem reached (filled : Filled m d va bytes k m') {f : Nat} (unreached : ¬m.Reaches d f) :
    m'.page f = m.page f := by
  funext offset
  refine filled.others f offset fun i before same => unreached ?_
  exact ⟨vpn (address va i), filled.accessible i before, congrArg Prod.fst same⟩

theorem entries (filled : Filled m d va bytes k m') (unaliased : Unaliased m d) :
    m'.table d = m.table d ∧ m'.entry d = m.entry d := by
  have directory : m'.page d = m.page d :=
    filled.reached fun reaches => (unaliased.apart reaches).1 rfl
  refine ⟨Memory.table_congr directory, Memory.entry_congr directory fun {i t} isTable => ?_⟩
  exact filled.reached fun reaches => (unaliased.apart reaches).2 i isTable

variable {n start : Nat} {offset : Fin pgsize} {page : Page}

theorem overwrite_inside {t : Nat} (some_ : k + n ≤ bytes.length) (less : t < n)
    (here : offset.val = start + t) :
    bytes[k + t]? = some (overwrite page start ((bytes.drop k).take n) offset) := by
  have chunk : ((bytes.drop k).take n)[t]? = bytes[k + t]? := by
    rw [List.getElem?_take_of_lt less, List.getElem?_drop]
  have inside : k + t < bytes.length := by omega
  rw [overwrite, if_pos (by omega), here, Nat.add_sub_cancel_left, chunk,
    List.getElem?_eq_getElem inside, Option.getD_some]

theorem overwrite_outside (elsewhere : ∀ t < n, offset.val ≠ start + t) :
    overwrite page start ((bytes.drop k).take n) offset = page offset := by
  rw [overwrite]
  split
  next above =>
    have past : n ≤ offset.val - start := by
      by_contra less
      exact elsewhere (offset.val - start) (by omega) (by omega)
    rw [List.getElem?_eq_none ((List.length_take_le n _).trans past), Option.getD_none]
  next => rfl

theorem next (filled : Filled m d va bytes k m') (unaliased : Unaliased m d)
    (here : Accessible (m.entry d (vpn (address va k)))) (some_ : k + n ≤ bytes.length)
    (small : bytes.length < 2 ^ 32) (fits : (pageOffset (address va k)).val + n ≤ pgsize) :
    Filled m d va bytes (k + n)
      (m'.setPage (frame (m.entry d (vpn (address va k))))
        (overwrite (m'.page (frame (m.entry d (vpn (address va k)))))
          (pageOffset (address va k)).val ((bytes.drop k).take n))) := by
  have pageOf : ∀ {t}, t < n → vpn (address va (k + t)) = vpn (address va k) ∧
      (pageOffset (address va (k + t))).val = (pageOffset (address va k)).val + t := by
    intro t less
    change (address va k).toNat % 4096 + n ≤ 4096 at fits
    have value : (address va (k + t)).toNat = (address va k).toNat + t := address_add (by omega)
    change (address va (k + t)).toNat / 4096 = (address va k).toNat / 4096 ∧
      (address va (k + t)).toNat % 4096 = (address va k).toNat % 4096 + t
    omega
  generalize same_frame : frame (m.entry d (vpn (address va k))) = f₀
  generalize start_eq : (pageOffset (address va k)).val = start at *
  have places : ∀ {t}, t < n → m.place d (address va (k + t)) =
      (f₀, pageOffset (address va (k + t))) := by
    intro t less
    rw [Memory.place, (pageOf less).1, same_frame]
  exact {
    accessible := by
      intro i before
      by_cases old : i < k
      · exact filled.accessible i old
      · obtain ⟨t, rfl⟩ := Nat.exists_eq_add_of_le (Nat.le_of_not_lt old)
        rw [(pageOf (by omega)).1]
        exact here
    written := by
      intro i before
      by_cases old : i < k
      · rw [filled.written i old]
        congr 1
        by_cases same : (m.place d (address va i)).1 = f₀
        · rw [same, Memory.page_setPage_self, overwrite_outside]
          -- an earlier byte at the same place would have the same address
          intro t less offset
          have page : vpn (address va i) = vpn (address va k) :=
            unaliased.own (filled.accessible i old) here (same.trans same_frame.symm)
          have equal : address va i = address va (k + t) :=
            eq_of_vpn (page.trans (pageOf less).1.symm)
              (Fin.ext (offset.trans (pageOf less).2.symm))
          have number := address_inj (by omega) (by omega) equal
          omega
        · rw [Memory.page_setPage_of_ne same]
      · obtain ⟨t, rfl⟩ := Nat.exists_eq_add_of_le (Nat.le_of_not_lt old)
        have less : t < n := by omega
        rw [places less, Memory.page_setPage_self]
        exact overwrite_inside some_ less (pageOf less).2
    others := by
      intro f offset elsewhere
      have before := filled.others f offset fun i old => elsewhere i (by omega)
      by_cases same : f = f₀
      · subst same
        rw [Memory.page_setPage_self, overwrite_outside]
        · exact before
        · intro t less equal
          refine elsewhere (k + t) (by omega) ((places less).trans ?_)
          rw [Fin.ext ((pageOf less).2.trans equal.symm)]
      · rw [Memory.page_setPage_of_ne same]
        exact before }

theorem tabled_of_accessible {i : Nat} (accessible : Accessible (m.entry d (vpn (address va i)))) :
    (m.table d (vpn (address va i) / nptentries)).isSome = true :=
  Memory.table_isSome_of_present accessible.1

theorem copiedOut (filled : Filled m d va bytes bytes.length m') (unaliased : Unaliased m d) :
    CopiedOut d va bytes m true m' ∧ Tabled m d va bytes.length := by
  obtain ⟨_, entries⟩ := filled.entries unaliased
  refine ⟨⟨iff_of_true rfl filled.accessible, entries, fun _ i before => ?_,
    fun _ => filled.others, fun f => filled.reached⟩, fun i before _ => ?_⟩
  · rw [Memory.byte, entries]
    exact filled.written i before
  · exact tabled_of_accessible (filled.accessible i before)

theorem refused (filled : Filled m d va bytes k m') (unaliased : Unaliased m d)
    (more : k < bytes.length) (refuses : ¬Accessible (m.entry d (vpn (address va k))))
    (isTable : (m.table d (vpn (address va k) / nptentries)).isSome = true) :
    CopiedOut d va bytes m false m' ∧ Tabled m d va bytes.length := by
  refine ⟨⟨iff_of_false Bool.false_ne_true fun all => refuses (all k more),
    (filled.entries unaliased).2, fun ok => absurd ok Bool.false_ne_true,
    fun ok => absurd ok Bool.false_ne_true, fun f => filled.reached⟩, fun i before reached => ?_⟩
  rcases Nat.lt_trichotomy i k with less | rfl | past
  · exact tabled_of_accessible (filled.accessible i less)
  · exact isTable
  · exact absurd (reached k past) refuses

end Filled

theorem address_next {va' : UInt32} (here : va' = address va k) :
    pgrounddown va' + 4096 = address va (k + (pgsize - va'.toNat % pgsize)) := by
  apply UInt32.toNat_inj.mp
  have down := toNat_pgrounddown va'
  have bound := va'.toNat_lt
  rw [UInt32.toNat_add, down, toNat_address]
  have value := congrArg UInt32.toNat here
  rw [toNat_address] at value
  change (4096 * (va'.toNat / 4096) + 4096) % 2 ^ 32 =
    (va.toNat + (k + (4096 - va'.toNat % 4096))) % 2 ^ 32
  omega

theorem toNat_sub_pgrounddown (va : UInt32) :
    (va - pgrounddown va).toNat = (pageOffset va).val := by
  have down := toNat_pgrounddown va
  have bound := va.toNat_lt
  rw [UInt32.toNat_sub, down]
  change (2 ^ 32 - 4096 * (va.toNat / 4096) + va.toNat) % 2 ^ 32 = va.toNat % 4096
  omega

theorem copyoutLoop_ensures (unaliased : Unaliased m d) (small : bytes.length < 2 ^ 32) :
    ∀ {turns k : Nat} {va' : UInt32} {m' : Memory}, Filled m d va bytes k m' →
      k ≤ bytes.length → bytes.length - k ≤ turns → va' = address va k ∨ k = bytes.length →
      Ensures (copyoutLoop d turns va' (bytes.drop k)) m'
        (fun ok m'' => CopiedOut d va bytes m ok m'' ∧ Tabled m d va bytes.length)
        fun _ => ¬Tabled m d va bytes.length := by
  intro turns
  induction turns with
  | zero =>
    intro k va' m' filled inside enough _
    obtain rfl : k = bytes.length := by omega
    exact filled.copiedOut unaliased
  | succ turns induction =>
    intro k va' m' filled inside enough position
    rw [copyoutLoop]
    by_cases done : k = bytes.length
    · rw [if_pos (List.drop_eq_nil_of_le done.ge)]
      subst done
      exact filled.copiedOut unaliased
    · have more : k < bytes.length := by omega
      obtain rfl := position.resolve_right done
      obtain ⟨tables, entries⟩ := filled.entries unaliased
      have nonempty : bytes.drop k ≠ [] := by
        intro empty
        rw [List.drop_eq_nil_iff] at empty
        omega
      rw [if_neg nonempty, ensures_bind]
      have page := vpn_pgrounddown (address va k)
      refine uva2ka_ensures ?_ ?_ ?_
      · rw [page, entries, toNat_sub_pgrounddown, List.length_drop]
        intro accessible
        have offset := (pageOffset (address va k)).isLt
        dsimp only
        generalize chunk : min (pgsize - (pageOffset (address va k)).val) (bytes.length - k) = n
        rw [ensures_bind, writePage, ensures_modify, List.drop_drop]
        refine induction (filled.next unaliased accessible (by omega) small (by omega))
          (by omega) (by omega) ?_
        by_cases last : k + n = bytes.length
        · exact .inr last
        · refine .inl ?_
          rw [address_next rfl]
          congr 1
          change k + (pgsize - (pageOffset (address va k)).val) = k + n
          omega
      · rw [page, tables, entries]
        exact fun isTable refuses => filled.refused unaliased more refuses isTable
      · rw [page, tables]
        intro absent tabled
        have isSome := tabled k more filled.accessible
        rw [absent] at isSome
        exact Bool.false_ne_true isSome

theorem copyout_ensures (unaliased : Unaliased m d) (va : UInt32)
    (small : bytes.length < 2 ^ 32) :
    Ensures (copyout d va bytes) m
      (fun ok m' => CopiedOut d va bytes m ok m' ∧ Tabled m d va bytes.length)
      fun _ => ¬Tabled m d va bytes.length := by
  refine copyoutLoop_ensures unaliased small (.zero m d va bytes) (Nat.zero_le _) (Nat.le_refl _)
    (.inl ?_)
  rw [address]
  exact (UInt32.add_zero va).symm

/-- `copyout` into any directory, at any address: it does what it is for if there is a page
table wherever it gets to. -/
theorem copyout_copies_iff (unaliased : Unaliased m d) (va : UInt32)
    (small : bytes.length < 2 ^ 32) :
    Ensures (copyout d va bytes) m (CopiedOut d va bytes m) (fun _ => False) ↔
      Tabled m d va bytes.length := by
  have ensures := copyout_ensures unaliased va small
  constructor
  · intro copies
    obtain ⟨ok, m', returned, _⟩ := copies.exists_ok
    exact (ensures.of_ok returned).2
  · intro tabled
    exact ensures.mono (fun _ _ both => both.1) fun _ missing => missing tabled

end

/-- Three bytes go to a process of one page. -/
theorem copyout_copies_three : ∃ m,
    allocuvm smallKernel 0x200 0 4096 (zeroedMemory [0x201, 0x202]) = .ok (4096, m) ∧
      Ensures (copyout 0x200 4000 [1, 2, 3]) m (CopiedOut 0x200 4000 [1, 2, 3] m)
        (fun _ => False) := by
  have returned : allocuvm smallKernel 0x200 0 4096 (zeroedMemory [0x201, 0x202]) =
    .ok (4096, _) := rfl
  have grown := grown_small (by decide) (by decide) (by decide) (by decide) returned
  refine ⟨_, returned, (copyout_copies_iff (grown.directory.unaliased ?_) _ (by decide)).mpr ?_⟩
  · intro v above
    have one : pages 0 + (pages 4096 - pages 0) = 1 := by decide
    rw [grown.entries (.inr (by rw [one]; exact Nat.le_trans (by decide) above)),
      entry_zeroedMemory]
    decide
  · intro i less _
    have page : vpn (address 4000 i) / nptentries = 0 := by
      have bound : (address 4000 i).toNat = (4000 + i) % 2 ^ 32 := toNat_address 4000 i
      change i < 3 at less
      change (address 4000 i).toNat / 4096 / 1024 = 0
      omega
    rw [page]
    decide

/-- Where the directory has no page table, `uva2ka` reads the entry through a null pointer. -/
theorem copyout_reads_null :
    Unaliased (zeroedMemory []) 0x200 ∧
      copyout 0x200 0 [1] (zeroedMemory []) = .error .nullPte := by
  have nothing : ∀ v, ¬Accessible ((zeroedMemory []).entry 0x200 v) := by
    intro v
    rw [entry_zeroedMemory]
    decide
  exact ⟨⟨fun accessible => absurd accessible (nothing _), fun ⟨v, accessible, _⟩ =>
    absurd accessible (nothing v), fun ⟨v, accessible, _⟩ => absurd accessible (nothing v)⟩, rfl⟩

end StraceXv6.Kernel.Vm
