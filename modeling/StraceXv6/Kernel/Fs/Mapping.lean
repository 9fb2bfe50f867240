import StraceXv6.Kernel.Fs.Ownership

namespace StraceXv6.Kernel

open Function Data Data.Command

/-! Mapping the blocks of an inode and truncating it. -/

namespace Superblock

variable {sb : Superblock} {disk disk' : Nat → Block} {table : Nat → Dinode} {i b : Nat}

theorem Taken.toNat_ofNat (taken : sb.Taken disk disk' b) : (UInt32.ofNat b).toNat = b :=
  UInt32.toNat_ofNat_of_lt' (taken.inside.trans size_lt)

theorem Taken.ofNat_ne_zero (taken : sb.Taken disk disk' b) : UInt32.ofNat b ≠ 0 := by
  intro zero
  have value := congrArg UInt32.toNat zero
  rw [taken.toNat_ofNat] at value
  have data := taken.data
  have positive : 0 < sb.nmeta := Nat.lt_of_lt_of_le (Nat.succ_pos _) (Nat.le_add_left ..)
  change b = 0 at value
  omega

namespace Kept

variable (kept : sb.Kept disk table)

include kept

variable {r : Nat}

theorem disk_of_taken (taken : sb.Taken disk disk' b) {h : Nat × Place}
    (owned : sb.owns disk table h = some r) : disk' r = disk r := by
  apply taken.others r (kept.nmeta_le owned)
  rintro rfl
  exact kept.accounted.not_owns taken.free h owned

theorem address_of_taken (taken : sb.Taken disk disk' b) (live : sb.Live table i)
    (p : Place) : address disk' (table i) p = address disk (table i) p := by
  apply address_of_agree
  intro nonzero
  exact kept.disk_of_taken taken (owns_eq_some.mpr ⟨live, nonzero, rfl⟩)

theorem owns_of_slot (taken : sb.Taken disk disk' b) (live : sb.Live table i)
    {k : Fin (ndirect + 1)} (zero : (table i).addrs k = 0) :
    sb.owns disk' (update table i ((table i).setAddr k (UInt32.ofNat b))) =
      update (sb.owns disk table) (i, .slot k) (some b) := by
  have alive : ∀ j, sb.Live (update table i ((table i).setAddr k (UInt32.ofNat b))) j ↔
      sb.Live table j := by
    intro j
    by_cases same : j = i
    · subst same
      simp [Live, Dinode.setAddr, update_self]
    · simp [Live, update_of_ne same]
  funext entry
  obtain ⟨j, q⟩ := entry
  by_cases here : (j, q) = (i, .slot k)
  · obtain ⟨rfl, rfl⟩ := Prod.mk.inj here
    rw [update_self, owns_eq_some, update_self, address_slot_setAddr]
    exact ⟨(alive j).mpr live, taken.ofNat_ne_zero, taken.toNat_ofNat⟩
  · rw [update_of_ne here]
    apply owns_congr (alive j)
    intro lives
    by_cases same : j = i
    · subst same
      have distinct : q ≠ .slot k := fun equal => here (by rw [equal])
      rw [update_self]
      cases q with
      | direct k' =>
        rw [← Place.slot_castSucc] at distinct ⊢
        rw [address_slot_setAddr_of_ne disk' _ distinct, address_slot, address_slot]
      | indirect =>
        rw [← Place.slot_last] at distinct ⊢
        rw [address_slot_setAddr_of_ne disk' _ distinct, address_slot, address_slot]
      | entry e =>
        by_cases last : k = Fin.last ndirect
        · subst last
          rw [address_entry, address_entry, Dinode.addrs_setAddr, update_self,
            if_neg taken.ofNat_ne_zero, if_pos zero, taken.toNat_ofNat, taken.zero,
            getWord_zero]
        · rw [address_entry, Dinode.addrs_setAddr, update_of_ne (Ne.symm last),
            ← address_entry]
          exact kept.address_of_taken taken live (.entry e)
    · rw [update_of_ne same]
      exact kept.address_of_taken taken lives q

theorem owns_of_entry (taken : sb.Taken disk disk' b) {e : Fin nindirect}
    (indirect : sb.owns disk table (i, .indirect) = some r) :
    sb.owns (update disk' r (setWord (disk' r) e (UInt32.ofNat b))) table =
      update (sb.owns disk table) (i, .entry e) (some b) := by
  obtain ⟨live, nonzero, value⟩ := owns_eq_some.mp indirect
  change (table i).addrs (Fin.last ndirect) ≠ 0 at nonzero
  change ((table i).addrs (Fin.last ndirect)).toNat = r at value
  have block : disk' r = disk r := kept.disk_of_taken taken indirect
  have fits : 4 * e.val + 4 ≤ bsize := by
    have bound := e.isLt
    change _ < 128 at bound
    change _ ≤ 512
    omega
  funext entry
  obtain ⟨j, q⟩ := entry
  by_cases here : (j, q) = (i, .entry e)
  · obtain ⟨rfl, rfl⟩ := Prod.mk.inj here
    rw [update_self, owns_eq_some, address_entry, if_neg nonzero, value,
      update_self, getWord_setWord fits]
    exact ⟨live, taken.ofNat_ne_zero, taken.toNat_ofNat⟩
  · rw [update_of_ne here]
    apply owns_congr Iff.rfl
    intro lives
    by_cases same : j = i
    · subst same
      cases q with
      | direct k | indirect => rfl
      | entry e' =>
        have distinct : e'.val ≠ e.val := fun equal => here (by rw [Fin.ext equal])
        rw [address_entry, address_entry, if_neg nonzero, if_neg nonzero, value,
          update_self, getWord_setWord_of_ne distinct, block]
    · apply address_of_agree
      intro alsoNonzero
      have owned : sb.owns disk table (j, .indirect) = some _ :=
        owns_eq_some.mpr ⟨lives, alsoNonzero, rfl⟩
      rw [update_of_ne, kept.disk_of_taken taken owned]
      intro equal
      rw [equal] at owned
      exact same (congrArg Prod.fst (kept.accounted.alone owned indirect))

end Kept

end Superblock

namespace Fs

section

variable (sb : Superblock)

/-- The inodes of the disk, with the cache entry `ip` in the place of its own. -/
def working (fs : Fs) (ip : Fin ninode) : Nat → Dinode :=
  Function.update (sb.table fs.disk) (fs.icache ip).inum (fs.icache ip).toDinode

structure Opened (fs : Fs) (ip : Fin ninode) : Prop where
  kept : sb.Kept fs.disk (working sb fs ip)
  live : sb.Live (working sb fs ip) (fs.icache ip).inum

structure Extended (ip : Fin ninode) (fs fs' : Fs) : Prop where
  entry : ∃ addrs, fs'.icache =
    Function.update fs.icache ip { fs.icache ip with addrs := addrs }
  table : sb.table fs'.disk = sb.table fs.disk
  opened : Opened sb fs' ip
  owners : ∀ h r, sb.owns fs.disk (working sb fs ip) h = some r →
    sb.owns fs'.disk (working sb fs' ip) h = some r

structure Grown (ip : Fin ninode) (fs fs' : Fs) : Prop extends Extended sb ip fs fs' where
  data : ∀ h r, sb.owns fs.disk (working sb fs ip) h = some r → h.2 ≠ .indirect →
    fs'.disk r = fs.disk r

end

section

variable {sb : Superblock} {fs fs' : Fs} {ip : Fin ninode}

@[simp] theorem working_inum (sb : Superblock) (fs : Fs) (ip : Fin ninode) :
    working sb fs ip (fs.icache ip).inum = (fs.icache ip).toDinode :=
  update_self ..

theorem Extended.refl (opened : Opened sb fs ip) : Extended sb ip fs fs where
  entry := ⟨(fs.icache ip).addrs, (update_eq_self ip fs.icache).symm⟩
  table := rfl
  opened := opened
  owners := fun _ _ owned => owned

theorem Grown.refl (opened : Opened sb fs ip) : Grown sb ip fs fs where
  toExtended := .refl opened
  data := fun _ _ _ _ => rfl

variable {fs'' final : Fs} {b i bn : Nat} {table : Nat → Dinode}
  {addrs : Fin (ndirect + 1) → UInt32} {p : Place} {disk : Nat → Block} {e : Fin nindirect}
  {r addr : UInt32} {k : Fin (ndirect + 1)}

theorem Extended.trans (first : Extended sb ip fs fs') (second : Extended sb ip fs' fs'') :
    Extended sb ip fs fs'' where
  entry := by
    obtain ⟨_, entry⟩ := first.entry
    obtain ⟨addrs, entry'⟩ := second.entry
    refine ⟨addrs, ?_⟩
    rw [entry', entry, update_self, update_idem]
  table := second.table.trans first.table
  opened := second.opened
  owners := fun h r owned => second.owners h r (first.owners h r owned)

theorem Grown.trans (first : Grown sb ip fs fs') (second : Grown sb ip fs' fs'') :
    Grown sb ip fs fs'' where
  toExtended := first.toExtended.trans second.toExtended
  data := fun h r owned direct =>
    (second.data h r (first.owners h r owned) direct).trans (first.data h r owned direct)

theorem bblock_eq (sb : Superblock) (inside : b < sb.size) : sb.bblock b = sb.bmapstart := by
  have limit := sb.attached
  have small : b / bpb = 0 := Nat.div_eq_of_lt (by change b < 4096; change _ ≤ 1000 at limit; omega)
  rw [Superblock.bblock, small, Nat.zero_add]

theorem balloc_ensures (kept : sb.Kept fs.disk table) :
    Ensures (balloc sb) fs
      (fun addr fs' => sb.Taken fs.disk fs'.disk addr.toNat ∧ fs'.icache = fs.icache ∧
        fs'.logged = fs.logged ++ [sb.bmapstart, addr.toNat])
      (· = .outOfBlocks) := by
  unfold balloc bzero logWrite bread
  simp only [ensures_bind, ensures_get]
  split
  next => rfl
  next b found =>
    obtain ⟨clear, inside⟩ : getBit (fs.disk (sb.bblock b)) (b % bpb) = false ∧ b < sb.size := by
      have member := List.mem_of_find?_eq_some found
      have holds := List.find?_some found
      exact ⟨by simpa using holds, List.mem_range.mp member⟩
    have free : sb.marked fs.disk b = false := by simp [Superblock.marked, clear]
    have data : sb.nmeta ≤ b := Nat.le_of_not_lt (kept.accounted.not_reserved free)
    have taken := Superblock.taken_update data inside free
    simp only [ensures_bind, ensures_get, ensures_modify, ensures_pure, taken.toNat_ofNat]
    refine ⟨taken, rfl, ?_⟩
    rw [bblock_eq sb inside, logged_putBlock, logged_putBlock, List.append_assoc]
    rfl

theorem bfree_ensures (taken : sb.marked fs.disk b = true) :
    Ensures (bfree sb b) fs
      (fun _ fs' => sb.Freed fs.disk fs'.disk b ∧ fs'.icache = fs.icache)
      (fun _ => False) := by
  simp only [Superblock.marked, Bool.and_eq_true, decide_eq_true_eq] at taken
  unfold bfree logWrite bread
  simp only [ensures_bind, ensures_get, ensures_pure, taken.2, if_true, ensures_modify]
  exact ⟨Superblock.freed_update taken.1, rfl⟩

theorem Extended.inum (extended : Extended sb ip fs fs') :
    (fs'.icache ip).inum = (fs.icache ip).inum := by
  obtain ⟨_, entry⟩ := extended.entry
  rw [entry, update_self]

theorem working_of_entry
    (entry : fs'.icache = update fs.icache ip { fs.icache ip with addrs := addrs })
    (table : sb.table fs'.disk = sb.table fs.disk) :
    working sb fs' ip = update (working sb fs ip) (fs.icache ip).inum
      { (fs.icache ip).toDinode with addrs := addrs } := by
  unfold working
  rw [entry, table, update_self, update_idem]

theorem live_of_entry
    (entry : fs'.icache = update fs.icache ip { fs.icache ip with addrs := addrs })
    (table : sb.table fs'.disk = sb.table fs.disk) (i : Nat)
    (live : sb.Live (working sb fs' ip) i) :
    sb.Live (working sb fs ip) i ∧
      (working sb fs' ip i).size = (working sb fs ip i).size := by
  rw [working_of_entry entry table] at live ⊢
  by_cases same : i = (fs.icache ip).inum
  · subst same
    unfold Superblock.Live at live ⊢
    rw [update_self] at live ⊢
    rw [working_inum]
    exact ⟨live, rfl⟩
  · unfold Superblock.Live at live ⊢
    rw [update_of_ne same] at live ⊢
    exact ⟨live, rfl⟩

theorem Grown.of_claim (opened : Opened sb fs ip)
    (vacant : sb.owns fs.disk (working sb fs ip) ((fs.icache ip).inum, p) = none)
    (free : sb.marked fs.disk b = false)
    (entry : ∃ addrs, fs'.icache = update fs.icache ip { fs.icache ip with addrs := addrs })
    (table : sb.table fs'.disk = sb.table fs.disk)
    (marks : sb.marked fs'.disk = update (sb.marked fs.disk) b true)
    (owners : sb.owns fs'.disk (working sb fs' ip) =
      update (sb.owns fs.disk (working sb fs ip)) ((fs.icache ip).inum, p) (some b))
    (data : ∀ h r, sb.owns fs.disk (working sb fs ip) h = some r → h.2 ≠ .indirect →
      fs'.disk r = fs.disk r) : Grown sb ip fs fs' where
  entry := entry
  table := table
  opened := by
    obtain ⟨addrs, entry⟩ := entry
    refine ⟨opened.kept.claim vacant free marks owners (live_of_entry entry table), ?_⟩
    have live := opened.live
    unfold Superblock.Live at live ⊢
    rw [working_inum] at live ⊢
    rw [entry, update_self]
    exact live
  owners := by
    intro h r owned
    rw [owners, update_of_ne, owned]
    rintro rfl
    rw [vacant] at owned
    exact Option.some_ne_none r owned.symm
  data := data

structure SlotMapped (sb : Superblock) (ip : Fin ninode) (k : Fin (ndirect + 1)) (fs : Fs)
    (addr : UInt32) (fs' : Fs) : Prop where
  grown : Grown sb ip fs fs'
  owned : sb.owns fs'.disk (working sb fs' ip) ((fs.icache ip).inum, .slot k) =
    some addr.toNat
  others : ∀ h, h ≠ ((fs.icache ip).inum, .slot k) →
    sb.owns fs'.disk (working sb fs' ip) h = sb.owns fs.disk (working sb fs ip) h
  unchanged : (fs.icache ip).addrs k ≠ 0 → fs' = fs
  zeroed : (fs.icache ip).addrs k = 0 → fs'.disk addr.toNat = fun _ => 0
  logged : (fs.icache ip).addrs k = 0 →
    fs'.logged = fs.logged ++ [sb.bmapstart, addr.toNat]

theorem mapAddr_ensures (opened : Opened sb fs ip) (k : Fin (ndirect + 1)) :
    Ensures (mapAddr sb ip k) fs (SlotMapped sb ip k fs) (· = .outOfBlocks) := by
  unfold mapAddr getInode
  simp only [ensures_bind, ensures_get, ensures_pure]
  by_cases zero : (fs.icache ip).addrs k = 0
  · rw [if_pos zero]
    apply (balloc_ensures opened.kept).seq
    intro addr next allocated
    obtain ⟨taken, icache, logged⟩ := allocated
    have value : UInt32.ofNat addr.toNat = addr := UInt32.ofNat_toNat
    have zero' : (working sb fs ip (fs.icache ip).inum).addrs k = 0 := by
      rw [working_inum]
      exact zero
    have owners := opened.kept.owns_of_slot taken opened.live zero'
    have vacant : sb.owns fs.disk (working sb fs ip) ((fs.icache ip).inum, .slot k) = none :=
      Superblock.owns_eq_none_of_address (by rw [address_slot]; exact zero')
    rw [working_inum, value] at owners
    simp only [modifyInode, ensures_bind, ensures_modify, ensures_pure]
    generalize written : next.putInode ip _ = final
    have disk : final.disk = next.disk := by rw [← written, disk_putInode]
    have entry : final.icache = update fs.icache ip { fs.icache ip with
        addrs := ((fs.icache ip).setAddr k addr).addrs } := by
      rw [← written, icache_putInode, icache]
      rfl
    have table : sb.table final.disk = sb.table fs.disk := by rw [disk, taken.table]
    have owners' : sb.owns final.disk (working sb final ip) =
        update (sb.owns fs.disk (working sb fs ip))
          ((fs.icache ip).inum, .slot k) (some addr.toNat) := by
      rw [working_of_entry entry table, disk]
      exact owners
    refine ⟨Grown.of_claim opened vacant taken.free ⟨_, entry⟩ table ?_ owners' ?_, ?_,
      fun h other => ?_, fun nonzero => absurd zero nonzero, fun _ => ?_, fun _ => ?_⟩
    · rw [disk, taken.marks]
    · intro h r owned _
      rw [disk, opened.kept.disk_of_taken taken owned]
    · rw [owners', update_self]
    · rw [owners', update_of_ne other]
    · rw [disk, taken.zero]
    · rw [← written, logged_putInode, logged]
  · rw [if_neg zero, ensures_pure]
    refine ⟨Grown.refl opened, ?_, fun _ _ => rfl, fun _ => rfl,
      fun also => absurd also zero, fun also => absurd also zero⟩
    rw [Superblock.owns_eq_some, address_slot, working_inum]
    exact ⟨opened.live, zero, rfl⟩

structure Mapped (sb : Superblock) (ip : Fin ninode) (p : Place) (fs : Fs) (addr : UInt32)
    (fs' : Fs) : Prop where
  grown : Grown sb ip fs fs'
  owned : sb.owns fs'.disk (working sb fs' ip) ((fs.icache ip).inum, p) = some addr.toNat
  others : ∀ h, h ≠ ((fs.icache ip).inum, p) → h.2 ≠ .indirect →
    sb.owns fs'.disk (working sb fs' ip) h = sb.owns fs.disk (working sb fs ip) h
  unchanged : sb.owns fs.disk (working sb fs ip) ((fs.icache ip).inum, p) ≠ none → fs' = fs
  logged : sb.owns fs.disk (working sb fs ip) ((fs.icache ip).inum, p) = none →
    ∃ added, fs'.logged = fs.logged ++ added ∧
      ∀ b, b ∈ added ↔ b = sb.bmapstart ∨ b = addr.toNat ∨
        (∃ e, p = .entry e) ∧ sb.owns fs'.disk (working sb fs' ip)
          ((fs.icache ip).inum, .indirect) = some b

theorem owns_entry {r : Nat} (indirect : sb.owns disk table (i, .indirect) = some r)
    (nonzero : getWord (disk r) e ≠ 0) :
    sb.owns disk table (i, .entry e) = some (getWord (disk r) e).toNat := by
  obtain ⟨live, slot, value⟩ := Superblock.owns_eq_some.mp indirect
  change (table i).addrs (Fin.last ndirect) ≠ 0 at slot
  change ((table i).addrs (Fin.last ndirect)).toNat = r at value
  have found : address disk (table i) (.entry e) = getWord (disk r) e := by
    rw [address_entry, if_neg slot, value]
  rw [Superblock.owns_eq_some, found]
  exact ⟨live, nonzero, rfl⟩

theorem owns_indirect_of_entry {r : Nat} (owned : sb.owns disk table (i, .entry e) = some r) :
    ∃ b, sb.owns disk table (i, .indirect) = some b := by
  obtain ⟨live, nonzero, _⟩ := Superblock.owns_eq_some.mp owned
  rw [address_entry] at nonzero
  split at nonzero
  next => exact absurd rfl nonzero
  next slot => exact ⟨_, Superblock.owns_eq_some.mpr ⟨live, slot, rfl⟩⟩

theorem owns_entry_eq_none {r : Nat} (indirect : sb.owns disk table (i, .indirect) = some r)
    (zero : getWord (disk r) e = 0) : sb.owns disk table (i, .entry e) = none := by
  obtain ⟨live, slot, value⟩ := Superblock.owns_eq_some.mp indirect
  change (table i).addrs (Fin.last ndirect) ≠ 0 at slot
  change ((table i).addrs (Fin.last ndirect)).toNat = r at value
  apply Superblock.owns_eq_none_of_address
  rw [address_entry, if_neg slot, value, zero]

theorem mapEntry_ensures (opened : Opened sb fs ip)
    (indirect : sb.owns fs.disk (working sb fs ip) ((fs.icache ip).inum, .indirect) =
      some r.toNat) (zero : getWord (fs.disk r.toNat) e = 0) :
    Ensures (do
        let addr ← balloc sb
        logWrite r.toNat (setWord (← bread r.toNat) e addr)
        return addr) fs
      (fun addr fs' => Grown sb ip fs fs' ∧
        sb.owns fs'.disk (working sb fs' ip) =
          update (sb.owns fs.disk (working sb fs ip))
            ((fs.icache ip).inum, .entry e) (some addr.toNat) ∧
        fs'.logged = fs.logged ++ [sb.bmapstart, addr.toNat, r.toNat])
      (· = .outOfBlocks) := by
  apply (balloc_ensures opened.kept).seq
  intro addr next allocated
  obtain ⟨taken, icache, logged⟩ := allocated
  have value : UInt32.ofNat addr.toNat = addr := UInt32.ofNat_toNat
  have owners := opened.kept.owns_of_entry (e := e) taken indirect
  have above := opened.kept.nmeta_le indirect
  have limit := Superblock.bmapstart_le_nmeta sb
  rw [value] at owners
  simp only [bread, logWrite, ensures_bind, ensures_get, ensures_modify, ensures_pure]
  generalize written : next.putBlock r.toNat _ = final
  have disk : final.disk = update next.disk r.toNat
      (setWord (next.disk r.toNat) e addr) := by rw [← written, disk_putBlock]
  have entry : final.icache = update fs.icache ip { fs.icache ip with
      addrs := (fs.icache ip).addrs } := by
    rw [← written, icache_putBlock]
    exact icache.trans (update_eq_self ip fs.icache).symm
  have table : sb.table final.disk = sb.table fs.disk := by
    rw [← taken.table, disk]
    apply Superblock.table_of_agree
    intro b below
    exact update_of_ne (by omega) _ _
  have same : working sb final ip = working sb fs ip := by
    rw [working_of_entry entry table]
    exact update_eq_iff.mpr ⟨(working_inum sb fs ip).symm, fun _ _ => rfl⟩
  have owners' : sb.owns final.disk (working sb final ip) =
      update (sb.owns fs.disk (working sb fs ip))
        ((fs.icache ip).inum, .entry e) (some addr.toNat) := by
    rw [same, disk, owners]
  refine ⟨Grown.of_claim opened (owns_entry_eq_none indirect zero) taken.free ⟨_, entry⟩
    table ?_ owners' ?_, ?_, ?_⟩
  · rw [← taken.marks, disk]
    apply Superblock.marked_of_agree
    intro b _ below
    exact update_of_ne (by omega) _ _
  · intro h b owned direct
    have distinct : b ≠ r.toNat := by
      rintro rfl
      exact direct (congrArg Prod.snd (opened.kept.accounted.alone owned indirect))
    rw [disk, update_of_ne distinct, opened.kept.disk_of_taken taken owned]
  · exact owners'
  · rw [← written, logged_putBlock, logged, List.append_assoc]
    rfl

theorem Mapped.of_slot {k : Fin ndirect} (opened : Opened sb fs ip)
    (mapped : SlotMapped sb ip k.castSucc fs addr fs') :
    Mapped sb ip (.direct k) fs addr fs' where
  grown := mapped.grown
  owned := by
    have owned := mapped.owned
    rwa [Place.slot_castSucc] at owned
  others := by
    intro h other _
    apply mapped.others h
    rwa [Place.slot_castSucc]
  unchanged := by
    intro old
    apply mapped.unchanged
    intro zero
    apply old
    apply Superblock.owns_eq_none_of_address
    rw [working_inum]
    exact zero
  logged := by
    intro vacant
    have zero := Superblock.address_eq_zero opened.live vacant
    rw [working_inum] at zero
    refine ⟨_, mapped.logged zero, ?_⟩
    simp

theorem SlotMapped.vacant_entry (mapped : SlotMapped sb ip (Fin.last ndirect) fs r fs')
    (zero : getWord (fs'.disk r.toNat) e = 0) :
    sb.owns fs.disk (working sb fs ip) ((fs.icache ip).inum, .entry e) = none := by
  apply Option.eq_none_iff_forall_ne_some.mpr
  intro b old
  have kept := mapped.grown.owners _ b old
  rw [owns_entry_eq_none mapped.owned zero] at kept
  exact Option.some_ne_none b kept.symm

theorem SlotMapped.logged_entry (mapped : SlotMapped sb ip (Fin.last ndirect) fs r fs')
    (logged : final.logged = fs'.logged ++ [sb.bmapstart, addr.toNat, r.toNat]) :
    ∃ added, final.logged = fs.logged ++ added ∧
      ∀ b, b ∈ added ↔ b = sb.bmapstart ∨ b = addr.toNat ∨ b = r.toNat := by
  by_cases zero : (fs.icache ip).addrs (Fin.last ndirect) = 0
  · refine ⟨[sb.bmapstart, r.toNat] ++ [sb.bmapstart, addr.toNat, r.toNat], ?_, ?_⟩
    · rw [logged, mapped.logged zero, List.append_assoc]
    · intro b
      simp only [List.mem_append, List.mem_cons, List.not_mem_nil, or_false]
      tauto
  · refine ⟨[sb.bmapstart, addr.toNat, r.toNat], ?_, ?_⟩
    · rw [logged, mapped.unchanged zero]
    · intro b
      simp only [List.mem_cons, List.not_mem_nil, or_false]

theorem Mapped.of_new_entry (mapped : SlotMapped sb ip (Fin.last ndirect) fs r fs')
    (zero : getWord (fs'.disk r.toNat) e = 0) (grown : Grown sb ip fs' final)
    (owners : sb.owns final.disk (working sb final ip) =
      update (sb.owns fs'.disk (working sb fs' ip))
        ((fs'.icache ip).inum, .entry e) (some addr.toNat))
    (logged : final.logged = fs'.logged ++ [sb.bmapstart, addr.toNat, r.toNat]) :
    Mapped sb ip (.entry e) fs addr final where
  grown := mapped.grown.trans grown
  owned := by rw [owners, mapped.grown.inum, update_self]
  others := by
    intro h other direct
    rw [owners, mapped.grown.inum, update_of_ne other]
    exact mapped.others h fun equal => direct (congrArg Prod.snd equal)
  unchanged := fun old => absurd (mapped.vacant_entry zero) old
  logged := by
    intro _
    obtain ⟨added, logged, members⟩ := mapped.logged_entry logged
    have indirect := grown.owners _ _ mapped.owned
    rw [Place.slot_last] at indirect
    refine ⟨added, logged, ?_⟩
    intro b
    rw [members b, indirect]
    constructor
    · rintro (bitmap | data | entry)
      · exact .inl bitmap
      · exact .inr (.inl data)
      · exact .inr (.inr ⟨⟨e, rfl⟩, congrArg some entry.symm⟩)
    · rintro (bitmap | data | ⟨_, entry⟩)
      · exact .inl bitmap
      · exact .inr (.inl data)
      · exact .inr (.inr (Option.some.inj entry).symm)

theorem Mapped.of_entry (mapped : SlotMapped sb ip (Fin.last ndirect) fs r fs')
    (nonzero : getWord (fs'.disk r.toNat) e ≠ 0) :
    Mapped sb ip (.entry e) fs (getWord (fs'.disk r.toNat) e) fs' := by
  have found := owns_entry mapped.owned nonzero
  by_cases zero : (fs.icache ip).addrs (Fin.last ndirect) = 0
  · exact absurd (by rw [mapped.zeroed zero, getWord_zero]) nonzero
  · have same := mapped.unchanged zero
    subst same
    refine ⟨mapped.grown, found, fun _ _ _ => rfl, fun _ => rfl, ?_⟩
    intro vacant
    rw [vacant] at found
    cases found

theorem bmap_ensures (opened : Opened sb fs ip) (place : Place.block bn = some p) :
    Ensures (bmap sb ip bn) fs (Mapped sb ip p fs) (· = .outOfBlocks) := by
  unfold Place.block at place
  unfold bmap
  split at place
  next direct =>
    cases place
    rw [dif_pos direct]
    apply (mapAddr_ensures opened (Fin.castSucc ⟨bn, direct⟩)).weaken
    intro addr final mapped
    exact .of_slot opened mapped
  next above =>
    split at place
    next inside =>
      cases place
      rw [dif_neg above, if_pos inside]
      apply (mapAddr_ensures opened (Fin.last ndirect)).seq
      intro indirect next mapped
      have owned := mapped.owned
      rw [Place.slot_last, ← mapped.grown.inum] at owned
      simp only [bread, ensures_bind, ensures_get, ensures_pure]
      by_cases zero : getWord (next.disk indirect.toNat) (bn - ndirect) = 0
      · rw [if_pos zero]
        apply (mapEntry_ensures (e := ⟨bn - ndirect, inside⟩) mapped.grown.opened owned
          zero).weaken
        intro addr final found
        exact .of_new_entry mapped zero found.1 found.2.1 found.2.2
      · rw [if_neg zero]
        exact .of_entry mapped zero
    next => cases place

theorem mapAddr_of_ne (nonzero : (fs.icache ip).addrs k ≠ 0) :
    mapAddr sb ip k fs = .ok ((fs.icache ip).addrs k, fs) := by
  unfold mapAddr getInode
  change (ite ((fs.icache ip).addrs k = 0) _ (pure _) : FsM UInt32) fs = _
  rw [if_neg nonzero]
  rfl

theorem bmap_of_owned {r : Nat} (place : Place.block bn = some p)
    (owned : sb.owns fs.disk (working sb fs ip) ((fs.icache ip).inum, p) = some r) :
    bmap sb ip bn fs = .ok (UInt32.ofNat r, fs) := by
  obtain ⟨_, nonzero, value⟩ := Superblock.owns_eq_some.mp owned
  rw [working_inum] at nonzero value
  have word := congrArg UInt32.ofNat value
  rw [UInt32.ofNat_toNat] at word
  unfold Place.block at place
  unfold bmap
  split at place
  next direct =>
    cases place
    rw [dif_pos direct, ← word]
    exact mapAddr_of_ne nonzero
  next above =>
    split at place
    next inside =>
      cases place
      rw [address_entry] at nonzero word
      split at nonzero
      next => exact absurd rfl nonzero
      next indirect =>
        rw [if_neg indirect] at word
        rw [dif_neg above, if_pos inside, ← word]
        simp only [bind, StateT.bind, mapAddr_of_ne indirect, Except.bind, bread, get,
          getThe, MonadStateOf.get, StateT.get]
        change (ite (_ = (0 : UInt32)) _ (pure _) : FsM UInt32) fs = _
        rw [if_neg nonzero]
        rfl
    next => cases place

theorem iupdate_ensures (inside : (fs.icache ip).inum < sb.ninodes) :
    Ensures (iupdate sb ip) fs
      (fun _ fs' => sb.table fs'.disk = working sb fs ip ∧ fs'.icache = fs.icache ∧
        (∀ r, sb.bmapstart ≤ r → fs'.disk r = fs.disk r) ∧
        fs'.logged = fs.logged ++ [sb.iblock (fs.icache ip).inum])
      (fun _ => False) := by
  unfold iupdate getInode bread logWrite
  simp only [ensures_bind, ensures_get, ensures_pure, ensures_modify]
  refine ⟨Superblock.table_store inside _, rfl, ?_, rfl⟩
  intro r above
  have below := Superblock.iblock_lt inside
  exact update_of_ne (by omega) _ _

structure Shrunk (sb : Superblock) (ip : Fin ninode) (fs fs' : Fs) : Prop where
  entry : ∃ addrs, fs'.icache =
    Function.update fs.icache ip { fs.icache ip with addrs := addrs }
  table : sb.table fs'.disk = sb.table fs.disk
  accounted : Accounted (· < sb.nmeta) (sb.marked fs'.disk)
    (sb.owns fs'.disk (working sb fs' ip))
  owners : ∀ h r, sb.owns fs'.disk (working sb fs' ip) h = some r →
    sb.owns fs.disk (working sb fs ip) h = some r
  others : ∀ h, h.1 ≠ (fs.icache ip).inum →
    sb.owns fs'.disk (working sb fs' ip) h = sb.owns fs.disk (working sb fs ip) h
  data : ∀ r, sb.nmeta ≤ r → fs'.disk r = fs.disk r

theorem Shrunk.inum (shrunk : Shrunk sb ip fs fs') :
    (fs'.icache ip).inum = (fs.icache ip).inum := by
  obtain ⟨_, entry⟩ := shrunk.entry
  rw [entry, update_self]

theorem Shrunk.refl (accounted : Accounted (· < sb.nmeta) (sb.marked fs.disk)
    (sb.owns fs.disk (working sb fs ip))) : Shrunk sb ip fs fs where
  entry := ⟨(fs.icache ip).addrs, (update_eq_self ip fs.icache).symm⟩
  table := rfl
  accounted := accounted
  owners := fun _ _ owned => owned
  others := fun _ _ => rfl
  data := fun _ _ => rfl

theorem Shrunk.trans (first : Shrunk sb ip fs fs') (second : Shrunk sb ip fs' fs'') :
    Shrunk sb ip fs fs'' where
  entry := by
    obtain ⟨_, entry⟩ := first.entry
    obtain ⟨addrs, entry'⟩ := second.entry
    refine ⟨addrs, ?_⟩
    rw [entry', entry, update_self, update_idem]
  table := second.table.trans first.table
  accounted := second.accounted
  owners := fun h r owned => first.owners h r (second.owners h r owned)
  others := fun h other =>
    (second.others h (first.inum ▸ other)).trans (first.others h other)
  data := fun r above => (second.data r above).trans (first.data r above)

theorem owns_of_clear {disk' : Nat → Block}
    (agree : ∀ j r, sb.owns disk table (j, .indirect) = some r → disk' r = disk r)
    (h : Nat × Place) :
    sb.owns disk' (update table i ((table i).setAddr k 0)) h =
      if h.1 = i ∧ (h.2 = .slot k ∨ k = Fin.last ndirect ∧ ∃ e, h.2 = .entry e) then none
      else sb.owns disk table h := by
  obtain ⟨j, q⟩ := h
  rw [← Superblock.owns_of_agree agree]
  by_cases same : j = i
  · subst same
    have cleared := update_self j ((table j).setAddr k 0) table
    have live : sb.Live (update table j ((table j).setAddr k 0)) j ↔
        sb.Live table j := by
      unfold Superblock.Live
      rw [cleared]
      rfl
    split
    next gone =>
      apply Superblock.owns_eq_none_of_address
      rw [cleared]
      obtain ⟨-, slot | ⟨last, e, entry⟩⟩ := gone
      · change q = _ at slot
        rw [slot, address_slot_setAddr]
      · change q = _ at entry
        rw [entry, address_entry, Dinode.addrs_setAddr, last, update_self,
          if_pos rfl]
    next stays =>
      have other : q ≠ .slot k := fun equal => stays ⟨rfl, .inl equal⟩
      apply Superblock.owns_congr live
      intro _
      rw [cleared]
      cases q with
      | direct k' =>
        rw [← Place.slot_castSucc] at other ⊢
        exact address_slot_setAddr_of_ne disk' _ other 0
      | indirect =>
        rw [← Place.slot_last] at other ⊢
        exact address_slot_setAddr_of_ne disk' _ other 0
      | entry e =>
        have last : Fin.last ndirect ≠ k :=
          fun equal => stays ⟨rfl, .inr ⟨equal.symm, e, rfl⟩⟩
        rw [address_entry, address_entry, Dinode.addrs_setAddr, update_of_ne last]
  · rw [if_neg fun both => same both.1]
    apply Superblock.owns_congr
    · unfold Superblock.Live
      rw [update_of_ne same]
    · intro _
      rw [update_of_ne same]

structure Accounts (sb : Superblock) (fs : Fs) (ip : Fin ninode) : Prop where
  accounted : Accounted (· < sb.nmeta) (sb.marked fs.disk)
    (sb.owns fs.disk (working sb fs ip))
  live : sb.Live (working sb fs ip) (fs.icache ip).inum

theorem Shrunk.accounts (shrunk : Shrunk sb ip fs fs') (accounts : Accounts sb fs ip) :
    Accounts sb fs' ip where
  accounted := shrunk.accounted
  live := by
    have live := accounts.live
    obtain ⟨addrs, entry⟩ := shrunk.entry
    unfold Superblock.Live at live ⊢
    rw [working_inum] at live ⊢
    rw [entry, update_self]
    exact live

/-- The slot `k` is cleared after its block, and those behind it, were freed. -/
theorem Shrunk.of_clear {next : Fs} (accounts : Accounts sb fs ip)
    (icache : next.icache = fs.icache) (table : sb.table next.disk = sb.table fs.disk)
    (data : ∀ r, sb.nmeta ≤ r → next.disk r = fs.disk r)
    (accounted : Accounted (· < sb.nmeta) (sb.marked next.disk) fun h =>
      if h.1 = (fs.icache ip).inum ∧
          (h.2 = .slot k ∨ k = Fin.last ndirect ∧ ∃ e, h.2 = .entry e) then none
      else sb.owns fs.disk (working sb fs ip) h) :
    Shrunk sb ip fs (next.putInode ip { next.icache ip with
      toDinode := (next.icache ip).setAddr k 0 }) := by
  generalize written : next.putInode ip _ = final
  have disk : final.disk = next.disk := by rw [← written, disk_putInode]
  have entry : final.icache = update fs.icache ip { fs.icache ip with
      addrs := ((fs.icache ip).setAddr k 0).addrs } := by
    rw [← written, icache_putInode, icache]
    rfl
  have table' : sb.table final.disk = sb.table fs.disk := by rw [disk, table]
  have owners : sb.owns final.disk (working sb final ip) = fun h =>
      if h.1 = (fs.icache ip).inum ∧
          (h.2 = .slot k ∨ k = Fin.last ndirect ∧ ∃ e, h.2 = .entry e) then none
      else sb.owns fs.disk (working sb fs ip) h := by
    have same := working_inum sb fs ip
    funext h
    rw [working_of_entry entry table', disk]
    change sb.owns next.disk (update _ _ ((fs.icache ip).toDinode.setAddr k 0)) h = _
    rw [← same]
    apply owns_of_clear
    intro j r owned
    exact data r (Nat.le_of_not_lt (accounts.accounted.apart owned))
  refine ⟨⟨_, entry⟩, table', ?_, ?_, ?_, ?_⟩
  · rw [owners, disk]
    exact accounted
  · intro h r owned
    rw [owners] at owned
    simp only at owned
    split at owned
    next => cases owned
    next => exact owned
  · intro h other
    rw [owners]
    exact if_neg fun both => other both.1
  · intro r above
    rw [disk, data r above]

theorem truncDirect_ensures (accounts : Accounts sb fs ip) (k : Fin ndirect) :
    Ensures (truncDirect sb ip k) fs
      (fun _ fs' => Shrunk sb ip fs fs' ∧
        (fs'.icache ip).addrs = update (fs.icache ip).addrs k.castSucc 0)
      (fun _ => False) := by
  unfold truncDirect getInode
  simp only [ensures_bind, ensures_get, ensures_pure]
  by_cases zero : (fs.icache ip).addrs k.castSucc = 0
  · rw [if_pos zero, ensures_pure]
    refine ⟨.refl accounts.accounted, ?_⟩
    exact (update_eq_iff.mpr ⟨zero.symm, fun _ _ => rfl⟩).symm
  · rw [if_neg zero]
    have owned : sb.owns fs.disk (working sb fs ip) ((fs.icache ip).inum, .direct k) =
        some ((fs.icache ip).addrs k.castSucc).toNat := by
      rw [Superblock.owns_eq_some, working_inum]
      exact ⟨accounts.live, zero, rfl⟩
    apply (bfree_ensures (accounts.accounted.marked_of_owns owned)).seq
    intro _ next freed
    obtain ⟨freed, icache⟩ := freed
    simp only [modifyInode, ensures_modify]
    refine ⟨.of_clear accounts icache freed.table freed.others ?_, ?_⟩
    · have released := accounts.accounted.release owned
      rw [← freed.marks] at released
      convert released using 2 with h
      rw [update_apply]
      congr 1
      have direct : k.castSucc ≠ Fin.last ndirect := fun equal =>
        absurd (congrArg Fin.val equal) (Nat.ne_of_lt k.isLt)
      simp [Prod.ext_iff, direct]
    · rw [icache_putInode, update_self, icache]
      rfl

/-- The owners when the entries outside `rest` of the inode are freed. -/
def ownsEntries (owns : Nat × Place → Option Nat) (i : Nat) (rest : List (Fin nindirect))
    (h : Nat × Place) : Option Nat :=
  match h with
  | (j, .entry e) => if j = i ∧ e ∉ rest then none else owns (j, .entry e)
  | h => owns h

theorem ownsEntries_cons {owns : Nat × Place → Option Nat} {rest : List (Fin nindirect)}
    (fresh : e ∉ rest) :
    ownsEntries owns i rest =
      update (ownsEntries owns i (e :: rest)) (i, .entry e) none := by
  funext ⟨j, p⟩
  rw [update_apply]
  cases p with
  | direct k | indirect => simp [ownsEntries]
  | entry e' =>
    simp only [ownsEntries, Prod.mk.injEq, Place.entry.injEq, List.mem_cons]
    by_cases here : j = i ∧ e' = e
    · rw [if_pos here, if_pos ⟨here.1, here.2 ▸ fresh⟩]
    · rw [if_neg here]
      congr 1
      apply propext
      constructor
      · rintro ⟨same, outside⟩
        exact ⟨same, not_or.mpr ⟨fun equal => here ⟨same, equal⟩, outside⟩⟩
      · rintro ⟨same, outside⟩
        exact ⟨same, (not_or.mp outside).2⟩

theorem ownsEntries_finRange (owns : Nat × Place → Option Nat) (i : Nat) :
    ownsEntries owns i (List.finRange nindirect) = owns := by
  funext ⟨j, p⟩
  cases p with
  | direct k | indirect => rfl
  | entry e => simp [ownsEntries, List.mem_finRange]

theorem ownsEntries_nil (owns : Nat × Place → Option Nat) (i : Nat) (h : Nat × Place) :
    ownsEntries owns i [] h = if h.1 = i ∧ ∃ e, h.2 = .entry e then none else owns h := by
  obtain ⟨j, p⟩ := h
  cases p with
  | direct k | indirect | entry e => simp [ownsEntries]

theorem truncEntries_ensures (accounts : Accounts sb fs ip)
    (indirect : sb.owns fs.disk (working sb fs ip) ((fs.icache ip).inum, .indirect) =
      some r.toNat) :
    Ensures ((List.finRange nindirect).forM (truncEntry sb r)) fs
      (fun _ fs' => fs'.icache = fs.icache ∧ sb.table fs'.disk = sb.table fs.disk ∧
        (∀ b, sb.nmeta ≤ b → fs'.disk b = fs.disk b) ∧
        Accounted (· < sb.nmeta) (sb.marked fs'.disk)
          (ownsEntries (sb.owns fs.disk (working sb fs ip)) (fs.icache ip).inum []))
      (fun _ => False) := by
  have above := Nat.le_of_not_lt (accounts.accounted.apart indirect)
  refine (ensures_forM (fun rest fs' => rest.Nodup ∧ fs'.icache = fs.icache ∧
    sb.table fs'.disk = sb.table fs.disk ∧ (∀ b, sb.nmeta ≤ b → fs'.disk b = fs.disk b) ∧
    Accounted (· < sb.nmeta) (sb.marked fs'.disk)
      (ownsEntries (sb.owns fs.disk (working sb fs ip)) (fs.icache ip).inum rest))
    ?_ ?_).weaken fun _ _ done => done.2
  · intro e rest next before
    obtain ⟨nodup, icache, table, data, accounted⟩ := before
    obtain ⟨fresh, nodup⟩ := List.nodup_cons.mp nodup
    unfold truncEntry bread
    simp only [ensures_bind, ensures_get, ensures_pure, data _ above]
    by_cases zero : getWord (fs.disk r.toNat) e = 0
    · have vacant : ownsEntries (sb.owns fs.disk (working sb fs ip)) (fs.icache ip).inum
          (e :: rest) ((fs.icache ip).inum, .entry e) = none := by
        simp [ownsEntries, owns_entry_eq_none indirect zero]
      rw [if_pos zero, ensures_pure]
      refine ⟨nodup, icache, table, data, ?_⟩
      rw [ownsEntries_cons fresh, update_eq_iff.mpr ⟨vacant.symm, fun _ _ => rfl⟩]
      exact accounted
    · have owned : ownsEntries (sb.owns fs.disk (working sb fs ip)) (fs.icache ip).inum
          (e :: rest) ((fs.icache ip).inum, .entry e) =
            some (getWord (fs.disk r.toNat) e).toNat := by
        simp [ownsEntries, owns_entry indirect zero]
      rw [if_neg zero]
      apply (bfree_ensures (accounted.marked_of_owns owned)).weaken
      intro _ final freed
      obtain ⟨freed, icache'⟩ := freed
      refine ⟨nodup, icache'.trans icache, freed.table.trans table, ?_, ?_⟩
      · intro b data'
        rw [freed.others b data', data b data']
      · rw [ownsEntries_cons fresh, freed.marks]
        exact accounted.release owned
  · refine ⟨List.nodup_finRange _, rfl, rfl, fun _ _ => rfl, ?_⟩
    rw [ownsEntries_finRange]
    exact accounts.accounted

theorem truncIndirect_ensures (accounts : Accounts sb fs ip) :
    Ensures (truncIndirect sb ip) fs
      (fun _ fs' => Shrunk sb ip fs fs' ∧
        (fs'.icache ip).addrs =
          update (fs.icache ip).addrs (Fin.last ndirect) 0)
      (fun _ => False) := by
  unfold truncIndirect getInode
  simp only [ensures_bind, ensures_get, ensures_pure]
  by_cases zero : (fs.icache ip).addrs (Fin.last ndirect) = 0
  · rw [if_pos zero, ensures_pure]
    refine ⟨.refl accounts.accounted, ?_⟩
    exact (update_eq_iff.mpr ⟨zero.symm, fun _ _ => rfl⟩).symm
  · rw [if_neg zero]
    have owned : sb.owns fs.disk (working sb fs ip) ((fs.icache ip).inum, .indirect) =
        some ((fs.icache ip).addrs (Fin.last ndirect)).toNat := by
      rw [Superblock.owns_eq_some, working_inum]
      exact ⟨accounts.live, zero, rfl⟩
    apply (truncEntries_ensures accounts owned).seq
    intro _ next freed
    obtain ⟨icache, table, data, accounted⟩ := freed
    have owned' : ownsEntries (sb.owns fs.disk (working sb fs ip)) (fs.icache ip).inum []
        ((fs.icache ip).inum, .indirect) =
          some ((fs.icache ip).addrs (Fin.last ndirect)).toNat := owned
    apply (bfree_ensures (accounted.marked_of_owns owned')).seq
    intro _ last freed
    obtain ⟨freed, icache'⟩ := freed
    simp only [modifyInode, ensures_modify]
    refine ⟨.of_clear accounts (icache'.trans icache) (freed.table.trans table) ?_ ?_, ?_⟩
    · intro b above
      rw [freed.others b above, data b above]
    · have released := accounted.release owned'
      rw [← freed.marks] at released
      convert released using 2 with h
      rw [update_apply, ownsEntries_nil]
      by_cases here : h = ((fs.icache ip).inum, .indirect)
      · simp [here]
      · rw [if_neg here]
        congr 1
        apply propext
        constructor
        · rintro ⟨same, slot | ⟨-, entry⟩⟩
          · exact absurd (Prod.ext same slot) here
          · exact ⟨same, entry⟩
        · rintro ⟨same, entry⟩
          exact ⟨same, .inr ⟨rfl, entry⟩⟩
    · rw [icache_putInode, update_self, icache', icache]
      rfl

structure Truncated (sb : Superblock) (ip : Fin ninode) (fs fs' : Fs) : Prop where
  entry : fs'.icache = Function.update fs.icache ip
    { fs.icache ip with size := 0, addrs := fun _ => 0 }
  table : sb.table fs'.disk = Function.update (sb.table fs.disk) (fs.icache ip).inum
    { (fs.icache ip).toDinode with size := 0, addrs := fun _ => 0 }
  kept : sb.Kept fs'.disk (sb.table fs'.disk)
  others : ∀ h, h.1 ≠ (fs.icache ip).inum →
    sb.owns fs'.disk (sb.table fs'.disk) h = sb.owns fs.disk (working sb fs ip) h
  data : ∀ r, sb.nmeta ≤ r → fs'.disk r = fs.disk r

theorem truncDirects_ensures (accounts : Accounts sb fs ip) :
    Ensures ((List.finRange ndirect).forM (truncDirect sb ip)) fs
      (fun _ fs' => Shrunk sb ip fs fs' ∧
        ∀ k : Fin ndirect, (fs'.icache ip).addrs k.castSucc = 0)
      (fun _ => False) := by
  refine (ensures_forM (fun rest fs' => Shrunk sb ip fs fs' ∧
    ∀ k : Fin ndirect, k ∉ rest → (fs'.icache ip).addrs k.castSucc = 0) ?_ ?_).weaken ?_
  · intro k rest next before
    obtain ⟨shrunk, cleared⟩ := before
    apply (truncDirect_ensures (shrunk.accounts accounts) k).weaken
    intro _ final after
    obtain ⟨shrunk', addrs⟩ := after
    refine ⟨shrunk.trans shrunk', ?_⟩
    intro k' outside
    rw [addrs, update_apply]
    split
    next => rfl
    next distinct =>
      apply cleared k'
      rw [List.mem_cons, not_or]
      exact ⟨fun equal => distinct (equal ▸ rfl), outside⟩
  · exact ⟨.refl accounts.accounted, fun k outside => absurd (List.mem_finRange k) outside⟩
  · intro _ final done
    exact ⟨done.1, fun k => done.2 k List.not_mem_nil⟩

theorem addrs_eq_zero (direct : ∀ k : Fin ndirect, addrs k.castSucc = 0)
    (last : addrs (Fin.last ndirect) = 0) : addrs = fun _ => 0 := by
  funext k
  induction k using Fin.lastCases with
  | last => exact last
  | cast k => exact direct k

theorem itrunc_ensures (opened : Opened sb fs ip) :
    Ensures (itrunc sb ip) fs (fun _ fs' => Truncated sb ip fs fs') (fun _ => False) := by
  have accounts : Accounts sb fs ip := ⟨opened.kept.accounted, opened.live⟩
  have inside : (fs.icache ip).inum < sb.ninodes := opened.live.2.1
  unfold itrunc
  apply (truncDirects_ensures accounts).seq
  intro _ first directs
  obtain ⟨shrunk, cleared⟩ := directs
  apply (truncIndirect_ensures (shrunk.accounts accounts)).seq
  intro _ second entries
  obtain ⟨shrunk', addrs⟩ := entries
  have shrunk := shrunk.trans shrunk'
  have zero : (second.icache ip).addrs = fun _ => 0 := by
    apply addrs_eq_zero
    · intro k
      rw [addrs, update_apply, cleared k, ite_self]
    · rw [addrs, update_self]
  have entry : second.icache ip = { fs.icache ip with addrs := fun _ => 0 } := by
    obtain ⟨addrs', entry⟩ := shrunk.entry
    rw [entry, update_self] at zero ⊢
    rw [show addrs' = fun _ => 0 from zero]
  have entries : second.icache = update fs.icache ip
      { fs.icache ip with addrs := fun _ => 0 } := by
    obtain ⟨addrs', updated⟩ := shrunk.entry
    rw [updated, update_self] at entry
    rw [updated, entry]
  simp only [updateInode, modifyInode, ensures_bind, ensures_modify]
  generalize written : second.putInode ip _ = third
  have disk : third.disk = second.disk := by rw [← written, disk_putInode]
  have entry' : third.icache = update fs.icache ip
      { fs.icache ip with size := 0, addrs := fun _ => 0 } := by
    rw [← written, icache_putInode, entries, update_self, update_idem]
  have inum : (third.icache ip).inum = (fs.icache ip).inum := by
    rw [entry', update_self]
  apply (iupdate_ensures (by rw [inum]; exact inside)).weaken
  intro _ final updated
  obtain ⟨table, icache, data, _⟩ := updated
  have table' : sb.table final.disk = update (sb.table fs.disk) (fs.icache ip).inum
      { (fs.icache ip).toDinode with size := 0, addrs := fun _ => 0 } := by
    rw [table, working, disk, shrunk.table, entry', update_self]
  have limit := Superblock.bmapstart_le_nmeta sb
  have sized : sb.owns third.disk (working sb third ip) =
      sb.owns second.disk (working sb second ip) := by
    have here : working sb second ip (fs.icache ip).inum =
        { (fs.icache ip).toDinode with addrs := fun _ => 0 } := by
      rw [working, entry, update_self]
    have updated : working sb third ip = update (working sb second ip)
        (fs.icache ip).inum
        { (fs.icache ip).toDinode with size := 0, addrs := fun _ => 0 } := by
      rw [working, working, disk, entry', entry, update_self, update_idem]
    rw [updated, disk]
    apply Superblock.owns_update
    · rw [here]
    · rw [here]
  have owners : sb.owns final.disk (sb.table final.disk) =
      sb.owns second.disk (working sb second ip) := by
    rw [table, ← sized]
    apply Superblock.owns_of_agree
    intro i r owned
    rw [sized] at owned
    exact data r (limit.trans (Nat.le_of_not_lt (shrunk.accounted.apart owned)))
  have others : ∀ h, h.1 ≠ (fs.icache ip).inum →
      sb.owns final.disk (sb.table final.disk) h = sb.owns fs.disk (working sb fs ip) h := by
    intro h other
    rw [owners, shrunk.others h other]
  refine ⟨icache.trans entry', table', ⟨?_, ?_⟩, others, ?_⟩
  · have marks : sb.marked final.disk = sb.marked second.disk := by
      rw [← disk]
      exact Superblock.marked_of_agree fun b above _ => data b above
    rw [owners, marks]
    exact shrunk.accounted
  · intro i live bn below
    rw [table'] at live below
    by_cases same : i = (fs.icache ip).inum
    · subst same
      rw [update_self] at below
      exact absurd below (Nat.not_lt_zero _)
    · unfold Superblock.Live at live
      rw [update_of_ne same] at live below
      have unchanged : working sb fs ip i = sb.table fs.disk i := update_of_ne same ..
      rw [← unchanged] at live below
      obtain ⟨p, place, owned⟩ := opened.kept.mapped i live bn below
      refine ⟨p, place, ?_⟩
      rw [others (i, p) same]
      exact owned
  · intro r above
    rw [data r (limit.trans above), disk, shrunk.data r above]

end

end Fs

end StraceXv6.Kernel
