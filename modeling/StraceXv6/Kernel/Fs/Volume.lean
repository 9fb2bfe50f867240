import StraceXv6.Kernel.Fs.Cache

namespace StraceXv6.Kernel

open Option UInt32 List Function Data Data.Command

/-! The inodes as their users see them: the fields and the bytes of each, and how the
operations change them. -/

structure Node where
  type : Int16
  major : Int16
  minor : Int16
  nlink : Int16
  size : Nat
  byte : Nat → UInt8

namespace Node

def freed (n : Node) : Node := { n with type := 0, size := 0, byte := fun _ => 0 }

def fresh (type : Int16) : Node := ⟨type, 0, 0, 0, 0, fun _ => 0⟩

def read (n : Node) (off count : Nat) : List UInt8 :=
  (List.range (min count (n.size - off))).map fun k => n.byte (off + k)

def write (n : Node) (off count : Nat) (src : Nat → UInt8) : Node :=
  { n with
    size := if count = 0 then n.size else max n.size (off + count)
    byte := fun o => if off ≤ o ∧ o < off + count then src (o - off) else n.byte o }

structure Accepts (n : Node) (off count : Nat) : Prop where
  regular : n.type ≠ tDev
  inside : off ≤ n.size
  fits : off + count ≤ maxfile * bsize

instance (n : Node) (off count : Nat) : Decidable (n.Accepts off count) :=
  decidable_of_iff (n.type ≠ tDev ∧ off ≤ n.size ∧ off + count ≤ maxfile * bsize)
    ⟨fun holds => ⟨holds.1, holds.2.1, holds.2.2⟩,
      fun accepts => ⟨accepts.regular, accepts.inside, accepts.fits⟩⟩

end Node

namespace Superblock

def node (sb : Superblock) (disk : Nat → Block) (i : Nat) : Node where
  type := (sb.table disk i).type
  major := (sb.table disk i).major
  minor := (sb.table disk i).minor
  nlink := (sb.table disk i).nlink
  size := (sb.table disk i).size.toNat
  byte := fun off =>
    if off < (sb.table disk i).size.toNat then sb.byte disk (sb.table disk) i off else 0

variable {sb : Superblock} {disk disk' : Nat → Block} {j i : Nat} {d : Dinode}

theorem byte_of_same (kept : sb.Kept disk (sb.table disk))
    (size : (sb.table disk' j).size = (sb.table disk j).size)
    (live : sb.Live (sb.table disk') j ↔ sb.Live (sb.table disk) j)
    (data : ∀ p r, p ≠ .indirect → sb.owns disk (sb.table disk) (j, p) = some r →
      sb.owns disk' (sb.table disk') (j, p) = some r ∧ disk' r = disk r) :
    (sb.node disk' j).byte = (sb.node disk j).byte := by
  funext off
  simp only [node, size]
  split
  next below =>
    by_cases alive : sb.Live (sb.table disk) j
    · have block : bsize * (off / bsize) < (sb.table disk j).size.toNat :=
        Nat.lt_of_le_of_lt (Nat.mul_div_le off bsize) below
      obtain ⟨p, place, mapped⟩ := kept.mapped j alive _ block
      obtain ⟨r, owned⟩ := ne_none_iff_exists'.mp mapped
      obtain ⟨owned', bytes⟩ := data p r (Place.block_ne_indirect place) owned
      rw [Fs.byte_of_owns place owned', Fs.byte_of_owns place owned, bytes]
    · have vacant : ∀ p, sb.owns disk (sb.table disk) (j, p) = none := by
        intro p
        simp [owns, alive]
      have vacant' : ∀ p, sb.owns disk' (sb.table disk') (j, p) = none := by
        intro p
        simp [owns, live, alive]
      unfold byte
      cases Place.block (off / bsize) with
      | none => rfl
      | some p => rw [bind_some, bind_some, vacant, vacant']
  next => rfl

theorem node_of_same (kept : sb.Kept disk (sb.table disk))
    (same : sb.table disk' j = sb.table disk j)
    (data : ∀ p r, p ≠ .indirect → sb.owns disk (sb.table disk) (j, p) = some r →
      sb.owns disk' (sb.table disk') (j, p) = some r ∧ disk' r = disk r) :
    sb.node disk' j = sb.node disk j := by
  have bytes := byte_of_same kept (congrArg Dinode.size same)
    (by unfold Live; rw [same]) data
  unfold node at bytes ⊢
  simp only at bytes
  rw [bytes, same]

theorem Kept.store (kept : sb.Kept disk (sb.table disk))
    (table : sb.table disk' = update (sb.table disk) i d)
    (agree : ∀ r, sb.bmapstart ≤ r → disk' r = disk r) (addrs : d.addrs = (sb.table disk i).addrs)
    (type : d.type = (sb.table disk i).type) (size : d.size = (sb.table disk i).size) :
    sb.Kept disk' (sb.table disk') ∧
      sb.owns disk' (sb.table disk') = sb.owns disk (sb.table disk) := by
  have limit := bmapstart_le_nmeta sb
  have owners : sb.owns disk' (sb.table disk') = sb.owns disk (sb.table disk) := by
    rw [table, ← owns_update (d := d) addrs (by rw [type])]
    apply owns_of_agree
    intro j r owned
    rw [owns_update addrs (by rw [type])] at owned
    exact agree r (limit.trans (kept.nmeta_le owned))
  refine ⟨kept.congr (marked_of_agree fun b above _ => agree b above) owners ?_, owners⟩
  intro j live
  rw [table] at live ⊢
  by_cases same : j = i
  · subst same
    unfold Live at live ⊢
    rw [update_self] at live ⊢
    exact ⟨type ▸ live, size⟩
  · unfold Live at live ⊢
    rw [update_of_ne same] at live ⊢
    exact ⟨live, rfl⟩

theorem Kept.replace (kept : sb.Kept disk (sb.table disk))
    (vacant : ∀ p, sb.owns disk (sb.table disk) (i, p) = none)
    (table : sb.table disk' = update (sb.table disk) i d) (addrs : d.addrs = fun _ => 0)
    (size : d.size = 0) (agree : ∀ r, sb.bmapstart ≤ r → disk' r = disk r) :
    sb.Kept disk' (sb.table disk') ∧
      sb.owns disk' (sb.table disk') = sb.owns disk (sb.table disk) := by
  have limit := bmapstart_le_nmeta sb
  have owners : sb.owns disk' (sb.table disk') = sb.owns disk (sb.table disk) := by
    funext ⟨j, p⟩
    by_cases same : j = i
    · subst same
      rw [vacant p]
      apply owns_eq_none_of_address
      rw [table, update_self]
      cases p with
      | direct k | indirect => exact congrFun addrs _
      | entry e => rw [address_entry, addrs, if_pos rfl]
    · have unchanged : sb.table disk' j = sb.table disk j := by
        rw [table, update_of_ne same]
      apply owns_congr
      · unfold Live
        rw [unchanged]
      · intro live
        rw [unchanged]
        apply address_of_agree
        intro nonzero
        have owned : sb.owns disk (sb.table disk) (j, .indirect) = some _ :=
          owns_eq_some.mpr ⟨live, nonzero, rfl⟩
        exact agree _ (limit.trans (kept.nmeta_le owned))
  refine ⟨⟨?_, ?_⟩, owners⟩
  · rw [owners, marked_of_agree fun b above _ => agree b above]
    exact kept.accounted
  · intro j live bn below
    by_cases same : j = i
    · subst same
      rw [table, update_self, size] at below
      exact absurd below (Nat.not_lt_zero _)
    · unfold Live at live
      rw [table, update_of_ne same] at live below
      rw [owners]
      exact kept.mapped j live bn below

end Superblock

namespace Fs

section

variable {sb : Superblock} {fs fs' : Fs} {ip : Fin ninode} {held : Multiset (Fin ninode)}
  {locked : Finset (Fin ninode)} {icache : Fin ninode → Inode} {table : Nat → Dinode}

theorem Settled.copied (settled : Settled sb fs held locked) (member : ip ∈ held)
    (valid : (fs.icache ip).valid = true) :
    (fs.icache ip).toDinode = sb.table fs.disk (fs.icache ip).inum :=
  ((settled.cached.entries ip member).copied valid).1

theorem Settled.working_eq (settled : Settled sb fs held locked) (member : ip ∈ held)
    (valid : (fs.icache ip).valid = true) : working sb fs ip = sb.table fs.disk :=
  update_eq_iff.mpr ⟨settled.copied member valid, fun _ _ => rfl⟩

theorem Settled.opened (settled : Settled sb fs held locked) (member : ip ∈ held)
    (valid : (fs.icache ip).valid = true) : Opened sb fs ip where
  kept := by
    rw [settled.working_eq member valid]
    exact settled.kept
  live := by
    have entry := settled.cached.entries ip member
    rw [settled.working_eq member valid]
    refine ⟨entry.positive, entry.inside, ?_⟩
    rw [← settled.copied member valid]
    exact (entry.copied valid).2

theorem Cached.retable (cached : Cached sb icache table held locked) {table' : Nat → Dinode}
    (same : ∀ jp ∈ held, (icache jp).valid = true →
      table' (icache jp).inum = table (icache jp).inum) :
    Cached sb icache table' held locked where
  counted := cached.counted
  distinct := cached.distinct
  entries := by
    intro jp member
    obtain ⟨positive, inside, copied, busy⟩ := cached.entries jp member
    refine ⟨positive, inside, fun valid => ?_, busy⟩
    rw [same jp member valid]
    exact copied valid
  opened := cached.opened

variable {d : Dinode} {n off size : UInt32} {device : Int16 → Option Int32} {src : Nat → UInt8}

theorem Cached.store (cached : Cached sb icache table held locked) (member : ip ∈ held)
    (type : d.type ≠ 0) :
    Cached sb (update icache ip { icache ip with toDinode := d })
      (update table (icache ip).inum d) held locked := by
  have entry := cached.entries ip member
  refine ⟨?_, ?_, ?_, ?_⟩
  · intro jp
    rw [update_apply]
    split
    next same => rw [same]; exact cached.counted ip
    next => exact cached.counted jp
  · intro jp first kp second equal
    refine cached.distinct jp first kp second ?_
    rw [update_apply, update_apply] at equal
    split at equal
    next same =>
      split at equal
      next same' => rw [same, same']
      next => rw [same]; exact equal
    next =>
      split at equal
      next same' => rw [same']; exact equal
      next => exact equal
  · intro jp inHeld
    by_cases same : jp = ip
    · subst same
      rw [update_self]
      refine ⟨entry.positive, entry.inside, fun _ => ⟨?_, type⟩, entry.busy⟩
      change d = update table (icache jp).inum d (icache jp).inum
      rw [update_self]
    · have other : (icache jp).inum ≠ (icache ip).inum :=
        fun equal => same (cached.distinct jp inHeld ip member equal)
      obtain ⟨positive, inside, copied, busy⟩ := cached.entries jp inHeld
      rw [update_of_ne same]
      exact ⟨positive, inside, by rw [update_of_ne other]; exact copied, busy⟩
  · intro jp inLocked
    obtain ⟨inHeld, valid⟩ := cached.opened jp inLocked
    refine ⟨inHeld, ?_⟩
    by_cases same : jp = ip
    · subst same
      rw [update_self]
      exact valid
    · rw [update_of_ne same]
      exact valid

theorem updateFields_ensures (settled : Settled sb fs held locked) (inLocked : ip ∈ locked)
    {change : Inode → Inode} {major minor nlink : Int16}
    (changed : change (fs.icache ip) = { fs.icache ip with
      major := major, minor := minor, nlink := nlink }) :
    Ensures (updateInode sb ip change) fs
      (fun _ fs' => Settled sb fs' held locked ∧
        sb.node fs'.disk = update (sb.node fs.disk) (fs.icache ip).inum
          { sb.node fs.disk (fs.icache ip).inum with
            major := major, minor := minor, nlink := nlink } ∧
        Keeps held fs fs')
      (fun _ => False) := by
  obtain ⟨member, valid⟩ := settled.cached.opened ip inLocked
  have entry := settled.cached.entries ip member
  have copied := settled.copied member valid
  simp only [updateInode, modifyInode, ensures_bind, ensures_modify, changed]
  generalize written : fs.putInode ip _ = next
  have disk : next.disk = fs.disk := by rw [← written, disk_putInode]
  have icache : next.icache = update fs.icache ip { fs.icache ip with
      toDinode := { (fs.icache ip).toDinode with
        major := major, minor := minor, nlink := nlink } } := by
    rw [← written]
    rfl
  have inum : (next.icache ip).inum = (fs.icache ip).inum := by
    rw [icache, update_self]
  apply (iupdate_ensures (by rw [inum]; exact entry.inside)).weaken
  intro _ final updated
  obtain ⟨table, icache', agree, _⟩ := updated
  rw [disk] at agree
  have table' : sb.table final.disk = update (sb.table fs.disk) (fs.icache ip).inum
      { (fs.icache ip).toDinode with major := major, minor := minor, nlink := nlink } := by
    rw [table, working, disk, icache, update_self]
  obtain ⟨kept, owners⟩ := settled.kept.store table' agree (by rw [← copied])
    (by rw [← copied]) (by rw [← copied])
  refine ⟨⟨kept, ?_⟩, ?_, ?_⟩
  · rw [icache', icache, table']
    exact settled.cached.store member (entry.copied valid).2
  · funext j
    have data : ∀ p r, p ≠ .indirect → sb.owns fs.disk (sb.table fs.disk) (j, p) = some r →
        sb.owns final.disk (sb.table final.disk) (j, p) = some r ∧ final.disk r = fs.disk r := by
      intro p r _ owned
      rw [owners]
      exact ⟨owned, agree r
        ((Superblock.bmapstart_le_nmeta sb).trans (settled.kept.nmeta_le owned))⟩
    by_cases same : j = (fs.icache ip).inum
    · subst same
      have bytes : (sb.node final.disk (fs.icache ip).inum).byte =
          (sb.node fs.disk (fs.icache ip).inum).byte :=
        Superblock.byte_of_same settled.kept (by rw [table', update_self, copied])
          (by unfold Superblock.Live; rw [table', update_self, copied]) data
      rw [update_self, ← bytes]
      simp only [Superblock.node, table', update_self, ← copied]
    · rw [update_of_ne same]
      apply Superblock.node_of_same settled.kept _ data
      rw [table', update_of_ne same]
  · rw [← written] at icache'
    exact .of_update icache' (fun _ => rfl) fun _ => id

theorem Settled.dropRef (settled : Settled sb fs (ip ::ₘ held) locked)
    (shared : ip ∈ locked → ip ∈ held) :
    Settled sb (fs.putInode ip { fs.icache ip with ref := (fs.icache ip).ref - 1 })
      held locked where
  kept := settled.kept
  cached := by
    have entry := settled.cached.entries ip (Multiset.mem_cons_self ip held)
    apply settled.cached.put
    · rw [settled.cached.counted, Multiset.count_cons_self, Nat.add_sub_cancel]
    · intro jp other
      exact (Multiset.count_cons_of_ne other held).symm
    · exact fun _ _ => Iff.rfl
    · intro _
      exact ⟨entry.positive, entry.inside, entry.copied, entry.busy⟩
    · intro member jp inHeld equal
      exact settled.cached.alone (Multiset.mem_cons_of_mem member) jp inHeld equal
    · intro inLocked
      exact ⟨shared inLocked, (settled.cached.opened ip inLocked).2⟩

theorem Settled.forget (settled : Settled sb fs (ip ::ₘ held) locked) (unlocked : ip ∉ locked)
    (last : ip ∉ held) {inode : Inode} (ref : inode.ref = 0)
    (icache : fs'.icache = update fs.icache ip inode)
    (table : sb.table fs'.disk = update (sb.table fs.disk) (fs.icache ip).inum d)
    (kept : sb.Kept fs'.disk (sb.table fs'.disk)) : Settled sb fs' held locked where
  kept := kept
  cached := by
    have dropped : Cached sb fs'.icache (sb.table fs.disk) held locked := by
      rw [icache]
      apply settled.cached.put
      · rw [ref, Multiset.count_eq_zero_of_notMem last]
      · intro jp other
        exact (Multiset.count_cons_of_ne other held).symm
      · exact fun _ _ => Iff.rfl
      · exact fun member => absurd member last
      · exact fun member => absurd member last
      · exact fun inLocked => absurd inLocked unlocked
    apply dropped.retable
    intro jp inHeld _
    have other : jp ≠ ip := fun same => last (same ▸ inHeld)
    rw [table, icache, update_of_ne other, update_of_ne]
    intro equal
    exact other (settled.cached.distinct jp (Multiset.mem_cons_of_mem inHeld) ip
      (Multiset.mem_cons_self ip held) equal)

theorem release_ensures (settled : Settled sb fs (ip ::ₘ held) locked)
    (unlocked : ip ∉ locked) (last : ip ∉ held) (valid : (fs.icache ip).valid = true) :
    Ensures (do
        modifyInode ip fun inode => { inode with busy := true }
        itrunc sb ip
        updateInode sb ip fun inode => { inode with type := 0 }
        modifyInode ip fun inode => { inode with busy := false, valid := false }
        modifyInode ip fun inode => { inode with ref := inode.ref - 1 }) fs
      (fun _ fs' => Settled sb fs' held locked ∧ Keeps held fs fs' ∧
        sb.node fs'.disk = update (sb.node fs.disk) (fs.icache ip).inum
          (sb.node fs.disk (fs.icache ip).inum).freed)
      (fun _ => False) := by
  have member := Multiset.mem_cons_self ip held
  have inside := (settled.cached.entries ip member).inside
  have copied := settled.copied member valid
  have count : (fs.icache ip).ref = 1 := by
    rw [settled.cached.counted, Multiset.count_cons_self, Multiset.count_eq_zero_of_notMem last]
  have limit := Superblock.bmapstart_le_nmeta sb
  simp only [updateInode, modifyInode, ensures_bind, ensures_modify]
  generalize started : fs.putInode ip { fs.icache ip with busy := true } = first
  have disk : first.disk = fs.disk := by rw [← started, disk_putInode]
  have icache : first.icache = update fs.icache ip
      { fs.icache ip with busy := true } := by rw [← started, icache_putInode]
  have inum : (first.icache ip).inum = (fs.icache ip).inum := by
    rw [icache, update_self]
  have same : working sb first ip = sb.table fs.disk := by
    rw [← settled.working_eq member valid, working, working, disk, icache,
      update_self]
  have opened : Opened sb first ip := by
    refine ⟨by rw [same, disk]; exact settled.kept, ?_⟩
    rw [same, inum, ← settled.working_eq member valid]
    exact (settled.opened member valid).live
  apply (itrunc_ensures opened).weaken
  intro _ second truncated
  obtain ⟨entry, table, kept, others, data⟩ := truncated
  rw [icache, update_self, update_idem] at entry
  rw [disk, icache, update_self] at table
  simp only [inum, same, disk] at others
  rw [disk] at data
  generalize cleared : second.putInode ip _ = third
  have disk' : third.disk = second.disk := by rw [← cleared, disk_putInode]
  have icache' : third.icache = update fs.icache ip { fs.icache ip with
      busy := true, type := 0, size := 0, addrs := fun _ => 0 } := by
    rw [← cleared, icache_putInode, entry, update_self, update_idem]
  have inum' : (third.icache ip).inum = (fs.icache ip).inum := by
    rw [icache', update_self]
  apply (iupdate_ensures (by rw [inum']; exact inside)).weaken
  intro _ fourth updated
  obtain ⟨table', icache'', agree, _⟩ := updated
  rw [disk'] at agree
  have stored : sb.table fourth.disk = update (sb.table second.disk)
      (fs.icache ip).inum { (fs.icache ip).toDinode with
        type := 0, size := 0, addrs := fun _ => 0 } := by
    rw [table', working, disk', icache', update_self]
  have vacant : ∀ p, sb.owns second.disk (sb.table second.disk) ((fs.icache ip).inum, p) =
      none := by
    intro p
    apply Superblock.owns_eq_none_of_address
    rw [table, update_self]
    cases p with
    | direct k | indirect | entry e => rfl
  obtain ⟨kept', owners⟩ := Superblock.Kept.replace kept vacant stored rfl rfl agree
  rw [table, update_idem] at stored
  generalize ended : (fourth.putInode ip _).putInode ip _ = final
  have disk'' : final.disk = fourth.disk := by rw [← ended, disk_putInode, disk_putInode]
  have entries : final.icache = update fs.icache ip { fs.icache ip with
      type := 0, size := 0, addrs := fun _ => 0, busy := false, valid := false, ref := 0 } := by
    rw [← ended, icache_putInode, icache_putInode, update_self, icache'', icache',
      update_self, update_idem, update_idem]
    simp only [count]
  rw [← disk''] at kept' owners agree stored
  refine ⟨settled.forget unlocked last rfl entries stored kept',
    .of_update entries (fun _ => rfl) (fun inHeld => absurd inHeld last), ?_⟩
  funext j
  by_cases here : j = (fs.icache ip).inum
  · subst here
    rw [update_self]
    simp [Superblock.node, stored, update_self, Node.freed, ← copied]
  · rw [update_of_ne here]
    apply Superblock.node_of_same settled.kept
    · rw [stored, update_of_ne here]
    · intro p r _ owned
      have above := settled.kept.nmeta_le owned
      rw [owners, others (j, p) here, agree r (limit.trans above), data r above]
      exact ⟨owned, rfl⟩

theorem iput_ensures (settled : Settled sb fs (ip ::ₘ held) locked)
    (shared : ip ∈ locked → ip ∈ held) :
    Ensures (iput sb ip) fs
      (fun _ fs' => Settled sb fs' held locked ∧ Keeps held fs fs' ∧
        sb.node fs'.disk =
          if ip ∉ held ∧ (fs.icache ip).valid = true ∧ (fs.icache ip).nlink = 0 then
            update (sb.node fs.disk) (fs.icache ip).inum
              (sb.node fs.disk (fs.icache ip).inum).freed
          else sb.node fs.disk)
      (fun _ => False) := by
  have member := Multiset.mem_cons_self ip held
  have entry := settled.cached.entries ip member
  have last : (fs.icache ip).ref = 1 ↔ ip ∉ held := by
    rw [settled.cached.counted, Multiset.count_cons_self, Nat.add_eq_right,
      Multiset.count_eq_zero]
  unfold iput getInode
  simp only [ensures_bind, ensures_get, ensures_pure, last]
  by_cases frees : ip ∉ held ∧ (fs.icache ip).valid = true ∧ (fs.icache ip).nlink = 0
  · have unlocked : ip ∉ locked := fun inLocked => frees.1 (shared inLocked)
    have idle : ¬(fs.icache ip).busy = true := fun busy => unlocked (entry.busy.mp busy)
    rw [if_pos frees, if_neg idle]
    simp only [if_pos frees]
    exact release_ensures settled unlocked frees.1 frees.2.1
  · rw [if_neg frees]
    simp only [modifyInode, ensures_modify, if_neg frees]
    exact ⟨settled.dropRef shared, .of_update rfl (fun _ => rfl) fun _ => id, rfl⟩

theorem iunlockput_ensures (settled : Settled sb fs (ip ::ₘ held) locked)
    (inLocked : ip ∈ locked) :
    Ensures (iunlockput sb ip) fs
      (fun _ fs' => Settled sb fs' held (locked.erase ip) ∧ Keeps held fs fs' ∧
        sb.node fs'.disk =
          if ip ∉ held ∧ (sb.node fs.disk (fs.icache ip).inum).nlink = 0 then
            update (sb.node fs.disk) (fs.icache ip).inum
              (sb.node fs.disk (fs.icache ip).inum).freed
          else sb.node fs.disk)
      (fun _ => False) := by
  obtain ⟨member, valid⟩ := settled.cached.opened ip inLocked
  have copied := settled.copied member valid
  unfold iunlockput
  apply (iunlock_ensures settled inLocked).seq
  intro _ next unlocked
  obtain ⟨settled', disk, keeps⟩ := unlocked
  obtain ⟨inum, valid'⟩ := keeps ip member
  apply (iput_ensures settled' fun inLocked =>
    absurd inLocked (Finset.notMem_erase ip locked)).weaken
  intro _ final put
  obtain ⟨settled'', keeps', nodes⟩ := put
  have among : ∀ jp ∈ held, jp ∈ ip ::ₘ held := fun _ => Multiset.mem_cons_of_mem
  have copied' := settled'.copied member (valid' valid)
  have nlink : (next.icache ip).nlink = (sb.node fs.disk (fs.icache ip).inum).nlink := by
    rw [copied', disk, inum]
    rfl
  refine ⟨settled'', (keeps.mono among).trans keeps' fun _ inHeld => inHeld, ?_⟩
  rw [nodes, disk, inum, nlink]
  simp only [valid' valid, true_and]

theorem ialloc_ensures {type : Int16} (settled : Settled sb fs held locked) :
    Ensures (ialloc sb type) fs
      (fun ip fs' => ∃ i, (fs'.icache ip).inum = i ∧ (0 < i ∧ i < sb.ninodes) ∧
        (sb.node fs.disk i).type = 0 ∧ Settled sb fs' (ip ::ₘ held) locked ∧
        sb.node fs'.disk = update (sb.node fs.disk) i (.fresh type) ∧
        Keeps held fs fs')
      (fun failure => failure = .noFreeInodes ∨ failure = .noCacheEntry) := by
  unfold ialloc bread logWrite
  simp only [ensures_bind, ensures_get]
  split
  next => exact .inl rfl
  next i found =>
    have inside := mem_range.mp (mem_of_find?_eq_some found)
    have holds := List.find?_some found
    simp only [Bool.and_eq_true, decide_eq_true_eq, beq_iff_eq] at holds
    obtain ⟨positive, free⟩ := holds
    have typeless : (sb.table fs.disk i).type = 0 := by
      rw [Superblock.table, if_pos inside, free]
    simp only [ensures_bind, ensures_get, ensures_pure, ensures_modify]
    generalize written : fs.putBlock (sb.iblock i) _ = next
    have icache : next.icache = fs.icache := by rw [← written, icache_putBlock]
    have table : sb.table next.disk =
        update (sb.table fs.disk) i (.fresh type) := by
      rw [← written, disk_putBlock, Superblock.table_store inside]
    have agree : ∀ r, sb.bmapstart ≤ r → next.disk r = fs.disk r := by
      intro r above
      have below := Superblock.iblock_lt inside
      rw [← written, disk_putBlock, update_of_ne (by omega)]
    have vacant : ∀ p, sb.owns fs.disk (sb.table fs.disk) (i, p) = none := by
      intro p
      simp [Superblock.owns, Superblock.Live, typeless]
    obtain ⟨kept, owners⟩ := Superblock.Kept.replace settled.kept vacant table rfl rfl agree
    have settled' : Settled sb next held locked := by
      refine ⟨kept, ?_⟩
      rw [icache]
      apply settled.cached.retable
      intro jp inHeld valid
      rw [table, update_of_ne]
      rintro rfl
      obtain ⟨copied, typed⟩ := (settled.cached.entries jp inHeld).copied valid
      rw [copied] at typed
      exact typed typeless
    have nodes : sb.node next.disk = update (sb.node fs.disk) i (.fresh type) := by
      funext j
      by_cases same : j = i
      · subst same
        rw [update_self]
        simp [Superblock.node, table, Dinode.fresh, Node.fresh]
      · rw [update_of_ne same]
        apply Superblock.node_of_same settled.kept
        · rw [table, update_of_ne same]
        · intro p r _ owned
          rw [owners]
          exact ⟨owned, agree r
            ((Superblock.bmapstart_le_nmeta sb).trans (settled.kept.nmeta_le owned))⟩
    apply (iget_ensures settled' positive inside).mono
    · intro ip final handed
      obtain ⟨settled'', disk, inum, keeps⟩ := handed
      refine ⟨i, inum, ⟨positive, inside⟩, typeless, settled'', by rw [disk, nodes], ?_⟩
      intro jp inHeld
      rw [← icache]
      exact keeps jp inHeld
    · exact fun _ failed => .inr failed

theorem overflows_iff (off n : UInt32) : off + n < off ↔ 2 ^ 32 ≤ off.toNat + n.toNat := by
  have first := off.toNat_lt
  have second := n.toNat_lt
  rw [UInt32.lt_iff_toNat_lt, UInt32.toNat_add]
  omega

theorem readi_count (inside : off.toNat ≤ size.toNat) (bounded : off.toNat + n.toNat < 2 ^ 32) :
    (if size < off + n then size - off else n).toNat =
      min n.toNat (size.toNat - off.toNat) := by
  have sum : (off + n).toNat = off.toNat + n.toNat := by
    rw [UInt32.toNat_add]
    exact Nat.mod_eq_of_lt bounded
  split
  next short =>
    rw [lt_iff_toNat_lt, sum] at short
    rw [UInt32.toNat_sub_of_le _ _ (UInt32.le_iff_toNat_le.mpr inside)]
    omega
  next long =>
    rw [lt_iff_toNat_lt, sum] at long
    omega

/-- The entry `ip` is a copy of an allocated inode, and the blocks are in order. -/
structure Clean (sb : Superblock) (fs : Fs) (ip : Fin ninode) : Prop where
  kept : sb.Kept fs.disk (sb.table fs.disk)
  live : sb.Live (sb.table fs.disk) (fs.icache ip).inum
  copied : (fs.icache ip).toDinode = sb.table fs.disk (fs.icache ip).inum

theorem Clean.working_eq (clean : Clean sb fs ip) : working sb fs ip = sb.table fs.disk :=
  update_eq_iff.mpr ⟨clean.copied, fun _ _ => rfl⟩

theorem Clean.opened (clean : Clean sb fs ip) : Opened sb fs ip := by
  refine ⟨?_, ?_⟩
  · rw [clean.working_eq]
    exact clean.kept
  · rw [clean.working_eq]
    exact clean.live

theorem Clean.type_eq (clean : Clean sb fs ip) :
    (fs.icache ip).type = (sb.node fs.disk (fs.icache ip).inum).type := by
  rw [clean.copied]
  rfl

theorem Clean.size_eq (clean : Clean sb fs ip) :
    (fs.icache ip).size.toNat = (sb.node fs.disk (fs.icache ip).inum).size := by
  rw [clean.copied]
  rfl

theorem Settled.clean (settled : Settled sb fs held locked) (inLocked : ip ∈ locked) :
    Clean sb fs ip := by
  obtain ⟨member, valid⟩ := settled.cached.opened ip inLocked
  have live := (settled.opened member valid).live
  rw [settled.working_eq member valid] at live
  exact ⟨settled.kept, live, settled.copied member valid⟩

theorem readi_clean {device : Int16 → Option (Int32 × List UInt8)} (clean : Clean sb fs ip) :
    Ensures (readi sb device ip off n) fs
      (fun result fs' => fs' = fs ∧ ∀ node, node = sb.node fs.disk (fs.icache ip).inum →
        node.type ≠ tDev →
          result = if node.size < off.toNat ∨ 2 ^ 32 ≤ off.toNat + n.toNat then (-1, [])
            else ((UInt32.ofNat (node.read off.toNat n.toNat).length).toInt32,
              node.read off.toNat n.toNat))
      (fun _ => False) := by
  have type := clean.type_eq
  have size := clean.size_eq
  unfold readi getInode
  simp only [ensures_bind, ensures_get, ensures_pure]
  split
  next device =>
    rw [ensures_pure]
    refine ⟨rfl, ?_⟩
    rintro node rfl regular
    exact absurd (type ▸ device) regular
  next =>
    have refuses : ((fs.icache ip).size < off ∨ off + n < off) ↔
        (sb.node fs.disk (fs.icache ip).inum).size < off.toNat ∨
          2 ^ 32 ≤ off.toNat + n.toNat := by
      rw [lt_iff_toNat_lt, size, overflows_iff]
    by_cases refused : (fs.icache ip).size < off ∨ off + n < off
    · rw [if_pos refused, ensures_pure]
      refine ⟨rfl, ?_⟩
      rintro node rfl _
      rw [if_pos (refuses.mp refused)]
    · rw [if_neg refused]
      rw [refuses, not_or] at refused
      have inside : off.toNat ≤ (fs.icache ip).size.toNat := by omega
      have count := readi_count inside (Nat.lt_of_not_le refused.2)
      apply (readiLoop_ensures clean.opened le_rfl (by omega)).seq
      intro bytes final copiedOut
      obtain ⟨same, value⟩ := copiedOut
      rw [ensures_pure]
      refine ⟨same, ?_⟩
      rintro node rfl _
      have read : bytes = (sb.node fs.disk (fs.icache ip).inum).read off.toNat n.toNat := by
        rw [value, count, size, Node.read, clean.working_eq]
        apply map_congr_left
        intro k below
        have inSize : off.toNat + k < (sb.table fs.disk (fs.icache ip).inum).size.toNat := by
          rw [mem_range] at below
          change _ < (sb.node fs.disk (fs.icache ip).inum).size
          omega
        simp only [Superblock.node, if_pos inSize]
      have length : ((sb.node fs.disk (fs.icache ip).inum).read off.toNat n.toNat).length =
          (if (fs.icache ip).size < off + n then (fs.icache ip).size - off else n).toNat := by
        rw [count, size, Node.read, length_map, length_range]
      rw [if_neg (not_or.mpr refused), read, length, UInt32.ofNat_toNat]

theorem readi_ensures {device : Int16 → Option (Int32 × List UInt8)}
    (settled : Settled sb fs held locked) (inLocked : ip ∈ locked) :
    Ensures (readi sb device ip off n) fs
      (fun result fs' => fs' = fs ∧ ∀ node, node = sb.node fs.disk (fs.icache ip).inum →
        node.type ≠ tDev →
          result = if node.size < off.toNat ∨ 2 ^ 32 ≤ off.toNat + n.toNat then (-1, [])
            else ((UInt32.ofNat (node.read off.toNat n.toNat).length).toInt32,
              node.read off.toNat n.toNat))
      (fun _ => False) :=
  readi_clean (settled.clean inLocked)

theorem maxfile_lt : maxfile * bsize < 2 ^ 32 := by decide

structure Closed (sb : Superblock) (ip : Fin ninode) (size : UInt32) (fs fs' : Fs) : Prop where
  icache : fs'.icache = Function.update fs.icache ip { fs.icache ip with size := size }
  table : sb.table fs'.disk = Function.update (sb.table fs.disk) (fs.icache ip).inum
    { (fs.icache ip).toDinode with size := size }
  agree : ∀ r, sb.bmapstart ≤ r → fs'.disk r = fs.disk r
  logged : fs'.logged = fs.logged ++ [sb.iblock (fs.icache ip).inum]

theorem updateSize_ensures (inside : (fs.icache ip).inum < sb.ninodes) :
    Ensures (updateInode sb ip fun inode => { inode with size := size }) fs
      (fun _ fs' => Closed sb ip size fs fs') (fun _ => False) := by
  simp only [updateInode, modifyInode, ensures_bind, ensures_modify]
  generalize written : fs.putInode ip _ = next
  have disk : next.disk = fs.disk := by rw [← written, disk_putInode]
  have icache : next.icache = update fs.icache ip
      { fs.icache ip with size := size } := by rw [← written, icache_putInode]
  have inum : (next.icache ip).inum = (fs.icache ip).inum := by
    rw [icache, update_self]
  apply (iupdate_ensures (by rw [inum]; exact inside)).weaken
  intro _ final updated
  obtain ⟨table, icache', agree, logged⟩ := updated
  refine ⟨icache'.trans icache, ?_, disk ▸ agree, ?_⟩
  · rw [table, working, disk, icache, update_self]
  · rw [logged, inum, ← written, logged_putInode]

theorem writei_accepted (opened : Opened sb fs ip) (regular : (fs.icache ip).type ≠ tDev)
    (inside : off.toNat ≤ (fs.icache ip).size.toNat)
    (fits : off.toNat + n.toNat ≤ maxfile * bsize) :
    Ensures (writei sb device ip src off n) fs
      (fun r fs' => r = n.toInt32 ∧ ∃ middle,
        Wrote sb ip src off.toNat n.toNat fs middle ∧
        if (fs.icache ip).size.toNat < off.toNat + n.toNat then
          Closed sb ip (off + n) middle fs'
        else fs' = middle)
      (· = .outOfBlocks) := by
  have bounded := Nat.lt_of_le_of_lt fits maxfile_lt
  have sum : (off + n).toNat = off.toNat + n.toNat := by
    rw [UInt32.toNat_add]
    exact Nat.mod_eq_of_lt bounded
  have accepted : ¬((fs.icache ip).size < off ∨ off + n < off) := by
    rw [lt_iff_toNat_lt, overflows_iff]
    omega
  have small : ¬UInt32.ofNat (maxfile * bsize) < off + n := by
    rw [lt_iff_toNat_lt, sum, toNat_ofNat_of_lt' maxfile_lt]
    omega
  unfold writei
  simp only [getInode, ensures_bind, ensures_get, ensures_pure, if_neg regular, if_neg accepted,
    if_neg small]
  apply (writeiLoop_ensures opened le_rfl fits).weaken
  intro _ middle wrote
  obtain ⟨addrs, entry⟩ := wrote.entry
  have size : (middle.icache ip).size = (fs.icache ip).size := by
    rw [entry, update_self]
  have grows : (0 < n ∧ (middle.icache ip).size < off + n) ↔
      (fs.icache ip).size.toNat < off.toNat + n.toNat := by
    rw [size, lt_iff_toNat_lt, lt_iff_toNat_lt, sum]
    change 0 < n.toNat ∧ _ ↔ _
    omega
  by_cases larger : (fs.icache ip).size.toNat < off.toNat + n.toNat
  · rw [if_pos (grows.mpr larger)]
    refine (updateSize_ensures wrote.opened.live.2.1).bind ?_ fun _ => False.elim
    intro _ final closed
    rw [ensures_pure]
    exact ⟨rfl, middle, wrote, by rw [if_pos larger]; exact closed⟩
  · rw [if_neg (grows.not.mpr larger), ensures_pure]
    exact ⟨rfl, middle, wrote, by rw [if_neg larger]⟩

section

variable {src : Nat → UInt8} {off n : Nat} {middle final : Fs}
  (clean : Clean sb fs ip) (wrote : Wrote sb ip src off n fs middle)
  (owners : sb.owns final.disk (sb.table final.disk) =
    sb.owns middle.disk (working sb middle ip))
  (agree : ∀ r, sb.nmeta ≤ r → final.disk r = middle.disk r)

include wrote owners agree

variable {o : Nat}

theorem Wrote.byte_inside (above : off ≤ o) (below : o < off + n) :
    sb.byte final.disk (sb.table final.disk) (fs.icache ip).inum o = src (o - off) := by
  obtain ⟨p, r, place, owned, value⟩ := wrote.written o above below
  have data := wrote.opened.kept.nmeta_le owned
  rw [← owners] at owned
  rw [byte_of_owns place owned, agree r data, value]

include clean

theorem Wrote.byte_outside (outside : o < off ∨ off + n ≤ o)
    (below : o < (sb.node fs.disk (fs.icache ip).inum).size) :
    sb.byte final.disk (sb.table final.disk) (fs.icache ip).inum o =
      sb.byte fs.disk (sb.table fs.disk) (fs.icache ip).inum o := by
  have same := clean.working_eq
  have block : bsize * (o / bsize) < (sb.table fs.disk (fs.icache ip).inum).size.toNat :=
    Nat.lt_of_le_of_lt (Nat.mul_div_le o bsize) below
  obtain ⟨p, place, mapped⟩ := clean.kept.mapped _ clean.live _ block
  obtain ⟨r, owned⟩ := ne_none_iff_exists'.mp mapped
  have before := owned
  rw [← same] at before
  have kept := wrote.owners _ r before
  have data := wrote.opened.kept.nmeta_le kept
  rw [← owners] at kept
  rw [byte_of_owns place kept, byte_of_owns place owned, agree r data,
    wrote.unwritten o p r outside place before]

theorem Wrote.node_eq {d : Dinode} (inside : off ≤ (sb.node fs.disk (fs.icache ip).inum).size)
    (table : sb.table final.disk = update (sb.table fs.disk) (fs.icache ip).inum d)
    (fields : d.type = (fs.icache ip).type ∧ d.major = (fs.icache ip).major ∧
      d.minor = (fs.icache ip).minor ∧ d.nlink = (fs.icache ip).nlink)
    (size : d.size.toNat = if n = 0 then (sb.node fs.disk (fs.icache ip).inum).size
      else max (sb.node fs.disk (fs.icache ip).inum).size (off + n)) :
    sb.node final.disk = update (sb.node fs.disk) (fs.icache ip).inum
      ((sb.node fs.disk (fs.icache ip).inum).write off n src) := by
  have copied := clean.copied
  have same := clean.working_eq
  funext j
  by_cases here : j = (fs.icache ip).inum
  · subst here
    obtain ⟨type, major, minor, nlink⟩ := fields
    rw [copied] at type major minor nlink
    have bytes : (sb.node final.disk (fs.icache ip).inum).byte =
        ((sb.node fs.disk (fs.icache ip).inum).write off n src).byte := by
      funext o
      have here : (sb.table final.disk (fs.icache ip).inum).size.toNat =
          if n = 0 then (sb.node fs.disk (fs.icache ip).inum).size
          else max (sb.node fs.disk (fs.icache ip).inum).size (off + n) := by
        rw [table, update_self, size]
      change (if o < (sb.table final.disk (fs.icache ip).inum).size.toNat then _ else 0) =
        if off ≤ o ∧ o < off + n then src (o - off)
        else (sb.node fs.disk (fs.icache ip).inum).byte o
      rw [here]
      by_cases within : off ≤ o ∧ o < off + n
      · rw [if_pos within, if_pos (by split <;> omega)]
        exact wrote.byte_inside owners agree within.1 within.2
      · rw [if_neg within]
        by_cases below : o < (sb.node fs.disk (fs.icache ip).inum).size
        · rw [if_pos (by split <;> omega),
            wrote.byte_outside clean owners agree (by omega) below]
          exact (if_pos below).symm
        · rw [if_neg (by split <;> omega)]
          exact (if_neg below).symm
    rw [update_self]
    unfold Superblock.node at bytes ⊢
    simp only at bytes
    rw [bytes, table, update_self]
    simp only [type, major, minor, nlink, size]
    rfl
  · rw [update_of_ne here]
    apply Superblock.node_of_same clean.kept
    · rw [table, update_of_ne here]
    · intro p r direct owned
      rw [← same] at owned
      have kept := wrote.owners _ r owned
      rw [owners, agree r (wrote.opened.kept.nmeta_le kept),
        wrote.others (j, p) r here direct owned]
      exact ⟨kept, rfl⟩

end

/-- The inode of the entry `ip` was changed, in the cache and on the disk. -/
def Rewritten (sb : Superblock) (ip : Fin ninode) (fs fs' : Fs) : Prop :=
  ∃ d, fs'.icache = Function.update fs.icache ip { fs.icache ip with toDinode := d } ∧
    sb.table fs'.disk = Function.update (sb.table fs.disk) (fs.icache ip).inum d

section

variable {src : Nat → UInt8} {off n : UInt32} {middle final : Fs}
  (clean : Clean sb fs ip)
  (accepts : (sb.node fs.disk (fs.icache ip).inum).Accepts off.toNat n.toNat)
  (wrote : Wrote sb ip src off.toNat n.toNat fs middle)

include clean accepts wrote

theorem Clean.closed
    (larger : (sb.node fs.disk (fs.icache ip).inum).size < off.toNat + n.toNat)
    (closed : Closed sb ip (off + n) middle final) :
    Clean sb final ip ∧
      sb.node final.disk = update (sb.node fs.disk) (fs.icache ip).inum
        ((sb.node fs.disk (fs.icache ip).inum).write off.toNat n.toNat src) ∧
      Rewritten sb ip fs final := by
  have same := clean.working_eq
  have limit := Superblock.bmapstart_le_nmeta sb
  have bounded := Nat.lt_of_le_of_lt accepts.fits maxfile_lt
  have sum : (off + n).toNat = off.toNat + n.toNat := by
    rw [UInt32.toNat_add]
    exact Nat.mod_eq_of_lt bounded
  obtain ⟨addrs, entry⟩ := wrote.entry
  have icache : final.icache = update fs.icache ip { fs.icache ip with
      toDinode := { (fs.icache ip).toDinode with addrs := addrs, size := off + n } } := by
    rw [closed.icache, entry, update_self, update_idem]
  have table : sb.table final.disk = update (sb.table fs.disk) (fs.icache ip).inum
      { (fs.icache ip).toDinode with addrs := addrs, size := off + n } := by
    rw [closed.table, wrote.table, entry, update_self]
  have owners : sb.owns final.disk (sb.table final.disk) =
      sb.owns middle.disk (working sb middle ip) := by
    have sized : sb.table final.disk = update (working sb middle ip)
        (middle.icache ip).inum { (middle.icache ip).toDinode with size := off + n } := by
      rw [closed.table, working, update_idem]
    have base : sb.owns middle.disk (sb.table final.disk) =
        sb.owns middle.disk (working sb middle ip) := by
      rw [sized]
      apply Superblock.owns_update
      · rw [working_inum]
      · rw [working_inum]
    rw [← base]
    apply Superblock.owns_of_agree
    intro j r owned
    rw [base] at owned
    exact closed.agree r (limit.trans (wrote.opened.kept.nmeta_le owned))
  have agree : ∀ r, sb.nmeta ≤ r → final.disk r = middle.disk r :=
    fun r above => closed.agree r (limit.trans above)
  refine ⟨⟨⟨?_, ?_⟩, ?_, ?_⟩, ?_, ⟨_, icache, table⟩⟩
  · rw [owners, Superblock.marked_of_agree fun b above _ => closed.agree b above]
    exact wrote.opened.kept.accounted
  · intro j live bn below
    rw [owners]
    by_cases here : j = (fs.icache ip).inum
    · subst here
      rw [table, update_self] at below
      change bsize * bn < (off + n).toNat at below
      rw [sum] at below
      by_cases old : bsize * bn < (sb.node fs.disk (fs.icache ip).inum).size
      · obtain ⟨p, place, mapped⟩ := clean.kept.mapped _ clean.live bn old
        obtain ⟨r, owned⟩ := ne_none_iff_exists'.mp mapped
        rw [← same] at owned
        refine ⟨p, place, ?_⟩
        rw [wrote.owners _ r owned]
        exact some_ne_none r
      · have inside := accepts.inside
        obtain ⟨p, r, place, owned, _⟩ := wrote.written (bsize * bn) (by omega) below
        rw [Nat.mul_div_cancel_left bn (by decide)] at place
        refine ⟨p, place, ?_⟩
        rw [owned]
        exact some_ne_none r
    · have unchanged : working sb middle ip j = sb.table final.disk j := by
        rw [working, wrote.table, table, wrote.inum, update_of_ne here,
          update_of_ne here]
      unfold Superblock.Live at live
      rw [← unchanged] at live below
      exact wrote.opened.kept.mapped j live bn below
  · have live := clean.live
    rw [icache, update_self]
    unfold Superblock.Live at live ⊢
    rw [table, update_self]
    rw [← clean.copied] at live
    exact live
  · rw [icache, update_self, table, update_self]
  · apply wrote.node_eq clean owners agree accepts.inside table
    · exact ⟨rfl, rfl, rfl, rfl⟩
    · change (off + n).toNat = _
      rw [sum]
      have inside := accepts.inside
      split <;> omega

theorem Clean.overwritten
    (shorter : off.toNat + n.toNat ≤ (sb.node fs.disk (fs.icache ip).inum).size) :
    Clean sb middle ip ∧
      sb.node middle.disk = update (sb.node fs.disk) (fs.icache ip).inum
        ((sb.node fs.disk (fs.icache ip).inum).write off.toNat n.toNat src) ∧
      Rewritten sb ip fs middle := by
  have same := clean.working_eq
  have icache : middle.icache = fs.icache := by
    apply wrote.steady
    rintro p ⟨o, above, below, place⟩
    have block : bsize * (o / bsize) < (sb.table fs.disk (fs.icache ip).inum).size.toNat := by
      have quotient := Nat.mul_div_le o bsize
      change _ < (sb.node fs.disk (fs.icache ip).inum).size
      omega
    obtain ⟨q, place', mapped⟩ := clean.kept.mapped _ clean.live _ block
    obtain rfl := Option.some.inj (place.symm.trans place')
    rw [same]
    exact mapped
  have working' : working sb middle ip = sb.table middle.disk := by
    rw [working, icache, wrote.table, ← same, working, update_idem]
  have kept := wrote.opened.kept
  rw [working'] at kept
  refine ⟨⟨kept, ?_, ?_⟩, ?_, ⟨(fs.icache ip).toDinode, ?_, ?_⟩⟩
  · rw [icache, wrote.table]
    exact clean.live
  · rw [icache, wrote.table]
    exact clean.copied
  · apply wrote.node_eq clean (by rw [working']) (fun _ _ => rfl) accepts.inside
      (d := (fs.icache ip).toDinode)
    · rw [← working', working, icache, wrote.table]
    · exact ⟨rfl, rfl, rfl, rfl⟩
    · rw [clean.size_eq]
      split <;> omega
  · rw [icache]
    exact (update_eq_self ip fs.icache).symm
  · rw [wrote.table]
    exact same.symm

end

theorem writei_clean (clean : Clean sb fs ip) :
    Ensures (writei sb device ip src off n) fs
      (fun r fs' =>
        ((sb.node fs.disk (fs.icache ip).inum).Accepts off.toNat n.toNat ∧ r = n.toInt32 ∧
          Clean sb fs' ip ∧
          sb.node fs'.disk = update (sb.node fs.disk) (fs.icache ip).inum
            ((sb.node fs.disk (fs.icache ip).inum).write off.toNat n.toNat src) ∧
          Rewritten sb ip fs fs') ∨
        (¬(sb.node fs.disk (fs.icache ip).inum).Accepts off.toNat n.toNat ∧ fs' = fs ∧
          ((sb.node fs.disk (fs.icache ip).inum).type ≠ tDev → r = -1)))
      (· = .outOfBlocks) := by
  have type := clean.type_eq
  have size := clean.size_eq
  by_cases accepts : (sb.node fs.disk (fs.icache ip).inum).Accepts off.toNat n.toNat
  · refine (writei_accepted clean.opened (by rw [type]; exact accepts.regular)
      (by rw [size]; exact accepts.inside) accepts.fits).weaken ?_
    intro r final written
    obtain ⟨result, middle, wrote, rest⟩ := written
    rw [size] at rest
    split at rest
    next larger =>
      exact .inl ⟨accepts, result, clean.closed accepts wrote larger rest⟩
    next shorter =>
      subst rest
      exact .inl ⟨accepts, result,
        clean.overwritten accepts wrote (Nat.le_of_not_lt shorter)⟩
  · unfold writei getInode
    simp only [ensures_bind, ensures_get, ensures_pure]
    split
    next device =>
      rw [ensures_pure]
      exact .inr ⟨accepts, rfl, fun regular => absurd (type ▸ device) regular⟩
    next regular =>
      split
      next => exact .inr ⟨accepts, rfl, fun _ => rfl⟩
      next inside =>
        split
        next => exact .inr ⟨accepts, rfl, fun _ => rfl⟩
        next fits =>
          exfalso
          apply accepts
          rw [lt_iff_toNat_lt, overflows_iff, size] at inside
          have sum : (off + n).toNat = off.toNat + n.toNat := by
            rw [UInt32.toNat_add]
            exact Nat.mod_eq_of_lt (by omega)
          rw [lt_iff_toNat_lt, sum, toNat_ofNat_of_lt' maxfile_lt] at fits
          exact ⟨type ▸ regular, by omega, by omega⟩

theorem writei_ensures (settled : Settled sb fs held locked) (inLocked : ip ∈ locked) :
    Ensures (writei sb device ip src off n) fs
      (fun r fs' =>
        ((sb.node fs.disk (fs.icache ip).inum).Accepts off.toNat n.toNat ∧ r = n.toInt32 ∧
          Settled sb fs' held locked ∧
          sb.node fs'.disk = update (sb.node fs.disk) (fs.icache ip).inum
            ((sb.node fs.disk (fs.icache ip).inum).write off.toNat n.toNat src) ∧
          Keeps held fs fs') ∨
        (¬(sb.node fs.disk (fs.icache ip).inum).Accepts off.toNat n.toNat ∧ fs' = fs ∧
          ((sb.node fs.disk (fs.icache ip).inum).type ≠ tDev → r = -1)))
      (· = .outOfBlocks) := by
  refine (writei_clean (settled.clean inLocked)).weaken ?_
  rintro r fs' (⟨accepts, result, clean, nodes, d, icache, table⟩ | refused)
  · obtain ⟨member, _⟩ := settled.cached.opened ip inLocked
    have type := clean.live.2.2
    rw [icache, update_self, table, update_self] at type
    refine .inl ⟨accepts, result, ⟨clean.kept, ?_⟩, nodes, ?_⟩
    · rw [icache, table]
      exact settled.cached.store member type
    · exact .of_update icache (fun _ => rfl) fun _ => id
  · exact .inr refused

end

end Fs

end StraceXv6.Kernel
