import Mathlib.Data.Finset.Basic
import StraceXv6.Kernel.Fs.Content

namespace StraceXv6.Kernel

open Function Data Data.Command

/-! The inode cache.  `held` are the references handed out and `locked` the entries
that are locked. -/

namespace Fs

section

variable (sb : Superblock)

structure Entry (table : Nat → Dinode) (locked : Finset (Fin ninode)) (ip : Fin ninode)
    (inode : Inode) : Prop where
  positive : 0 < inode.inum
  inside : inode.inum < sb.ninodes
  copied : inode.valid = true → inode.toDinode = table inode.inum ∧ inode.type ≠ 0
  busy : inode.busy = true ↔ ip ∈ locked

structure Cached (icache : Fin ninode → Inode) (table : Nat → Dinode)
    (held : Multiset (Fin ninode)) (locked : Finset (Fin ninode)) : Prop where
  counted : ∀ ip, (icache ip).ref = held.count ip
  distinct : ∀ ip ∈ held, ∀ jp ∈ held, (icache ip).inum = (icache jp).inum → ip = jp
  entries : ∀ ip ∈ held, Entry sb table locked ip (icache ip)
  opened : ∀ ip ∈ locked, ip ∈ held ∧ (icache ip).valid = true

structure Settled (fs : Fs) (held : Multiset (Fin ninode)) (locked : Finset (Fin ninode)) :
    Prop where
  kept : sb.Kept fs.disk (sb.table fs.disk)
  cached : Cached sb fs.icache (sb.table fs.disk) held locked

end

def Keeps (held : Multiset (Fin ninode)) (fs fs' : Fs) : Prop :=
  ∀ jp ∈ held, (fs'.icache jp).inum = (fs.icache jp).inum ∧
    ((fs.icache jp).valid = true → (fs'.icache jp).valid = true)

theorem Keeps.refl (held : Multiset (Fin ninode)) (fs : Fs) : Keeps held fs fs :=
  fun _ _ => ⟨rfl, id⟩

variable {fs fs' : Fs} {held held' : Multiset (Fin ninode)}

theorem Keeps.mono (keeps : Keeps held' fs fs') (among : ∀ jp ∈ held, jp ∈ held') :
    Keeps held fs fs' :=
  fun jp member => keeps jp (among jp member)

theorem Keeps.trans {fs'' : Fs} (first : Keeps held fs fs') (second : Keeps held' fs' fs'')
    (among : ∀ jp ∈ held, jp ∈ held') : Keeps held fs fs'' := by
  intro jp member
  obtain ⟨inum, valid⟩ := first jp member
  obtain ⟨inum', valid'⟩ := second jp (among jp member)
  exact ⟨inum'.trans inum, fun before => valid' (valid before)⟩

section

variable {sb : Superblock} {fs fs' : Fs} {ip : Fin ninode} {held : Multiset (Fin ninode)}
  {locked : Finset (Fin ninode)} {icache : Fin ninode → Inode} {table : Nat → Dinode}

theorem Cached.ref_pos_iff (cached : Cached sb icache table held locked) :
    0 < (icache ip).ref ↔ ip ∈ held := by
  rw [cached.counted, Multiset.count_pos]

variable {inode : Inode}

theorem Cached.put (cached : Cached sb icache table held locked) {held' : Multiset (Fin ninode)}
    {locked' : Finset (Fin ninode)} (here : inode.ref = held'.count ip)
    (elsewhere : ∀ jp, jp ≠ ip → held'.count jp = held.count jp)
    (locks : ∀ jp, jp ≠ ip → (jp ∈ locked' ↔ jp ∈ locked))
    (entry : ip ∈ held' → Entry sb table locked' ip inode)
    (alone : ip ∈ held' → ∀ jp ∈ held, (icache jp).inum = inode.inum → jp = ip)
    (opened : ip ∈ locked' → ip ∈ held' ∧ inode.valid = true) :
    Cached sb (update icache ip inode) table held' locked' := by
  have members : ∀ jp, jp ≠ ip → (jp ∈ held' ↔ jp ∈ held) := by
    intro jp other
    rw [← Multiset.count_pos, ← Multiset.count_pos, elsewhere jp other]
  refine ⟨?_, ?_, ?_, ?_⟩
  · intro jp
    by_cases same : jp = ip
    · subst same
      rw [update_self, here]
    · rw [update_of_ne same, cached.counted, elsewhere jp same]
  · intro jp first kp second equal
    by_cases isFirst : jp = ip
    · by_cases isSecond : kp = ip
      · rw [isFirst, isSecond]
      · subst isFirst
        rw [update_self, update_of_ne isSecond] at equal
        exact (alone first kp ((members kp isSecond).mp second) equal.symm).symm
    · by_cases isSecond : kp = ip
      · subst isSecond
        rw [update_self, update_of_ne isFirst] at equal
        exact alone second jp ((members jp isFirst).mp first) equal
      · rw [update_of_ne isFirst, update_of_ne isSecond] at equal
        exact cached.distinct jp ((members jp isFirst).mp first) kp
          ((members kp isSecond).mp second) equal
  · intro jp member
    by_cases same : jp = ip
    · subst same
      rw [update_self]
      exact entry member
    · rw [update_of_ne same]
      obtain ⟨positive, inside, copied, busy⟩ :=
        cached.entries jp ((members jp same).mp member)
      exact ⟨positive, inside, copied, busy.trans (locks jp same).symm⟩
  · intro jp member
    by_cases same : jp = ip
    · subst same
      rw [update_self]
      exact opened member
    · rw [update_of_ne same]
      obtain ⟨inHeld, valid⟩ := cached.opened jp ((locks jp same).mp member)
      exact ⟨(members jp same).mpr inHeld, valid⟩

theorem Cached.alone (cached : Cached sb icache table held locked) (member : ip ∈ held) :
    ∀ jp ∈ held, (icache jp).inum = (icache ip).inum → jp = ip :=
  fun jp inHeld equal => cached.distinct jp inHeld ip member equal

theorem Keeps.of_update (icache : fs'.icache = update fs.icache ip inode)
    (inum : ip ∈ held → inode.inum = (fs.icache ip).inum)
    (valid : ip ∈ held → (fs.icache ip).valid = true → inode.valid = true) : Keeps held fs fs' := by
  intro jp member
  rw [icache]
  by_cases same : jp = ip
  · subst same
    rw [update_self]
    exact ⟨inum member, valid member⟩
  · rw [update_of_ne same]
    exact ⟨rfl, id⟩

theorem Settled.addRef (settled : Settled sb fs held locked) (member : ip ∈ held) :
    Settled sb (fs.putInode ip { fs.icache ip with ref := (fs.icache ip).ref + 1 })
      (ip ::ₘ held) locked where
  kept := settled.kept
  cached := by
    have entry := settled.cached.entries ip member
    apply settled.cached.put
    · rw [Multiset.count_cons_self, settled.cached.counted]
    · intro jp other
      exact Multiset.count_cons_of_ne other held
    · exact fun _ _ => Iff.rfl
    · intro _
      exact ⟨entry.positive, entry.inside, entry.copied, entry.busy⟩
    · intro _
      exact settled.cached.alone member
    · intro inLocked
      exact ⟨Multiset.mem_cons_self ip held, (settled.cached.opened ip inLocked).2⟩

theorem iget_ensures {inum : Nat} (settled : Settled sb fs held locked) (positive : 0 < inum)
    (inside : inum < sb.ninodes) :
    Ensures (iget inum) fs
      (fun ip fs' => Settled sb fs' (ip ::ₘ held) locked ∧ fs'.disk = fs.disk ∧
        (fs'.icache ip).inum = inum ∧ Keeps held fs fs')
      (· = .noCacheEntry) := by
  unfold iget
  simp only [ensures_bind, ensures_get]
  split
  next ip found =>
    have used := List.find?_some found
    simp only [Bool.and_eq_true, decide_eq_true_eq, beq_iff_eq] at used
    have member := settled.cached.ref_pos_iff.mp used.1
    simp only [modifyInode, ensures_bind, ensures_modify, ensures_pure]
    refine ⟨settled.addRef member, rfl, ?_, Keeps.of_update rfl (fun _ => rfl) fun _ => id⟩
    rw [icache_putInode, update_self]
    exact used.2
  next missing =>
    split
    next => rfl
    next ip found =>
      have empty := List.find?_some found
      rw [beq_iff_eq] at empty
      have outside : ip ∉ held := by
        rw [← settled.cached.ref_pos_iff, empty]
        exact Nat.lt_irrefl 0
      have unlocked : ip ∉ locked := fun inLocked =>
        outside (settled.cached.opened ip inLocked).1
      simp only [modifyInode, ensures_bind, ensures_modify, ensures_pure]
      refine ⟨⟨settled.kept, ?_⟩, rfl, ?_, ?_⟩
      · apply settled.cached.put
        · rw [Multiset.count_cons_self, Multiset.count_eq_zero_of_notMem outside]
        · intro jp other
          exact Multiset.count_cons_of_ne other held
        · exact fun _ _ => Iff.rfl
        · intro _
          exact ⟨positive, inside, Bool.noConfusion, by simp [unlocked]⟩
        · intro _ jp member equal
          have used := List.find?_eq_none.mp missing jp (List.mem_finRange jp)
          simp [settled.cached.ref_pos_iff.mpr member, equal] at used
        · intro inLocked
          exact absurd inLocked unlocked
      · rw [icache_putInode, update_self]
      · exact Keeps.of_update rfl (fun member => absurd member outside)
          fun member => absurd member outside

theorem idup_ensures (settled : Settled sb fs held locked) (member : ip ∈ held) :
    Ensures (idup ip) fs
      (fun jp fs' => jp = ip ∧ Settled sb fs' (ip ::ₘ held) locked ∧ fs'.disk = fs.disk ∧
        Keeps held fs fs')
      (fun _ => False) := by
  unfold idup
  simp only [modifyInode, ensures_bind, ensures_modify, ensures_pure]
  exact ⟨trivial, settled.addRef member, rfl, Keeps.of_update rfl (fun _ => rfl) fun _ => id⟩

theorem Cached.dinode_eq (cached : Cached sb icache (sb.table fs.disk) held locked)
    (member : ip ∈ held) :
    sb.dinode fs.disk (icache ip).inum = sb.table fs.disk (icache ip).inum := by
  rw [Superblock.table, if_pos (cached.entries ip member).inside]

theorem Settled.lock (settled : Settled sb fs held locked) (member : ip ∈ held)
    (ref : inode.ref = (fs.icache ip).ref) (inum : inode.inum = (fs.icache ip).inum)
    (busy : inode.busy = true) (valid : inode.valid = true)
    (copied : inode.toDinode = sb.table fs.disk inode.inum ∧ inode.type ≠ 0) :
    Settled sb (fs.putInode ip inode) held (insert ip locked) where
  kept := settled.kept
  cached := by
    have entry := settled.cached.entries ip member
    apply settled.cached.put
    · rw [ref, settled.cached.counted]
    · exact fun _ _ => rfl
    · intro jp other
      simp [other]
    · intro _
      refine ⟨inum ▸ entry.positive, inum ▸ entry.inside, fun _ => copied, ?_⟩
      simp [busy]
    · intro _
      rw [inum]
      exact settled.cached.alone member
    · intro _
      exact ⟨member, valid⟩

theorem ilock_ensures (settled : Settled sb fs held locked) (member : ip ∈ held) :
    Ensures (ilock sb ip) fs
      (fun _ fs' => ip ∉ locked ∧ Settled sb fs' held (insert ip locked) ∧
        fs'.disk = fs.disk ∧ Keeps held fs fs')
      (fun failure => failure = .asleep ∧ ip ∈ locked ∨ failure = .noType ∧
        (sb.table fs.disk (fs.icache ip).inum).type = 0) := by
  have used : ¬(fs.icache ip).ref < 1 :=
    Nat.not_lt.mpr (settled.cached.ref_pos_iff.mpr member)
  have entry := settled.cached.entries ip member
  unfold ilock getInode
  simp only [ensures_bind, ensures_get, ensures_pure, if_neg used]
  split
  next busy => exact .inl ⟨rfl, entry.busy.mp busy⟩
  next idle =>
    have unlocked : ip ∉ locked := fun inLocked => idle (entry.busy.mpr inLocked)
    split
    next valid =>
      simp only [modifyInode, ensures_modify]
      exact ⟨unlocked, settled.lock member rfl rfl rfl valid (entry.copied valid), rfl,
        Keeps.of_update rfl (fun _ => rfl) fun _ => id⟩
    next =>
      have loaded := settled.cached.dinode_eq member
      simp only [modifyInode, ensures_bind, ensures_get, ensures_modify, loaded]
      split
      next noType => exact .inr ⟨rfl, noType⟩
      next typed =>
        exact ⟨unlocked, settled.lock member rfl rfl rfl rfl ⟨rfl, typed⟩, rfl,
          Keeps.of_update rfl (fun _ => rfl) fun _ _ => rfl⟩

theorem iunlock_ensures (settled : Settled sb fs held locked) (inLocked : ip ∈ locked) :
    Ensures (iunlock ip) fs
      (fun _ fs' => Settled sb fs' held (locked.erase ip) ∧ fs'.disk = fs.disk ∧
        Keeps held fs fs')
      (fun _ => False) := by
  obtain ⟨member, valid⟩ := settled.cached.opened ip inLocked
  have entry := settled.cached.entries ip member
  have used := settled.cached.ref_pos_iff.mpr member
  have busy := entry.busy.mpr inLocked
  have passes : ¬(!(fs.icache ip).busy || decide ((fs.icache ip).ref < 1)) = true := by
    simp only [busy, Bool.not_true, Bool.false_or, decide_eq_true_eq]
    omega
  unfold iunlock getInode
  simp only [ensures_bind, ensures_get, ensures_pure, if_neg passes, modifyInode,
    ensures_modify]
  refine ⟨⟨settled.kept, ?_⟩, rfl, Keeps.of_update rfl (fun _ => rfl) fun _ => id⟩
  apply settled.cached.put
  · exact settled.cached.counted ip
  · exact fun _ _ => rfl
  · intro jp other
    simp [other]
  · intro _
    exact ⟨entry.positive, entry.inside, entry.copied, by simp⟩
  · intro _
    exact settled.cached.alone member
  · intro erased
    simp at erased

end

end Fs

end StraceXv6.Kernel
