import StraceXv6.Data.Run
import StraceXv6.Kernel.Fs.FileWrite
import StraceXv6.Kernel.Fs.Unlink

namespace StraceXv6.Kernel

open Data Data.Command

/-! Runs of operations on the blocks.  An operation of a process works on references
that it holds; a panic is the end of the run. -/

namespace Fs

/-- The operations, each with its locks.  The inode that `create` and `namei` return is
kept. -/
inductive Operation where
  | readi (ip : Fin ninode) (device : Int16 → Option (Int32 × List UInt8)) (off n : UInt32)
  | writei (ip : Fin ninode) (device : Int16 → Option Int32) (src : Nat → UInt8)
      (off n : UInt32)
  | create (cwd : Fin ninode) (path : List UInt8) (type major minor : Int16)
  | namei (cwd : Fin ninode) (path : List UInt8)
  | unlink (cwd : Fin ninode) (path : List UInt8)
  | iput (ip : Fin ninode)

namespace Operation

def reference : Operation → Fin ninode
  | .readi ip _ _ _ => ip
  | .writei ip _ _ _ _ => ip
  | .create cwd _ _ _ _ => cwd
  | .namei cwd _ => cwd
  | .unlink cwd _ => cwd
  | .iput ip => ip

def perform (sb : Superblock) : Operation → FsM Unit
  | .readi ip device off n => do
    ilock sb ip
    let _ ← Fs.readi sb device ip off n
    iunlock ip
  | .writei ip device src off n => do
    ilock sb ip
    let _ ← Fs.writei sb device ip src off n
    iunlock ip
  | .create cwd path type major minor => do
    match ← Fs.create sb cwd path type major minor with
    | none => pure ()
    | some ip => iunlock ip
  | .namei cwd path => do
    let _ ← Fs.namei sb cwd path
  | .unlink cwd path => do
    let _ ← Fs.unlink sb cwd path
  | .iput ip => Fs.iput sb ip

/-- `create` is called with a type, and `open` gives no descriptor that writes to a
directory: its entries name inodes of the disk. -/
def Permitted (sb : Superblock) (fs : Fs) : Operation → Prop
  | .create _ _ type _ _ => type ≠ 0
  | .writei ip _ src off n => (nodeAt sb fs ip).type = tDir →
      ∀ de ∈ ((nodeAt sb fs ip).write off.toNat n.toNat src).dirents,
        de.inum.toNat < sb.ninodes
  | _ => True

instance (sb : Superblock) (fs : Fs) (operation : Operation) :
    Decidable (operation.Permitted sb fs) :=
  match operation with
  | .create _ _ type _ _ => inferInstanceAs (Decidable (type ≠ 0))
  | .writei ip _ src off n => inferInstanceAs (Decidable ((nodeAt sb fs ip).type = tDir →
      ∀ de ∈ ((nodeAt sb fs ip).write off.toNat n.toNat src).dirents,
        de.inum.toNat < sb.ninodes))
  | .readi .. => .isTrue trivial
  | .namei .. => .isTrue trivial
  | .unlink .. => .isTrue trivial
  | .iput .. => .isTrue trivial

end Operation

structure Machine where
  fs : Fs
  halt : Option Halt

def Machine.step (sb : Superblock) (machine : Machine) (operation : Operation) :
    Option Machine :=
  if machine.halt = none ∧ 0 < (machine.fs.icache operation.reference).ref ∧
      operation.Permitted sb machine.fs then
    match operation.perform sb machine.fs with
    | .ok (_, fs') => some ⟨fs', none⟩
    | .error failure => some { machine with halt := some failure }
  else none

structure Steady (sb : Superblock) (fs : Fs) (held : Multiset (Fin ninode)) : Prop where
  settled : Settled sb fs held ∅
  ranged : sb.Ranged (sb.node fs.disk)

section

variable {sb : Superblock} {fs fs' : Fs} {held : Multiset (Fin ninode)} {ip : Fin ninode}

theorem Passed.steady (passed : Passed sb held fs fs') (settled : Settled sb fs' held ∅)
    (ranged : sb.Ranged (sb.node fs.disk)) : Steady sb fs' held :=
  ⟨settled, passed.ranged ranged⟩

theorem Steady.locked (steady : Steady sb fs held) (member : ip ∈ held) {α : Type}
    {body : FsM α}
    (ensures : ∀ middle, Settled sb middle held {ip} → nodeAt sb middle ip = nodeAt sb fs ip →
      sb.Ranged (sb.node middle.disk) →
      Ensures body middle (fun _ fs' => Settled sb fs' held {ip} ∧
        sb.Ranged (sb.node fs'.disk)) (· ≠ .freeingFreeBlock)) :
    Ensures (do ilock sb ip; let _ ← body; iunlock ip) fs
      (fun _ fs' => Steady sb fs' held) (· ≠ .freeingFreeBlock) := by
  refine (ilock_passed steady.settled member).bind ?_ fun _ halts => halts.noFree
  rintro _ middle ⟨_, settled, disk, passed⟩
  have same : nodeAt sb middle ip = nodeAt sb fs ip := by
    rw [nodeAt, disk, (passed.keeps ip member).1]
  refine (ensures middle settled same (passed.ranged steady.ranged)).seq ?_
  rintro _ last ⟨settled', ranged⟩
  refine (iunlock_ensures settled' (Finset.mem_singleton_self ip)).mono ?_
    fun _ => False.elim
  rintro _ fs' ⟨released, disk', _⟩
  refine ⟨?_, by rw [disk']; exact ranged⟩
  rwa [Finset.erase_singleton] at released

theorem perform_ensures (rooted : rootino < sb.ninodes) {operation : Operation}
    (steady : Steady sb fs held) (member : operation.reference ∈ held)
    (permitted : operation.Permitted sb fs) :
    Ensures (operation.perform sb) fs (fun _ fs' => ∃ held', Steady sb fs' held')
      (· ≠ .freeingFreeBlock) := by
  obtain ⟨settled, ranged⟩ := steady
  cases operation with
  | readi ip device off n =>
    change ip ∈ held at member
    refine (Steady.locked ⟨settled, ranged⟩ member ?_).weaken fun _ _ steady =>
      ⟨held, steady⟩
    intro middle opened _ inside
    refine (readi_ensures opened (Finset.mem_singleton_self ip)).mono ?_ fun _ => False.elim
    rintro _ _ ⟨rfl, _⟩
    exact ⟨opened, inside⟩
  | writei ip device src off n =>
    change ip ∈ held at member
    refine (Steady.locked ⟨settled, ranged⟩ member ?_).weaken fun _ _ steady =>
      ⟨held, steady⟩
    intro middle opened same inside
    refine (writei_ensures opened (Finset.mem_singleton_self ip)).mono ?_
      fun _ stopped => by rw [stopped]; decide
    rintro _ last (⟨_, _, settled', nodes, _⟩ | ⟨_, rfl, _⟩)
    · refine ⟨settled', ?_⟩
      rw [nodes]
      apply inside.update
      change (nodeAt sb middle ip).type = tDir →
        ∀ de ∈ ((nodeAt sb middle ip).write _ _ _).dirents, _
      rw [same]
      exact permitted
    · exact ⟨opened, inside⟩
  | create cwd path type major minor =>
    refine (create_ensures rooted settled member ranged permitted).bind ?_
      fun _ halts => halts.noFree
    rintro (_ | ip) middle created
    · obtain ⟨settled', passed⟩ := created
      exact ⟨held, passed.steady settled' ranged⟩
    · obtain ⟨settled', _, ranged', _⟩ := created
      refine (iunlock_ensures settled' (Finset.mem_singleton_self ip)).mono ?_
        fun _ => False.elim
      rintro _ fs' ⟨released, disk, _⟩
      rw [Finset.erase_singleton] at released
      exact ⟨ip ::ₘ held, released, by rw [disk]; exact ranged'⟩
  | namei cwd path =>
    refine (namei_ensures rooted settled member ranged).bind ?_ fun _ halts => halts.noFree
    rintro _ fs' ⟨found, resolved, _⟩
    cases found with
    | none => exact ⟨held, resolved.passed.steady (resolved.missing rfl) ranged⟩
    | some reached =>
      exact ⟨reached.1 ::ₘ held, (resolved.found reached.1 reached.2 rfl).1,
        resolved.passed.ranged ranged⟩
  | unlink cwd path =>
    refine (unlink_ensures rooted settled member ranged).bind ?_ fun _ halts => halts.noFree
    rintro _ fs' ⟨settled', _, ranged', _⟩
    exact ⟨held, settled', ranged'⟩
  | iput ip =>
    obtain ⟨rest, rfl⟩ := Multiset.exists_cons_of_mem member
    refine (iput_released settled fun locked => absurd locked (Finset.notMem_empty ip)).mono
      ?_ fun _ => False.elim
    rintro _ fs' ⟨settled', released⟩
    exact ⟨rest, released.toPassed.steady settled' ranged⟩

end

/-- The use of the blocks: none is shared, the bitmap marks those in use, no inode has a
hole, and the cache has the addresses of the disk. -/
structure BlocksUsed (sb : Superblock) (fs : Fs) : Prop where
  distinct : ∀ h h' b, sb.owns fs.disk (sb.table fs.disk) h = some b →
    sb.owns fs.disk (sb.table fs.disk) h' = some b → h = h'
  outside : ∀ h b, sb.owns fs.disk (sb.table fs.disk) h = some b → sb.nmeta ≤ b ∧ b < sb.size
  marked_iff : ∀ b < sb.size, getBit (fs.disk (sb.bblock b)) (b % bpb) = true ↔
    b < sb.nmeta ∨ ∃! h, sb.owns fs.disk (sb.table fs.disk) h = some b
  mapped : ∀ i, sb.Live (sb.table fs.disk) i →
    ∀ bn, bn < ((sb.table fs.disk i).size.toNat + (bsize - 1)) / bsize →
      ∃ p, Place.block bn = some p ∧ sb.owns fs.disk (sb.table fs.disk) (i, p) ≠ none
  cached : ∀ ip, 0 < (fs.icache ip).ref → (fs.icache ip).valid = true →
    (fs.icache ip).addrs = (sb.table fs.disk (fs.icache ip).inum).addrs

section

variable {sb : Superblock} {fs : Fs} {held : Multiset (Fin ninode)}

theorem Settled.blocksUsed (settled : Settled sb fs held ∅) : BlocksUsed sb fs where
  distinct := fun _ _ _ owned also => settled.kept.accounted.alone owned also
  outside := by
    intro h b owned
    have marked := settled.kept.accounted.marked_of_owns owned
    rw [Superblock.marked, Bool.and_eq_true, decide_eq_true_eq] at marked
    exact ⟨settled.kept.nmeta_le owned, marked.1⟩
  marked_iff := by
    intro b inside
    have accounted := settled.kept.accounted
    have bit : sb.marked fs.disk b = getBit (fs.disk (sb.bblock b)) (b % bpb) := by
      rw [Superblock.marked, decide_eq_true inside, Bool.true_and]
    rw [← bit, accounted.marked_iff]
    apply or_congr Iff.rfl
    constructor
    · rintro ⟨h, owned⟩
      exact ⟨h, owned, fun _ also => accounted.alone also owned⟩
    · exact ExistsUnique.exists
  mapped := by
    intro i live bn below
    refine settled.kept.mapped i live bn ?_
    change bn < ((sb.table fs.disk i).size.toNat + 511) / 512 at below
    change 512 * bn < _
    omega
  cached := by
    intro ip used valid
    rw [settled.copied (settled.cached.ref_pos_iff.mp used) valid]

/-- Between the operations the file system is steady, and no run stops because a free
block was freed. -/
def Machine.Intact (sb : Superblock) (machine : Machine) : Prop :=
  (∃ held, Steady sb machine.fs held) ∧ machine.halt ≠ some .freeingFreeBlock

theorem Machine.intact_step (rooted : rootino < sb.ninodes) {machine machine' : Machine}
    {operation : Operation} (intact : machine.Intact sb)
    (stepped : machine.step sb operation = some machine') : machine'.Intact sb := by
  obtain ⟨⟨held, steady⟩, _⟩ := intact
  unfold step at stepped
  split at stepped
  next enabled =>
    obtain ⟨_, used, permitted⟩ := enabled
    have member := steady.settled.cached.ref_pos_iff.mp used
    have ensures := perform_ensures rooted steady member permitted
    split at stepped
    next performed =>
      cases stepped
      exact ⟨ensures.of_ok performed, Option.some_ne_none _ |>.symm⟩
    next failure performed =>
      cases stepped
      refine ⟨⟨held, steady⟩, ?_⟩
      exact fun same => ensures.of_error performed (Option.some.inj same)
  next => cases stepped

theorem blocksUsed_of_run (rooted : rootino < sb.ninodes) {image : Nat → Block}
    (kept : sb.Kept image (sb.table image)) (ranged : sb.Ranged (sb.node image))
    {operations : List Operation} {machine : Machine}
    (reached : run (Machine.step sb) ⟨boot sb image, none⟩ operations = some machine) :
    BlocksUsed sb machine.fs ∧ machine.halt ≠ some .freeingFreeBlock := by
  have initially : Machine.Intact sb ⟨boot sb image, none⟩ :=
    ⟨⟨{0}, settled_boot rooted kept, ranged⟩, (Option.some_ne_none _).symm⟩
  obtain ⟨⟨_, steady⟩, noFree⟩ := run_preserves (Machine.Intact sb)
    (fun _ _ _ intact stepped => Machine.intact_step rooted intact stepped) initially reached
  exact ⟨steady.settled.blocksUsed, noFree⟩

end

def fileLife : List Operation :=
  [.create 0 (lit "a") tFile 0 0,
    .writei 1 (fun _ => none) (fun _ => 97) 0 600,
    .readi 1 (fun _ => none) 500 200,
    .unlink 0 (lit "a"),
    .iput 1]

theorem blocksUsed_of_fileLife :
    ∃ machine, run (Machine.step smallDisk) ⟨boot smallDisk smallDisk.mkfs, none⟩ fileLife =
        some machine ∧ machine.halt = none ∧ BlocksUsed smallDisk machine.fs := by
  have runs : ((run (Machine.step smallDisk) ⟨boot smallDisk smallDisk.mkfs, none⟩ fileLife).map
      Machine.halt) = some none := by
    decide +kernel
  obtain ⟨machine, reached, halt⟩ := Option.map_eq_some_iff.mp runs
  exact ⟨machine, reached, halt, (blocksUsed_of_run roomy_smallDisk.inodes
    (Superblock.kept_mkfs roomy_smallDisk) (Superblock.ranged_mkfs roomy_smallDisk) reached).1⟩

end Fs

end StraceXv6.Kernel
