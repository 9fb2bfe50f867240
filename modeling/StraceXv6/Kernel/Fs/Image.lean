import StraceXv6.Kernel.Fs.Names

namespace StraceXv6.Kernel

open Function Data

/-! The image that `mkfs` makes of no files, and a kernel that was booted on it. -/

namespace Superblock

section

variable (sb : Superblock)

structure Roomy : Prop where
  inodes : rootino < sb.ninodes
  blocks : sb.nmeta < sb.size

/-- The size is rounded up to whole blocks. -/
def rootDinode : Dinode where
  type := tDir
  major := 0
  minor := 0
  nlink := 1
  size := UInt32.ofNat bsize
  addrs := fun k => if k = 0 then UInt32.ofNat sb.nmeta else 0

def usedBlocks (used : Nat) : Block := (List.range used).foldl setBit fun _ => 0

def rootBlock : Block := fun k =>
  (Fs.Dirent.store ⟨1, Fs.strncpy Fs.dot dirsiz⟩ ++
    Fs.Dirent.store ⟨1, Fs.strncpy Fs.dotdot dirsiz⟩).getD k.val 0

def mkfs (b : Nat) : Block :=
  if b = sb.iblock rootino then sb.rootDinode.store (fun _ => 0) (rootino % ipb)
  else if b = sb.bmapstart then usedBlocks (sb.nmeta + 1)
  else if b = sb.nmeta then rootBlock
  else fun _ => 0

end

variable {sb : Superblock}

theorem usedBlocks_succ (used : Nat) : usedBlocks (used + 1) = setBit (usedBlocks used) used := by
  simp only [usedBlocks, List.range_succ, List.foldl_append, List.foldl_cons, List.foldl_nil]

theorem getBit_usedBlocks {used : Nat} (inside : used ≤ bpb) (b : Nat) :
    getBit (usedBlocks used) b = decide (b < used) := by
  induction used with
  | zero => simp [usedBlocks, getBit, byteAt]
  | succ used induction =>
    have fits : used / 8 < bsize := by
      have limit : bpb = bsize * 8 := rfl
      omega
    rw [usedBlocks_succ, getBit_setBit fits, induction (by omega), ← Bool.decide_or]
    congr 1
    apply propext
    omega

theorem load_zero (position : Nat) : Dinode.load (fun _ => 0) position = .fresh 0 := by
  simp only [Dinode.load, getWord_zero]
  rfl

theorem table_mkfs (roomy : sb.Roomy) :
    sb.table sb.mkfs = update (fun _ => .fresh 0) rootino sb.rootDinode := by
  funext i
  by_cases root : i = rootino
  · subst root
    rw [update_self, table, if_pos roomy.inodes, dinode, mkfs, if_pos rfl,
      Dinode.load_store (by decide)]
  · rw [update_of_ne root, table]
    split
    next inside =>
      have below := iblock_lt inside
      have limit := bmapstart_le_nmeta sb
      rw [dinode, mkfs]
      split
      next same =>
        have apart : i % ipb ≠ rootino % ipb := by
          unfold iblock at same
          change i / 8 + _ = 1 / 8 + _ at same
          change i ≠ 1 at root
          change i % 8 ≠ 1 % 8
          omega
        rw [Dinode.load_store_of_ne apart, load_zero]
      next =>
        rw [if_neg (by omega), if_neg (by omega), load_zero]
    next => rfl

theorem live_mkfs (roomy : sb.Roomy) (i : Nat) :
    sb.Live (sb.table sb.mkfs) i ↔ i = rootino := by
  rw [table_mkfs roomy, Live]
  by_cases root : i = rootino
  · subst root
    rw [update_self]
    exact iff_of_true ⟨Nat.one_pos, roomy.inodes, (by decide : tDir ≠ 0)⟩ rfl
  · rw [update_of_ne root]
    exact iff_of_false (fun live => live.2.2 rfl) root

theorem address_rootDinode (roomy : sb.Roomy) (p : Place) :
    (address sb.mkfs sb.rootDinode p).toNat = if p = .direct 0 then sb.nmeta else 0 := by
  have value : (UInt32.ofNat sb.nmeta).toNat = sb.nmeta :=
    UInt32.toNat_ofNat_of_lt' (roomy.blocks.trans size_lt)
  cases p with
  | direct k =>
    by_cases first : k = 0
    · subst first
      exact value
    · have later : k.castSucc ≠ 0 := fun zero => first (Fin.castSucc_eq_zero_iff.mp zero)
      have other : Place.direct k ≠ .direct 0 := fun same => first (Place.direct.inj same)
      change (if k.castSucc = 0 then UInt32.ofNat sb.nmeta else 0).toNat = _
      rw [if_neg later, if_neg other]
      rfl
  | indirect | entry e => rfl

theorem owns_mkfs (roomy : sb.Roomy) {i r : Nat} {p : Place} :
    sb.owns sb.mkfs (sb.table sb.mkfs) (i, p) = some r ↔
      i = rootino ∧ p = .direct 0 ∧ r = sb.nmeta := by
  have positive : 0 < sb.nmeta := Nat.succ_pos _
  rw [owns_eq_some, live_mkfs roomy]
  apply and_congr_right
  rintro rfl
  have value := address_rootDinode roomy p
  rw [table_mkfs roomy, update_self, ne_eq, ← UInt32.toNat_inj, value]
  by_cases first : p = .direct 0
  · simp only [first, if_true, true_and]
    change ¬sb.nmeta = 0 ∧ _ ↔ _
    constructor
    · exact fun both => both.2.symm
    · exact fun same => ⟨positive.ne', same.symm⟩
  · simp only [first, if_false, false_and, iff_false]
    exact fun both => both.1 rfl

theorem marked_mkfs (roomy : sb.Roomy) {b : Nat} :
    sb.marked sb.mkfs b = true ↔ b < sb.nmeta ∨ b = sb.nmeta := by
  have limit := sb.attached
  have room := roomy.blocks
  have wide : bpb = 4096 := rfl
  have inodes := iblock_lt roomy.inodes
  have map : sb.mkfs sb.bmapstart = usedBlocks (sb.nmeta + 1) := by
    rw [mkfs, if_neg inodes.ne', if_pos rfl]
  change _ ≤ 1000 at limit
  by_cases inside : b < sb.size
  · rw [marked, decide_eq_true inside, Bool.true_and, Fs.bblock_eq sb inside, map,
      getBit_usedBlocks (by omega), Nat.mod_eq_of_lt (by omega), decide_eq_true_eq]
    omega
  · simp only [marked, inside, decide_false, Bool.false_and, Bool.false_eq_true, false_iff]
    omega

theorem kept_mkfs (roomy : sb.Roomy) : sb.Kept sb.mkfs (sb.table sb.mkfs) where
  accounted := by
    refine ⟨?_, ?_, ?_⟩
    · rintro ⟨i, p⟩ ⟨i', p'⟩ r owned also
      obtain ⟨rfl, rfl, _⟩ := (owns_mkfs roomy).mp owned
      obtain ⟨rfl, rfl, _⟩ := (owns_mkfs roomy).mp also
      rfl
    · rintro ⟨i, p⟩ r owned
      obtain ⟨_, _, rfl⟩ := (owns_mkfs roomy).mp owned
      exact Nat.lt_irrefl _
    · intro b
      rw [marked_mkfs roomy]
      apply or_congr_right
      constructor
      · rintro rfl
        exact ⟨(rootino, .direct 0), (owns_mkfs roomy).mpr ⟨rfl, rfl, rfl⟩⟩
      · rintro ⟨⟨i, p⟩, owned⟩
        exact ((owns_mkfs roomy).mp owned).2.2
  mapped := by
    intro i live bn below
    obtain rfl := (live_mkfs roomy i).mp live
    rw [table_mkfs roomy, update_self] at below
    change 512 * bn < 512 at below
    obtain rfl : bn = 0 := by omega
    refine ⟨.direct 0, rfl, ?_⟩
    rw [(owns_mkfs roomy).mpr ⟨rfl, rfl, rfl⟩]
    exact Option.some_ne_none _

def rootNode : Node :=
  ⟨tDir, 0, 0, 1, bsize, fun off => if off < bsize then byteAt rootBlock off else 0⟩

theorem mkfs_nmeta (roomy : sb.Roomy) : sb.mkfs sb.nmeta = rootBlock := by
  have inodes := iblock_lt roomy.inodes
  have after : sb.bmapstart < sb.nmeta := Nat.lt_add_of_pos_right (Nat.succ_pos _)
  rw [mkfs, if_neg (by omega), if_neg after.ne', if_pos rfl]

theorem node_mkfs (roomy : sb.Roomy) :
    sb.node sb.mkfs = update (fun _ => .fresh 0) rootino rootNode := by
  funext i
  by_cases root : i = rootino
  · subst root
    have owned := (owns_mkfs roomy).mpr ⟨rfl, rfl, rfl⟩
    have bytes : ∀ off, off < bsize →
        sb.byte sb.mkfs (sb.table sb.mkfs) rootino off = byteAt rootBlock off := by
      intro off below
      have place : Place.block (off / bsize) = some (.direct 0) := by
        rw [Nat.div_eq_of_lt below]
        rfl
      rw [Fs.byte_of_owns place owned, mkfs_nmeta roomy, Nat.mod_eq_of_lt below]
    have described : sb.table sb.mkfs rootino = sb.rootDinode := by
      rw [table_mkfs roomy, update_self]
    have size : sb.rootDinode.size.toNat = bsize := rfl
    rw [update_self]
    simp only [node, described, size]
    unfold rootNode
    congr 1
    funext off
    split
    next below => exact bytes off below
    next => rfl
  · have blank : sb.table sb.mkfs i = .fresh 0 := by
      rw [table_mkfs roomy, update_of_ne root]
    rw [update_of_ne root]
    unfold node
    rw [blank]
    rfl

theorem dirents_rootNode : rootNode.dirents =
    [⟨1, Fs.strncpy Fs.dot dirsiz⟩, ⟨1, Fs.strncpy Fs.dotdot dirsiz⟩] ++
      List.replicate 30 .clear := by
  decide +kernel

theorem ranged_mkfs (roomy : sb.Roomy) : sb.Ranged (sb.node sb.mkfs) := by
  have inodes : 1 < sb.ninodes := roomy.inodes
  rw [node_mkfs roomy]
  apply Ranged.update
  · intro d directory
    exact absurd directory (by decide : (0 : Int16) ≠ tDir)
  · intro _ de member
    rw [dirents_rootNode] at member
    have small : de.inum.toNat ≤ 1 := by
      have bound : ∀ de ∈ [⟨1, Fs.strncpy Fs.dot dirsiz⟩, ⟨1, Fs.strncpy Fs.dotdot dirsiz⟩] ++
          List.replicate 30 Fs.Dirent.clear, de.inum.toNat ≤ 1 := by
        decide
      exact bound de member
    omega

end Superblock

namespace Fs

def booted (sb : Superblock) : Fs where
  disk := sb.mkfs
  logged := []
  icache := fun ip =>
    { Dinode.fresh 0 with
      inum := if ip = 0 then rootino else 0
      ref := if ip = 0 then 1 else 0
      busy := false
      valid := false }

def boot (sb : Superblock) (image : Nat → Block) : Fs := { booted sb with disk := image }

variable {sb : Superblock}

theorem settled_boot {image : Nat → Block} (rooted : rootino < sb.ninodes)
    (kept : sb.Kept image (sb.table image)) : Settled sb (boot sb image) {0} ∅ where
  kept := kept
  cached := by
    have only : ∀ ip : Fin ninode, ip ∈ ({0} : Multiset (Fin ninode)) → ip = 0 :=
      fun ip member => Multiset.mem_singleton.mp member
    refine ⟨?_, ?_, ?_, ?_⟩
    · intro ip
      rw [Multiset.count_singleton]
      rfl
    · intro ip member jp also _
      rw [only ip member, only jp also]
    · intro ip member
      rw [only ip member]
      refine ⟨Nat.one_pos, rooted, ?_, ?_⟩
      · exact fun valid => absurd valid Bool.false_ne_true
      · exact iff_of_false Bool.false_ne_true (Finset.notMem_empty _)
    · exact fun ip member => absurd member (Finset.notMem_empty ip)

theorem settled_booted (roomy : sb.Roomy) : Settled sb (booted sb) {0} ∅ :=
  settled_boot roomy.inodes (Superblock.kept_mkfs roomy)

end Fs

end StraceXv6.Kernel
