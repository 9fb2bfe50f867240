import StraceXv6.Kernel.Fs.Names

namespace StraceXv6.Kernel

open List Function Data Data.Command

theorem Superblock.ninodes_lt (sb : Superblock) : sb.ninodes < 2 ^ 16 := by
  have first := sb.inodes
  have second := sb.bitmap
  have third := sb.attached
  change _ + (_ / 8 + 1) ≤ _ at first
  change _ ≤ 1000 at third
  generalize sb.size / bpb = blocks at second
  omega

theorem Superblock.toNat_inum {sb : Superblock} {i : Nat} (inside : i < sb.ninodes) :
    (UInt16.ofNat i).toNat = i :=
  UInt16.toNat_ofNat_of_lt' (inside.trans sb.ninodes_lt)

namespace Node

open Fs (Dirent FreeSlot)

variable {n : Node} {k : Nat} {de : Dirent}

theorem dirents_put_of_freeSlot (slot : FreeSlot n k) (length : de.name.length = dirsiz) :
    (n.put k de).dirents = n.dirents.set k de ∧ k < n.dirents.length ∧ (n.dirent k).inum = 0 ∨
      (n.put k de).dirents = n.dirents ++ [de] ∧ k = n.dirents.length := by
  rcases slot with ⟨inside, free⟩ | last
  · exact .inl ⟨dirents_put length inside, inside, free⟩
  · refine .inr ⟨dirents_put_size length last, ?_⟩
    rw [length_dirents, ← last]
    exact (Nat.mul_div_cancel_left k (by decide)).symm

theorem mem_dirents_put (slot : k < n.dirents.length ∨ FreeSlot n k)
    (length : de.name.length = dirsiz) {other : Dirent}
    (member : other ∈ (n.put k de).dirents) : other ∈ n.dirents ∨ other = de := by
  have set : k < n.dirents.length → other ∈ n.dirents ∨ other = de := by
    intro inside
    rw [dirents_put length inside] at member
    exact mem_or_eq_of_mem_set member
  rcases slot with inside | slot
  · exact set inside
  · rcases dirents_put_of_freeSlot slot length with ⟨_, inside, _⟩ | ⟨whole, _⟩
    · exact set inside
    · rw [whole, mem_append, mem_singleton] at member
      exact member

end Node

namespace Fs

section

variable {sb : Superblock} {fs fs' : Fs} {ip dp : Fin ninode}
  {held held' : Multiset (Fin ninode)} {locked : Finset (Fin ninode)}

theorem Anchored.change (anchored : Anchored sb fs held) (keeps : Keeps held fs fs')
    (settled : Settled sb fs' held' locked) (among : ∀ jp ∈ held, jp ∈ held')
    (elsewhere : ∀ j, (∀ ip ∈ locked, (fs'.icache ip).inum ≠ j) →
      sb.node fs'.disk j = sb.node fs.disk j) : Anchored sb fs' held' := by
  intro i positive allocated unlinked
  by_cases changed : ∃ ip ∈ locked, (fs'.icache ip).inum = i
  · obtain ⟨ip, inLocked, inum⟩ := changed
    obtain ⟨member, valid⟩ := settled.cached.opened ip inLocked
    exact ⟨ip, member, inum, valid⟩
  · have same := elsewhere i fun ip inLocked inum => changed ⟨ip, inLocked, inum⟩
    rw [same] at allocated unlinked
    obtain ⟨jp, member, inum, valid⟩ := anchored i positive allocated unlinked
    obtain ⟨inum', valid'⟩ := keeps jp member
    exact ⟨jp, among jp member, inum'.trans inum, valid' valid⟩

def blankInode (type major minor : Int16) : Node :=
  { Node.fresh type with major := major, minor := minor, nlink := 1 }

def nameEntry (i : Nat) (name : List UInt8) : Dirent :=
  ⟨UInt16.ofNat i, strncpy name dirsiz⟩

theorem length_nameEntry (i : Nat) (name : List UInt8) :
    (nameEntry i name).name.length = dirsiz :=
  length_strncpy name dirsiz

def newInode (type major minor : Int16) (i d : Nat) : Node :=
  if type = tDir then
    ((blankInode type major minor).put 0 (nameEntry i dot)).put 1 (nameEntry d dotdot)
  else blankInode type major minor

def newParent (n : Node) (type : Int16) : Node :=
  { n with nlink := if type = tDir then n.nlink + 1 else n.nlink }

theorem dirents_blankInode (type major minor : Int16) :
    (blankInode type major minor).dirents = [] := by
  simp [Node.dirents, blankInode, Node.fresh]

theorem dirents_dot (type major minor : Int16) (i : Nat) :
    ((blankInode type major minor).put 0 (nameEntry i dot)).dirents = [nameEntry i dot] := by
  rw [Node.dirents_put_size (length_nameEntry i dot) rfl, dirents_blankInode, nil_append]

theorem find_dotdot (type major minor : Int16) (i : Nat) :
    ((blankInode type major minor).put 0 (nameEntry i dot)).find dotdot = none := by
  have differs : cname dotdot ≠ cname dot := by decide
  rw [Node.find, dirents_dot]
  simp [nameEntry, differs]

variable {j i d : Nat} {major minor type : Int16} {name : List UInt8}

theorem freeSlot_blankInode (slot : FreeSlot (blankInode type major minor) j) : j = 0 := by
  rcases slot with ⟨inside, _⟩ | last
  · rw [dirents_blankInode] at inside
    exact absurd inside (Nat.not_lt_zero j)
  · change 16 * j = 0 at last
    omega

theorem freeSlot_dot (positive : 0 < i) (inside : i < sb.ninodes)
    (slot : FreeSlot ((blankInode type major minor).put 0 (nameEntry i dot)) j) : j = 1 := by
  rcases slot with ⟨first, free⟩ | last
  · rw [dirents_dot, length_singleton, Nat.lt_one_iff] at first
    rw [first, Node.dirent_put_self (length_nameEntry i dot)] at free
    have zero : (UInt16.ofNat i).toNat = 0 := congrArg UInt16.toNat free
    rw [Superblock.toNat_inum inside] at zero
    omega
  · rw [Node.size_put] at last
    change 16 * j = max 0 16 at last
    omega

theorem relink_ensures (settled : Settled sb fs held locked) (inLocked : ip ∈ locked)
    (relink : Int16 → Int16) :
    Ensures (updateInode sb ip fun inode => { inode with nlink := relink inode.nlink }) fs
      (fun _ fs' => Settled sb fs' held locked ∧ Keeps held fs fs' ∧
        sb.node fs'.disk = update (sb.node fs.disk) (fs.icache ip).inum
          { nodeAt sb fs ip with nlink := relink (nodeAt sb fs ip).nlink })
      (fun _ => False) := by
  obtain ⟨member, valid⟩ := settled.cached.opened ip inLocked
  have copied := settled.copied member valid
  have changed : (fun inode : Inode => { inode with nlink := relink inode.nlink })
      (fs.icache ip) = { fs.icache ip with
        major := (fs.icache ip).major
        minor := (fs.icache ip).minor
        nlink := relink (fs.icache ip).nlink } := rfl
  refine (updateFields_ensures settled inLocked changed).weaken ?_
  rintro _ fs' ⟨settled', nodes, keeps⟩
  refine ⟨settled', keeps, ?_⟩
  rw [nodes, copied]
  rfl

theorem dirlink_absent {node : Node} {inum : Nat} (settled : Settled sb fs held locked)
    (inLocked : dp ∈ locked) (described : nodeAt sb fs dp = node) (directory : node.type = tDir)
    (ranged : ∀ de ∈ node.dirents, de.inum.toNat < sb.ninodes) (absent : node.find name = none) :
    Ensures (dirlink sb dp name inum) fs
      (fun linked fs' => linked = true ∧ Settled sb fs' held locked ∧ Keeps held fs fs' ∧
        ∃ j, FreeSlot node j ∧
          sb.node fs'.disk = update (sb.node fs.disk) (fs.icache dp).inum
            (node.put j (nameEntry inum name)))
      Benign := by
  refine (dirlink_ensures settled inLocked described directory ranged).weaken ?_
  rintro linked fs' ⟨settled', keeps, linking⟩
  cases linked with
  | false => exact absurd absent linking.1
  | true => exact ⟨rfl, settled', keeps, linking.2⟩

theorem makeDots_ensures {parent : Node} (settled : Settled sb fs held locked)
    (ipLocked : ip ∈ locked) (dpLocked : dp ∈ locked) (inum : (fs.icache ip).inum = i)
    (inum' : (fs.icache dp).inum = d) (distinct : i ≠ d)
    (child : sb.node fs.disk i = blankInode type major minor)
    (described : sb.node fs.disk d = parent) :
    Ensures (makeDots sb type dp ip) fs
      (fun _ fs' => Settled sb fs' held locked ∧ Keeps held fs fs' ∧
        sb.node fs'.disk =
          update (update (sb.node fs.disk) d (newParent parent type)) i
            (newInode type major minor i d))
      Benign := by
  obtain ⟨ipHeld, _⟩ := settled.cached.opened ip ipLocked
  obtain ⟨dpHeld, _⟩ := settled.cached.opened dp dpLocked
  have entry := settled.cached.entries ip ipHeld
  have inside := entry.inside
  have positive := entry.positive
  rw [inum] at inside positive
  unfold makeDots
  split
  next directory =>
    refine (relink_ensures settled dpLocked (· + 1)).bind ?_ fun _ => False.elim
    rintro _ first ⟨settled₁, keeps₁, nodes₁⟩
    rw [inum', nodeAt, inum', described] at nodes₁
    have inum₁ := (keeps₁ ip ipHeld).1.trans inum
    have child₁ : nodeAt sb first ip = blankInode type major minor := by
      rw [nodeAt, inum₁, nodes₁, update_of_ne distinct, child]
    simp only [getInode, ensures_bind, ensures_get, ensures_pure, inum₁]
    refine (dirlink_absent settled₁ ipLocked child₁ directory (by simp [dirents_blankInode])
      (by simp [Node.find, dirents_blankInode])).weaken ?_
    rintro _ second ⟨rfl, settled₂, keeps₂, j, slot, nodes₂⟩
    obtain rfl := freeSlot_blankInode slot
    rw [inum₁] at nodes₂
    have inum₂ := (keeps₂ ip ipHeld).1.trans inum₁
    have dnum₂ : (second.icache dp).inum = d :=
      (keeps₂ dp dpHeld).1.trans ((keeps₁ dp dpHeld).1.trans inum')
    have child₂ : nodeAt sb second ip = (blankInode type major minor).put 0 (nameEntry i dot) := by
      rw [nodeAt, inum₂, nodes₂, update_self]
    simp only [Bool.not_true, Bool.false_eq_true, if_false, ensures_bind, ensures_get,
      ensures_pure, dnum₂]
    refine (dirlink_absent settled₂ ipLocked child₂ directory ?_
      (find_dotdot type major minor i)).weaken ?_
    · intro de member
      rw [dirents_dot, mem_singleton] at member
      rw [member, nameEntry, Superblock.toNat_inum inside]
      exact inside
    · rintro _ third ⟨rfl, settled₃, keeps₃, j, slot, nodes₃⟩
      obtain rfl := freeSlot_dot positive inside slot
      rw [inum₂] at nodes₃
      simp only [Bool.not_true, Bool.false_eq_true, if_false, ensures_pure]
      refine ⟨settled₃, (keeps₁.trans keeps₂ fun _ => id).trans keeps₃ fun _ => id, ?_⟩
      rw [nodes₃, nodes₂, nodes₁, update_idem, newParent, newInode, if_pos directory,
        if_pos directory]
  next plain =>
    refine ⟨settled, Keeps.refl held fs, ?_⟩
    rw [newInode, if_neg plain, newParent, if_neg plain, ← child, ← described,
      update_eq_self, update_eq_self]

theorem dirents_newInode (type major minor : Int16) (i d : Nat) :
    (newInode type major minor i d).dirents =
      if type = tDir then [nameEntry i dot, nameEntry d dotdot] else [] := by
  unfold newInode
  split
  next =>
    rw [Node.dirents_put_size (length_nameEntry d dotdot) rfl, dirents_dot]
    rfl
  next => exact dirents_blankInode type major minor

@[simp] theorem type_newInode (type major minor : Int16) (i d : Nat) :
    (newInode type major minor i d).type = type := by
  unfold newInode
  split
  next => rfl
  next => rfl

/-- The inodes after a new one was entered in a directory. -/
def created (nodes : Nat → Node) (d k : Nat) (name : List UInt8) (type major minor : Int16)
    (i : Nat) : Nat → Node :=
  Function.update (Function.update nodes i (newInode type major minor i d)) d
    ((newParent (nodes d) type).put k (nameEntry i name))

theorem ranged_created {nodes : Nat → Node} {k : Nat} (ranged : sb.Ranged nodes)
    (directory : (nodes d).type = tDir) (slot : FreeSlot (nodes d) k) (inside : i < sb.ninodes)
    (inside' : d < sb.ninodes) : sb.Ranged (created nodes d k name type major minor i) := by
  refine (ranged.update ?_).update ?_
  · intro isDir de member
    rw [type_newInode] at isDir
    rw [dirents_newInode, if_pos isDir] at member
    rcases mem_cons.mp member with rfl | member
    · rw [nameEntry, Superblock.toNat_inum inside]
      exact inside
    · rw [mem_singleton.mp member, nameEntry, Superblock.toNat_inum inside']
      exact inside'
  · intro _ de member
    rcases Node.mem_dirents_put (.inr slot) (length_nameEntry i name) member with old | rfl
    · exact ranged d directory de old
    · rw [nameEntry, Superblock.toNat_inum inside]
      exact inside

structure Created (sb : Superblock) (nodes : Nat → Node) (d : Nat) (name : List UInt8)
    (type major minor : Int16) (i : Nat) (nodes' : Nat → Node) : Prop where
  positive : 0 < i
  inside : i < sb.ninodes
  free : (nodes i).type = 0
  directory : (nodes d).type = tDir
  absent : (nodes d).find name = none
  written : ∃ k, FreeSlot (nodes d) k ∧
    Dropped d (created nodes d k name type major minor i) nodes'

theorem startInode_ensures {A : Type} {rest : Fin ninode → FsM A} {after : A → Fs → Prop}
    (settled : Settled sb fs held locked) (allocates : type ≠ 0)
    (locks : ∀ jp ∈ locked, (nodeAt sb fs jp).type ≠ 0)
    (continues : ∀ ip fs', Settled sb fs' (ip ::ₘ held) (insert ip locked) → Keeps held fs fs' →
      0 < (fs'.icache ip).inum → (fs'.icache ip).inum < sb.ninodes →
      (sb.node fs.disk (fs'.icache ip).inum).type = 0 →
      sb.node fs'.disk = update (sb.node fs.disk) (fs'.icache ip).inum
        (blankInode type major minor) →
      Ensures (rest ip) fs' after Benign) :
    Ensures (do
        let ip ← ialloc sb type
        ilock sb ip
        updateInode sb ip fun inode =>
          { inode with major := major, minor := minor, nlink := 1 }
        rest ip) fs after Benign := by
  refine (ialloc_ensures settled).bind ?_ ?_
  · rintro ip first ⟨i, inum₁, ⟨positive, inside⟩, free, settled₁, nodes₁, keeps₁⟩
    have ipHeld := Multiset.mem_cons_self ip held
    have among : ∀ jp ∈ held, jp ∈ ip ::ₘ held := fun _ => Multiset.mem_cons_of_mem
    have unlocked : ip ∉ locked := by
      intro inLocked
      have inum := (keeps₁ ip (settled.cached.opened ip inLocked).1).1
      rw [inum₁] at inum
      apply locks ip inLocked
      rw [nodeAt, ← inum]
      exact free
    have typed : (nodeAt sb first ip).type ≠ 0 := by
      rw [nodeAt, inum₁, nodes₁, update_self]
      exact allocates
    refine (ilock_passed settled₁ ipHeld).bind ?_ ?_
    · rintro _ second ⟨_, settled₂, disk₂, passed₂⟩
      have inum₂ := (passed₂.keeps ip ipHeld).1.trans inum₁
      refine (updateFields_ensures settled₂ (Finset.mem_insert_self ip locked) rfl).bind ?_
        fun _ => False.elim
      rintro _ third ⟨settled₃, nodes₃, keeps₃⟩
      have inum₃ := (keeps₃ ip ipHeld).1.trans inum₂
      have keeps : Keeps held fs third :=
        (keeps₁.trans passed₂.keeps among).trans keeps₃ among
      apply continues ip third settled₃ keeps
      · rw [inum₃]
        exact positive
      · rw [inum₃]
        exact inside
      · rw [inum₃]
        exact free
      · rw [nodes₃, inum₃, inum₂, disk₂, nodes₁, update_self, update_idem]
        rfl
    · intro failure halts
      exact ⟨halts.noFree, halts.typed typed, halts.awake unlocked⟩
  · rintro failure (rfl | rfl)
    · exact ⟨by decide, by decide, by decide⟩
    · exact ⟨by decide, by decide, by decide⟩

theorem makeInode_ensures (settled : Settled sb fs (dp ::ₘ held) {dp})
    (inum : (fs.icache dp).inum = d) (ranged : sb.Ranged (sb.node fs.disk))
    (directory : (sb.node fs.disk d).type = tDir) (absent : (sb.node fs.disk d).find name = none)
    (allocates : type ≠ 0) :
    Ensures (makeInode sb dp name type major minor) fs
      (fun ip fs' => Settled sb fs' (ip ::ₘ held) {ip} ∧ Keeps held fs fs' ∧
        sb.Ranged (sb.node fs'.disk) ∧
        Created sb (sb.node fs.disk) d name type major minor (fs'.icache ip).inum
          (sb.node fs'.disk) ∧
        (Anchored sb fs (dp ::ₘ held) → Anchored sb fs' (ip ::ₘ held)))
      Benign := by
  have dpHeld := Multiset.mem_cons_self dp held
  unfold makeInode
  refine startInode_ensures settled allocates ?_ ?_
  · intro jp single
    rw [Finset.mem_singleton.mp single, nodeAt, inum, directory]
    decide
  · intro ip first settled₁ keeps₁ positive inside free nodes₁
    generalize number : (first.icache ip).inum = i at positive inside free nodes₁
    have distinct : i ≠ d := by
      rintro rfl
      rw [free] at directory
      cases directory
    have inum₁ := (keeps₁ dp dpHeld).1.trans inum
    have apart : ip ≠ dp := by
      rintro rfl
      exact distinct (number.symm.trans inum₁)
    have ipLocked := Finset.mem_insert_self ip {dp}
    have dpLocked : dp ∈ insert ip {dp} :=
      Finset.mem_insert_of_mem (Finset.mem_singleton_self dp)
    have ipHeld := Multiset.mem_cons_self ip (dp ::ₘ held)
    have dpHeld' : dp ∈ ip ::ₘ dp ::ₘ held := Multiset.mem_cons_of_mem dpHeld
    have among : ∀ jp ∈ dp ::ₘ held, jp ∈ ip ::ₘ dp ::ₘ held :=
      fun _ => Multiset.mem_cons_of_mem
    have child₁ : sb.node first.disk i = blankInode type major minor := by
      rw [nodes₁, update_self]
    have parent₁ : sb.node first.disk d = sb.node fs.disk d := by
      rw [nodes₁, update_of_ne (Ne.symm distinct)]
    refine (makeDots_ensures settled₁ ipLocked dpLocked number inum₁ distinct child₁
      parent₁).seq ?_
    rintro _ second ⟨settled₂, keeps₂, nodes₂⟩
    have inum₂ := (keeps₂ ip ipHeld).1.trans number
    have dnum₂ := (keeps₂ dp dpHeld').1.trans inum₁
    have parent₂ : nodeAt sb second dp = newParent (sb.node fs.disk d) type := by
      rw [nodeAt, dnum₂, nodes₂, update_of_ne (Ne.symm distinct),
        update_self]
    simp only [getInode, ensures_bind, ensures_get, ensures_pure, inum₂]
    refine (dirlink_absent settled₂ dpLocked parent₂ directory (ranged d directory)
      absent).weaken ?_
    rintro _ third ⟨rfl, settled₃, keeps₃, k, slot, nodes₃⟩
    have whole₃ : sb.node third.disk =
        created (sb.node fs.disk) d k name type major minor i := by
      rw [nodes₃, dnum₂, nodes₂, nodes₁, created, update_comm (Ne.symm distinct),
        update_idem, update_idem]
    have inum₃ := (keeps₃ ip ipHeld).1.trans inum₂
    have dnum₃ := (keeps₃ dp dpHeld').1.trans dnum₂
    have inside' : d < sb.ninodes := inum ▸ (settled.cached.entries dp dpHeld).inside
    have keeps : Keeps (dp ::ₘ held) fs third :=
      (keeps₁.trans keeps₂ among).trans keeps₃ among
    have anchors : Anchored sb fs (dp ::ₘ held) → Anchored sb third (ip ::ₘ dp ::ₘ held) := by
      intro anchored
      refine anchored.change keeps settled₃ among ?_
      intro j others
      have notChild := others ip ipLocked
      have notParent := others dp dpLocked
      rw [inum₃] at notChild
      rw [dnum₃] at notParent
      rw [whole₃, created, update_of_ne (Ne.symm notParent),
        update_of_ne (Ne.symm notChild)]
    have ranged₃ : sb.Ranged (sb.node third.disk) := by
      rw [whole₃]
      exact ranged_created ranged directory slot inside inside'
    simp only [Bool.not_true, Bool.false_eq_true, if_false, ensures_bind, ensures_pure]
    rw [Multiset.cons_swap] at settled₃ anchors
    refine (iunlockput_released settled₃ dpLocked).mono ?_ fun _ => False.elim
    rintro _ final ⟨settled₄, released⟩
    have unlocks : (insert ip {dp} : Finset (Fin ninode)).erase dp = {ip} := by
      rw [Finset.erase_insert_of_ne apart, Finset.erase_singleton, insert_empty_eq]
    rw [unlocks] at settled₄
    have inum₄ := (released.keeps ip (Multiset.mem_cons_self ip held)).1.trans inum₃
    have dropped := released.dropped
    rw [dnum₃, whole₃] at dropped
    refine ⟨settled₄, ?_, released.ranged ranged₃, ?_, fun anchored =>
      released.anchors (anchors anchored)⟩
    · exact (keeps.mono fun _ => Multiset.mem_cons_of_mem).trans released.keeps
        fun _ => Multiset.mem_cons_of_mem
    · rw [inum₄]
      exact ⟨positive, inside, free, directory, absent, k, slot, dropped⟩

def CreateResult (sb : Superblock) (held : Multiset (Fin ninode)) (fs : Fs)
    (expected : Option (Nat × List UInt8)) (type major minor : Int16)
    (result : Option (Fin ninode)) (fs' : Fs) : Prop :=
  match result with
  | none => Settled sb fs' held ∅ ∧ Passed sb held fs fs'
  | some ip => Settled sb fs' (ip ::ₘ held) {ip} ∧ Keeps held fs fs' ∧
      sb.Ranged (sb.node fs'.disk) ∧
      (Anchored sb fs held → Anchored sb fs' (ip ::ₘ held) ∧
        ∃ d name, expected = some (d, name) ∧
          (sb.node fs'.disk = sb.node fs.disk ∧ (nodeAt sb fs' ip).type = tFile ∨
            Created sb (sb.node fs.disk) d name type major minor (fs'.icache ip).inum
              (sb.node fs'.disk)))

end

section

variable {sb : Superblock} {fs fs' : Fs} {dp : Fin ninode} {held : Multiset (Fin ninode)}
  {expected : Option (Nat × List UInt8)} {name : List UInt8}

structure Entered (sb : Superblock) (held : Multiset (Fin ninode)) (fs : Fs)
    (expected : Option (Nat × List UInt8)) (dp : Fin ninode) (name : List UInt8)
    (fs' : Fs) : Prop where
  settled : Settled sb fs' (dp ::ₘ held) {dp}
  passed : Passed sb held fs fs'
  directory : (nodeAt sb fs' dp).type = tDir
  agrees : Anchored sb fs held → expected = some ((fs'.icache dp).inum, name)

theorem Resolved.enter {first : Fs}
    {expected : (Nat → Node) → Option (Nat × List UInt8)}
    (resolved : Resolved sb held true fs expected (some (dp, name)) first) :
    Ensures (ilock sb dp) first
      (fun _ fs' => Entered sb held fs (expected (sb.node fs.disk)) dp name fs') Benign := by
  obtain ⟨settled, directory⟩ := resolved.found dp name rfl
  have dpHeld := Multiset.mem_cons_self dp held
  refine (ilock_passed settled dpHeld).mono ?_ ?_
  · rintro _ second ⟨_, settled', disk, passed⟩
    have inum := (passed.keeps dp dpHeld).1
    rw [insert_empty_eq] at settled'
    refine ⟨settled', resolved.passed.trans (passed.mono fun _ => Multiset.mem_cons_of_mem),
      ?_, fun _ => ?_⟩
    · rw [nodeAt, disk, inum]
      exact directory rfl
    · rw [inum]
      exact (resolved.agrees _ (.refl _)).symm
  · intro failure halts
    refine ⟨halts.noFree, halts.typed ?_, halts.awake (Finset.notMem_empty dp)⟩
    rw [directory rfl]
    decide

namespace Entered

variable (entered : Entered sb held fs expected dp name fs')

include entered

theorem lookup (ranged : sb.Ranged (sb.node fs.disk)) (sought : List UInt8) :
    Ensures (dirlookup sb dp sought) fs'
      (fun result fs'' => Found sb (dp ::ₘ held) {dp} (nodeAt sb fs' dp) sought fs' result fs'')
      Benign :=
  dirlookup_ensures entered.settled (Finset.mem_singleton_self dp) rfl entered.directory
    (entered.passed.ranged ranged _ entered.directory)

theorem leave :
    Ensures (iunlockput sb dp) fs'
      (fun _ fs'' => Settled sb fs'' held ∅ ∧ Passed sb held fs fs'') (fun _ => False) := by
  refine (iunlockput_released entered.settled (Finset.mem_singleton_self dp)).weaken ?_
  rintro _ final ⟨settled, released⟩
  rw [Finset.erase_singleton] at settled
  exact ⟨settled, entered.passed.trans released.toPassed⟩

end Entered

end

section

variable {sb : Superblock} {fs fs' : Fs} {cwd : Fin ninode} {held : Multiset (Fin ninode)}
  {path : List UInt8} (rooted : rootino < sb.ninodes) (settled : Settled sb fs held ∅)
  (member : cwd ∈ held) (ranged : sb.Ranged (sb.node fs.disk))

include rooted settled member ranged

theorem create_ensures {type major minor : Int16} (allocates : type ≠ 0) :
    Ensures (create sb cwd path type major minor) fs
      (fun result fs' => CreateResult sb held fs
        (resolve (sb.node fs.disk) true (fs.icache cwd).inum path) type major minor result fs')
      (Halts (Sound sb fs held) True) := by
  unfold create
  refine (namex_ensures rooted settled member ranged true).seq ?_
  rintro (_ | ⟨dp, name⟩) first resolved
  · exact ⟨resolved.missing rfl, resolved.passed⟩
  · refine resolved.enter.bind ?_ fun _ benign => benign.halts _ _
    intro _ second entered
    have among : ∀ jp ∈ held, jp ∈ dp ::ₘ held := fun _ => Multiset.mem_cons_of_mem
    have passed := entered.passed
    refine (entered.lookup ranged name).bind ?_ fun _ benign => benign.halts _ _
    rintro (_ | ⟨ip, off⟩) third looked
    · obtain ⟨absent, rfl⟩ := looked
      refine (makeInode_ensures entered.settled rfl (passed.ranged ranged) entered.directory
        absent allocates).bind ?_ fun _ benign => benign.halts _ _
      rintro ip final ⟨settled₃, keeps₃, ranged₃, made, anchors⟩
      refine ⟨settled₃, passed.keeps.trans keeps₃ fun _ => id, ranged₃, fun anchored => ?_⟩
      refine ⟨anchors ((passed.anchored anchored).mono among), _, name,
        entered.agrees anchored, .inr ?_⟩
      rw [← passed.same anchored]
      exact made
    · obtain ⟨k, present, _, inum₃, settled₃, disk₃, keeps₃⟩ := looked
      rw [Multiset.cons_swap] at settled₃
      refine (iunlockput_released settled₃ (Finset.mem_singleton_self dp)).bind ?_
        fun _ => False.elim
      rintro _ fourth ⟨settled₄, released⟩
      rw [Finset.erase_singleton] at settled₄
      have ipHeld := Multiset.mem_cons_self ip held
      have amongIp : ∀ jp ∈ held, jp ∈ ip ::ₘ held := fun _ => Multiset.mem_cons_of_mem
      have chain₄ : Passed sb held fs fourth :=
        (passed.trans (.of_disk (keeps₃.mono among) disk₃)).trans (released.mono amongIp)
      have inum₄ := (released.keeps ip ipHeld).1.trans inum₃
      refine (ilock_passed settled₄ ipHeld).bind ?_ ?_
      · rintro _ fifth ⟨_, settled₅, disk₅, passed₅⟩
        have chain₅ : Passed sb held fs fifth := chain₄.trans (passed₅.mono amongIp)
        have ipLocked := Finset.mem_insert_self ip ∅
        rw [insert_empty_eq] at settled₅ ipLocked
        obtain ⟨_, valid⟩ := settled₅.cached.opened ip ipLocked
        simp only [getInode, ensures_bind, ensures_get, ensures_pure,
          settled₅.type_eq ipHeld valid]
        split
        next plain =>
          refine ⟨settled₅, chain₅.keeps, chain₅.ranged ranged, fun anchored => ?_⟩
          exact ⟨(chain₅.anchored anchored).mono amongIp, _, name, entered.agrees anchored,
            .inl ⟨chain₅.same anchored, plain.2⟩⟩
        next =>
          refine (iunlockput_released settled₅ ipLocked).bind ?_ fun _ => False.elim
          rintro _ final ⟨settled₆, released'⟩
          rw [Finset.erase_singleton] at settled₆
          exact ⟨settled₆, chain₅.trans released'.toPassed⟩
      · intro failure halts
        refine halts.mono (fun sound => ?_) fun _ => Finset.notMem_empty ip
        have same := passed.same sound.anchored
        have directory := entered.directory
        obtain ⟨inside, used, _⟩ := Node.find_eq_some.mp present
        rw [nodeAt, chain₄.same sound.anchored, inum₄]
        rw [nodeAt, same] at directory inside used ⊢
        exact sound.populated _ directory _ (Node.dirent_mem inside) used

end

end Fs

end StraceXv6.Kernel
