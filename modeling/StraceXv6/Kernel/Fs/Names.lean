import StraceXv6.Kernel.Fs.Dirents

namespace StraceXv6.Kernel

open List Function Data Data.Command

/-! What the operations on directories and paths do. -/

def Superblock.Ranged (sb : Superblock) (nodes : Nat → Node) : Prop :=
  ∀ d, (nodes d).type = tDir → ∀ de ∈ (nodes d).dirents, de.inum.toNat < sb.ninodes

theorem Superblock.Ranged.update {sb : Superblock} {nodes : Nat → Node}
    (ranged : sb.Ranged nodes) {i : Nat} {n : Node}
    (here : n.type = tDir → ∀ de ∈ n.dirents, de.inum.toNat < sb.ninodes) :
    sb.Ranged (update nodes i n) := by
  intro d
  rw [update_apply]
  split
  next => exact here
  next => exact ranged d

namespace Fs

abbrev nodeAt (sb : Superblock) (fs : Fs) (ip : Fin ninode) : Node :=
  sb.node fs.disk (fs.icache ip).inum

def Anchored (sb : Superblock) (fs : Fs) (held : Multiset (Fin ninode)) : Prop :=
  ∀ i, 0 < i → (sb.node fs.disk i).type ≠ 0 → (sb.node fs.disk i).nlink = 0 →
    ∃ ip ∈ held, (fs.icache ip).inum = i ∧ (fs.icache ip).valid = true

def Worn (nodes nodes' : Nat → Node) : Prop := ∀ i, nodes' i = nodes i ∨ (nodes' i).type = 0

theorem Worn.refl (nodes : Nat → Node) : Worn nodes nodes := fun _ => .inl rfl

theorem Worn.trans {nodes nodes' nodes'' : Nat → Node} (first : Worn nodes nodes')
    (second : Worn nodes' nodes'') : Worn nodes nodes'' := by
  intro i
  rcases second i with same | gone
  · rw [same]
    exact first i
  · exact .inr gone

structure Passed (sb : Superblock) (held : Multiset (Fin ninode)) (fs fs' : Fs) : Prop where
  keeps : Keeps held fs fs'
  ranged : sb.Ranged (sb.node fs.disk) → sb.Ranged (sb.node fs'.disk)
  worn : Worn (sb.node fs.disk) (sb.node fs'.disk)
  same : Anchored sb fs held → sb.node fs'.disk = sb.node fs.disk

structure Benign (failure : Halt) : Prop where
  noFree : failure ≠ .freeingFreeBlock
  typed : failure ≠ .noType
  awake : failure ≠ .asleep

structure Halts (sound apart : Prop) (failure : Halt) : Prop where
  noFree : failure ≠ .freeingFreeBlock
  typed : sound → failure ≠ .noType
  awake : apart → failure ≠ .asleep

variable {failure : Halt}

theorem Benign.halts (benign : Benign failure) (sound apart : Prop) : Halts sound apart failure :=
  ⟨benign.noFree, fun _ => benign.typed, fun _ => benign.awake⟩

theorem Halts.mono {sound sound' apart apart' : Prop} (halts : Halts sound apart failure)
    (stronger : sound' → sound) (further : apart' → apart) : Halts sound' apart' failure :=
  ⟨halts.noFree, fun holds => halts.typed (stronger holds),
    fun holds => halts.awake (further holds)⟩

section

variable {sb : Superblock} {fs fs' fs'' : Fs} {ip dp : Fin ninode}
  {held held' : Multiset (Fin ninode)} {locked : Finset (Fin ninode)}

theorem Anchored.mono (anchored : Anchored sb fs held) (among : ∀ jp ∈ held, jp ∈ held') :
    Anchored sb fs held' := by
  intro i positive allocated unlinked
  obtain ⟨jp, member, found⟩ := anchored i positive allocated unlinked
  exact ⟨jp, among jp member, found⟩

theorem Anchored.of_same (anchored : Anchored sb fs held) (keeps : Keeps held fs fs')
    (same : sb.node fs'.disk = sb.node fs.disk) : Anchored sb fs' held := by
  intro i positive
  rw [same]
  intro allocated unlinked
  obtain ⟨jp, member, inum, valid⟩ := anchored i positive allocated unlinked
  obtain ⟨inum', valid'⟩ := keeps jp member
  exact ⟨jp, member, inum'.trans inum, valid' valid⟩

namespace Passed

theorem of_disk (keeps : Keeps held fs fs') (disk : fs'.disk = fs.disk) :
    Passed sb held fs fs' :=
  ⟨keeps, fun ranged => disk ▸ ranged, disk ▸ .refl _, fun _ => disk ▸ rfl⟩

theorem anchored (passed : Passed sb held fs fs') (anchored : Anchored sb fs held) :
    Anchored sb fs' held :=
  anchored.of_same passed.keeps (passed.same anchored)

theorem trans (first : Passed sb held fs fs') (second : Passed sb held fs' fs'') :
    Passed sb held fs fs'' where
  keeps := first.keeps.trans second.keeps fun _ member => member
  ranged := fun ranged => second.ranged (first.ranged ranged)
  worn := first.worn.trans second.worn
  same := fun anchored =>
    (second.same (first.anchored anchored)).trans (first.same anchored)

theorem mono (passed : Passed sb held' fs fs') (among : ∀ jp ∈ held, jp ∈ held') :
    Passed sb held fs fs' where
  keeps := passed.keeps.mono among
  ranged := passed.ranged
  worn := passed.worn
  same := fun anchored => passed.same (anchored.mono among)

end Passed

section

variable (settled : Settled sb fs held locked) (member : ip ∈ held)
  (valid : (fs.icache ip).valid = true)

include settled member valid

theorem Settled.type_eq : (fs.icache ip).type = (nodeAt sb fs ip).type := by
  rw [settled.copied member valid]
  rfl

theorem Settled.nlink_eq : (fs.icache ip).nlink = (nodeAt sb fs ip).nlink := by
  rw [settled.copied member valid]
  rfl

theorem Settled.type_ne_zero : (nodeAt sb fs ip).type ≠ 0 := by
  rw [← settled.type_eq member valid]
  exact ((settled.cached.entries ip member).copied valid).2

theorem Settled.size_le : (nodeAt sb fs ip).size ≤ maxfile * bsize := by
  have opened := settled.opened member valid
  by_contra larger
  obtain ⟨p, place, _⟩ := opened.kept.mapped _ opened.live maxfile (by
    rw [settled.working_eq member valid, Nat.mul_comm]
    exact Nat.lt_of_not_le larger)
  have past : Place.block maxfile = none := rfl
  exact absurd (place.symm.trans past) (Option.some_ne_none p)

end

/-- An inode may be freed when a reference to it is given back. -/
def Dropped (i : Nat) (nodes nodes' : Nat → Node) : Prop :=
  nodes' = nodes ∨ (nodes i).nlink = 0 ∧ nodes' = Function.update nodes i (nodes i).freed

theorem Dropped.of_ne {i j : Nat} {nodes nodes' : Nat → Node} (dropped : Dropped i nodes nodes')
    (distinct : j ≠ i) : nodes' j = nodes j := by
  rcases dropped with rfl | ⟨_, rfl⟩
  · rfl
  · exact update_of_ne distinct _ _

structure Released (sb : Superblock) (held : Multiset (Fin ninode)) (ip : Fin ninode)
    (fs fs' : Fs) : Prop extends Passed sb held fs fs' where
  dropped : Dropped (fs.icache ip).inum (sb.node fs.disk) (sb.node fs'.disk)
  anchors : Anchored sb fs (ip ::ₘ held) → Anchored sb fs' held

variable {frees : Prop}

theorem passed_of_freed (settled : Settled sb fs (ip ::ₘ held) locked) [Decidable frees]
    (keeps : Keeps held fs fs')
    (last : frees → ip ∉ held ∧ (nodeAt sb fs ip).type ≠ 0 ∧ (nodeAt sb fs ip).nlink = 0)
    (nodes : sb.node fs'.disk = if frees then
      update (sb.node fs.disk) (fs.icache ip).inum (nodeAt sb fs ip).freed
      else sb.node fs.disk) : Passed sb held fs fs' where
  keeps := keeps
  ranged := by
    intro ranged
    rw [nodes]
    split
    next =>
      apply ranged.update
      exact fun directory => absurd directory (by decide : (0 : Int16) ≠ tDir)
    next => exact ranged
  worn := by
    intro i
    rw [nodes]
    split
    next =>
      by_cases here : i = (fs.icache ip).inum
      · rw [here, update_self]
        exact .inr rfl
      · exact .inl (update_of_ne here _ _)
    next => exact .inl rfl
  same := by
    intro anchored
    rw [nodes]
    split
    next gone =>
      obtain ⟨notHeld, allocated, unlinked⟩ := last gone
      have entry := settled.cached.entries ip (Multiset.mem_cons_self ip held)
      obtain ⟨jp, member, inum, _⟩ := anchored _ entry.positive allocated unlinked
      have equal := settled.cached.distinct jp (Multiset.mem_cons_of_mem member) ip
        (Multiset.mem_cons_self ip held) inum
      exact absurd (equal ▸ member) notHeld
    next => rfl

theorem anchored_of_freed [Decidable frees] (keeps : Keeps held fs fs')
    (last : ip ∉ held → (fs.icache ip).valid = true → (nodeAt sb fs ip).nlink = 0 → frees)
    (nodes : sb.node fs'.disk = if frees then
      update (sb.node fs.disk) (fs.icache ip).inum (nodeAt sb fs ip).freed
      else sb.node fs.disk) (anchored : Anchored sb fs (ip ::ₘ held)) : Anchored sb fs' held := by
  intro i positive allocated unlinked
  have same : sb.node fs'.disk i = sb.node fs.disk i ∧ (frees → i ≠ (fs.icache ip).inum) := by
    rw [nodes] at allocated ⊢
    split
    next gone =>
      by_cases here : i = (fs.icache ip).inum
      · rw [here, if_pos gone, update_self] at allocated
        exact absurd rfl allocated
      · exact ⟨update_of_ne here _ _, fun _ => here⟩
    next stays => exact ⟨rfl, fun gone => absurd gone stays⟩
  rw [same.1] at allocated unlinked
  obtain ⟨jp, member, inum, valid⟩ := anchored i positive allocated unlinked
  have inHeld : jp ∈ held := by
    rcases Multiset.mem_cons.mp member with rfl | member
    · by_contra notHeld
      subst inum
      exact same.2 (last notHeld valid unlinked) rfl
    · exact member
  obtain ⟨inum', valid'⟩ := keeps jp inHeld
  exact ⟨jp, inHeld, inum'.trans inum, valid' valid⟩

theorem Released.of_freed (settled : Settled sb fs (ip ::ₘ held) locked) [Decidable frees]
    (keeps : Keeps held fs fs')
    (frees_iff : frees ↔ ip ∉ held ∧ (fs.icache ip).valid = true ∧ (nodeAt sb fs ip).nlink = 0)
    (nodes : sb.node fs'.disk = if frees then
      update (sb.node fs.disk) (fs.icache ip).inum (nodeAt sb fs ip).freed
      else sb.node fs.disk) : Released sb held ip fs fs' where
  toPassed := by
    refine passed_of_freed settled keeps ?_ nodes
    intro gone
    obtain ⟨last, valid, unlinked⟩ := frees_iff.mp gone
    exact ⟨last, settled.type_ne_zero (Multiset.mem_cons_self ip held) valid, unlinked⟩
  dropped := by
    by_cases gone : frees
    · rw [if_pos gone] at nodes
      exact .inr ⟨(frees_iff.mp gone).2.2, nodes⟩
    · rw [if_neg gone] at nodes
      exact .inl nodes
  anchors := anchored_of_freed keeps
    (fun last valid unlinked => frees_iff.mpr ⟨last, valid, unlinked⟩) nodes

theorem iput_released (settled : Settled sb fs (ip ::ₘ held) locked)
    (shared : ip ∈ locked → ip ∈ held) :
    Ensures (iput sb ip) fs
      (fun _ fs' => Settled sb fs' held locked ∧ Released sb held ip fs fs')
      (fun _ => False) := by
  refine (iput_ensures settled shared).weaken ?_
  rintro _ fs' ⟨settled', keeps, nodes⟩
  refine ⟨settled', .of_freed settled keeps ?_ nodes⟩
  apply and_congr_right
  intro _
  apply and_congr_right
  intro valid
  rw [settled.nlink_eq (Multiset.mem_cons_self ip held) valid]

theorem iunlockput_released (settled : Settled sb fs (ip ::ₘ held) locked)
    (inLocked : ip ∈ locked) :
    Ensures (iunlockput sb ip) fs
      (fun _ fs' => Settled sb fs' held (locked.erase ip) ∧ Released sb held ip fs fs')
      (fun _ => False) := by
  obtain ⟨_, valid⟩ := settled.cached.opened ip inLocked
  refine (iunlockput_ensures settled inLocked).weaken ?_
  rintro _ fs' ⟨settled', keeps, nodes⟩
  refine ⟨settled', .of_freed settled keeps ?_ nodes⟩
  simp only [valid, true_and]

theorem ilock_passed (settled : Settled sb fs held locked) (member : ip ∈ held) :
    Ensures (ilock sb ip) fs
      (fun _ fs' => ip ∉ locked ∧ Settled sb fs' held (insert ip locked) ∧
        fs'.disk = fs.disk ∧ Passed sb held fs fs')
      (Halts ((nodeAt sb fs ip).type ≠ 0) (ip ∉ locked)) := by
  refine (ilock_ensures settled member).mono ?_ ?_
  · rintro _ fs' ⟨unlocked, settled', disk, keeps⟩
    exact ⟨unlocked, settled', disk, .of_disk keeps disk⟩
  · rintro failure (⟨rfl, inLocked⟩ | ⟨rfl, typeless⟩)
    · exact ⟨by decide, fun _ => by decide, fun unlocked => absurd inLocked unlocked⟩
    · exact ⟨by decide, fun typed => absurd typeless typed, fun _ => by decide⟩

def FreeSlot (n : Node) (k : Nat) : Prop :=
  (k < n.dirents.length ∧ (n.dirent k).inum = 0) ∨ Dirent.bytes * k = n.size

theorem FreeSlot.le {n : Node} {k : Nat} (slot : FreeSlot n k) : Dirent.bytes * k ≤ n.size := by
  rcases slot with ⟨below, _⟩ | last
  · exact (Nat.le_add_right _ _).trans (Node.mul_lt_size below)
  · exact last.le

structure FirstFree (n : Node) (k : Nat) : Prop where
  slot : FreeSlot n k
  used : ∀ j < k, (n.dirent j).inum ≠ 0

section

variable {node : Node} {k : Nat} (clean : Clean sb fs dp) (described : nodeAt sb fs dp = node)

include clean described

theorem Clean.size_le : node.size ≤ maxfile * bsize := by
  subst described
  by_contra larger
  obtain ⟨p, place, _⟩ := clean.kept.mapped _ clean.live maxfile (by
    rw [Nat.mul_comm]
    exact Nat.lt_of_not_le larger)
  have past : Place.block maxfile = none := rfl
  exact absurd (place.symm.trans past) (Option.some_ne_none p)

theorem Clean.offset_lt {off : Nat} (inside : off ≤ node.size) :
    off + Dirent.bytes < 2 ^ 32 := by
  have limit := clean.size_le described
  change _ ≤ 71680 at limit
  change off + 16 < 2 ^ 32
  omega

theorem Clean.toNat_offset (inside : Dirent.bytes * k ≤ node.size) :
    (UInt32.ofNat (Dirent.bytes * k)).toNat = Dirent.bytes * k :=
  UInt32.toNat_ofNat_of_lt' (Nat.lt_of_le_of_lt (Nat.le_add_right _ _)
    (clean.offset_lt described inside))

theorem Clean.cached_size : (fs.icache dp).size.toNat = node.size := by
  rw [clean.size_eq, ← described]

variable (directory : node.type = tDir)

include directory

theorem readDirent_ensures {failure : Halt} (below : Dirent.bytes * k < node.size) :
    Ensures (readDirent sb dp (Dirent.bytes * k) failure) fs
      (fun de fs' => fs' = fs ∧ k < node.dirents.length ∧ de = node.dirent k)
      (fun halt => halt = failure ∧ ¬Dirent.bytes ∣ node.size) := by
  have bound := clean.offset_lt described below.le
  have length : (node.read (Dirent.bytes * k) 16).length =
      min 16 (node.size - Dirent.bytes * k) := by
    rw [Node.read, length_map, length_range]
  unfold readDirent
  refine (readi_clean clean).bind ?_ fun _ => False.elim
  rintro ⟨r, bytes⟩ fs' ⟨rfl, result⟩
  have value := result node described.symm (by rw [directory]; decide)
  rw [clean.toNat_offset described below.le,
    if_neg (by change ¬(_ ∨ 2 ^ 32 ≤ _ + 16); change _ + 16 < _ at bound; omega),
    Prod.mk.injEq] at value
  obtain ⟨rfl, rfl⟩ := value
  have whole : (UInt32.ofNat (node.read (Dirent.bytes * k) 16).length).toInt32 = 16 ↔
      Dirent.bytes * k + Dirent.bytes ≤ node.size := by
    rw [length, UInt32.toInt32_ofNat', ← Int32.toInt_inj, Int32.toInt_ofNat_of_lt (by omega)]
    change ((min 16 (node.size - 16 * k) : Nat) : Int) = 16 ↔ 16 * k + 16 ≤ node.size
    change 16 * k < node.size at below
    omega
  change Ensures (if (UInt32.ofNat (node.read _ 16).length).toInt32 ≠ 16 then
    throw failure else pure _) _ _ _
  split
  next short =>
    refine ⟨rfl, ?_⟩
    rw [ne_eq, whole] at short
    change ¬16 * k + 16 ≤ _ at short
    change 16 * k < _ at below
    change ¬16 ∣ _
    omega
  next long =>
    rw [not_ne_iff, whole] at long
    exact ⟨rfl, Node.lt_length_dirents long, rfl⟩

variable {name : List UInt8} {turns : Nat}

theorem dirlookupFrom_clean (enough : node.dirents.length < turns + k)
    (reached : k ≤ node.dirents.length)
    (passed : ∀ j < k, ¬((node.dirent j).inum ≠ 0 ∧ cname name = cname (node.dirent j).name)) :
    Ensures (dirlookupFrom sb dp name turns (Dirent.bytes * k)) fs
      (fun result fs' => match result with
        | none => node.find name = none ∧ fs' = fs
        | some (ip, off) => ∃ j, node.find name = some j ∧ off = Dirent.bytes * j ∧
            iget (node.dirent j).inum.toNat fs = .ok (ip, fs'))
      (fun halt => halt = .dirlinkRead ∧ ¬Dirent.bytes ∣ node.size ∨
        ∃ j, node.find name = some j ∧ iget (node.dirent j).inum.toNat fs = .error halt) := by
  induction turns generalizing k with
  | zero => omega
  | succ turns induction =>
    unfold dirlookupFrom
    simp only [getInode, ensures_bind, ensures_get, ensures_pure, clean.cached_size described]
    split
    next below =>
      refine (readDirent_ensures clean described directory below).bind ?_
        fun _ failed => .inl failed
      rintro de fs' ⟨rfl, inside, rfl⟩
      split
      next matched =>
        obtain ⟨used, same⟩ := matched
        have found := Node.find_eq_some.mpr
          ⟨inside, used, (namecmp_eq_zero _ _).mp same, passed⟩
        cases referred : iget (node.dirent k).inum.toNat fs' with
        | ok value =>
          rw [ensures_bind_of_ok referred, ensures_pure]
          exact ⟨k, found, rfl, referred⟩
        | error failure =>
          rw [ensures_bind, Ensures, referred]
          exact .inr ⟨k, found, referred⟩
      next unmatched =>
        refine induction (k := k + 1) (by omega) inside ?_
        intro j early
        by_cases here : j = k
        · subst here
          rw [← namecmp_eq_zero]
          exact unmatched
        · exact passed j (by omega)
    next beyond =>
      refine ⟨Node.find_eq_none.mpr ?_, rfl⟩
      intro j inside
      apply passed
      have first := Node.mul_lt_size inside
      change 16 * j + 16 ≤ _ at first
      change ¬16 * k < _ at beyond
      omega

theorem dirlookup_clean :
    Ensures (dirlookup sb dp name) fs
      (fun result fs' => match result with
        | none => node.find name = none ∧ fs' = fs
        | some (ip, off) => ∃ j, node.find name = some j ∧ off = Dirent.bytes * j ∧
            iget (node.dirent j).inum.toNat fs = .ok (ip, fs'))
      (fun halt => halt = .dirlinkRead ∧ ¬Dirent.bytes ∣ node.size ∨
        ∃ j, node.find name = some j ∧ iget (node.dirent j).inum.toNat fs = .error halt) := by
  have type : (fs.icache dp).type = tDir := by
    rw [clean.type_eq, ← nodeAt, described, directory]
  unfold dirlookup
  simp only [getInode, ensures_bind, ensures_get, ensures_pure, type, ne_eq, not_true,
    if_false, clean.cached_size described]
  apply dirlookupFrom_clean (k := 0) clean described directory
  · rw [Node.length_dirents]
    omega
  · exact Nat.zero_le _
  · exact fun j early => absurd early (Nat.not_lt_zero j)

theorem emptyDirent_ensures (enough : node.dirents.length < turns + k)
    (reached : k ≤ node.dirents.length) (used : ∀ j < k, (node.dirent j).inum ≠ 0) :
    Ensures (emptyDirent sb dp turns (Dirent.bytes * k)) fs
      (fun off fs' => fs' = fs ∧ ∃ j, off = Dirent.bytes * j ∧ FirstFree node j)
      (fun halt => halt = .dirlinkRead ∧ ¬Dirent.bytes ∣ node.size) := by
  induction turns generalizing k with
  | zero => omega
  | succ turns induction =>
    unfold emptyDirent
    simp only [getInode, ensures_bind, ensures_get, ensures_pure, clean.cached_size described]
    split
    next below =>
      refine (readDirent_ensures clean described directory below).seq ?_
      rintro de fs' ⟨rfl, inside, rfl⟩
      split
      next free => exact ⟨rfl, k, rfl, .inl ⟨inside, free⟩, used⟩
      next taken =>
        refine induction (k := k + 1) (by omega) inside ?_
        intro j early
        by_cases here : j = k
        · rw [here]
          exact taken
        · exact used j (by omega)
    next beyond =>
      refine ⟨rfl, k, rfl, .inr ?_, used⟩
      rw [Node.length_dirents] at reached
      change k ≤ node.size / 16 at reached
      change ¬16 * k < _ at beyond
      change 16 * k = _
      omega

theorem isdiremptyFrom_ensures (enough : node.dirents.length < turns + k) :
    Ensures (isdiremptyFrom sb dp turns (Dirent.bytes * k)) fs
      (fun empty fs' => fs' = fs ∧ (empty = true ↔
        ∀ j, k ≤ j → j < node.dirents.length → (node.dirent j).inum = 0))
      (· = .isdiremptyRead) := by
  induction turns generalizing k with
  | zero =>
    refine ⟨rfl, iff_of_true rfl ?_⟩
    intro j above below
    omega
  | succ turns induction =>
    unfold isdiremptyFrom
    simp only [getInode, ensures_bind, ensures_get, ensures_pure, clean.cached_size described]
    split
    next below =>
      refine (readDirent_ensures clean described directory below).bind ?_
        fun _ failed => failed.1
      rintro de fs' ⟨rfl, inside, rfl⟩
      split
      next used =>
        refine ⟨rfl, iff_of_false Bool.false_ne_true ?_⟩
        exact fun free => used (free k le_rfl inside)
      next free =>
        rw [not_ne_iff] at free
        refine (induction (k := k + 1) (by omega)).weaken ?_
        rintro empty fs' ⟨rfl, rest⟩
        refine ⟨rfl, rest.trans ⟨?_, fun all j above => all j (by omega)⟩⟩
        intro others j above inside'
        by_cases here : j = k
        · rw [here]
          exact free
        · exact others j (by omega) inside'
    next beyond =>
      refine ⟨rfl, iff_of_true rfl ?_⟩
      intro j above inside
      have first := Node.mul_lt_size inside
      change 16 * j + 16 ≤ _ at first
      change ¬16 * k < _ at beyond
      omega

theorem isdirempty_ensures :
    Ensures (isdirempty sb dp) fs
      (fun empty fs' => fs' = fs ∧ (empty = true ↔
        ∀ j, 2 ≤ j → j < node.dirents.length → (node.dirent j).inum = 0))
      (· = .isdiremptyRead) := by
  unfold isdirempty
  simp only [getInode, ensures_bind, ensures_get, ensures_pure, clean.cached_size described]
  rw [Nat.mul_comm 2]
  apply isdiremptyFrom_ensures (k := 2) clean described directory
  rw [Node.length_dirents]
  omega

end

section

variable {node : Node} {k : Nat} (settled : Settled sb fs held locked) (inLocked : dp ∈ locked)
  (described : nodeAt sb fs dp = node) (directory : node.type = tDir)

include settled inLocked described directory

def Found (sb : Superblock) (held : Multiset (Fin ninode)) (locked : Finset (Fin ninode))
    (node : Node) (name : List UInt8) (fs : Fs) (result : Option (Fin ninode × Nat))
    (fs' : Fs) : Prop :=
  match result with
  | none => node.find name = none ∧ fs' = fs
  | some (ip, off) => ∃ k, node.find name = some k ∧ off = Dirent.bytes * k ∧
      (fs'.icache ip).inum = (node.dirent k).inum.toNat ∧
      Settled sb fs' (ip ::ₘ held) locked ∧ fs'.disk = fs.disk ∧ Keeps held fs fs'

variable {name : List UInt8}

theorem dirlookup_ensures (ranged : ∀ de ∈ node.dirents, de.inum.toNat < sb.ninodes) :
    Ensures (dirlookup sb dp name) fs
      (fun result fs' => Found sb held locked node name fs result fs') Benign := by
  have named : ∀ j, node.find name = some j →
      0 < (node.dirent j).inum.toNat ∧ (node.dirent j).inum.toNat < sb.ninodes := by
    intro j found
    obtain ⟨inside, used, _⟩ := Node.find_eq_some.mp found
    exact ⟨Nat.pos_of_ne_zero fun zero => used (UInt16.toNat_inj.mp zero),
      ranged _ (Node.dirent_mem inside)⟩
  refine (dirlookup_clean (settled.clean inLocked) described directory).mono ?_ ?_
  · rintro (_ | ⟨ip, off⟩) fs' looked
    · exact looked
    · obtain ⟨j, found, offset, referred⟩ := looked
      obtain ⟨settled', disk, inum, keeps⟩ :=
        (iget_ensures settled (named j found).1 (named j found).2).of_ok referred
      exact ⟨j, found, offset, inum, settled', disk, keeps⟩
  · rintro failure (⟨rfl, _⟩ | ⟨j, found, failed⟩)
    · exact ⟨by decide, by decide, by decide⟩
    · rw [(iget_ensures settled (named j found).1 (named j found).2).of_error failed]
      exact ⟨by decide, by decide, by decide⟩

theorem writeDirent_ensures {de : Dirent} {failure : Halt} (slot : Dirent.bytes * k ≤ node.size) :
    Ensures (writeDirent sb dp (Dirent.bytes * k) de failure) fs
      (fun _ fs' => Settled sb fs' held locked ∧
        sb.node fs'.disk = update (sb.node fs.disk) (fs.icache dp).inum
          (node.put k de) ∧ Keeps held fs fs')
      (fun halt => halt = failure ∨ halt = .outOfBlocks) := by
  unfold writeDirent
  refine (writei_ensures settled inLocked).bind ?_ fun _ failed => .inr failed
  rw [(settled.clean inLocked).toNat_offset described slot]
  rintro r fs' (⟨_, rfl, settled', nodes, keeps⟩ | ⟨_, rfl, refused⟩)
  · rw [if_neg (by decide)]
    refine ⟨settled', ?_, keeps⟩
    rw [nodes, ← described]
    rfl
  · rw [refused (by rw [← nodeAt, described, directory]; decide), if_pos (by decide)]
    exact .inl rfl

theorem dirlink_ensures {inum : Nat} (ranged : ∀ de ∈ node.dirents, de.inum.toNat < sb.ninodes) :
    Ensures (dirlink sb dp name inum) fs
      (fun linked fs' => Settled sb fs' held locked ∧ Keeps held fs fs' ∧
        if linked = true then node.find name = none ∧ ∃ j, FreeSlot node j ∧
          sb.node fs'.disk = update (sb.node fs.disk) (fs.icache dp).inum
            (node.put j ⟨UInt16.ofNat inum, strncpy name dirsiz⟩)
        else node.find name ≠ none ∧ Passed sb held fs fs')
      Benign := by
  unfold dirlink
  refine (dirlookup_ensures settled inLocked described directory ranged).seq ?_
  rintro (_ | ⟨ip, off⟩) fs' found
  · obtain ⟨missing, rfl⟩ := found
    have clean := settled.clean inLocked
    simp only [getInode, ensures_bind, ensures_get, ensures_pure, clean.cached_size described]
    refine (emptyDirent_ensures (k := 0) clean described directory
      (by rw [Node.length_dirents]; omega) (Nat.zero_le _)
      (fun j early => absurd early (Nat.not_lt_zero j))).mono ?_ ?_
    · rintro off fs' ⟨rfl, j, rfl, first⟩
      refine (writeDirent_ensures settled inLocked described directory first.slot.le).mono ?_ ?_
      · rintro _ fs'' ⟨settled', nodes, keeps⟩
        exact ⟨settled', keeps, missing, j, first.slot, nodes⟩
      · rintro failure (rfl | rfl)
        · exact ⟨by decide, by decide, by decide⟩
        · exact ⟨by decide, by decide, by decide⟩
    · rintro failure ⟨rfl, _⟩
      exact ⟨by decide, by decide, by decide⟩
  · obtain ⟨k, found, _, number, settled', disk, keeps⟩ := found
    obtain ⟨member, _⟩ := settled.cached.opened dp inLocked
    have shared : ip ∈ locked → ip ∈ held :=
      fun inLocked => (settled.cached.opened ip inLocked).1
    refine (iput_released settled' shared).bind ?_ fun _ => False.elim
    rintro _ fs'' ⟨settled'', released⟩
    have passed' : Passed sb held fs fs'' :=
      (Passed.of_disk keeps disk).trans released.toPassed
    refine ⟨settled'', passed'.keeps, ?_⟩
    exact ⟨by rw [found]; exact Option.some_ne_none k, passed'⟩

end

theorem length_skipelem {path name rest : List UInt8}
    (split : skipelem path = some (name, rest)) : rest.length < path.length := by
  have stops := List.head?_dropWhile_not (· = (47 : UInt8)) path
  have shorter := length_dropWhile_le (· = (47 : UInt8)) path
  unfold skipelem at split
  simp only at split
  cases trimmed : path.dropWhile (· = (47 : UInt8)) with
  | nil => simp [trimmed] at split
  | cons byte tail =>
    rw [trimmed] at split stops shorter
    have differs : byte ≠ 47 := by simpa using stops
    rw [if_neg (cons_ne_nil byte tail), Option.some.injEq, Prod.mk.injEq] at split
    obtain ⟨_, rfl⟩ := split
    have dropped : (byte :: tail).dropWhile (· ≠ (47 : UInt8)) =
        tail.dropWhile (· ≠ (47 : UInt8)) :=
      dropWhile_cons_of_pos (by simpa using differs)
    rw [dropped]
    have first := length_dropWhile_le (· = (47 : UInt8))
      (tail.dropWhile (· ≠ (47 : UInt8)))
    have second := length_dropWhile_le (· ≠ (47 : UInt8)) tail
    rw [length_cons] at shorter
    omega

end

/-- The inode that a path leads to from an inode, or the directory of its last
element. -/
def walk (nodes : Nat → Node) (parent : Bool) :
    Nat → Nat → List UInt8 → Option (Nat × List UInt8)
  | 0, _, _ => none
  | turns + 1, i, path =>
    match skipelem path with
    | none => if parent then none else some (i, [])
    | some (name, path) =>
      if (nodes i).type ≠ tDir then none
      else if parent ∧ path = [] then some (i, name)
      else match (nodes i).find name with
        | none => none
        | some k => walk nodes parent turns ((nodes i).dirent k).inum.toNat path

def Populated (nodes : Nat → Node) : Prop :=
  ∀ d, (nodes d).type = tDir → ∀ de ∈ (nodes d).dirents, de.inum ≠ 0 →
    (nodes de.inum.toNat).type ≠ 0

section

variable {sb : Superblock} {fs fs' : Fs} {ip dp : Fin ninode}
  {held : Multiset (Fin ninode)} {parent : Bool}

structure Resolved (sb : Superblock) (held : Multiset (Fin ninode)) (parent : Bool) (fs : Fs)
    (expected : (Nat → Node) → Option (Nat × List UInt8)) (result : Option (Fin ninode × List UInt8))
    (fs' : Fs) : Prop where
  passed : Passed sb held fs fs'
  missing : result = none → Settled sb fs' held ∅
  found : ∀ jp name, result = some (jp, name) → Settled sb fs' (jp ::ₘ held) ∅ ∧
    (parent = true → (nodeAt sb fs' jp).type = tDir)
  agrees : ∀ nodes, Worn nodes (sb.node fs.disk) →
    (result.map fun reached => ((fs'.icache reached.1).inum, reached.2)) = expected nodes

namespace Resolved

variable {expected expected' : (Nat → Node) → Option (Nat × List UInt8)}

theorem of_none (passed : Passed sb held fs fs') (settled : Settled sb fs' held ∅)
    (nothing : ∀ nodes, Worn nodes (sb.node fs.disk) → expected nodes = none) :
    Resolved sb held parent fs expected none fs' where
  passed := passed
  missing := fun _ => settled
  found := fun _ _ impossible => by cases impossible
  agrees := fun nodes worn => (nothing nodes worn).symm

theorem of_some {name : List UInt8} (passed : Passed sb held fs fs')
    (settled : Settled sb fs' (ip ::ₘ held) ∅)
    (directory : parent = true → (nodeAt sb fs' ip).type = tDir)
    (reached : ∀ nodes, Worn nodes (sb.node fs.disk) →
      expected nodes = some ((fs'.icache ip).inum, name)) :
    Resolved sb held parent fs expected (some (ip, name)) fs' where
  passed := passed
  missing := fun impossible => by cases impossible
  found := by
    intro jp name equal
    obtain ⟨rfl, rfl⟩ := Prod.mk.inj (Option.some.inj equal)
    exact ⟨settled, directory⟩
  agrees := fun nodes worn => (reached nodes worn).symm

theorem after {fs'' : Fs} {result : Option (Fin ninode × List UInt8)}
    (passed : Passed sb held fs fs')
    (resolved : Resolved sb held parent fs' expected' result fs'')
    (same : ∀ nodes, Worn nodes (sb.node fs.disk) → expected' nodes = expected nodes) :
    Resolved sb held parent fs expected result fs'' where
  passed := passed.trans resolved.passed
  missing := resolved.missing
  found := resolved.found
  agrees := fun nodes worn =>
    (resolved.agrees nodes (worn.trans passed.worn)).trans (same nodes worn)

end Resolved

theorem namexFrom_ensures {turns : Nat} {path : List UInt8}
    (settled : Settled sb fs (ip ::ₘ held) ∅) (ranged : sb.Ranged (sb.node fs.disk))
    (enough : path.length < turns) :
    Ensures (namexFrom sb parent turns ip path) fs
      (fun result fs' => Resolved sb held parent fs
        (fun nodes => walk nodes parent turns (fs.icache ip).inum path) result fs')
      (Halts (Anchored sb fs held ∧ Populated (sb.node fs.disk) ∧
        (nodeAt sb fs ip).type ≠ 0) True) := by
  have member := Multiset.mem_cons_self ip held
  have among : ∀ jp ∈ held, jp ∈ ip ::ₘ held := fun _ => Multiset.mem_cons_of_mem
  induction turns generalizing fs ip path with
  | zero => omega
  | succ turns induction =>
    unfold namexFrom walk
    cases elements : skipelem path with
    | none =>
      simp only
      split
      next up =>
        refine (iput_released settled fun inLocked =>
          absurd inLocked (Finset.notMem_empty ip)).bind ?_ fun _ => False.elim
        rintro _ fs' ⟨settled', released⟩
        exact .of_none released.toPassed settled' fun _ _ => rfl
      next level =>
        exact .of_some (.of_disk (Keeps.refl held fs) rfl) settled
          (fun up => absurd up level) fun _ _ => rfl
    | some element =>
      obtain ⟨name, rest⟩ := element
      have shorter := length_skipelem elements
      simp only
      refine (ilock_passed settled member).bind ?_ ?_
      · rintro _ first ⟨_, settled', disk, passed⟩
        have inLocked := Finset.mem_insert_self ip ∅
        have unlocks : (insert ip ∅ : Finset (Fin ninode)).erase ip = ∅ :=
          Finset.erase_insert (Finset.notMem_empty ip)
        have inum := (passed.keeps ip member).1
        have passed' := passed.mono among
        have described : nodeAt sb first ip = nodeAt sb fs ip := by
          rw [nodeAt, disk, inum]
        obtain ⟨_, valid⟩ := settled'.cached.opened ip inLocked
        -- the type is not 0, so nothing on the way has freed the inode
        have typed := settled'.type_ne_zero member valid
        rw [described] at typed
        have seen : ∀ nodes, Worn nodes (sb.node fs.disk) →
            nodes (fs.icache ip).inum = nodeAt sb fs ip :=
          fun nodes worn => ((worn _).resolve_right typed).symm
        simp only [getInode, ensures_bind, ensures_get, ensures_pure,
          settled'.type_eq member valid, described]
        split
        next file =>
          refine (iunlockput_released settled' inLocked).bind ?_ fun _ => False.elim
          rintro _ second ⟨settled'', released⟩
          rw [unlocks] at settled''
          exact .of_none (passed'.trans released.toPassed) settled'' fun nodes worn => by
            rw [seen nodes worn, if_pos file]
        next directory =>
          rw [not_ne_iff] at directory
          split
          next last =>
            refine (iunlock_ensures settled' inLocked).bind ?_ fun _ => False.elim
            rintro _ second ⟨settled'', disk', keeps⟩
            rw [unlocks] at settled''
            have inum' := (keeps ip member).1.trans inum
            refine .of_some (passed'.trans (.of_disk (keeps.mono among) disk')) settled''
              (fun _ => ?_) fun nodes worn => by
                rw [seen nodes worn, if_neg (not_not.mpr directory), inum']
            rw [nodeAt, disk', disk, inum', directory]
          next more =>
            refine (dirlookup_ensures settled' inLocked described directory
              (ranged _ directory)).bind ?_ fun _ benign => benign.halts _ _
            rintro (_ | ⟨next, off⟩) second looked
            · obtain ⟨absent, rfl⟩ := looked
              refine (iunlockput_released settled' inLocked).bind ?_ fun _ => False.elim
              rintro _ third ⟨settled'', released⟩
              rw [unlocks] at settled''
              exact .of_none (passed'.trans released.toPassed) settled'' fun nodes worn => by
                rw [seen nodes worn, if_neg (not_not.mpr directory), absent]
            · obtain ⟨k, present, _, inum', settled'', disk', keeps⟩ := looked
              rw [Multiset.cons_swap] at settled''
              refine (iunlockput_released settled'' inLocked).bind ?_ fun _ => False.elim
              rintro _ third ⟨settled₃, released⟩
              rw [unlocks] at settled₃
              have nextHeld := Multiset.mem_cons_self next held
              have amongNext : ∀ jp ∈ held, jp ∈ next ::ₘ held :=
                fun _ => Multiset.mem_cons_of_mem
              have chain : Passed sb held fs third :=
                (passed'.trans (.of_disk (keeps.mono among) disk')).trans
                  (released.mono amongNext)
              have inum'' : (third.icache next).inum =
                  ((nodeAt sb fs ip).dirent k).inum.toNat :=
                (released.keeps next nextHeld).1.trans inum'
              refine (induction settled₃ (chain.ranged ranged) (by omega) nextHeld
                amongNext).mono ?_ ?_
              · intro result final resolved
                refine resolved.after chain fun nodes worn => ?_
                rw [seen nodes worn, if_neg (not_not.mpr directory), inum'', present]
              · intro failure halts
                refine halts.mono ?_ id
                rintro ⟨anchored, populated, _⟩
                refine ⟨chain.anchored anchored, ?_, ?_⟩
                · rw [chain.same anchored]
                  exact populated
                · rw [nodeAt, chain.same anchored, inum'']
                  obtain ⟨inside, used, _⟩ := Node.find_eq_some.mp present
                  exact populated _ directory _ (Node.dirent_mem inside) used
      · intro failure halts
        exact halts.mono (fun sound => sound.2.2) fun _ => Finset.notMem_empty ip

end

def resolve (nodes : Nat → Node) (parent : Bool) (cwd : Nat) (path : List UInt8) :
    Option (Nat × List UInt8) :=
  walk nodes parent (path.length + 1) (if path.head? = some 47 then rootino else cwd) path

structure Sound (sb : Superblock) (fs : Fs) (held : Multiset (Fin ninode)) : Prop where
  anchored : Anchored sb fs held
  populated : Populated (sb.node fs.disk)
  references : ∀ ip ∈ held, (nodeAt sb fs ip).type ≠ 0
  root : (sb.node fs.disk rootino).type ≠ 0

section

variable {sb : Superblock} {fs fs' : Fs} {cwd : Fin ninode} {held : Multiset (Fin ninode)}
  {path : List UInt8} (rooted : rootino < sb.ninodes) (settled : Settled sb fs held ∅)
  (member : cwd ∈ held) (ranged : sb.Ranged (sb.node fs.disk))

include rooted settled member ranged

theorem namex_ensures (parent : Bool) :
    Ensures (namex sb cwd parent path) fs
      (fun result fs' => Resolved sb held parent fs
        (fun nodes => resolve nodes parent (fs.icache cwd).inum path) result fs')
      (Halts (Sound sb fs held) True) := by
  have continues : ∀ ip first, Settled sb first (ip ::ₘ held) ∅ → first.disk = fs.disk →
      (first.icache ip).inum = (if path.head? = some 47 then rootino else (fs.icache cwd).inum) →
      Keeps held fs first →
      Ensures (namexFrom sb parent (path.length + 1) ip path) first
        (fun result fs' => Resolved sb held parent fs
          (fun nodes => resolve nodes parent (fs.icache cwd).inum path) result fs')
        (Halts (Sound sb fs held) True) := by
    intro ip first settled' disk inum keeps
    have passed : Passed sb held fs first := .of_disk keeps disk
    refine (namexFrom_ensures settled' (passed.ranged ranged) (Nat.lt_succ_self _)).mono ?_ ?_
    · intro result fs' resolved
      refine resolved.after passed fun _ _ => ?_
      rw [inum, resolve]
    · intro failure halts
      refine halts.mono ?_ id
      intro sound
      refine ⟨passed.anchored sound.anchored, disk ▸ sound.populated, ?_⟩
      rw [nodeAt, disk, inum]
      split
      next => exact sound.root
      next => exact sound.references cwd member
  unfold namex
  split
  next absolute =>
    refine (iget_ensures settled (by decide) rooted).bind ?_ ?_
    · rintro ip first ⟨settled', disk, inum, keeps⟩
      exact continues ip first settled' disk (by rw [inum, if_pos absolute]) keeps
    · rintro failure rfl
      exact ⟨by decide, fun _ => by decide, fun _ => by decide⟩
  next relative =>
    refine (idup_ensures settled member).bind ?_ fun _ => False.elim
    rintro ip first ⟨rfl, settled', disk, keeps⟩
    exact continues ip first settled' disk
      (by rw [(keeps ip member).1, if_neg relative]) keeps

theorem namei_ensures :
    Ensures (namei sb cwd path) fs
      (fun result fs' => ∃ found, Resolved sb held false fs
        (fun nodes => resolve nodes false (fs.icache cwd).inum path) found fs' ∧
          result = found.map Prod.fst)
      (Halts (Sound sb fs held) True) :=
  (namex_ensures rooted settled member ranged false).seq fun found _ resolved =>
    ⟨found, resolved, rfl⟩

end

end Fs

end StraceXv6.Kernel
