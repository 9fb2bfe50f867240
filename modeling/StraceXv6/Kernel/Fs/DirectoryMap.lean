import StraceXv6.Data.Run
import StraceXv6.Data.Slots
import StraceXv6.Kernel.Fs.ByteArrays

namespace StraceXv6.Kernel

open List Function Data Data.Command

/-! A directory as a finite map from names to inode numbers.  Names are told apart by
their first `DIRSIZ` bytes. -/

/-- The used slots with the names that `namecmp` sees. -/
def Node.slots (n : Node) : List (Option (List UInt8 × Nat)) :=
  n.dirents.map fun de =>
    if de.inum = 0 then none else some (cname de.name, de.inum.toNat)

namespace Node

variable {n : Node} {k : Nat}

theorem getElem?_slots (inside : k < n.dirents.length) :
    n.slots[k]? = some (if (n.dirent k).inum = 0 then none
      else some (cname (n.dirent k).name, (n.dirent k).inum.toNat)) := by
  rw [slots, List.getElem?_map, List.getElem?_eq_getElem inside, getElem_dirents]
  rfl

variable {name : List UInt8}

theorem slots_of_find (found : n.find name = some k) :
    n.slots[k]? = some (some (cname name, (n.dirent k).inum.toNat)) := by
  obtain ⟨inside, used, same, _⟩ := find_eq_some.mp found
  rw [getElem?_slots inside, if_neg used, same]

theorem lookup_of_find_none (missing : n.find name = none) :
    Slots.lookup n.slots (cname name) = none := by
  rw [Slots.lookup_eq_none]
  intro i value here
  have inside : i < n.dirents.length := by
    have bound := (List.getElem?_eq_some_iff.mp here).1
    rwa [slots, length_map] at bound
  rw [getElem?_slots inside] at here
  split at here
  next => cases here
  next used =>
    simp only [Option.some.injEq, Prod.mk.injEq] at here
    exact find_eq_none.mp missing i inside ⟨used, here.1.symm⟩

theorem slots_put (de : Fs.Dirent) (length : de.name.length = dirsiz)
    (slot : k < n.dirents.length ∨ Fs.Dirent.bytes * k = n.size) :
    Slots.Written k (if de.inum = 0 then none else some (cname de.name, de.inum.toNat))
      n.slots (n.put k de).slots := by
  rcases slot with inside | last
  · have after := dirents_put (n := n) length inside
    refine ⟨?_, ?_⟩
    · rw [slots, after, List.getElem?_map, List.getElem?_set_self inside]
      rfl
    · intro i other
      rw [slots, slots, after, List.getElem?_map, List.getElem?_map,
        List.getElem?_set_ne (Ne.symm other)]
  · have after := dirents_put_size (n := n) length last
    have count : n.dirents.length = k := by
      rw [length_dirents, ← last]
      exact Nat.mul_div_cancel_left k (by decide)
    refine ⟨?_, ?_⟩
    · rw [slots, after, List.getElem?_map, ← count, List.getElem?_concat_length]
      rfl
    · intro i other
      rw [slots, slots, after, List.getElem?_map, List.getElem?_map,
        List.getElem?_append]
      split
      next => rfl
      next above =>
        rw [List.getElem?_eq_none (by rw [length_singleton]; omega),
          List.getElem?_eq_none (by omega)]

end Node

namespace Fs

structure Referred (inum : Nat) (ip : Fin ninode) (fs fs' : Fs) : Prop where
  disk : fs'.disk = fs.disk
  inum : (fs'.icache ip).inum = inum
  others : ∀ jp, jp ≠ ip → fs'.icache jp = fs.icache jp
  again : 0 < (fs.icache ip).ref →
    fs'.icache ip = { fs.icache ip with ref := (fs.icache ip).ref + 1 }
  first : (fs.icache ip).ref = 0 → (fs'.icache ip).valid = false

section

variable {sb : Superblock} {fs fs' : Fs} {dp ip : Fin ninode}

theorem iget_referred (inum : Nat) :
    Ensures (iget inum) fs (fun ip fs' => Referred inum ip fs fs')
      (fun halt => halt = .noCacheEntry ∧ ∀ jp, (fs.icache jp).ref ≠ 0) := by
  unfold iget
  simp only [ensures_bind, ensures_get]
  split
  next ip found =>
    have used := List.find?_some found
    simp only [Bool.and_eq_true, decide_eq_true_eq, beq_iff_eq] at used
    simp only [modifyInode, ensures_bind, ensures_modify, ensures_pure]
    refine ⟨rfl, ?_, ?_, ?_, fun zero => ?_⟩
    · rw [icache_putInode, update_self]
      exact used.2
    · exact fun jp other => update_of_ne other _ _
    · exact fun _ => update_self _ _ _
    · rw [zero] at used
      exact absurd used.1 (Nat.lt_irrefl 0)
  next =>
    split
    next missing =>
      refine ⟨rfl, ?_⟩
      intro jp zero
      have used := List.find?_eq_none.mp missing jp (mem_finRange jp)
      exact used (by rw [beq_iff_eq]; exact zero)
    next ip found =>
      have empty := List.find?_some found
      rw [beq_iff_eq] at empty
      simp only [modifyInode, ensures_bind, ensures_modify, ensures_pure]
      refine ⟨rfl, ?_, ?_, fun used => ?_, fun _ => ?_⟩
      · rw [icache_putInode, update_self]
      · exact fun jp other => update_of_ne other _ _
      · rw [empty] at used
        exact absurd used (Nat.lt_irrefl 0)
      · rw [icache_putInode, update_self]

def Borrowed (dp ip : Fin ninode) (fs : Fs) : Prop :=
  2 ≤ (fs.icache ip).ref ∨ (fs.icache ip).valid = false ∧ ip ≠ dp

variable {inum : Nat}

theorem Referred.borrowed (referred : Referred inum ip fs fs') (used : 0 < (fs.icache dp).ref) :
    Borrowed dp ip fs' := by
  by_cases zero : (fs.icache ip).ref = 0
  · refine .inr ⟨referred.first zero, ?_⟩
    rintro rfl
    omega
  · refine .inl ?_
    rw [referred.again (Nat.pos_of_ne_zero zero)]
    change 2 ≤ (fs.icache ip).ref + 1
    omega

theorem Referred.entry (referred : Referred inum ip fs fs') (used : 0 < (fs.icache dp).ref) :
    ∃ count, 0 < count ∧ fs'.icache dp = { fs.icache dp with ref := count } := by
  by_cases same : dp = ip
  · subst same
    exact ⟨_, Nat.succ_pos _, referred.again used⟩
  · exact ⟨_, used, referred.others dp same⟩

theorem iput_borrowed (borrowed : Borrowed dp ip fs) :
    Ensures (iput sb ip) fs
      (fun _ fs' => fs' = fs.putInode ip { fs.icache ip with ref := (fs.icache ip).ref - 1 })
      (fun _ => False) := by
  have kept : ¬((fs.icache ip).ref = 1 ∧ (fs.icache ip).valid = true ∧
      (fs.icache ip).nlink = 0) := by
    rintro ⟨last, valid, _⟩
    rcases borrowed with shared | ⟨invalid, _⟩
    · omega
    · rw [valid] at invalid
      exact Bool.false_ne_true invalid.symm
  unfold iput
  simp only [getInode, modifyInode, ensures_bind, ensures_get, ensures_pure, if_neg kept,
    ensures_modify]

end

def lookupInum (sb : Superblock) (dp : Fin ninode) (name : List UInt8) : FsM (Option Nat) := do
  match ← dirlookup sb dp name with
  | none => return none
  | some (ip, _) => do
    let inum := (← getInode ip).inum
    iput sb ip
    return some inum

/-- The write of `sys_unlink` that clears the entry of a name. -/
def clearEntry (sb : Superblock) (dp : Fin ninode) (name : List UInt8) : FsM Bool := do
  match ← dirlookup sb dp name with
  | none => return false
  | some (ip, off) => do
    writeDirent sb dp off .clear .unlinkWrite
    iput sb ip
    return true

inductive DirCall where
  | dirlink (name : List UInt8) (inum : Nat)
  | dirlookup (name : List UInt8)
  | clear (name : List UInt8)

inductive Outcome where
  | linked (success : Bool)
  | found (inum : Option Nat)
  | cleared (success : Bool)
  deriving DecidableEq

namespace DirCall

def perform (sb : Superblock) (dp : Fin ninode) : DirCall → FsM Outcome
  | .dirlink name inum => do
    let success ← Fs.dirlink sb dp name inum
    return .linked success
  | .dirlookup name => do
    let inum ← lookupInum sb dp name
    return .found inum
  | .clear name => do
    let success ← clearEntry sb dp name
    return .cleared success

def Numbered : DirCall → Prop
  | .dirlink _ inum => 0 < inum ∧ inum < 2 ^ 16
  | _ => True

instance (call : DirCall) : Decidable call.Numbered :=
  match call with
  | .dirlink _ inum => inferInstanceAs (Decidable (0 < inum ∧ inum < 2 ^ 16))
  | .dirlookup _ => .isTrue trivial
  | .clear _ => .isTrue trivial

def onMap (map : List UInt8 → Option Nat) : DirCall → Outcome × (List UInt8 → Option Nat)
  | .dirlink name inum =>
    if (map (cname name)).isSome then (.linked false, map)
    else (.linked true, Function.update map (cname name) (some inum))
  | .dirlookup name => (.found (map (cname name)), map)
  | .clear name =>
    (.cleared (map (cname name)).isSome, Function.update map (cname name) none)

end DirCall

/-- The locked directory `dp` lists the names of a map. -/
structure Lists (sb : Superblock) (fs : Fs) (dp : Fin ninode)
    (map : List UInt8 → Option Nat) : Prop where
  clean : Clean sb fs dp
  used : 0 < (fs.icache dp).ref
  directory : (nodeAt sb fs dp).type = tDir
  whole : Dirent.bytes ∣ (nodeAt sb fs dp).size
  distinct : Slots.Distinct (nodeAt sb fs dp).slots
  listed : Slots.lookup (nodeAt sb fs dp).slots = map

structure Room (sb : Superblock) (fs : Fs) (dp : Fin ninode) : Prop where
  size : (nodeAt sb fs dp).size < maxfile * bsize
  blocks : ∀ j, Dirent.bytes * j ≤ (nodeAt sb fs dp).size →
    (vacant sb fs dp (writtenPlaces (Dirent.bytes * j) Dirent.bytes)).card ≤
      (sb.spare fs.disk).card
  entries : ∃ jp, (fs.icache jp).ref = 0

section

variable {sb : Superblock} {fs fs' : Fs} {dp ip : Fin ninode} {map : List UInt8 → Option Nat}

theorem Lists.of_cache (lists : Lists sb fs dp map) (disk : fs'.disk = fs.disk)
    (dinode : (fs'.icache dp).toDinode = (fs.icache dp).toDinode)
    (inum : (fs'.icache dp).inum = (fs.icache dp).inum) (used : 0 < (fs'.icache dp).ref) :
    Lists sb fs' dp map := by
  obtain ⟨⟨kept, live, copied⟩, _, directory, whole, distinct, listed⟩ := lists
  have same : nodeAt sb fs' dp = nodeAt sb fs dp := by rw [nodeAt, disk, inum]
  refine ⟨⟨?_, ?_, ?_⟩, used, ?_, ?_, ?_, ?_⟩
  · rw [disk]
    exact kept
  · rw [disk, inum]
    exact live
  · rw [disk, inum, dinode]
    exact copied
  · rw [same]
    exact directory
  · rw [same]
    exact whole
  · rw [same]
    exact distinct
  · rw [same]
    exact listed

variable {inum k : Nat} {name : List UInt8} {de : Dirent} {node : Node}

theorem Lists.of_referred (lists : Lists sb fs dp map) (referred : Referred inum ip fs fs') :
    Lists sb fs' dp map := by
  obtain ⟨count, positive, entry⟩ := referred.entry lists.used
  apply lists.of_cache referred.disk
  · rw [entry]
  · rw [entry]
  · rw [entry]
    exact positive

theorem Lists.put (lists : Lists sb fs dp map) (borrowed : Borrowed dp ip fs) :
    Lists sb (fs.putInode ip { fs.icache ip with ref := (fs.icache ip).ref - 1 }) dp map := by
  by_cases same : dp = ip
  · subst same
    have shared : 2 ≤ (fs.icache dp).ref := by
      rcases borrowed with shared | ⟨_, other⟩
      · exact shared
      · exact absurd rfl other
    refine lists.of_cache rfl ?_ ?_ ?_
    · rw [icache_putInode, update_self]
    · rw [icache_putInode, update_self]
    · rw [icache_putInode, update_self]
      exact Nat.sub_pos_of_lt shared
  · refine lists.of_cache rfl ?_ ?_ ?_
    · rw [icache_putInode, update_of_ne same]
    · rw [icache_putInode, update_of_ne same]
    · rw [icache_putInode, update_of_ne same]
      exact lists.used

theorem Lists.lookup_eq (lists : Lists sb fs dp map) :
    map (cname name) =
      ((nodeAt sb fs dp).find name).map fun k => ((nodeAt sb fs dp).dirent k).inum.toNat := by
  rw [← lists.listed]
  cases found : (nodeAt sb fs dp).find name with
  | none => exact Node.lookup_of_find_none found
  | some k => exact (Slots.lookup_eq_some lists.distinct).mpr ⟨k, Node.slots_of_find found⟩

theorem Lists.of_put {map' : List UInt8 → Option Nat} (lists : Lists sb fs dp map)
    (clean : Clean sb fs' dp) (rewritten : Rewritten sb dp fs fs')
    (node : nodeAt sb fs' dp = (nodeAt sb fs dp).put k de)
    (slots : Slots.Distinct (nodeAt sb fs' dp).slots ∧
      Slots.lookup (nodeAt sb fs' dp).slots = map') : Lists sb fs' dp map' where
  clean := clean
  used := by
    obtain ⟨d, icache, _⟩ := rewritten
    rw [icache, update_self]
    exact lists.used
  directory := by
    rw [node, Node.type_put]
    exact lists.directory
  whole := by
    obtain ⟨count, size⟩ := lists.whole
    rw [node, Node.size_put]
    change 16 ∣ max _ (16 * k + 16)
    change _ = 16 * count at size
    omega
  distinct := slots.1
  listed := slots.2

theorem writeDirent_clean {failure : Halt} (clean : Clean sb fs dp)
    (described : nodeAt sb fs dp = node) (directory : node.type = tDir)
    (slot : Dirent.bytes * k ≤ node.size) :
    Ensures (writeDirent sb dp (Dirent.bytes * k) de failure) fs
      (fun _ fs' => Clean sb fs' dp ∧ nodeAt sb fs' dp = node.put k de ∧
        Rewritten sb dp fs fs')
      (fun _ => maxfile * bsize < Dirent.bytes * k + Dirent.bytes ∨
        (sb.spare fs.disk).card <
          (vacant sb fs dp (writtenPlaces (Dirent.bytes * k) Dirent.bytes)).card) := by
  have offset := clean.toNat_offset described slot
  have returns : Ensures (writei sb (fun _ => none) dp (fun j => de.store.getD j 0)
      (UInt32.ofNat (Dirent.bytes * k)) 16) fs (fun _ _ => True) (fun _ =>
        (sb.spare fs.disk).card <
          (vacant sb fs dp (writtenPlaces (Dirent.bytes * k) Dirent.bytes)).card) := by
    by_cases room : (vacant sb fs dp (writtenPlaces (Dirent.bytes * k) Dirent.bytes)).card ≤
        (sb.spare fs.disk).card
    · exact (writei_room clean (by rw [offset]; exact room)).mono (fun _ _ _ => trivial)
        fun _ => False.elim
    · exact (writei_clean clean).mono (fun _ _ _ => trivial)
        fun _ _ => Nat.lt_of_not_le room
  unfold writeDirent
  refine ((writei_clean clean).and returns).bind ?_ fun _ failed => .inr failed.2
  rw [offset]
  rintro r fs' ⟨⟨_, rfl, clean', nodes, rewritten⟩ | ⟨refused, rfl, fails⟩, _⟩
  · rw [if_neg (by decide)]
    refine ⟨clean', ?_, rewritten⟩
    obtain ⟨d, icache, _⟩ := rewritten
    have inum : (fs'.icache dp).inum = (fs.icache dp).inum := by
      rw [icache, update_self]
    rw [nodeAt, inum, nodes, update_self, ← described]
    rfl
  · have regular : node.type ≠ tDev := by
      rw [directory]
      decide
    rw [← nodeAt, described] at refused fails
    rw [fails regular, if_pos (by decide)]
    refine .inl ?_
    by_contra small
    exact refused ⟨regular, slot, Nat.le_of_not_lt small⟩

def Reuses (node node' : Node) : Prop :=
  node'.size ≠ node.size → ∀ de ∈ node.dirents, de.inum ≠ 0

theorem FirstFree.reuses (first : FirstFree node k) : Reuses node (node.put k de) := by
  intro grown entry member
  obtain ⟨j, inside, rfl⟩ := getElem_of_mem member
  rw [Node.getElem_dirents]
  apply first.used j
  rcases first.slot with ⟨free, _⟩ | last
  · exfalso
    apply grown
    rw [Node.size_put]
    exact Nat.max_eq_left (Node.mul_lt_size free)
  · have bound := Node.mul_lt_size inside
    change 16 * j + 16 ≤ _ at bound
    change 16 * k = _ at last
    omega

theorem FreeSlot.free (slot : FreeSlot node k) (entry : List UInt8 × Nat) :
    node.slots[k]? ≠ some (some entry) := by
  rcases slot with ⟨inside, zero⟩ | last
  · rw [Node.getElem?_slots inside, if_pos zero]
    simp
  · have outside : node.slots.length ≤ k := by
      rw [Node.slots, length_map, Node.length_dirents, ← last]
      exact (Nat.mul_div_cancel_left k (by decide)).le
    rw [List.getElem?_eq_none outside]
    simp

structure Performed (sb : Superblock) (dp : Fin ninode) (call : DirCall)
    (map : List UInt8 → Option Nat) (fs : Fs) (outcome : Outcome) (fs' : Fs) : Prop where
  outcome_eq : outcome = (call.onMap map).1
  lists : Lists sb fs' dp (call.onMap map).2
  reuses : Reuses (nodeAt sb fs dp) (nodeAt sb fs' dp)
  refused : outcome = .linked false → fs'.disk = fs.disk

theorem Room.fits (room : Room sb fs dp) (lists : Lists sb fs dp map)
    (slot : Dirent.bytes * k ≤ (nodeAt sb fs dp).size) :
    ¬(maxfile * bsize < Dirent.bytes * k + Dirent.bytes ∨
      (sb.spare fs.disk).card <
        (vacant sb fs dp (writtenPlaces (Dirent.bytes * k) Dirent.bytes)).card) := by
  obtain ⟨count, size⟩ := lists.whole
  have below := room.size
  have blocks := room.blocks k slot
  rw [not_or]
  refine ⟨?_, Nat.not_lt.mpr blocks⟩
  change _ < 71680 at below
  change _ = 16 * count at size
  change 16 * k ≤ _ at slot
  change ¬71680 < 16 * k + 16
  omega

theorem nodeAt_putRef (sb : Superblock) (fs : Fs) (dp ip : Fin ninode) (count : Nat) :
    nodeAt sb (fs.putInode ip { fs.icache ip with ref := count }) dp = nodeAt sb fs dp := by
  rw [nodeAt, nodeAt, disk_putInode, icache_putInode, update_apply]
  split
  next here => rw [here]
  next => rfl

theorem Lists.dirlookup_ensures (lists : Lists sb fs dp map) :
    Ensures (Fs.dirlookup sb dp name) fs
      (fun result fs' => match result with
        | none => (nodeAt sb fs dp).find name = none ∧ map (cname name) = none ∧ fs' = fs
        | some (ip, off) => ∃ j, (nodeAt sb fs dp).find name = some j ∧
            off = Dirent.bytes * j ∧ map (cname name) = some (fs'.icache ip).inum ∧
            Lists sb fs' dp map ∧ Borrowed dp ip fs' ∧ fs'.disk = fs.disk ∧
            nodeAt sb fs' dp = nodeAt sb fs dp ∧ vacant sb fs' dp = vacant sb fs dp)
      (fun _ => ¬Room sb fs dp) := by
  refine (dirlookup_clean lists.clean rfl lists.directory).mono ?_ ?_
  · rintro (_ | ⟨ip, off⟩) fs' looked
    · obtain ⟨missing, rfl⟩ := looked
      refine ⟨missing, ?_, rfl⟩
      rw [lists.lookup_eq, missing]
      rfl
    · obtain ⟨j, found, offset, performed⟩ := looked
      have referred := (iget_referred _).of_ok performed
      obtain ⟨count, _, entry⟩ := referred.entry lists.used
      refine ⟨j, found, offset, ?_, lists.of_referred referred, referred.borrowed lists.used,
        referred.disk, ?_, ?_⟩
      · rw [lists.lookup_eq, found, referred.inum]
        rfl
      · rw [nodeAt, referred.disk, entry]
      · unfold vacant working
        rw [referred.disk, entry]
  · rintro failure (⟨_, ragged⟩ | ⟨j, _, failed⟩) room
    · exact ragged lists.whole
    · obtain ⟨jp, free⟩ := room.entries
      exact ((iget_referred _).of_error failed).2 jp free

theorem lookupInum_ensures (lists : Lists sb fs dp map) :
    Ensures (lookupInum sb dp name) fs
      (fun inum fs' => inum = map (cname name) ∧ Lists sb fs' dp map ∧
        nodeAt sb fs' dp = nodeAt sb fs dp)
      (fun _ => ¬Room sb fs dp) := by
  unfold lookupInum
  refine lists.dirlookup_ensures.seq ?_
  rintro (_ | ⟨ip, off⟩) fs' looked
  · obtain ⟨_, absent, rfl⟩ := looked
    exact ⟨absent.symm, lists, rfl⟩
  · obtain ⟨j, _, _, present, lists', borrowed, _, same, _⟩ := looked
    simp only [getInode, ensures_bind, ensures_get, ensures_pure]
    refine (iput_borrowed borrowed).mono ?_ fun _ => False.elim
    rintro _ fs'' rfl
    exact ⟨present.symm, lists'.put borrowed, (nodeAt_putRef ..).trans same⟩

theorem clearEntry_ensures (lists : Lists sb fs dp map) :
    Ensures (clearEntry sb dp name) fs
      (fun success fs' => success = (map (cname name)).isSome ∧
        Lists sb fs' dp (update map (cname name) none) ∧
        (nodeAt sb fs' dp).size = (nodeAt sb fs dp).size)
      (fun _ => ¬Room sb fs dp) := by
  unfold clearEntry
  refine lists.dirlookup_ensures.seq ?_
  rintro (_ | ⟨ip, off⟩) fs' looked
  · obtain ⟨_, absent, rfl⟩ := looked
    refine ⟨by rw [absent]; rfl, ?_, rfl⟩
    rw [update_eq_self_iff.mpr absent.symm]
    exact lists
  · obtain ⟨j, found, rfl, present, lists', borrowed, disk, same, vacancies⟩ := looked
    obtain ⟨inside, _⟩ := Node.find_eq_some.mp found
    have slot : Dirent.bytes * j ≤ (nodeAt sb fs dp).size :=
      (Nat.le_add_right _ _).trans (Node.mul_lt_size inside)
    refine (writeDirent_clean lists'.clean same lists.directory slot).bind ?_ ?_
    · rintro _ fs'' ⟨clean, node, rewritten⟩
      have written : Slots.Written j none (nodeAt sb fs dp).slots (nodeAt sb fs'' dp).slots := by
        rw [node]
        exact Node.slots_put .clear rfl (.inl inside)
      have slots := written.erase lists.distinct (Node.slots_of_find found)
      rw [lists.listed] at slots
      have cleared := lists'.of_put clean rewritten (by rw [same]; exact node) slots
      obtain ⟨d, icache, _⟩ := rewritten
      have still : Borrowed dp ip fs'' := by
        unfold Borrowed at borrowed ⊢
        rw [icache, update_apply]
        split
        next here => rw [here] at borrowed ⊢; exact borrowed
        next => exact borrowed
      refine (iput_borrowed still).bind ?_ fun _ => False.elim
      rintro _ last rfl
      refine ⟨by rw [present]; rfl, cleared.put still, ?_⟩
      rw [nodeAt_putRef, node, Node.size_put]
      exact Nat.max_eq_left (Node.mul_lt_size inside)
    · intro _ failed room
      rw [disk, vacancies] at failed
      exact room.fits lists slot failed

theorem dirlink_performed (lists : Lists sb fs dp map) (positive : 0 < inum)
    (small : inum < 2 ^ 16) :
    Ensures (dirlink sb dp name inum) fs
      (fun success fs' => Performed sb dp (.dirlink name inum) map fs (.linked success) fs')
      (fun _ => ¬Room sb fs dp) := by
  unfold dirlink
  refine lists.dirlookup_ensures.seq ?_
  rintro (_ | ⟨ip, off⟩) fs' looked
  · obtain ⟨missing, absent, rfl⟩ := looked
    have onMap : DirCall.onMap map (.dirlink name inum) =
        (.linked true, update map (cname name) (some inum)) := by
      simp only [DirCall.onMap, absent, Option.isSome_none, Bool.false_eq_true, if_false]
    have clean := lists.clean
    simp only [getInode, ensures_bind, ensures_get, ensures_pure, clean.cached_size rfl]
    refine (emptyDirent_ensures (k := 0) clean rfl lists.directory
      (by rw [Node.length_dirents]; omega) (Nat.zero_le _)
      (fun j early => absurd early (Nat.not_lt_zero j))).mono ?_ ?_
    · rintro off fs'' ⟨rfl, j, rfl, first⟩
      refine (writeDirent_clean clean rfl lists.directory first.slot.le).mono ?_ ?_
      · rintro _ last ⟨clean', node, rewritten⟩
        have number : (UInt16.ofNat inum).toNat = inum := UInt16.toNat_ofNat_of_lt' small
        have used : UInt16.ofNat inum ≠ 0 := by
          intro zero
          rw [zero] at number
          change 0 = inum at number
          omega
        have written : Slots.Written j (some (cname name, inum)) (nodeAt sb fs'' dp).slots
            (nodeAt sb last dp).slots := by
          have put := Node.slots_put (n := nodeAt sb fs'' dp) (k := j)
            ⟨UInt16.ofNat inum, strncpy name dirsiz⟩ (length_strncpy name dirsiz)
            (first.slot.imp_left And.left)
          rwa [if_neg used, cname_strncpy, number, ← node] at put
        have slots := written.insert lists.distinct first.slot.free
          (by rw [lists.listed]; exact absent)
        rw [lists.listed] at slots
        refine ⟨by rw [onMap], ?_, ?_, fun refused => absurd refused (by decide)⟩
        · rw [onMap]
          exact lists.of_put clean' rewritten node slots
        · rw [node]
          exact first.reuses
      · intro _ failed room
        exact room.fits lists first.slot.le failed
    · rintro failure ⟨_, ragged⟩
      exact absurd lists.whole ragged
  · obtain ⟨j, _, _, present, lists', borrowed, disk, same, _⟩ := looked
    have onMap : DirCall.onMap map (.dirlink name inum) = (.linked false, map) := by
      simp only [DirCall.onMap, present, Option.isSome_some, if_true]
    refine (iput_borrowed borrowed).bind ?_ fun _ => False.elim
    rintro _ last rfl
    refine ⟨by rw [onMap], by rw [onMap]; exact lists'.put borrowed, ?_, fun _ => disk⟩
    rw [nodeAt_putRef, same]
    exact fun grown => absurd rfl grown

theorem perform_performed {call : DirCall} (lists : Lists sb fs dp map)
    (numbered : call.Numbered) :
    Ensures (call.perform sb dp) fs (Performed sb dp call map fs) (fun _ => ¬Room sb fs dp) := by
  cases call with
  | dirlink name inum =>
    exact (dirlink_performed lists numbered.1 numbered.2).seq fun _ _ performed => performed
  | dirlookup name =>
    refine (lookupInum_ensures lists).seq ?_
    rintro inum fs' ⟨rfl, lists', same⟩
    refine ⟨rfl, lists', ?_, fun refused => absurd refused (by simp)⟩
    rw [same]
    exact fun grown => absurd rfl grown
  | clear name =>
    refine (clearEntry_ensures lists).seq ?_
    rintro success fs' ⟨rfl, lists', same⟩
    exact ⟨rfl, lists', fun grown => absurd same grown, fun refused => absurd refused (by simp)⟩

end

namespace DirCall

/-- A call on the directory `dp`; the outcomes are kept in order. -/
def step (sb : Superblock) (dp : Fin ninode) (state : Fs × List Outcome) (call : DirCall) :
    Option (Fs × List Outcome) :=
  match call.perform sb dp state.1 with
  | .ok (outcome, fs') => some (fs', state.2 ++ [outcome])
  | .error _ => none

def onMaps (map : List UInt8 → Option Nat) :
    List DirCall → List Outcome × (List UInt8 → Option Nat)
  | [] => ([], map)
  | call :: rest =>
    let (outcome, next) := call.onMap map
    let (outcomes, last) := onMaps next rest
    (outcome :: outcomes, last)

def lastLinked (key : List UInt8) (before : Option Nat) : List (DirCall × Outcome) → Option Nat
  | [] => before
  | (.dirlink name inum, .linked true) :: rest =>
    lastLinked key (if cname name = key then some inum else before) rest
  | (.clear name, _) :: rest => lastLinked key (if cname name = key then none else before) rest
  | _ :: rest => lastLinked key before rest

theorem onMaps_eq_lastLinked (map : List UInt8 → Option Nat) (calls : List DirCall)
    (key : List UInt8) : (onMaps map calls).2 key =
      lastLinked key (map key) (calls.zip (onMaps map calls).1) := by
  induction calls generalizing map with
  | nil => rfl
  | cons call rest induction =>
    have later := induction (call.onMap map).2
    cases call with
    | dirlink name inum =>
      by_cases present : (map (cname name)).isSome = true
      · simp only [onMaps, onMap, present, if_true] at later ⊢
        exact later
      · have onMap_eq : onMap map (.dirlink name inum) =
            (.linked true, update map (cname name) (some inum)) := if_neg present
        simp only [onMaps, onMap_eq, zip_cons_cons] at later ⊢
        rw [later, lastLinked, update_apply]
        simp only [eq_comm]
    | dirlookup name => exact later
    | clear name =>
      simp only [onMaps, onMap, zip_cons_cons] at later ⊢
      rw [later, lastLinked, update_apply]
      simp only [eq_comm]

end DirCall

section

variable {sb : Superblock} {dp : Fin ninode} {map : List UInt8 → Option Nat}
  {state : Fs × List Outcome}

theorem DirCall.step_performed {next : Fs × List Outcome} {call : DirCall}
    (lists : Lists sb state.1 dp map) (numbered : call.Numbered)
    (stepped : call.step sb dp state = some next) :
    ∃ outcome, next.2 = state.2 ++ [outcome] ∧
      Performed sb dp call map state.1 outcome next.1 := by
  unfold step at stepped
  split at stepped
  next outcome fs' performed =>
    cases stepped
    exact ⟨outcome, rfl, (perform_performed lists numbered).of_ok performed⟩
  next => cases stepped

theorem run_lists {last : Fs × List Outcome} {calls : List DirCall}
    (lists : Lists sb state.1 dp map) (numbered : ∀ call ∈ calls, call.Numbered)
    (reached : run (DirCall.step sb dp) state calls = some last) :
    last.2 = state.2 ++ (DirCall.onMaps map calls).1 ∧
      Lists sb last.1 dp (DirCall.onMaps map calls).2 := by
  induction calls generalizing state map with
  | nil =>
    cases reached
    exact ⟨(append_nil _).symm, lists⟩
  | cons call rest induction =>
    obtain ⟨next, stepped, remaining⟩ := run_cons_eq_some.mp reached
    obtain ⟨outcome, outcomes, performed⟩ := DirCall.step_performed lists
      (numbered call mem_cons_self) stepped
    obtain ⟨final, lists'⟩ := induction performed.lists
      (fun call member => numbered call (mem_cons_of_mem _ member)) remaining
    refine ⟨?_, lists'⟩
    rw [final, outcomes, performed.outcome_eq, append_assoc]
    rfl

/-- A directory behaves as a map, over any sequence of calls. -/
theorem directory_refines_map {fs : Fs} {state : Fs × List Outcome} {calls : List DirCall}
    (lists : Lists sb fs dp map) (numbered : ∀ call ∈ calls, call.Numbered)
    (reached : run (DirCall.step sb dp) (fs, []) calls = some state) :
    state.2 = (DirCall.onMaps map calls).1 ∧
      Lists sb state.1 dp (DirCall.onMaps map calls).2 ∧
      (∀ name, (DirCall.onMaps map calls).2 (cname name) =
        DirCall.lastLinked (cname name) (map (cname name)) (calls.zip state.2)) ∧
      ∀ call : DirCall, call.Numbered →
        (Room sb state.1 dp → call.step sb dp state ≠ none) ∧
        ∀ next, call.step sb dp state = some next →
          Reuses (nodeAt sb state.1 dp) (nodeAt sb next.1 dp) ∧
          (next.2 = state.2 ++ [.linked false] → next.1.disk = state.1.disk) := by
  obtain ⟨outcomes, lists'⟩ := run_lists lists numbered reached
  rw [nil_append] at outcomes
  refine ⟨outcomes, lists', ?_, ?_⟩
  · intro name
    rw [outcomes, DirCall.onMaps_eq_lastLinked]
  · intro call numbered
    constructor
    · intro room stuck
      unfold DirCall.step at stuck
      split at stuck
      next => cases stuck
      next failure failed => exact (perform_performed lists' numbered).of_error failed room
    · intro next stepped
      obtain ⟨outcome, appended, performed⟩ := DirCall.step_performed lists' numbered stepped
      refine ⟨performed.reuses, fun refused => performed.refused ?_⟩
      rw [appended] at refused
      exact singleton_inj.mp (append_cancel_left refused)

end

def lockedRoot (sb : Superblock) : Fs :=
  (booted sb).putInode 0
    { sb.rootDinode with inum := rootino, ref := 1, busy := true, valid := true }

theorem lists_lockedRoot {sb : Superblock} (roomy : sb.Roomy) :
    Lists sb (lockedRoot sb) 0 (Slots.lookup Superblock.rootNode.slots) := by
  have entry : (lockedRoot sb).icache 0 =
      { sb.rootDinode with inum := rootino, ref := 1, busy := true, valid := true } := by
    rw [lockedRoot, icache_putInode, update_self]
  have disk : (lockedRoot sb).disk = sb.mkfs := rfl
  have node : nodeAt sb (lockedRoot sb) 0 = Superblock.rootNode := by
    rw [nodeAt, entry, disk, Superblock.node_mkfs roomy, update_self]
  have slots : Superblock.rootNode.slots =
      [some ([46], 1), some ([46, 46], 1)] ++ List.replicate 30 none := by
    rw [Node.slots, Superblock.dirents_rootNode]
    decide
  refine ⟨⟨?_, ?_, ?_⟩, ?_, ?_, ?_, ?_, ?_⟩
  · exact Superblock.kept_mkfs roomy
  · rw [entry]
    exact (Superblock.live_mkfs roomy _).mpr rfl
  · rw [entry, disk, Superblock.table_mkfs roomy, update_self]
  · rw [entry]
    exact Nat.one_pos
  · rw [node]
    rfl
  · rw [node]
    exact ⟨32, rfl⟩
  · rw [node, slots]
    decide
  · rw [node]

def nameLife : List DirCall :=
  [.dirlink (lit "abcdefghijklmn") 7,
    .dirlookup (lit "abcdefghijklmnop"),
    .dirlink (lit "abcdefghijklmnop") 8,
    .clear (lit "abcdefghijklmn"),
    .dirlookup (lit "abcdefghijklmn")]

theorem directory_refines_map_nameLife :
    ∃ state, run (DirCall.step smallDisk 0)
        (lockedRoot smallDisk, []) nameLife = some state ∧
      state.2 = [.linked true, .found (some 7), .linked false, .cleared true, .found none] := by
  have runs : (run (DirCall.step smallDisk 0)
      (lockedRoot smallDisk, []) nameLife).isSome = true := by
    decide +kernel
  obtain ⟨state, reached⟩ := Option.isSome_iff_exists.mp runs
  have numbered : ∀ call ∈ nameLife, call.Numbered := by decide
  have refines := directory_refines_map (lists_lockedRoot roomy_smallDisk) numbered reached
  refine ⟨state, reached, refines.1.trans ?_⟩
  decide +kernel

end Fs

end StraceXv6.Kernel
