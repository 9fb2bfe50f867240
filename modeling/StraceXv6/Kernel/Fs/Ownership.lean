import StraceXv6.Data.Ownership
import StraceXv6.Kernel.Fs.Inode

namespace StraceXv6.Kernel

open Function Data

/-! Which inode owns which block.  An inode refers to blocks from its direct
slots, from its indirect slot and from the entries of its indirect block. -/

inductive Place where
  | direct (k : Fin ndirect)
  | indirect
  | entry (j : Fin nindirect)
  deriving DecidableEq

namespace Place

def slot (k : Fin (ndirect + 1)) : Place :=
  if direct : k.val < ndirect then .direct ⟨k, direct⟩ else .indirect

@[simp] theorem slot_castSucc (k : Fin ndirect) : slot k.castSucc = .direct k := by
  simp [slot]

@[simp] theorem slot_last : slot (Fin.last ndirect) = .indirect := rfl

def block (bn : Nat) : Option Place :=
  if direct : bn < ndirect then some (.direct ⟨bn, direct⟩)
  else if inside : bn - ndirect < nindirect then some (.entry ⟨bn - ndirect, inside⟩)
  else none

def index : Place → Option Nat
  | .direct k => some k
  | .indirect => none
  | .entry j => some (ndirect + j)

variable {bn : Nat} {p : Place}

theorem index_of_block (found : block bn = some p) : p.index = some bn := by
  unfold block at found
  split at found
  next =>
    cases found
    rfl
  next above =>
    split at found
    next =>
      cases found
      exact congrArg some (Nat.add_sub_cancel' (Nat.le_of_not_lt above))
    next => cases found

theorem block_injective {bn' : Nat} (found : block bn = some p) (also : block bn' = some p) :
    bn = bn' :=
  Option.some.inj ((index_of_block found).symm.trans (index_of_block also))

theorem block_ne_indirect (found : block bn = some p) : p ≠ .indirect := by
  rintro rfl
  exact absurd (index_of_block found).symm (Option.some_ne_none bn)

theorem exists_block (inside : bn < maxfile) : ∃ p, block bn = some p := by
  have total : maxfile = ndirect + nindirect := rfl
  unfold block
  split
  next => exact ⟨_, rfl⟩
  next =>
    split
    next => exact ⟨_, rfl⟩
    next => omega

end Place

def address (disk : Nat → Block) (d : Dinode) : Place → UInt32
  | .direct k => d.addrs k.castSucc
  | .indirect => d.addrs (Fin.last ndirect)
  | .entry j =>
    if d.addrs (Fin.last ndirect) = 0 then 0
    else getWord (disk (d.addrs (Fin.last ndirect)).toNat) j

theorem address_slot (disk : Nat → Block) (d : Dinode) (k : Fin (ndirect + 1)) :
    address disk d (.slot k) = d.addrs k := by
  unfold Place.slot
  split
  next => rfl
  next above =>
    have last : k = Fin.last ndirect := by
      apply Fin.ext
      have bound := k.isLt
      simp only [Fin.val_last]
      omega
    rw [last]
    rfl

@[simp] theorem address_slot_setAddr (disk : Nat → Block) (d : Dinode)
    (k : Fin (ndirect + 1)) (addr : UInt32) :
    address disk (d.setAddr k addr) (.slot k) = addr := by
  rw [address_slot]
  exact update_self ..

theorem address_slot_setAddr_of_ne (disk : Nat → Block) (d : Dinode)
    {k k' : Fin (ndirect + 1)} (distinct : Place.slot k' ≠ .slot k) (addr : UInt32) :
    address disk (d.setAddr k addr) (.slot k') = address disk d (.slot k') := by
  rw [address_slot, address_slot]
  apply update_of_ne
  rintro rfl
  exact distinct rfl

theorem address_entry (disk : Nat → Block) (d : Dinode) (e : Fin nindirect) :
    address disk d (.entry e) =
      if d.addrs (Fin.last ndirect) = 0 then 0
      else getWord (disk (d.addrs (Fin.last ndirect)).toNat) e := rfl

variable {d : Dinode}

theorem address_congr {d' : Dinode} (addrs : d'.addrs = d.addrs) (disk : Nat → Block) (p : Place) :
    address disk d' p = address disk d p := by
  cases p with
  | direct k | indirect => exact congrFun addrs _
  | entry e => rw [address_entry, address_entry, addrs]

theorem address_of_agree {disk disk' : Nat → Block} (agree : address disk d .indirect ≠ 0 →
      disk' (address disk d .indirect).toNat = disk (address disk d .indirect).toNat) (p : Place) :
    address disk' d p = address disk d p := by
  cases p with
  | direct k | indirect => rfl
  | entry j =>
    rw [address_entry, address_entry]
    split
    next => rfl
    next nonzero => exact congrArg (getWord · j) (agree nonzero)

namespace Superblock

section

variable (sb : Superblock)

/-- The inodes of the disk; past the last there is none. -/
def table (disk : Nat → Block) (i : Nat) : Dinode :=
  if i < sb.ninodes then sb.dinode disk i else .fresh 0

def Live (table : Nat → Dinode) (i : Nat) : Prop :=
  0 < i ∧ i < sb.ninodes ∧ (table i).type ≠ 0

instance (table : Nat → Dinode) (i : Nat) : Decidable (sb.Live table i) :=
  inferInstanceAs (Decidable (_ ∧ _ ∧ _))

/-- The block that an allocated inode refers to from a place. -/
def owns (disk : Nat → Block) (table : Nat → Dinode) (h : Nat × Place) : Option Nat :=
  if sb.Live table h.1 ∧ address disk (table h.1) h.2 ≠ 0 then
    some (address disk (table h.1) h.2).toNat
  else none

def marked (disk : Nat → Block) (b : Nat) : Bool :=
  decide (b < sb.size) && getBit (disk (sb.bblock b)) (b % bpb)

/-- No block is shared, the bitmap marks the blocks in use, and no inode has a
hole. -/
structure Kept (disk : Nat → Block) (table : Nat → Dinode) : Prop where
  accounted : Accounted (· < sb.nmeta) (sb.marked disk) (sb.owns disk table)
  mapped : ∀ i, sb.Live table i → ∀ bn, bsize * bn < (table i).size.toNat →
    ∃ p, Place.block bn = some p ∧ sb.owns disk table (i, p) ≠ none

def byte (disk : Nat → Block) (table : Nat → Dinode) (i off : Nat) : UInt8 :=
  match (Place.block (off / bsize)).bind fun p => sb.owns disk table (i, p) with
  | some r => byteAt (disk r) (off % bsize)
  | none => 0

end

section

variable {sb : Superblock} {b i : Nat} {disk disk' : Nat → Block} {p : Place} {table : Nat → Dinode}

theorem bblock_lt (inside : b < sb.size) : sb.bblock b < sb.nmeta := by
  have quotient := Nat.div_le_div_right (c := bpb) inside.le
  unfold bblock nmeta
  omega

theorem bmapstart_le_bblock (sb : Superblock) (b : Nat) : sb.bmapstart ≤ sb.bblock b :=
  Nat.le_add_left ..

theorem iblock_lt (inside : i < sb.ninodes) : sb.iblock i < sb.bmapstart := by
  have quotient := Nat.div_le_div_right (c := ipb) inside.le
  have before := sb.inodes
  unfold iblock
  omega

theorem bmapstart_le_nmeta (sb : Superblock) : sb.bmapstart ≤ sb.nmeta := Nat.le_add_right ..

theorem size_lt : sb.size < 2 ^ 32 := Nat.lt_of_le_of_lt sb.attached (by decide)

theorem owns_eq_some {r : Nat} :
    sb.owns disk table (i, p) = some r ↔
      sb.Live table i ∧ address disk (table i) p ≠ 0 ∧
        (address disk (table i) p).toNat = r := by
  unfold owns
  split
  next both => simp [both]
  next neither =>
    constructor
    · intro none
      cases none
    · rintro ⟨live, nonzero, _⟩
      exact absurd ⟨live, nonzero⟩ neither

theorem owns_eq_none_of_address (zero : address disk (table i) p = 0) :
    sb.owns disk table (i, p) = none := by
  simp [owns, zero]

theorem address_eq_zero (live : sb.Live table i) (vacant : sb.owns disk table (i, p) = none) :
    address disk (table i) p = 0 := by
  by_contra nonzero
  rw [owns, if_pos ⟨live, nonzero⟩] at vacant
  exact Option.some_ne_none _ vacant

theorem table_of_agree (agree : ∀ b < sb.bmapstart, disk' b = disk b) :
    sb.table disk' = sb.table disk := by
  funext i
  unfold table
  split
  next inside => rw [dinode, dinode, agree _ (iblock_lt inside)]
  next => rfl

theorem marked_of_agree (agree : ∀ b, sb.bmapstart ≤ b → b < sb.nmeta → disk' b = disk b) :
    sb.marked disk' = sb.marked disk := by
  funext b
  unfold marked
  by_cases inside : b < sb.size
  · rw [agree _ (bmapstart_le_bblock sb b) (bblock_lt inside)]
  · simp [inside]

theorem owns_congr {table' : Nat → Dinode} {h : Nat × Place}
    (live : sb.Live table' h.1 ↔ sb.Live table h.1)
    (same : sb.Live table h.1 → address disk' (table' h.1) h.2 = address disk (table h.1) h.2) :
    sb.owns disk' table' h = sb.owns disk table h := by
  unfold owns
  by_cases alive : sb.Live table h.1
  · simp only [live, same alive]
  · simp only [live, alive, false_and, if_false]

theorem owns_of_agree
    (agree : ∀ i r, sb.owns disk table (i, .indirect) = some r → disk' r = disk r) :
    sb.owns disk' table = sb.owns disk table := by
  funext ⟨i, p⟩
  apply owns_congr Iff.rfl
  intro live
  apply address_of_agree
  intro nonzero
  exact agree i _ (owns_eq_some.mpr ⟨live, nonzero, rfl⟩)

theorem owns_update {d : Dinode} (addrs : d.addrs = (table i).addrs)
    (type : d.type = 0 ↔ (table i).type = 0) :
    sb.owns disk (update table i d) = sb.owns disk table := by
  funext ⟨j, p⟩
  by_cases same : j = i
  · subst same
    apply owns_congr
    · simp only [Live, update_self, ne_eq, type]
    · intro _
      rw [update_self]
      exact address_congr addrs disk p
  · apply owns_congr
    · simp only [Live, update_of_ne same]
    · intro _
      rw [update_of_ne same]

namespace Kept

variable {disk disk' : Nat → Block} {table table' : Nat → Dinode} (kept : sb.Kept disk table)

include kept

variable {h : Nat × Place} {r : Nat}

theorem nmeta_le (owned : sb.owns disk table h = some r) : sb.nmeta ≤ r :=
  Nat.le_of_not_lt (kept.accounted.apart owned)

theorem lt_size (owned : sb.owns disk table h = some r) : r < sb.size := by
  have taken := kept.accounted.marked_of_owns owned
  simp only [marked, Bool.and_eq_true, decide_eq_true_eq] at taken
  exact taken.1

theorem congr (marks : sb.marked disk' = sb.marked disk)
    (owners : sb.owns disk' table' = sb.owns disk table)
    (live : ∀ i, sb.Live table' i → sb.Live table i ∧ (table' i).size = (table i).size) :
    sb.Kept disk' table' where
  accounted := by
    rw [marks, owners]
    exact kept.accounted
  mapped := by
    intro i alive bn below
    obtain ⟨lives, size⟩ := live i alive
    rw [size] at below
    rw [owners]
    exact kept.mapped i lives bn below

theorem claim {i b : Nat} {p : Place} (vacant : sb.owns disk table (i, p) = none)
    (free : sb.marked disk b = false)
    (marks : sb.marked disk' = update (sb.marked disk) b true)
    (owners : sb.owns disk' table' = update (sb.owns disk table) (i, p) (some b))
    (live : ∀ i, sb.Live table' i → sb.Live table i ∧ (table' i).size = (table i).size) :
    sb.Kept disk' table' where
  accounted := by
    rw [marks, owners]
    exact kept.accounted.claim vacant free
  mapped := by
    intro j alive bn below
    obtain ⟨lives, size⟩ := live j alive
    rw [size] at below
    obtain ⟨q, place, owned⟩ := kept.mapped j lives bn below
    refine ⟨q, place, ?_⟩
    rw [owners, update_apply]
    split
    next => exact Option.some_ne_none b
    next => exact owned

end Kept

theorem eq_of_iblock {j : Nat} (block : sb.iblock i = sb.iblock j) (position : i % ipb = j % ipb) :
    i = j := by
  have quotient : i / ipb = j / ipb := Nat.add_right_cancel block
  rw [← Nat.div_add_mod i ipb, ← Nat.div_add_mod j ipb, quotient, position]

theorem table_store (inside : i < sb.ninodes) (d : Dinode) :
    sb.table (update disk (sb.iblock i)
        (d.store (disk (sb.iblock i)) (i % ipb))) =
      update (sb.table disk) i d := by
  have position : i % ipb < ipb := Nat.mod_lt _ (by decide)
  funext j
  by_cases same : j = i
  · subst same
    rw [update_self, table, if_pos inside, dinode, update_self,
      Dinode.load_store position]
  · rw [update_of_ne same]
    unfold table
    split
    next =>
      unfold dinode
      by_cases block : sb.iblock j = sb.iblock i
      · have distinct : j % ipb ≠ i % ipb := fun equal => same (eq_of_iblock block equal)
        rw [block, update_self, Dinode.load_store_of_ne distinct]
      · rw [update_of_ne block]
    next => rfl

structure Taken (sb : Superblock) (disk disk' : Nat → Block) (b : Nat) : Prop where
  free : sb.marked disk b = false
  data : sb.nmeta ≤ b
  inside : b < sb.size
  marks : sb.marked disk' = Function.update (sb.marked disk) b true
  zero : disk' b = fun _ => 0
  others : ∀ r, sb.nmeta ≤ r → r ≠ b → disk' r = disk r
  table : sb.table disk' = sb.table disk

structure Freed (sb : Superblock) (disk disk' : Nat → Block) (b : Nat) : Prop where
  marks : sb.marked disk' = Function.update (sb.marked disk) b false
  others : ∀ r, sb.nmeta ≤ r → disk' r = disk r
  table : sb.table disk' = sb.table disk

theorem bit_inside (b : Nat) : b % bpb / 8 < bsize := by
  have bound : b % bpb < bpb := Nat.mod_lt _ (by decide)
  change _ < 4096 at bound
  change _ < 512
  omega

theorem eq_of_bit {b' : Nat} (block : sb.bblock b = sb.bblock b') (bit : b % bpb = b' % bpb) :
    b = b' := by
  have quotient : b / bpb = b' / bpb := Nat.add_right_cancel block
  rw [← Nat.div_add_mod b bpb, ← Nat.div_add_mod b' bpb, quotient, bit]

theorem marked_setBit (inside : b < sb.size) :
    sb.marked (update disk (sb.bblock b)
        (setBit (disk (sb.bblock b)) (b % bpb))) =
      update (sb.marked disk) b true := by
  funext b'
  by_cases same : b' = b
  · subst same
    rw [update_self, marked, update_self, getBit_setBit (bit_inside b')]
    simp [inside]
  · rw [update_of_ne same]
    unfold marked
    by_cases block : sb.bblock b' = sb.bblock b
    · have bit : b' % bpb ≠ b % bpb := fun equal => same (eq_of_bit block equal)
      rw [block, update_self, getBit_setBit (bit_inside b)]
      simp [bit]
    · rw [update_of_ne block]

theorem marked_clearBit :
    sb.marked (update disk (sb.bblock b)
        (clearBit (disk (sb.bblock b)) (b % bpb))) =
      update (sb.marked disk) b false := by
  funext b'
  by_cases same : b' = b
  · subst same
    rw [update_self, marked, update_self, getBit_clearBit (bit_inside b')]
    simp
  · rw [update_of_ne same]
    unfold marked
    by_cases block : sb.bblock b' = sb.bblock b
    · have bit : b' % bpb ≠ b % bpb := fun equal => same (eq_of_bit block equal)
      rw [block, update_self, getBit_clearBit (bit_inside b)]
      simp [bit]
    · rw [update_of_ne block]

theorem taken_update (data : sb.nmeta ≤ b) (inside : b < sb.size)
    (free : sb.marked disk b = false) :
    sb.Taken disk (update (update disk (sb.bblock b)
      (setBit (disk (sb.bblock b)) (b % bpb))) b fun _ => 0) b where
  free := free
  data := data
  inside := inside
  marks := by
    rw [← marked_setBit inside]
    apply marked_of_agree
    intro r _ below
    exact update_of_ne (by omega) _ _
  zero := update_self ..
  others := by
    intro r above distinct
    have bitmap := bblock_lt inside
    rw [update_of_ne distinct, update_of_ne (by omega)]
  table := by
    apply table_of_agree
    intro r below
    have bitmap := bmapstart_le_bblock sb b
    have limit := bmapstart_le_nmeta sb
    rw [update_of_ne (by omega), update_of_ne (by omega)]

theorem freed_update (inside : b < sb.size) :
    sb.Freed disk (update disk (sb.bblock b)
      (clearBit (disk (sb.bblock b)) (b % bpb))) b where
  marks := marked_clearBit
  others := by
    intro r above
    have bitmap := bblock_lt inside
    exact update_of_ne (by omega) _ _
  table := by
    apply table_of_agree
    intro r below
    have bitmap := bmapstart_le_bblock sb b
    exact update_of_ne (by omega) _ _

end

end Superblock

end StraceXv6.Kernel
