import Mathlib.Order.Interval.Finset.Nat
import StraceXv6.Kernel.Fs.Image

namespace StraceXv6.Kernel.Fs

open List Data Data.Command

/-! Writing to an open file.  Every turn of the loop is a transaction. -/

structure File where
  ref : Nat
  readable : Bool
  writable : Bool
  ip : Fin ninode
  off : UInt32

def filewriteMax : Nat := (logsize - 1 - 1 - 2) / 2 * 512

def beginOp : FsM Unit := modify fun fs => { fs with logged := [] }

/-- The blocks that were logged since `begin_op`. -/
def endOp : FsM (List Nat) := do
  return (← get).logged

section

variable (sb : Superblock)

def filewriteTurn (device : Int16 → Option Int32) (ip : Fin ninode) (src : Nat → UInt8)
    (off n : UInt32) : FsM (Int32 × List Nat) := do
  beginOp
  ilock sb ip
  let r ← writei sb device ip src off n
  iunlock ip
  return (r, ← endOp)

/-- Each turn writes at least one byte, so that `n` turns are enough.  Returns the
bytes written, the offset and the transactions. -/
def filewriteLoop (device : Nat → Int16 → Option Int32) (ip : Fin ninode) (src : Nat → UInt8)
    (n : Nat) : Nat → Nat → UInt32 → FsM (Nat × UInt32 × List (List Nat))
  | 0, i, off => pure (i, off, [])
  | turns + 1, i, off =>
    if i < n then do
      let n1 := min (n - i) filewriteMax
      let (r, logged) ← filewriteTurn sb (device i) ip (fun k => src (i + k)) off
        (UInt32.ofNat n1)
      let off := if 0 < r then off + r.toUInt32 else off
      if r < 0 then return (i, off, [logged])
      else if r ≠ (UInt32.ofNat n1).toInt32 then throw .shortFilewrite
      else do
        let (i, off, rest) ← filewriteLoop device ip src n turns (i + n1) off
        return (i, off, logged :: rest)
    else return (i, off, [])

def filewrite (device : Nat → Int16 → Option Int32) (f : File) (src : Nat → UInt8)
    (n : Int32) : FsM (Int32 × File × List (List Nat)) := do
  if !f.writable then return (-1, f, [])
  else do
    let count := n.toInt.toNat
    let (i, off, transactions) ← filewriteLoop sb device f.ip src count count 0 f.off
    return (if (i : Int) = n.toInt then n else -1, { f with off := off }, transactions)

def overlapped (off n : Nat) : Finset Nat :=
  Finset.Ico (off / bsize) ((off + n - 1) / bsize + 1)

def newBlock (disk : Nat → Block) (table : Nat → Dinode) (i bn : Nat) : Bool :=
  ((Place.block bn).bind fun p => sb.owns disk table (i, p)).isNone

/-- The data blocks, the bitmap block, the indirect block and the inode block that a
write changes. -/
def changedBlocks (disk : Nat → Block) (table : Nat → Dinode) (i off n : Nat) : Nat :=
  (overlapped off n).card
    + (if ∃ bn ∈ overlapped off n, newBlock sb disk table i bn = true then 1 else 0)
    + (if ∃ bn ∈ overlapped off n, ndirect ≤ bn ∧ newBlock sb disk table i bn = true
        then 1 else 0)
    + if (table i).size.toNat < off + n then 1 else 0

end

section

variable {sb : Superblock} {fs fs' : Fs} {ip : Fin ninode} {off n bn : Nat} {p : Place}

theorem mem_overlapped (positive : 0 < n) :
    bn ∈ overlapped off n ↔ ∃ o, off ≤ o ∧ o < off + n ∧ o / bsize = bn := by
  rw [overlapped, Finset.mem_Ico]
  change off / 512 ≤ bn ∧ bn < (off + n - 1) / 512 + 1 ↔ ∃ o, off ≤ o ∧ o < off + n ∧ o / 512 = bn
  constructor
  · rintro ⟨above, below⟩
    exact ⟨max off (512 * bn), by omega, by omega, by omega⟩
  · rintro ⟨o, above, below, rfl⟩
    omega

theorem touches_iff (positive : 0 < n) :
    Touches off n p ↔ ∃ bn ∈ overlapped off n, Place.block bn = some p := by
  constructor
  · rintro ⟨o, above, below, place⟩
    exact ⟨_, (mem_overlapped positive).mpr ⟨o, above, below, rfl⟩, place⟩
  · rintro ⟨bn, member, place⟩
    obtain ⟨o, above, below, rfl⟩ := (mem_overlapped positive).mp member
    exact ⟨o, above, below, place⟩

theorem le_card_overlapped (off : Nat) : maxopblocks < (overlapped off filewriteMax).card := by
  rw [overlapped, Nat.card_Ico]
  change 10 < (off + 6656 - 1) / 512 + 1 - off / 512
  omega

theorem card_insert_if {c : Prop} [Decidable c] {s : Finset Nat} {b : Nat}
    (outside : c → b ∉ s) :
    (if c then insert b s else s).card = s.card + if c then 1 else 0 := by
  split
  next holds => rw [Finset.card_insert_of_notMem (outside holds)]
  next => rw [Nat.add_zero]

theorem card_toFinset_of_members {added : List Nat} {data : Finset Nat} {new far : Prop}
    [Decidable new] [Decidable far] {map : Nat} {indirect : Option Nat}
    (members : ∀ b, b ∈ added ↔ b ∈ data ∨ (b = map ∧ new) ∨ (indirect = some b ∧ far))
    (named : far → ∃ r, indirect = some r) (outside : map ∉ data)
    (apart : ∀ r, indirect = some r → r ∉ data ∧ r ≠ map) :
    added.toFinset.card =
      data.card + (if new then 1 else 0) + if far then 1 else 0 := by
  have whole : added.toFinset =
      if far then insert (indirect.getD 0) (if new then insert map data else data)
      else if new then insert map data else data := by
    ext b
    rw [mem_toFinset, members]
    by_cases distant : far
    · obtain ⟨r, rfl⟩ := named distant
      by_cases fresh : new
      · simp only [distant, fresh, if_true, Finset.mem_insert, Option.getD_some,
          Option.some.injEq, and_true]
        grind
      · simp only [distant, fresh, if_true, if_false, Finset.mem_insert, Option.getD_some,
          Option.some.injEq, and_true, and_false, false_or]
        grind
    · by_cases fresh : new
      · simp only [distant, fresh, if_true, if_false, Finset.mem_insert, and_true, and_false,
          or_false]
        exact or_comm
      · simp only [distant, fresh, if_false, and_false, or_false]
  rw [whole, card_insert_if, card_insert_if fun _ => outside]
  intro distant
  obtain ⟨r, rfl⟩ := named distant
  obtain ⟨notData, notMap⟩ := apart r rfl
  rw [Option.getD_some]
  split
  next => rw [Finset.mem_insert, not_or]; exact ⟨notMap, notData⟩
  next => exact notData

theorem newBlock_iff {disk : Nat → Block} {table : Nat → Dinode} {i : Nat}
    (place : Place.block bn = some p) :
    newBlock sb disk table i bn = true ↔ sb.owns disk table (i, p) = none := by
  rw [newBlock, place, Option.bind_some, Option.isNone_iff_eq_none]

namespace Wrote

variable {src : Nat → UInt8} (wrote : Wrote sb ip src off n fs fs')

include wrote

theorem exists_owner (positive : 0 < n) {bn : Nat} (member : bn ∈ overlapped off n) :
    ∃ p r, Place.block bn = some p ∧
      sb.owns fs'.disk (working sb fs' ip) ((fs.icache ip).inum, p) = some r := by
  obtain ⟨o, above, below, rfl⟩ := (mem_overlapped positive).mp member
  obtain ⟨p, r, place, owned, _⟩ := wrote.written o above below
  exact ⟨p, r, place, owned⟩

theorem exists_data (positive : 0 < n) :
    ∃ data : Finset Nat, data.card = (overlapped off n).card ∧ ∀ b, b ∈ data ↔
      ∃ p, Touches off n p ∧
        sb.owns fs'.disk (working sb fs' ip) ((fs.icache ip).inum, p) = some b := by
  let owner : Nat → Nat := fun bn => ((Place.block bn).bind fun p =>
    sb.owns fs'.disk (working sb fs' ip) ((fs.icache ip).inum, p)).getD 0
  have found : ∀ {bn p r}, Place.block bn = some p →
      sb.owns fs'.disk (working sb fs' ip) ((fs.icache ip).inum, p) = some r →
      owner bn = r := by
    intro bn p r place owned
    simp only [owner, place, Option.bind_some, owned, Option.getD_some]
  refine ⟨(overlapped off n).image owner, Finset.card_image_of_injOn ?_, ?_⟩
  · intro bn first bn' second equal
    obtain ⟨p, r, place, owned⟩ := wrote.exists_owner positive first
    obtain ⟨p', r', place', owned'⟩ := wrote.exists_owner positive second
    have same : r = r' := by
      rw [← found place owned, ← found place' owned']
      exact equal
    subst same
    obtain rfl : p = p' :=
      congrArg Prod.snd (wrote.opened.kept.accounted.alone owned owned')
    exact Place.block_injective place place'
  · intro b
    rw [Finset.mem_image]
    constructor
    · rintro ⟨bn, member, rfl⟩
      obtain ⟨p, r, place, owned⟩ := wrote.exists_owner positive member
      refine ⟨p, (touches_iff positive).mpr ⟨bn, member, place⟩, ?_⟩
      rw [found place owned]
      exact owned
    · rintro ⟨p, touches, owned⟩
      obtain ⟨bn, member, place⟩ := (touches_iff positive).mp touches
      exact ⟨bn, member, found place owned⟩

theorem exists_new_iff (positive : 0 < n) :
    (∃ bn ∈ overlapped off n,
        newBlock sb fs.disk (working sb fs ip) (fs.icache ip).inum bn = true) ↔
      ∃ p, Touches off n p ∧
        sb.owns fs.disk (working sb fs ip) ((fs.icache ip).inum, p) = none := by
  constructor
  · rintro ⟨bn, member, new⟩
    obtain ⟨p, _, place, _⟩ := wrote.exists_owner positive member
    exact ⟨p, (touches_iff positive).mpr ⟨bn, member, place⟩, (newBlock_iff place).mp new⟩
  · rintro ⟨p, touches, vacant⟩
    obtain ⟨bn, member, place⟩ := (touches_iff positive).mp touches
    exact ⟨bn, member, (newBlock_iff place).mpr vacant⟩

theorem exists_new_entry_iff (positive : 0 < n) :
    (∃ bn ∈ overlapped off n, ndirect ≤ bn ∧
        newBlock sb fs.disk (working sb fs ip) (fs.icache ip).inum bn = true) ↔
      ∃ e, Touches off n (.entry e) ∧
        sb.owns fs.disk (working sb fs ip) ((fs.icache ip).inum, .entry e) = none := by
  constructor
  · rintro ⟨bn, member, far, new⟩
    obtain ⟨p, _, place, _⟩ := wrote.exists_owner positive member
    have touches := (touches_iff positive).mpr ⟨bn, member, place⟩
    have vacant := (newBlock_iff place).mp new
    have named := Place.index_of_block place
    cases p with
    | direct k =>
      have inside := k.isLt
      have same : k.val = bn := Option.some.inj named
      omega
    | indirect => cases named
    | entry e => exact ⟨e, touches, vacant⟩
  · rintro ⟨e, touches, vacant⟩
    obtain ⟨bn, member, place⟩ := (touches_iff positive).mp touches
    have named : ndirect + e.val = bn := Option.some.inj (Place.index_of_block place)
    exact ⟨bn, member, by omega, (newBlock_iff place).mpr vacant⟩

theorem owns_indirect_of_new (positive : 0 < n)
    (new : ∃ bn ∈ overlapped off n, ndirect ≤ bn ∧
      newBlock sb fs.disk (working sb fs ip) (fs.icache ip).inum bn = true) :
    ∃ r, sb.owns fs'.disk (working sb fs' ip) ((fs.icache ip).inum, .indirect) = some r := by
  obtain ⟨e, touches, _⟩ := (wrote.exists_new_entry_iff positive).mp new
  obtain ⟨bn, member, place⟩ := (touches_iff positive).mp touches
  obtain ⟨p, r, place', owned⟩ := wrote.exists_owner positive member
  obtain rfl := Option.some.inj (place.symm.trans place')
  exact owns_indirect_of_entry owned

theorem card_logged (positive : 0 < n) (started : fs.logged = []) :
    fs'.logged.toFinset.card = (overlapped off n).card
      + (if ∃ bn ∈ overlapped off n,
          newBlock sb fs.disk (working sb fs ip) (fs.icache ip).inum bn = true then 1 else 0)
      + (if ∃ bn ∈ overlapped off n, ndirect ≤ bn ∧
          newBlock sb fs.disk (working sb fs ip) (fs.icache ip).inum bn = true
        then 1 else 0) ∧
      ∀ b ∈ fs'.logged, sb.bmapstart ≤ b := by
  obtain ⟨added, logged, members⟩ := wrote.logged
  obtain ⟨data, card, owned⟩ := wrote.exists_data positive
  have named := wrote.owns_indirect_of_new positive
  have kept := wrote.opened.kept
  have limit : sb.bmapstart < sb.nmeta := Nat.lt_add_of_pos_right (Nat.succ_pos _)
  have above : ∀ b ∈ data, sb.nmeta ≤ b := by
    intro b member
    obtain ⟨p, _, holds⟩ := (owned b).mp member
    exact kept.nmeta_le holds
  rw [started, nil_append] at logged
  rw [logged]
  simp only [← wrote.exists_new_iff positive, ← wrote.exists_new_entry_iff positive,
    ← owned] at members
  constructor
  · rw [← card]
    apply card_toFinset_of_members members named
    · exact fun member => absurd (above _ member) (Nat.not_le_of_lt limit)
    · intro r indirect
      have large := kept.nmeta_le indirect
      refine ⟨?_, by omega⟩
      intro member
      obtain ⟨p, ⟨o, _, _, place⟩, holds⟩ := (owned r).mp member
      exact Place.block_ne_indirect place
        (congrArg Prod.snd (kept.accounted.alone holds indirect))
  · intro b member
    rcases (members b).mp member with isData | ⟨rfl, _⟩ | ⟨indirect, _⟩
    · exact limit.le.trans (above b isData)
    · exact Nat.le_refl _
    · exact limit.le.trans (kept.nmeta_le indirect)

end Wrote

end

section

variable {sb : Superblock} {fs fs' : Fs} {ip : Fin ninode} {held : Multiset (Fin ninode)}
  {locked : Finset (Fin ninode)}

theorem ilock_logged :
    Ensures (ilock sb ip) fs (fun _ fs' => fs'.logged = fs.logged) (fun _ => True) := by
  unfold ilock getInode modifyInode
  simp only [ensures_bind, ensures_get, ensures_pure]
  split
  next => exact trivial
  next =>
    split
    next => exact trivial
    next =>
      split
      next => exact rfl
      next =>
        simp only [ensures_bind, ensures_get, ensures_modify]
        split
        next => exact trivial
        next => exact rfl

theorem iunlock_logged :
    Ensures (iunlock ip) fs (fun _ fs' => fs'.logged = fs.logged) (fun _ => True) := by
  unfold iunlock getInode modifyInode
  simp only [ensures_bind, ensures_get, ensures_pure]
  split
  next => exact trivial
  next => exact rfl

variable {off : UInt32} {src : Nat → UInt8} {device : Nat → Int16 → Option Int32} {n turns : Nat}

theorem writei_logged {device : Int16 → Option Int32} {n : UInt32}
    (settled : Settled sb fs held locked) (inLocked : ip ∈ locked) (positive : 0 < n.toNat)
    (started : fs.logged = [])
    (accepts : (sb.node fs.disk (fs.icache ip).inum).Accepts off.toNat n.toNat) :
    Ensures (writei sb device ip src off n) fs
      (fun _ fs' => fs'.logged.toFinset.card =
        changedBlocks sb fs.disk (sb.table fs.disk) (fs.icache ip).inum off.toNat n.toNat)
      (· = .outOfBlocks) := by
  obtain ⟨member, valid⟩ := settled.cached.opened ip inLocked
  have copied := settled.copied member valid
  have same := settled.working_eq member valid
  refine (writei_accepted (settled.opened member valid) (by rw [copied]; exact accepts.regular)
    (by rw [copied]; exact accepts.inside) accepts.fits).weaken ?_
  intro _ final written
  obtain ⟨_, middle, wrote, rest⟩ := written
  obtain ⟨card, above⟩ := wrote.card_logged positive started
  rw [same] at card
  rw [copied] at rest
  split at rest
  next larger =>
    have inum : (middle.icache ip).inum = (fs.icache ip).inum := wrote.inum
    have inside := (settled.cached.entries ip member).inside
    have outside : sb.iblock (middle.icache ip).inum ∉ middle.logged.toFinset := by
      rw [mem_toFinset, inum]
      exact fun inLog => absurd (above _ inLog) (Nat.not_le_of_lt (Superblock.iblock_lt inside))
    rw [rest.logged, toFinset_append, Finset.union_comm, toFinset_cons,
      toFinset_nil, insert_empty_eq, ← Finset.insert_eq,
      Finset.card_insert_of_notMem outside, card, changedBlocks, if_pos larger]
  next shorter =>
    rw [rest, card, changedBlocks, if_neg shorter, Nat.add_zero]

theorem filewriteTurn_ensures {device : Int16 → Option Int32} {n : UInt32}
    (settled : Settled sb fs held locked) (member : ip ∈ held) (positive : 0 < n.toNat) :
    Ensures (filewriteTurn sb device ip src off n) fs
      (fun turn fs' => Settled sb fs' held locked ∧
        (fs'.icache ip).inum = (fs.icache ip).inum ∧
        if (sb.node fs.disk (fs.icache ip).inum).Accepts off.toNat n.toNat then
          turn.1 = n.toInt32 ∧ turn.2.toFinset.card =
            changedBlocks sb fs.disk (sb.table fs.disk) (fs.icache ip).inum off.toNat n.toNat
        else fs'.disk = fs.disk ∧ turn.2 = [] ∧
          ((sb.node fs.disk (fs.icache ip).inum).type ≠ tDev → turn.1 = -1))
      (fun failure => failure = .outOfBlocks ∨ failure = .asleep ∨ failure = .noType) := by
  unfold filewriteTurn beginOp endOp
  simp only [ensures_bind, ensures_get, ensures_pure, ensures_modify]
  generalize begun : ({ fs with logged := [] } : Fs) = first
  have disk : first.disk = fs.disk := by rw [← begun]
  have icache : first.icache = fs.icache := by rw [← begun]
  have logged : first.logged = [] := by rw [← begun]
  have settled' : Settled sb first held locked := by
    refine ⟨?_, ?_⟩
    · rw [disk]
      exact settled.kept
    · rw [icache, disk]
      exact settled.cached
  refine ((ilock_ensures settled' member).and ilock_logged).mono ?_ ?_
  · rintro _ second ⟨⟨unlocked, settled, disk', keeps⟩, logged'⟩
    have inum : (second.icache ip).inum = (fs.icache ip).inum := by
      rw [(keeps ip member).1, icache]
    have disk'' : second.disk = fs.disk := disk'.trans disk
    have inLocked := Finset.mem_insert_self ip locked
    have restored : (insert ip locked).erase ip = locked := Finset.erase_insert unlocked
    rw [logged] at logged'
    split
    next accepts =>
      rw [← disk'', ← inum] at accepts ⊢
      refine ((writei_ensures settled inLocked).and
        (writei_logged settled inLocked positive logged' accepts)).mono ?_ ?_
      · rintro r third ⟨⟨_, result, settled, _, keeps'⟩ | ⟨refused, _⟩, card⟩
        · refine ((iunlock_ensures settled inLocked).and iunlock_logged).mono ?_
            fun _ failed => failed.1.elim
          rintro _ final ⟨⟨settled, _, keeps''⟩, kept⟩
          rw [restored] at settled
          rw [kept]
          exact ⟨settled, (keeps'' ip member).1.trans (keeps' ip member).1, result, card⟩
        · exact absurd accepts refused
      · exact fun failure failed => .inl failed.1
    next refuses =>
      rw [← disk'', ← inum] at refuses ⊢
      refine (writei_ensures settled inLocked).mono ?_ fun _ failed => .inl failed
      rintro r third (⟨accepts, _⟩ | ⟨_, rfl, result⟩)
      · exact absurd accepts refuses
      · refine ((iunlock_ensures settled inLocked).and iunlock_logged).mono ?_
          fun _ failed => failed.1.elim
        rintro _ final ⟨⟨settled, same, keeps''⟩, kept⟩
        rw [restored] at settled
        rw [kept]
        exact ⟨settled, (keeps'' ip member).1, same, logged', result⟩
  · rintro failure ⟨⟨asleep, _⟩ | ⟨typeless, _⟩, _⟩
    · exact .inr (.inl asleep)
    · exact .inr (.inr typeless)

def WriteFails (failure : Halt) : Prop :=
  (failure = .outOfBlocks ∨ failure = .asleep ∨ failure = .noType) ∨ failure = .shortFilewrite

theorem toNat_chunk (count : Nat) :
    (UInt32.ofNat (min count filewriteMax)).toNat = min count filewriteMax := by
  apply UInt32.toNat_ofNat_of_lt'
  exact Nat.lt_of_le_of_lt (Nat.min_le_right _ _) (by decide)

theorem chunk_pos {count : Nat} (positive : 0 < count) :
    0 < (UInt32.ofNat (min count filewriteMax)).toNat := by
  rw [toNat_chunk]
  exact Nat.lt_min.mpr ⟨positive, by decide⟩

theorem filewriteLoop_ensures {i : Nat} (settled : Settled sb fs held locked) (member : ip ∈ held) :
    Ensures (filewriteLoop sb device ip src n turns i off) fs
      (fun result _ => (sb.node fs.disk (fs.icache ip).inum).type = tDev →
        ∀ t ∈ result.2.2, t = [])
      WriteFails := by
  induction turns generalizing fs i off with
  | zero => exact fun _ t none => absurd none not_mem_nil
  | succ turns induction =>
    unfold filewriteLoop
    split
    next more =>
      refine (filewriteTurn_ensures settled member (chunk_pos (Nat.sub_pos_of_lt more))).bind ?_
        fun failure failed => .inl failed
      rintro ⟨r, logged⟩ fs' ⟨settled', inum, turn⟩
      have empty : (sb.node fs.disk (fs.icache ip).inum).type = tDev →
          fs'.disk = fs.disk ∧ logged = [] := by
        intro device
        rw [if_neg fun accepts => accepts.regular device] at turn
        exact ⟨turn.1, turn.2.1⟩
      simp only
      split
      next =>
        intro device t single
        rw [mem_singleton.mp single]
        exact (empty device).2
      next =>
        split
        next => exact .inr rfl
        next =>
          refine (induction settled').seq ?_
          rintro ⟨i', off', rest⟩ _ others device t listed
          obtain ⟨same, none⟩ := empty device
          rw [inum, same] at others
          rcases mem_cons.mp listed with rfl | listed
          · exact none
          · exact others device t listed
    next => exact fun _ t none => absurd none not_mem_nil

theorem filewriteLoop_done : filewriteLoop sb device ip src n turns n off = pure (n, off, []) := by
  cases turns with
  | zero => rfl
  | succ turns => rw [filewriteLoop, if_neg (Nat.lt_irrefl n)]

theorem chunk_not_neg (count : Nat) :
    ¬(UInt32.ofNat (min count filewriteMax)).toInt32 < 0 := by
  have small : min count filewriteMax ≤ 6656 := Nat.min_le_right _ _
  rw [Int32.lt_iff_toInt_lt, UInt32.toInt32_ofNat', Int32.toInt_ofNat_of_lt (by omega)]
  change ¬(_ : Int) < 0
  omega

theorem card_overlapped_le (sb : Superblock) (disk : Nat → Block) (table : Nat → Dinode) (i off n : Nat) :
    (overlapped off n).card ≤ changedBlocks sb disk table i off n := by
  unfold changedBlocks
  omega

theorem filewriteLoop_within_iff (settled : Settled sb fs held locked) (member : ip ∈ held)
    (positive : 0 < n) :
    Ensures (filewriteLoop sb device ip src n n 0 off) fs
      (fun result _ => (∀ transaction ∈ result.2.2, transaction.toFinset.card ≤ maxopblocks) ↔
        ((sb.node fs.disk (fs.icache ip).inum).Accepts off.toNat (min n filewriteMax) →
          changedBlocks sb fs.disk (sb.table fs.disk) (fs.icache ip).inum off.toNat
            (min n filewriteMax) ≤ maxopblocks))
      WriteFails := by
  have none : ([] : List Nat).toFinset.card ≤ maxopblocks := Nat.zero_le _
  obtain ⟨turns, rfl⟩ := Nat.exists_eq_add_one.mpr positive
  by_cases device' : (sb.node fs.disk (fs.icache ip).inum).type = tDev
  · refine (filewriteLoop_ensures settled member).weaken ?_
    intro result _ empty
    refine iff_of_true ?_ fun accepts => absurd device' accepts.regular
    intro transaction listed
    rw [empty device' transaction listed]
    exact none
  · rw [filewriteLoop, if_pos positive, Nat.sub_zero]
    refine (filewriteTurn_ensures settled member (chunk_pos positive)).bind ?_
      fun failure failed => .inl failed
    rintro ⟨r, logged⟩ fs' ⟨settled', inum, turn⟩
    rw [toNat_chunk] at turn
    simp only at turn ⊢
    split at turn
    next accepts =>
      obtain ⟨rfl, card⟩ := turn
      rw [if_neg (chunk_not_neg _), if_neg (fun differ => differ rfl), Nat.zero_add]
      by_cases small : turns + 1 ≤ filewriteMax
      · rw [Nat.min_eq_left small] at accepts card ⊢
        rw [filewriteLoop_done]
        change (∀ transaction ∈ [logged], _) ↔ _
        rw [forall_mem_singleton, card]
        exact ⟨fun within _ => within, fun within => within accepts⟩
      · rw [Nat.min_eq_right (Nat.le_of_not_le small)] at accepts card ⊢
        have large := (le_card_overlapped off.toNat).trans_le
          (card_overlapped_le sb fs.disk (sb.table fs.disk) (fs.icache ip).inum
            off.toNat filewriteMax)
        refine (filewriteLoop_ensures settled' member).seq ?_
        rintro ⟨i, off', rest⟩ _ _
        refine iff_of_false ?_ fun within => absurd (within accepts) (Nat.not_le_of_lt large)
        intro within
        have first := within logged (mem_cons_self ..)
        rw [card] at first
        exact absurd first (Nat.not_le_of_lt large)
    next refuses =>
      obtain ⟨_, rfl, result⟩ := turn
      obtain rfl := result device'
      rw [if_pos (by decide)]
      refine iff_of_true ?_ fun accepts => absurd accepts refuses
      exact fun transaction single => mem_singleton.mp single ▸ none

/-- The transactions of a write are within the limit of the log exactly if the first
one is. -/
theorem filewrite_within_maxopblocks_iff {device : Nat → Int16 → Option Int32} {f : File}
    {src : Nat → UInt8} {n : Int32} (settled : Settled sb fs held locked)
    (member : f.ip ∈ held) :
    Ensures (filewrite sb device f src n) fs
      (fun result _ => (∀ transaction ∈ result.2.2, transaction.toFinset.card ≤ maxopblocks) ↔
        (f.writable = true → 0 < n.toInt →
          (sb.node fs.disk (fs.icache f.ip).inum).Accepts f.off.toNat
            (min n.toInt.toNat filewriteMax) →
          changedBlocks sb fs.disk (sb.table fs.disk) (fs.icache f.ip).inum f.off.toNat
            (min n.toInt.toNat filewriteMax) ≤ maxopblocks))
      WriteFails := by
  have vacuous : ∀ transaction ∈ ([] : List (List Nat)),
      transaction.toFinset.card ≤ maxopblocks :=
    fun _ none => absurd none not_mem_nil
  unfold filewrite
  split
  next shut =>
    refine iff_of_true vacuous ?_
    intro writable
    rw [writable] at shut
    cases shut
  next writable =>
    rw [Bool.not_eq_true, Bool.not_eq_false'] at writable
    by_cases positive : 0 < n.toInt
    · refine (filewriteLoop_within_iff settled member (by omega)).seq ?_
      rintro ⟨i, off, transactions⟩ _ within
      exact within.trans ⟨fun fits _ _ => fits, fun fits => fits writable positive⟩
    · have zero : n.toInt.toNat = 0 := by omega
      rw [zero]
      exact iff_of_true vacuous fun _ more => absurd more positive

def smallDisk : Superblock where
  size := 64
  ninodes := 16
  inodestart := 2
  bmapstart := 5
  boots := by decide
  inodes := by decide
  bitmap := by decide
  attached := by decide

theorem roomy_smallDisk : smallDisk.Roomy := ⟨by decide, by decide⟩

def writeNewFile (sb : Superblock) (n : Int32) : FsM (List (List Nat)) := do
  match ← create sb 0 (lit "a") tFile 0 0 with
  | none => return []
  | some ip => do
    iunlock ip
    let (_, _, transactions) ← filewrite sb (fun _ _ => none) ⟨1, true, true, ip, 0⟩
      (fun _ => 97) n
    return transactions

/-- Thirteen data blocks, the bitmap block, the indirect block and the inode block. -/
theorem filewrite_exceeds_maxopblocks :
    (match writeNewFile smallDisk 6656 (booted smallDisk) with
      | .ok (transactions, _) => transactions.map fun t => t.toFinset.card
      | .error _ => []) = [16] := by
  decide +kernel

/-- Sixteen bytes after the entries of the root directory. -/
theorem filewrite_within_maxopblocks_root :
    ∃ result fs', filewrite smallDisk (fun _ _ => none) ⟨1, true, true, 0, 32⟩ (fun _ => 0) 16
        (booted smallDisk) = .ok (result, fs') ∧
      ∀ transaction ∈ result.2.2, transaction.toFinset.card ≤ maxopblocks := by
  have returns : (filewrite smallDisk (fun _ _ => none) ⟨1, true, true, 0, 32⟩ (fun _ => 0) 16
      (booted smallDisk)).toBool = true := by
    decide +kernel
  cases performed : filewrite smallDisk (fun _ _ => none) ⟨1, true, true, 0, 32⟩ (fun _ => 0) 16
      (booted smallDisk) with
  | error failure =>
    rw [performed] at returns
    cases returns
  | ok value =>
    have within := (filewrite_within_maxopblocks_iff (settled_booted roomy_smallDisk)
      (Multiset.mem_singleton_self 0)).of_ok performed
    exact ⟨value.1, value.2, rfl, within.mpr fun _ _ _ => by decide +kernel⟩

end

end StraceXv6.Kernel.Fs
