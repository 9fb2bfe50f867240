import StraceXv6.Data.Signed
import StraceXv6.Kernel.Fs.FileWrite

namespace StraceXv6.Kernel

open Option List Data Data.Command

/-! Files as arrays of bytes.  A write needs a free block for each place that it is the
first to use. -/

namespace Place

def needs : Place → Finset Place
  | .direct k => {.direct k}
  | .indirect => {.indirect}
  | .entry e => {.entry e, .indirect}

end Place

namespace Node

def content (n : Node) : List UInt8 := (List.range n.size).map n.byte

theorem length_content (n : Node) : n.content.length = n.size := by
  rw [content, length_map, length_range]

theorem content_write {n : Node} {off count : Nat} (inside : off ≤ n.size)
    (src : Nat → UInt8) :
    (n.write off count src).content =
      n.content.take off ++ (List.range count).map src ++ n.content.drop (off + count) := by
  have size : (n.write off count src).size = max n.size (off + count) := by
    change (if count = 0 then n.size else max n.size (off + count)) = _
    split
    next none => rw [none, Nat.add_zero, Nat.max_eq_left inside]
    next => rfl
  apply ext_getElem
  · simp only [length_content, size, length_append, length_take, length_map,
      length_range, length_drop]
    omega
  · intro k first second
    rw [length_content, size] at first
    simp only [content, getElem_map, getElem_range, getElem_append,
      length_append, length_take, length_map, length_range,
      getElem_take, getElem_drop, write]
    grind

theorem read_eq (n : Node) (off count : Nat) :
    n.read off count = (n.content.take (off + count)).drop off := by
  apply ext_getElem
  · simp only [read, content, length_map, length_range, length_drop,
      length_take]
    omega
  · intro k first second
    simp only [read, content, getElem_map, getElem_range, getElem_take,
      getElem_drop]

end Node

def Superblock.spare (sb : Superblock) (disk : Nat → Block) : Finset Nat :=
  (Finset.range sb.size).filter fun b => sb.marked disk b = false

theorem Superblock.Taken.card_spare {sb : Superblock} {disk disk' : Nat → Block} {b : Nat}
    (taken : sb.Taken disk disk' b) : (sb.spare disk').card + 1 = (sb.spare disk).card := by
  have member : b ∈ sb.spare disk :=
    Finset.mem_filter.mpr ⟨Finset.mem_range.mpr taken.inside, taken.free⟩
  have rest : sb.spare disk' = (sb.spare disk).erase b := by
    ext c
    rw [spare, spare, Finset.mem_erase, Finset.mem_filter, Finset.mem_filter, taken.marks]
    by_cases same : c = b
    · subst same
      simp
    · simp [same]
  rw [rest, Finset.card_erase_add_one member]

namespace Fs

section

variable {sb : Superblock} {fs fs' : Fs} {ip : Fin ninode}

theorem balloc_succeeds (room : 0 < (sb.spare fs.disk).card) :
    Ensures (balloc sb) fs (fun _ _ => True) (fun _ => False) := by
  obtain ⟨b, member⟩ := Finset.card_pos.mp room
  rw [Superblock.spare, Finset.mem_filter, Finset.mem_range] at member
  obtain ⟨inside, free⟩ := member
  rw [Superblock.marked, decide_eq_true inside, Bool.true_and] at free
  unfold balloc
  simp only [ensures_bind, ensures_get]
  split
  next missing =>
    have taken := List.find?_eq_none.mp missing b (mem_range.mpr inside)
    simp [free] at taken
  next => exact trivial

theorem balloc_room {table : Nat → Dinode} (kept : sb.Kept fs.disk table)
    (room : 0 < (sb.spare fs.disk).card) :
    Ensures (balloc sb) fs
      (fun _ fs' => (sb.spare fs'.disk).card + 1 = (sb.spare fs.disk).card)
      (fun _ => False) := by
  refine ((balloc_ensures kept).and (balloc_succeeds room)).mono ?_ fun _ failed => failed.2
  rintro _ _ ⟨⟨taken, _⟩, _⟩
  exact taken.card_spare

theorem spare_putBlock {r : Nat} (above : sb.nmeta ≤ r) (data : Block) :
    sb.spare (fs.putBlock r data).disk = sb.spare fs.disk := by
  have marks : sb.marked (fs.putBlock r data).disk = sb.marked fs.disk := by
    apply Superblock.marked_of_agree
    intro b _ below
    exact Function.update_of_ne (by omega) _ _
  unfold Superblock.spare
  rw [marks]

theorem mapAddr_room (opened : Opened sb fs ip) (k : Fin (ndirect + 1))
    (room : (fs.icache ip).addrs k = 0 → 0 < (sb.spare fs.disk).card) :
    Ensures (mapAddr sb ip k) fs
      (fun _ fs' => (sb.spare fs'.disk).card + (if (fs.icache ip).addrs k = 0 then 1 else 0) =
        (sb.spare fs.disk).card)
      (fun _ => False) := by
  unfold mapAddr getInode
  simp only [ensures_bind, ensures_get, ensures_pure]
  split
  next zero =>
    refine (balloc_room opened.kept (room zero)).seq ?_
    intro addr next spent
    simp only [modifyInode, ensures_bind, ensures_modify, ensures_pure, disk_putInode]
    exact spent
  next => exact Nat.add_zero _

variable (sb) in
def vacant (fs : Fs) (ip : Fin ninode) (places : Finset Place) : Finset Place :=
  places.filter fun p => sb.owns fs.disk (working sb fs ip) ((fs.icache ip).inum, p) = none

theorem vacant_slot (opened : Opened sb fs ip) (k : Fin (ndirect + 1)) :
    sb.owns fs.disk (working sb fs ip) ((fs.icache ip).inum, .slot k) = none ↔
      (fs.icache ip).addrs k = 0 := by
  constructor
  · intro empty
    have zero := Superblock.address_eq_zero opened.live empty
    rwa [address_slot, working_inum] at zero
  · intro zero
    apply Superblock.owns_eq_none_of_address
    rw [address_slot, working_inum]
    exact zero

theorem card_vacant_direct (opened : Opened sb fs ip) (k : Fin ndirect) :
    (vacant sb fs ip (Place.direct k).needs).card =
      if (fs.icache ip).addrs k.castSucc = 0 then 1 else 0 := by
  have slot := vacant_slot opened k.castSucc
  rw [Place.slot_castSucc] at slot
  simp only [vacant, Place.needs, Finset.filter_singleton, slot]
  split
  next => rfl
  next => rfl

theorem card_vacant_entry (opened : Opened sb fs ip) (e : Fin nindirect) :
    (vacant sb fs ip (Place.entry e).needs).card =
      (if (fs.icache ip).addrs (Fin.last ndirect) = 0 then 1 else 0) +
        if sb.owns fs.disk (working sb fs ip) ((fs.icache ip).inum, .entry e) = none
          then 1 else 0 := by
  have slot := vacant_slot opened (Fin.last ndirect)
  rw [Place.slot_last] at slot
  have apart : Place.entry e ∉ vacant sb fs ip {.indirect} := by
    intro member
    exact absurd (Finset.mem_singleton.mp (Finset.mem_filter.mp member).1) (by simp)
  have indirect : (vacant sb fs ip {.indirect}).card =
      if (fs.icache ip).addrs (Fin.last ndirect) = 0 then 1 else 0 := by
    simp only [vacant, Finset.filter_singleton, slot]
    split
    next => rfl
    next => rfl
  rw [← indirect]
  change (Finset.filter _ (insert _ _)).card = _
  rw [Finset.filter_insert]
  split
  next => exact Finset.card_insert_of_notMem apart
  next => rfl

variable {p q : Place} {n off : Nat} {src : Nat → UInt8}

theorem bmap_room (opened : Opened sb fs ip) {bn : Nat} (place : Place.block bn = some p)
    (room : (vacant sb fs ip p.needs).card ≤ (sb.spare fs.disk).card) :
    Ensures (bmap sb ip bn) fs
      (fun _ fs' => (sb.spare fs'.disk).card + (vacant sb fs ip p.needs).card =
        (sb.spare fs.disk).card)
      (fun _ => False) := by
  unfold Place.block at place
  unfold bmap
  split at place
  next direct =>
    cases place
    rw [dif_pos direct]
    rw [card_vacant_direct opened] at room ⊢
    refine mapAddr_room opened (Fin.castSucc ⟨bn, direct⟩) ?_
    intro zero
    rw [if_pos zero] at room
    exact room
  next above =>
    split at place
    next inside =>
      cases place
      rw [dif_neg above, if_pos inside]
      rw [card_vacant_entry opened] at room ⊢
      have first : (fs.icache ip).addrs (Fin.last ndirect) = 0 →
          0 < (sb.spare fs.disk).card := by
        intro zero
        rw [if_pos zero] at room
        omega
      refine ((mapAddr_ensures opened (Fin.last ndirect)).and
        (mapAddr_room opened _ first)).bind ?_ fun _ failed => failed.2
      rintro indirect next ⟨mapped, spent⟩
      have owned := mapped.owned
      rw [Place.slot_last, ← mapped.grown.inum] at owned
      have others := mapped.others ((fs.icache ip).inum, .entry ⟨bn - ndirect, inside⟩)
        (by simp)
      rw [← others, ← mapped.grown.inum] at room ⊢
      simp only [bread, ensures_bind, ensures_get, ensures_pure]
      by_cases zero : getWord (next.disk indirect.toNat) (bn - ndirect) = 0
      · have empty := owns_entry_eq_none (e := ⟨bn - ndirect, inside⟩) owned zero
        rw [if_pos zero]
        rw [if_pos empty] at room ⊢
        refine (balloc_room mapped.grown.opened.kept (by omega)).seq ?_
        intro addr last also
        simp only [logWrite, ensures_bind, ensures_get, ensures_modify, ensures_pure]
        have above := mapped.grown.opened.kept.nmeta_le owned
        rw [spare_putBlock above]
        omega
      · have taken := owns_entry (e := ⟨bn - ndirect, inside⟩) owned zero
        rw [if_neg zero, ensures_pure, taken, if_neg (some_ne_none _), Nat.add_zero]
        exact spent
    next => cases place

def writtenPlaces (off n : Nat) : Finset Place :=
  (Finset.Ico off (off + n)).biUnion fun o =>
    ((Place.block (o / bsize)).map Place.needs).getD ∅

theorem mem_writtenPlaces : q ∈ writtenPlaces off n ↔ ∃ p, Touches off n p ∧ q ∈ p.needs := by
  simp only [writtenPlaces, Finset.mem_biUnion, Finset.mem_Ico, Touches]
  constructor
  · rintro ⟨o, ⟨above, below⟩, member⟩
    cases place : Place.block (o / bsize) with
    | none =>
      rw [place] at member
      exact absurd member (Finset.notMem_empty q)
    | some p =>
      rw [place] at member
      exact ⟨p, ⟨o, above, below, place⟩, member⟩
  · rintro ⟨p, ⟨o, above, below, place⟩, member⟩
    refine ⟨o, ⟨above, below⟩, ?_⟩
    rw [place]
    exact member

/-- All that `bmap` filled is in use afterwards. -/
theorem Mapped.ne_none_of_needs {addr : UInt32} (mapped : Mapped sb ip p fs addr fs')
    (member : q ∈ p.needs) :
    sb.owns fs'.disk (working sb fs' ip) ((fs.icache ip).inum, q) ≠ none := by
  have owned := mapped.owned
  cases p with
  | direct k | indirect =>
    obtain rfl := Finset.mem_singleton.mp member
    rw [owned]
    exact some_ne_none _
  | entry e =>
    obtain rfl | isIndirect := Finset.mem_insert.mp member
    · rw [owned]
      exact some_ne_none _
    · obtain rfl := Finset.mem_singleton.mp isIndirect
      obtain ⟨b, indirect⟩ := owns_indirect_of_entry owned
      rw [indirect]
      exact some_ne_none b

theorem Extended.vacant_of_vacant (extended : Extended sb ip fs fs') (q : Place)
    (empty : sb.owns fs'.disk (working sb fs' ip) ((fs'.icache ip).inum, q) = none) :
    sb.owns fs.disk (working sb fs ip) ((fs.icache ip).inum, q) = none := by
  apply eq_none_iff_forall_ne_some.mpr
  intro r owned
  rw [extended.inum, extended.owners _ r owned] at empty
  exact some_ne_none r empty

theorem card_vacant_add_le (ip : Fin ninode) {m : Nat} (touches : Touches off n p)
    (shorter : m ≤ n)
    (owners : ∀ q, sb.owns fs'.disk (working sb fs' ip) ((fs'.icache ip).inum, q) = none →
      sb.owns fs.disk (working sb fs ip) ((fs.icache ip).inum, q) = none) (filled : ∀ q ∈ p.needs,
      sb.owns fs'.disk (working sb fs' ip) ((fs'.icache ip).inum, q) ≠ none) :
    (vacant sb fs' ip (writtenPlaces (off + m) (n - m))).card +
        (vacant sb fs ip p.needs).card ≤
      (vacant sb fs ip (writtenPlaces off n)).card := by
  have apart : Disjoint (vacant sb fs' ip (writtenPlaces (off + m) (n - m)))
      (vacant sb fs ip p.needs) := by
    rw [Finset.disjoint_left]
    intro q later now
    exact filled q (Finset.mem_filter.mp now).1 (Finset.mem_filter.mp later).2
  rw [← Finset.card_union_of_disjoint apart]
  apply Finset.card_le_card
  intro q member
  obtain later | now := Finset.mem_union.mp member
  · obtain ⟨written, empty⟩ := Finset.mem_filter.mp later
    obtain ⟨p', ⟨o, above, below, place⟩, needed⟩ := mem_writtenPlaces.mp written
    refine Finset.mem_filter.mpr ⟨mem_writtenPlaces.mpr ⟨p', ?_, needed⟩, owners q empty⟩
    exact ⟨o, by omega, by omega, place⟩
  · obtain ⟨needed, empty⟩ := Finset.mem_filter.mp now
    exact Finset.mem_filter.mpr ⟨mem_writtenPlaces.mpr ⟨p, touches, needed⟩, empty⟩

theorem writeiLoop_room {turns : Nat} (opened : Opened sb fs ip) (enough : n ≤ turns)
    (inside : off + n ≤ maxfile * bsize)
    (room : (vacant sb fs ip (writtenPlaces off n)).card ≤ (sb.spare fs.disk).card) :
    Ensures (writeiLoop sb ip turns src off n) fs (fun _ _ => True) (fun _ => False) := by
  induction turns generalizing fs src off n with
  | zero =>
    obtain rfl : n = 0 := Nat.le_zero.mp enough
    exact trivial
  | succ turns induction =>
    unfold writeiLoop
    by_cases done : n = 0
    · subst done
      rw [if_pos rfl]
      exact trivial
    · rw [if_neg done]
      have positive := piece_pos off done
      have block : off / bsize < maxfile := by
        apply Nat.div_lt_of_lt_mul
        rw [Nat.mul_comm]
        omega
      obtain ⟨p, place⟩ := Place.exists_block block
      have touches : Touches off n p := ⟨off, Nat.le_refl off, by omega, place⟩
      have first : (vacant sb fs ip p.needs).card ≤ (sb.spare fs.disk).card := by
        refine Nat.le_trans (Finset.card_le_card ?_) room
        intro q member
        obtain ⟨needed, empty⟩ := Finset.mem_filter.mp member
        exact Finset.mem_filter.mpr ⟨mem_writtenPlaces.mpr ⟨p, touches, needed⟩, empty⟩
      refine ((bmap_ensures opened place).and (bmap_room opened place first)).bind ?_
        fun _ failed => failed.2
      rintro addr next ⟨mapped, spent⟩
      simp only [bread, logWrite, ensures_bind, ensures_get, ensures_pure, ensures_modify]
      have wrote : Wrote sb ip src off _ fs _ :=
        Wrote.of_mapped place mapped positive (Nat.min_le_right n (bsize - off % bsize))
      have owners := mapped.grown.opened.owns_putBlock mapped.owned
        (Place.block_ne_indirect place)
      have data := mapped.grown.opened.kept.nmeta_le mapped.owned
      refine induction wrote.opened (by omega) (by omega) ?_
      have remaining := card_vacant_add_le ip touches
        (Nat.min_le_left n (bsize - off % bsize)) wrote.toExtended.vacant_of_vacant ?_
      · rw [spare_putBlock data]
        omega
      · intro q member
        rw [wrote.inum, owners]
        exact mapped.ne_none_of_needs member

theorem writei_room {device : Int16 → Option Int32} {off n : UInt32} (clean : Clean sb fs ip)
    (room : (vacant sb fs ip (writtenPlaces off.toNat n.toNat)).card ≤ (sb.spare fs.disk).card) :
    Ensures (writei sb device ip src off n) fs (fun _ _ => True) (fun _ => False) := by
  unfold writei
  simp only [getInode, ensures_bind, ensures_get, ensures_pure]
  split
  next => exact trivial
  next =>
    split
    next => exact trivial
    next accepted =>
      split
      next => exact trivial
      next small =>
        rw [not_or, UInt32.lt_iff_toNat_lt, overflows_iff] at accepted
        have sum : (off + n).toNat = off.toNat + n.toNat := by
          rw [UInt32.toNat_add]
          exact Nat.mod_eq_of_lt (Nat.lt_of_not_le accepted.2)
        rw [UInt32.lt_iff_toNat_lt, sum, UInt32.toNat_ofNat_of_lt' maxfile_lt,
          Nat.not_lt] at small
        refine (writeiLoop_room clean.opened (Nat.le_refl _) small room).seq ?_
        intro _ next _
        simp only [updateInode, modifyInode, iupdate, bread, logWrite, getInode,
          ensures_bind, ensures_get, ensures_pure]
        split
        next => exact trivial
        next => exact trivial

end

structure Overwritten (sb : Superblock) (fs : Fs) (ip : Fin ninode) (src : Nat → UInt8)
    (off n : Nat) (r : Int32) (fs' : Fs) : Prop where
  refused : r = -1 ∧ fs' = fs ↔
    (nodeAt sb fs ip).size < off ∨ 2 ^ 32 ≤ off + n ∨ maxfile * bsize < off + n
  returned : ¬(r = -1 ∧ fs' = fs) → r.toInt = n
  size : ¬(r = -1 ∧ fs' = fs) → 0 < n →
    (nodeAt sb fs' ip).size = max (nodeAt sb fs ip).size (off + n)
  content : ¬(r = -1 ∧ fs' = fs) → (nodeAt sb fs' ip).content =
    (nodeAt sb fs ip).content.take off ++ (List.range n).map src ++
      (nodeAt sb fs ip).content.drop (off + n)
  others : ∀ j, j ≠ (fs.icache ip).inum →
    (sb.node fs'.disk j).content = (sb.node fs.disk j).content

structure Extracted (node : Node) (off n : Nat) (result : Int32 × List UInt8) : Prop where
  refused : result.1 = -1 ↔ node.size < off ∨ 2 ^ 32 ≤ off + n
  returned : result.1 ≠ -1 → result.1.toInt = min (off + n) node.size - off
  content : result.1 ≠ -1 → result.2 = (node.content.take (off + n)).drop off

section

variable {sb : Superblock} {fs : Fs} {ip : Fin ninode} {held : Multiset (Fin ninode)}
  {locked : Finset (Fin ninode)}

theorem accepts_iff {node : Node} {off n : Nat} (regular : node.type ≠ tDev) :
    ¬node.Accepts off n ↔ node.size < off ∨ 2 ^ 32 ≤ off + n ∨ maxfile * bsize < off + n := by
  have limit := maxfile_lt
  constructor
  · intro refused
    by_contra none
    simp only [not_or, Nat.not_lt, Nat.not_le] at none
    exact refused ⟨regular, none.1, none.2.2⟩
  · rintro (beyond | wraps | large) accepts
    · exact absurd accepts.inside (Nat.not_le_of_lt beyond)
    · have fits := accepts.fits
      omega
    · exact absurd accepts.fits (Nat.not_le_of_lt large)

variable {n off : UInt32}

theorem writei_refines {write : Int16 → Option Int32} {src : Nat → UInt8}
    (settled : Settled sb fs held locked) (inLocked : ip ∈ locked)
    (regular : (nodeAt sb fs ip).type ≠ tDev)
    (room : (vacant sb fs ip (writtenPlaces off.toNat n.toNat)).card ≤ (sb.spare fs.disk).card) :
    ∃ r fs', writei sb write ip src off n fs = .ok (r, fs') ∧ Settled sb fs' held locked ∧
      Overwritten sb fs ip src off.toNat n.toNat r fs' := by
  obtain ⟨member, _⟩ := settled.cached.opened ip inLocked
  obtain ⟨r, fs', performed, result, _⟩ := Ensures.exists_ok
    (((writei_ensures settled inLocked).and (writei_room (settled.clean inLocked) room)).mono
      (fun _ _ returned => returned) fun _ failed => failed.2)
  refine ⟨r, fs', performed, ?_⟩
  rcases result with ⟨accepts, rfl, settled', nodes, keeps⟩ | ⟨refused, rfl, fails⟩
  · have small : n.toNat ≤ maxfile * bsize := Nat.le_of_add_left_le accepts.fits
    have value := toInt_toInt32 (Nat.lt_of_le_of_lt small (by decide))
    have positive : ¬(n.toInt32 = -1 ∧ fs' = fs) := by
      rintro ⟨negative, _⟩
      rw [negative] at value
      change -1 = _ at value
      omega
    have here : nodeAt sb fs' ip = (nodeAt sb fs ip).write off.toNat n.toNat src := by
      rw [nodeAt, (keeps ip member).1, nodes, Function.update_self]
    refine ⟨settled', iff_of_false positive ?_, fun _ => value, ?_, ?_, ?_⟩
    · exact fun refused => (accepts_iff regular).mpr refused accepts
    · intro _ some
      rw [here]
      exact if_neg some.ne'
    · intro _
      rw [here, Node.content_write accepts.inside]
    · intro j other
      rw [nodes, Function.update_of_ne other]
  · have same : r = -1 ∧ fs' = fs' := ⟨fails regular, rfl⟩
    exact ⟨settled, iff_of_true same ((accepts_iff regular).mp refused), absurd same,
      absurd same, absurd same, fun _ _ => rfl⟩

theorem readi_refines {read : Int16 → Option (Int32 × List UInt8)}
    (settled : Settled sb fs held locked) (inLocked : ip ∈ locked)
    (regular : (nodeAt sb fs ip).type ≠ tDev) :
    ∃ result, readi sb read ip off n fs = .ok (result, fs) ∧
      Extracted (nodeAt sb fs ip) off.toNat n.toNat result := by
  obtain ⟨member, valid⟩ := settled.cached.opened ip inLocked
  have ensures : Ensures (readi sb read ip off n) fs _ _ := readi_ensures settled inLocked
  obtain ⟨result, fs', performed, rfl, value⟩ := ensures.exists_ok
  have returned := value _ rfl regular
  refine ⟨result, performed, ?_⟩
  by_cases fails : (nodeAt sb fs' ip).size < off.toNat ∨ 2 ^ 32 ≤ off.toNat + n.toNat
  · rw [if_pos fails] at returned
    subst returned
    exact ⟨iff_of_true rfl fails, absurd rfl, absurd rfl⟩
  · rw [if_neg fails] at returned
    subst returned
    have length : ((nodeAt sb fs' ip).read off.toNat n.toNat).length =
        min n.toNat ((nodeAt sb fs' ip).size - off.toNat) := by
      rw [Node.read, length_map, length_range]
    have limit := settled.size_le member valid
    have small : min n.toNat ((nodeAt sb fs' ip).size - off.toNat) < 2 ^ 32 :=
      Nat.lt_of_le_of_lt (Nat.min_le_left ..) n.toNat_lt
    have count : (UInt32.ofNat ((nodeAt sb fs' ip).read off.toNat n.toNat).length).toInt32.toInt =
        (min n.toNat ((nodeAt sb fs' ip).size - off.toNat) : Nat) := by
      rw [toInt_toInt32, length, UInt32.toNat_ofNat_of_lt' small]
      rw [length, UInt32.toNat_ofNat_of_lt' small]
      change _ ≤ 71680 at limit
      omega
    have positive : (UInt32.ofNat ((nodeAt sb fs' ip).read off.toNat n.toNat).length).toInt32 ≠
        -1 := by
      intro negative
      rw [negative] at count
      change -1 = _ at count
      omega
    refine ⟨iff_of_false positive fails, fun _ => ?_, fun _ => Node.read_eq _ _ _⟩
    rw [count]
    omega

/-- Writes and reads of a file are writes and reads of an array of bytes. -/
theorem file_refines_byteArray (read : Int16 → Option (Int32 × List UInt8))
    (write : Int16 → Option Int32) (src : Nat → UInt8) (off n : UInt32)
    (settled : Settled sb fs held locked) (inLocked : ip ∈ locked)
    (regular : (nodeAt sb fs ip).type ≠ tDev)
    (room : (vacant sb fs ip (writtenPlaces off.toNat n.toNat)).card ≤
      (sb.spare fs.disk).card) :
    (∃ r fs', writei sb write ip src off n fs = .ok (r, fs') ∧ Settled sb fs' held locked ∧
      Overwritten sb fs ip src off.toNat n.toNat r fs') ∧
    ∃ result, readi sb read ip off n fs = .ok (result, fs) ∧
      Extracted (nodeAt sb fs ip) off.toNat n.toNat result :=
  ⟨writei_refines settled inLocked regular room, readi_refines settled inLocked regular⟩

/-- A write past the end of the root directory. -/
theorem root_refines_byteArray :
    ∃ fs r fs', ilock smallDisk 0 (booted smallDisk) = .ok ((), fs) ∧
      writei smallDisk (fun _ => none) 0 (fun _ => 97) 500 600 fs = .ok (r, fs') ∧
      r.toInt = 600 ∧ (nodeAt smallDisk fs' 0).size = 1100 := by
  have returns : (match ilock smallDisk 0 (booted smallDisk) with
      | .ok (_, fs) => decide ((vacant smallDisk fs 0 (writtenPlaces 500 600)).card ≤
          (smallDisk.spare fs.disk).card) && decide ((nodeAt smallDisk fs 0).type ≠ tDev) &&
          decide ((nodeAt smallDisk fs 0).size = 512)
      | .error _ => false) = true := by
    decide +kernel
  cases performed : ilock smallDisk 0 (booted smallDisk) with
  | error failure =>
    rw [performed] at returns
    cases returns
  | ok value =>
    obtain ⟨_, fs⟩ := value
    rw [performed] at returns
    simp only [Bool.and_eq_true, decide_eq_true_eq] at returns
    obtain ⟨⟨room, regular⟩, before⟩ := returns
    obtain ⟨_, settled, _⟩ := (ilock_ensures (settled_booted roomy_smallDisk)
      (Multiset.mem_singleton_self 0)).of_ok performed
    obtain ⟨r, fs', written, _, overwritten⟩ := (file_refines_byteArray (fun _ => none)
      (fun _ => none) (fun _ => 97) 500 600 settled (Finset.mem_insert_self _ _) regular
      room).1
    have accepted : ¬(r = -1 ∧ fs' = fs) := by
      rw [overwritten.refused, before]
      decide
    refine ⟨fs, r, fs', rfl, written, overwritten.returned accepted, ?_⟩
    rw [overwritten.size accepted (by decide), before]
    rfl

end

end Fs

end StraceXv6.Kernel
