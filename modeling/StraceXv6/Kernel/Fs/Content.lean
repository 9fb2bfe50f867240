import StraceXv6.Kernel.Fs.Mapping

namespace StraceXv6.Kernel.Fs

open List Function Data Data.Command

/-! The bytes of a file: what `readi` returns and what `writei` changes. -/

section

variable {sb : Superblock} {fs fs' fs'' : Fs} {ip : Fin ninode} {off r k n turns m b : Nat}
  {p : Place} {h : Nat × Place} {src : Nat → UInt8}

theorem byte_of_owns {disk : Nat → Block} {table : Nat → Dinode} {i : Nat}
    (place : Place.block (off / bsize) = some p) (owned : sb.owns disk table (i, p) = some r) :
    sb.byte disk table i off = byteAt (disk r) (off % bsize) := by
  simp only [Superblock.byte, place, Option.bind_some, owned]

theorem div_of_lt_piece (inside : k < min n (bsize - off % bsize)) :
    (off + k) / bsize = off / bsize ∧ (off + k) % bsize = off % bsize + k := by
  have small : off % bsize + k < bsize := by omega
  have split := Nat.div_add_mod off bsize
  have sum : off + k = bsize * (off / bsize) + (off % bsize + k) := by omega
  rw [sum]
  constructor
  · rw [Nat.mul_add_div (by decide), Nat.div_eq_of_lt small, Nat.add_zero]
  · rw [Nat.mul_add_mod, Nat.mod_eq_of_lt small]

theorem piece_pos (off : Nat) (nonzero : n ≠ 0) : 0 < min n (bsize - off % bsize) := by
  have small : off % bsize < bsize := Nat.mod_lt _ (by decide)
  omega

theorem readiLoop_ensures (opened : Opened sb fs ip) (enough : n ≤ turns)
    (inside : off + n ≤ (fs.icache ip).size.toNat) :
    Ensures (readiLoop sb ip turns off n) fs
      (fun bytes fs' => fs' = fs ∧ bytes = (List.range n).map fun k =>
        sb.byte fs.disk (working sb fs ip) (fs.icache ip).inum (off + k))
      (fun _ => False) := by
  induction turns generalizing off n with
  | zero =>
    obtain rfl : n = 0 := Nat.le_zero.mp enough
    exact ⟨rfl, rfl⟩
  | succ turns induction =>
    unfold readiLoop
    by_cases done : n = 0
    · subst done
      rw [if_pos rfl]
      exact ⟨rfl, rfl⟩
    · rw [if_neg done]
      have below : bsize * (off / bsize) < (fs.icache ip).size.toNat := by
        have quotient := Nat.mul_div_le off bsize
        omega
      obtain ⟨p, place, mapped⟩ := opened.kept.mapped _ opened.live (off / bsize)
        (by rw [working_inum]; exact below)
      obtain ⟨r, owned⟩ := Option.ne_none_iff_exists'.mp mapped
      have value : (UInt32.ofNat r).toNat = r :=
        UInt32.toNat_ofNat_of_lt' ((opened.kept.lt_size owned).trans Superblock.size_lt)
      have positive := piece_pos off done
      rw [ensures_bind_of_ok (bmap_of_owned place owned)]
      simp only [bread, ensures_bind, ensures_get, ensures_pure, value]
      refine (induction (by omega) (by omega)).weaken ?_
      intro rest final copied
      obtain ⟨same, rest⟩ := copied
      refine ⟨same, ?_⟩
      have pieces : n = min n (bsize - off % bsize) + (n - min n (bsize - off % bsize)) := by
        omega
      conv_rhs => rw [pieces, range_add, map_append, map_map]
      rw [rest]
      congr 1
      · apply map_congr_left
        intro k member
        obtain ⟨quotient, remainder⟩ := div_of_lt_piece (mem_range.mp member)
        rw [← quotient] at place
        rw [byte_of_owns place owned, remainder]
      · apply map_congr_left
        intro k _
        rw [comp_apply, Nat.add_assoc]

theorem working_putBlock (above : sb.bmapstart ≤ r) (data : Block) :
    working sb (fs.putBlock r data) ip = working sb fs ip := by
  unfold working
  rw [icache_putBlock, disk_putBlock, Superblock.table_of_agree]
  intro b below
  exact update_of_ne (by omega) _ _

theorem Opened.bmapstart_le (opened : Opened sb fs ip)
    (owned : sb.owns fs.disk (working sb fs ip) h = some r) : sb.bmapstart ≤ r :=
  (Superblock.bmapstart_le_nmeta sb).trans (opened.kept.nmeta_le owned)

theorem Opened.owns_putBlock (opened : Opened sb fs ip)
    (owned : sb.owns fs.disk (working sb fs ip) h = some r) (direct : h.2 ≠ .indirect)
    (data : Block) :
    sb.owns (fs.putBlock r data).disk (working sb (fs.putBlock r data) ip) =
      sb.owns fs.disk (working sb fs ip) := by
  rw [working_putBlock (opened.bmapstart_le owned)]
  apply Superblock.owns_of_agree
  intro j b indirect
  apply update_of_ne
  rintro rfl
  exact direct (congrArg Prod.snd (opened.kept.accounted.alone owned indirect))

theorem Opened.putBlock (opened : Opened sb fs ip)
    (owned : sb.owns fs.disk (working sb fs ip) h = some r) (direct : h.2 ≠ .indirect)
    (data : Block) : Opened sb (fs.putBlock r data) ip where
  kept := by
    have above := opened.kept.nmeta_le owned
    refine opened.kept.congr ?_ (opened.owns_putBlock owned direct data) ?_
    · apply Superblock.marked_of_agree
      intro b _ below
      exact update_of_ne (by omega) _ _
    · intro i live
      rw [working_putBlock (opened.bmapstart_le owned)] at live ⊢
      exact ⟨live, rfl⟩
  live := by
    rw [working_putBlock (opened.bmapstart_le owned)]
    exact opened.live

def Touches (off n : Nat) (p : Place) : Prop :=
  ∃ o, off ≤ o ∧ o < off + n ∧ Place.block (o / bsize) = some p

theorem touches_append : Touches off (m + n) p ↔ Touches off m p ∨ Touches (off + m) n p := by
  constructor
  · rintro ⟨o, above, below, place⟩
    by_cases early : o < off + m
    · exact .inl ⟨o, above, early, place⟩
    · exact .inr ⟨o, by omega, by omega, place⟩
  · rintro (⟨o, above, below, place⟩ | ⟨o, above, below, place⟩)
    · exact ⟨o, above, by omega, place⟩
    · exact ⟨o, by omega, by omega, place⟩

theorem touches_piece (positive : 0 < n) (small : n ≤ bsize - off % bsize) :
    Touches off n p ↔ Place.block (off / bsize) = some p := by
  constructor
  · rintro ⟨o, above, below, place⟩
    obtain ⟨k, rfl⟩ := Nat.exists_eq_add_of_le above
    have inside : k < min n (bsize - off % bsize) := by omega
    rwa [(div_of_lt_piece inside).1] at place
  · intro place
    exact ⟨off, le_rfl, by omega, place⟩

theorem Touches.ne_indirect (touches : Touches off n p) : p ≠ .indirect := by
  obtain ⟨o, _, _, place⟩ := touches
  exact Place.block_ne_indirect place

/-- `n` bytes at `src` were written to the inode of `ip` from `off` on.  The blocks
logged are those written, the bitmap if one of them is new, and the indirect block if
it got an entry. -/
structure Wrote (sb : Superblock) (ip : Fin ninode) (src : Nat → UInt8) (off n : Nat)
    (fs fs' : Fs) : Prop extends Extended sb ip fs fs' where
  others : ∀ h r, h.1 ≠ (fs.icache ip).inum → h.2 ≠ .indirect →
    sb.owns fs.disk (working sb fs ip) h = some r → fs'.disk r = fs.disk r
  written : ∀ o, off ≤ o → o < off + n → ∃ p r, Place.block (o / bsize) = some p ∧
    sb.owns fs'.disk (working sb fs' ip) ((fs.icache ip).inum, p) = some r ∧
    byteAt (fs'.disk r) (o % bsize) = src (o - off)
  unwritten : ∀ o p r, o < off ∨ off + n ≤ o → Place.block (o / bsize) = some p →
    sb.owns fs.disk (working sb fs ip) ((fs.icache ip).inum, p) = some r →
    byteAt (fs'.disk r) (o % bsize) = byteAt (fs.disk r) (o % bsize)
  untouched : ∀ p, p ≠ .indirect → ¬Touches off n p →
    sb.owns fs'.disk (working sb fs' ip) ((fs.icache ip).inum, p) =
      sb.owns fs.disk (working sb fs ip) ((fs.icache ip).inum, p)
  steady : (∀ p, Touches off n p →
      sb.owns fs.disk (working sb fs ip) ((fs.icache ip).inum, p) ≠ none) →
    fs'.icache = fs.icache
  logged : ∃ added, fs'.logged = fs.logged ++ added ∧ ∀ b, b ∈ added ↔
    (∃ p, Touches off n p ∧
      sb.owns fs'.disk (working sb fs' ip) ((fs.icache ip).inum, p) = some b) ∨
    (b = sb.bmapstart ∧ ∃ p, Touches off n p ∧
      sb.owns fs.disk (working sb fs ip) ((fs.icache ip).inum, p) = none) ∨
    (sb.owns fs'.disk (working sb fs' ip) ((fs.icache ip).inum, .indirect) = some b ∧
      ∃ e, Touches off n (.entry e) ∧
        sb.owns fs.disk (working sb fs ip) ((fs.icache ip).inum, .entry e) = none)

theorem Wrote.refl (opened : Opened sb fs ip) (src : Nat → UInt8) (off : Nat) :
    Wrote sb ip src off 0 fs fs where
  toExtended := .refl opened
  others := fun _ _ _ _ _ => rfl
  written := fun o first last => absurd last (by omega)
  unwritten := fun _ _ _ _ _ _ => rfl
  untouched := fun _ _ _ => rfl
  steady := fun _ => rfl
  logged := by
    have nothing : ∀ p, ¬Touches off 0 p := by
      rintro p ⟨o, above, below, _⟩
      omega
    refine ⟨[], (append_nil _).symm, ?_⟩
    simp [nothing]

theorem byteAt_blit (data : Block) (start : Nat) (src : Nat → UInt8) (inside : k < bsize) :
    byteAt (blit data start src m) k =
      if start ≤ k ∧ k < start + m then src (k - start) else byteAt data k := by
  simp only [byteAt, inside, dite_true, blit]

theorem Wrote.of_mapped {addr : UInt32} (place : Place.block (off / bsize) = some p)
    (mapped : Mapped sb ip p fs addr fs') (positive : 0 < n) (small : n ≤ bsize - off % bsize) :
    Wrote sb ip src off n fs (fs'.putBlock addr.toNat
      (blit (fs'.disk addr.toNat) (off % bsize) src n)) := by
  have direct : p ≠ .indirect := Place.block_ne_indirect place
  have owned := mapped.owned
  have opened := mapped.grown.opened
  have owners := opened.owns_putBlock owned direct
    (blit (fs'.disk addr.toNat) (off % bsize) src n)
  have modulus : 0 < bsize := by decide
  refine ⟨mapped.grown.toExtended.trans ⟨?_, ?_, ?_, ?_⟩, ?_, ?_, ?_, ?_, ?_, ?_⟩
  · exact ⟨(fs'.icache ip).addrs, (update_eq_self ip fs'.icache).symm⟩
  · apply Superblock.table_of_agree
    intro b below
    have above := opened.bmapstart_le owned
    exact update_of_ne (by omega) _ _
  · exact opened.putBlock owned direct _
  · intro h r owned'
    rw [owners]
    exact owned'
  · intro h r other data old
    rw [disk_putBlock, update_of_ne, mapped.grown.data h r old data]
    rintro rfl
    have kept := mapped.grown.owners h _ old
    exact other (congrArg Prod.fst (opened.kept.accounted.alone kept owned))
  · intro o first last
    obtain ⟨k, rfl⟩ := Nat.exists_eq_add_of_le first
    have inside : k < min n (bsize - off % bsize) := by omega
    obtain ⟨quotient, remainder⟩ := div_of_lt_piece inside
    refine ⟨p, addr.toNat, quotient ▸ place, by rw [owners]; exact owned, ?_⟩
    rw [disk_putBlock, update_self, byteAt_blit _ _ _ (Nat.mod_lt _ modulus),
      remainder, if_pos ⟨by omega, by omega⟩]
    congr 1
    omega
  · intro o q r outside place' old
    have kept := mapped.grown.owners _ r old
    rw [disk_putBlock]
    by_cases same : r = addr.toNat
    · subst same
      have equal := congrArg Prod.snd (opened.kept.accounted.alone kept owned)
      change q = p at equal
      subst equal
      have quotient := Place.block_injective place' place
      have parts := Nat.div_add_mod o bsize
      have parts' := Nat.div_add_mod off bsize
      rw [quotient] at parts
      rw [update_self, byteAt_blit _ _ _ (Nat.mod_lt _ modulus), if_neg (by omega),
        mapped.grown.data _ _ old direct]
    · rw [update_of_ne same, mapped.grown.data _ _ old (Place.block_ne_indirect place')]
  · intro q direct' apart
    rw [owners]
    apply mapped.others _ _ direct'
    intro equal
    rw [touches_piece positive small, place] at apart
    exact apart (congrArg some (congrArg Prod.snd equal).symm)
  · intro present
    have owned := present p ((touches_piece positive small).mpr place)
    rw [icache_putBlock, mapped.unchanged owned]
  · simp only [touches_piece positive small, place, Option.some.injEq, exists_eq_left', owners,
      owned, logged_putBlock]
    by_cases vacant : sb.owns fs.disk (working sb fs ip) ((fs.icache ip).inum, p) = none
    · obtain ⟨added, logged, members⟩ := mapped.logged vacant
      refine ⟨added ++ [addr.toNat], by rw [logged, append_assoc], ?_⟩
      intro b
      rw [mem_append, members b, mem_singleton]
      constructor
      · rintro ((bitmap | data | ⟨⟨e, entry⟩, indirect⟩) | data)
        · exact .inr (.inl ⟨bitmap, vacant⟩)
        · exact .inl data.symm
        · exact .inr (.inr ⟨indirect, e, entry, entry ▸ vacant⟩)
        · exact .inl data.symm
      · rintro (data | ⟨bitmap, _⟩ | ⟨indirect, e, entry, _⟩)
        · exact .inr data.symm
        · exact .inl (.inl bitmap)
        · exact .inl (.inr (.inr ⟨⟨e, entry⟩, indirect⟩))
    · obtain rfl := mapped.unchanged vacant
      refine ⟨[addr.toNat], rfl, ?_⟩
      intro b
      rw [mem_singleton]
      constructor
      · intro data
        exact .inl data.symm
      · rintro (data | ⟨_, empty⟩ | ⟨_, e, entry, empty⟩)
        · exact data.symm
        · exact absurd empty vacant
        · exact absurd (entry ▸ empty) vacant

theorem Wrote.owns_of_touches (wrote : Wrote sb ip src off n fs fs')
    (extended : Extended sb ip fs' fs'') (touches : Touches off n p)
    (owned : sb.owns fs''.disk (working sb fs'' ip) ((fs.icache ip).inum, p) = some b) :
    sb.owns fs'.disk (working sb fs' ip) ((fs.icache ip).inum, p) = some b := by
  obtain ⟨o, above, below, place⟩ := touches
  obtain ⟨q, r, place', owned', _⟩ := wrote.written o above below
  obtain rfl := Option.some.inj (place.symm.trans place')
  rw [extended.owners _ r owned'] at owned
  rw [owned', owned]

theorem Wrote.owns_indirect {e : Fin nindirect} (wrote : Wrote sb ip src off n fs fs')
    (extended : Extended sb ip fs' fs'') (touches : Touches off n (.entry e))
    (owned : sb.owns fs''.disk (working sb fs'' ip) ((fs.icache ip).inum, .indirect) = some b) :
    sb.owns fs'.disk (working sb fs' ip) ((fs.icache ip).inum, .indirect) = some b := by
  obtain ⟨o, above, below, place⟩ := touches
  obtain ⟨q, r, place', owned', _⟩ := wrote.written o above below
  obtain rfl := Option.some.inj (place.symm.trans place')
  obtain ⟨b', indirect⟩ := owns_indirect_of_entry owned'
  rw [extended.owners _ b' indirect] at owned
  rw [indirect, owned]

theorem Wrote.append (first : Wrote sb ip src off m fs fs')
    (second : Wrote sb ip (fun k => src (m + k)) (off + m) n fs' fs'') :
    Wrote sb ip src off (m + n) fs fs'' where
  toExtended := first.toExtended.trans second.toExtended
  others := by
    intro h r other direct owned
    rw [second.others h r (first.inum ▸ other) direct (first.owners h r owned),
      first.others h r other direct owned]
  written := by
    intro o above below
    by_cases early : o < off + m
    · obtain ⟨p, r, place, owned, value⟩ := first.written o above early
      refine ⟨p, r, place, second.owners _ r owned, ?_⟩
      rw [← first.inum] at owned
      rw [second.unwritten o p r (.inl early) place owned, value]
    · obtain ⟨p, r, place, owned, value⟩ := second.written o (by omega) (by omega)
      rw [first.inum] at owned
      refine ⟨p, r, place, owned, ?_⟩
      rw [value]
      congr 1
      omega
  unwritten := by
    intro o p r outside place owned
    have kept := first.owners _ r owned
    rw [← first.inum] at kept
    rw [second.unwritten o p r (by omega) place kept,
      first.unwritten o p r (by omega) place owned]
  untouched := by
    intro p direct apart
    rw [touches_append, not_or] at apart
    have later := second.untouched p direct apart.2
    rw [first.inum] at later
    rw [later, first.untouched p direct apart.1]
  steady := by
    intro present
    have same := first.steady fun p touches => present p (touches_append.mpr (.inl touches))
    refine (second.steady ?_).trans same
    intro p touches
    obtain ⟨r, owned⟩ := Option.ne_none_iff_exists'.mp
      (present p (touches_append.mpr (.inr touches)))
    rw [first.inum, first.owners _ r owned]
    exact Option.some_ne_none r
  logged := by
    obtain ⟨added, logged, members⟩ := first.logged
    obtain ⟨added', logged', members'⟩ := second.logged
    simp only [first.inum] at members'
    -- A place that is vacant before is vacant in between unless the first write touches it.
    have stays : ∀ p, Touches (off + m) n p →
        sb.owns fs.disk (working sb fs ip) ((fs.icache ip).inum, p) = none →
        Touches off m p ∨
          sb.owns fs'.disk (working sb fs' ip) ((fs.icache ip).inum, p) = none := by
      intro p touches vacant
      by_cases early : Touches off m p
      · exact .inl early
      · rw [first.untouched p touches.ne_indirect early]
        exact .inr vacant
    have before : ∀ p, sb.owns fs'.disk (working sb fs' ip) ((fs.icache ip).inum, p) = none →
        sb.owns fs.disk (working sb fs ip) ((fs.icache ip).inum, p) = none := by
      intro p vacant
      apply Option.eq_none_iff_forall_ne_some.mpr
      intro r owned
      rw [first.owners _ r owned] at vacant
      exact Option.some_ne_none r vacant
    refine ⟨added ++ added', by rw [logged', logged, append_assoc], ?_⟩
    intro b
    rw [mem_append, members b, members' b]
    simp only [touches_append]
    constructor
    · rintro ((⟨p, touches, owned⟩ | ⟨bitmap, p, touches, vacant⟩ | ⟨owned, e, touches, vacant⟩) |
        ⟨p, touches, owned⟩ | ⟨bitmap, p, touches, vacant⟩ | ⟨owned, e, touches, vacant⟩)
      · exact .inl ⟨p, .inl touches, second.owners _ b owned⟩
      · exact .inr (.inl ⟨bitmap, p, .inl touches, vacant⟩)
      · exact .inr (.inr ⟨second.owners _ b owned, e, .inl touches, vacant⟩)
      · exact .inl ⟨p, .inr touches, owned⟩
      · exact .inr (.inl ⟨bitmap, p, .inr touches, before p vacant⟩)
      · exact .inr (.inr ⟨owned, e, .inr touches, before _ vacant⟩)
    · rintro (⟨p, touches | touches, owned⟩ | ⟨bitmap, p, touches | touches, vacant⟩ |
        ⟨owned, e, touches | touches, vacant⟩)
      · exact .inl (.inl ⟨p, touches, first.owns_of_touches second.toExtended touches owned⟩)
      · exact .inr (.inl ⟨p, touches, owned⟩)
      · exact .inl (.inr (.inl ⟨bitmap, p, touches, vacant⟩))
      · cases stays p touches vacant with
        | inl early => exact .inl (.inr (.inl ⟨bitmap, p, early, vacant⟩))
        | inr between => exact .inr (.inr (.inl ⟨bitmap, p, touches, between⟩))
      · exact .inl (.inr (.inr ⟨first.owns_indirect second.toExtended touches owned, e, touches,
          vacant⟩))
      · cases stays _ touches vacant with
        | inl early =>
          exact .inl (.inr (.inr ⟨first.owns_indirect second.toExtended early owned, e, early,
            vacant⟩))
        | inr between => exact .inr (.inr (.inr ⟨owned, e, touches, between⟩))

theorem writeiLoop_ensures (opened : Opened sb fs ip) (enough : n ≤ turns)
    (inside : off + n ≤ maxfile * bsize) :
    Ensures (writeiLoop sb ip turns src off n) fs
      (fun _ fs' => Wrote sb ip src off n fs fs') (· = .outOfBlocks) := by
  induction turns generalizing fs src off n with
  | zero =>
    obtain rfl : n = 0 := Nat.le_zero.mp enough
    exact .refl opened src off
  | succ turns induction =>
    unfold writeiLoop
    by_cases done : n = 0
    · subst done
      rw [if_pos rfl]
      exact .refl opened src off
    · rw [if_neg done]
      have positive := piece_pos off done
      have block : off / bsize < maxfile := by
        apply Nat.div_lt_of_lt_mul
        rw [Nat.mul_comm]
        omega
      obtain ⟨p, place⟩ := Place.exists_block block
      apply (bmap_ensures opened place).seq
      intro addr next mapped
      simp only [bread, logWrite, ensures_bind, ensures_get, ensures_pure, ensures_modify]
      have first : Wrote sb ip src off _ fs _ :=
        Wrote.of_mapped place mapped positive (Nat.min_le_right n (bsize - off % bsize))
      refine (induction first.opened (by omega) (by omega)).weaken ?_
      intro _ final second
      have whole := first.append second
      rwa [Nat.add_sub_cancel' (Nat.min_le_left ..)] at whole

end

end StraceXv6.Kernel.Fs
