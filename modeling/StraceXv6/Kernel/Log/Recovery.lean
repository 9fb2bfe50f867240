import StraceXv6.Data.Writes
import StraceXv6.Kernel.Fs.Layout

namespace StraceXv6.Kernel

open List Function Data

/-! Committing a transaction through the log and recovering from it.  The header
block lies at `start` and the log blocks behind it. -/

/-- The header in memory; `n` is the number of blocks listed. -/
structure LogHeader where
  block : List UInt32
  bounded : block.length ≤ logsize

namespace LogHeader

def empty : LogHeader := ⟨[], Nat.zero_le _⟩

def n (lh : LogHeader) : Nat := lh.block.length

/-- Storing the header into its block leaves the entries past `n` as they are. -/
def store (lh : LogHeader) (buf : Block) : Block :=
  setWords (setWord buf 0 (UInt32.ofNat lh.n)) 1 lh.block

/-- Loading a header; a count that does not fit would overrun `log.lh.block`. -/
def load (buf : Block) : Option LogHeader :=
  let n := (getWord buf 0).toInt32.toInt.toNat
  if bounded : (getWords buf 1 n).length ≤ logsize then some ⟨getWords buf 1 n, bounded⟩
  else none

end LogHeader

/-- What `bread` returns for each block, the block writes issued to the disk so
far, and `log.lh`. -/
structure LogState where
  cache : Nat → Block
  issued : List (Nat × Block)
  lh : LogHeader

namespace LogState

def bwrite (s : LogState) (blockno : Nat) (data : Block) : LogState :=
  { s with
    cache := Function.update s.cache blockno data
    issued := s.issued ++ [(blockno, data)] }

/-- Copy blocks through the cache, each from the first block of a pair to the
second. -/
def copyBlocks (s : LogState) (pairs : List (Nat × Nat)) : LogState :=
  pairs.foldl (fun s pair => s.bwrite pair.2 (s.cache pair.1)) s

section

variable (start : Nat)

def writeLog (s : LogState) : LogState :=
  s.copyBlocks (s.lh.block.zipIdx.map fun entry => (entry.1.toNat, start + entry.2 + 1))

def installTrans (s : LogState) : LogState :=
  s.copyBlocks (s.lh.block.zipIdx.map fun entry => (start + entry.2 + 1, entry.1.toNat))

def readHead (s : LogState) : Option LogState :=
  (LogHeader.load (s.cache start)).map fun lh => { s with lh := lh }

def writeHead (s : LogState) : LogState :=
  s.bwrite start (s.lh.store (s.cache start))

def recoverFromLog (s : LogState) : Option LogState :=
  (s.readHead start).map fun s =>
    { s.installTrans start with lh := .empty }.writeHead start

def commit (s : LogState) : LogState :=
  if s.lh.n > 0 then
    { ((s.writeLog start).writeHead start).installTrans start with
      lh := .empty }.writeHead start
  else s

def boot (disk : Nat → Block) : LogState := ⟨disk, [], .empty⟩

def recoveryWrites (disk : Nat → Block) : Option (List (Nat × Block)) :=
  ((boot disk).recoverFromLog start).map LogState.issued

/-- Recovery on a disk, cut short after each of the given numbers of block writes
and at last run to its end. -/
def recoverThrough (disk : Nat → Block) : List Nat → Option (Nat → Block)
  | [] => (recoveryWrites start disk).map (writes disk)
  | cut :: rest =>
    (recoveryWrites start disk).bind fun issued =>
      recoverThrough (writes disk (issued.take cut)) rest

end

end LogState

namespace LogHeader

theorem load_store (lh : LogHeader) (buf : Block) : load (lh.store buf) = some lh := by
  have bounded := lh.bounded
  have limit : logsize = 30 := rfl
  have count : (getWord (lh.store buf) 0).toInt32.toInt.toNat = lh.block.length := by
    rw [store, getWord_setWords_of_lt Nat.zero_lt_one, getWord_setWord (by decide)]
    change (Int32.ofNat lh.block.length).toInt.toNat = _
    rw [Int32.toInt_ofNat_of_lt (by omega)]
    exact Int.toNat_natCast _
  have entries : getWords (lh.store buf) 1 lh.block.length = lh.block := by
    rw [store]
    apply getWords_setWords
    change 4 * (1 + lh.block.length) ≤ 512
    omega
  simp only [load, count, entries, dif_pos bounded]

theorem load_of_clear {buf : Block} (clear : getWord buf 0 = 0) :
    load buf = some .empty := by
  simp only [load, clear]
  rfl

theorem getWord_store_empty (buf : Block) : getWord (empty.store buf) 0 = 0 :=
  getWord_setWord (by decide) buf 0

end LogHeader

namespace LogState

theorem copyBlocks_eq {pairs : List (Nat × Nat)}
    (apart : ∀ p ∈ pairs, ∀ q ∈ pairs, p.2 ≠ q.1) (s : LogState) :
    s.copyBlocks pairs =
      { s with
        cache := writes s.cache (pairs.map fun pair => (pair.2, s.cache pair.1))
        issued := s.issued ++ pairs.map fun pair => (pair.2, s.cache pair.1) } := by
  induction pairs generalizing s with
  | nil => simp [copyBlocks, writes]
  | cons pair rest induction =>
    have later : ∀ other ∈ rest,
        (s.bwrite pair.2 (s.cache pair.1)).cache other.1 = s.cache other.1 := by
      intro other member
      apply update_of_ne
      exact (apart pair mem_cons_self other (mem_cons_of_mem _ member)).symm
    have same : (rest.map fun other =>
        (other.2, (s.bwrite pair.2 (s.cache pair.1)).cache other.1)) =
          rest.map fun other => (other.2, s.cache other.1) := by
      apply map_congr_left
      intro other member
      rw [later other member]
    change (s.bwrite pair.2 (s.cache pair.1)).copyBlocks rest = _
    rw [induction fun p first q second =>
      apart p (mem_cons_of_mem _ first) q (mem_cons_of_mem _ second), same]
    simp [bwrite, writes_cons, append_assoc]

end LogState

def InLog (start size blockno : Nat) : Prop := start ≤ blockno ∧ blockno < start + size

structure Transaction (start size : Nat) where
  lh : LogHeader
  distinct : lh.block.Nodup
  fits : lh.n < size
  home : ∀ b ∈ lh.block, ¬InLog start size b.toNat

/-- No transaction is in the log, and the home blocks hold the given contents. -/
structure AtRest (start size : Nat) (content disk : Nat → Block) : Prop where
  clear : getWord (disk start) 0 = 0
  home : ∀ b, ¬InLog start size b → disk b = content b

theorem AtRest.clearHead {start size : Nat} {content disk : Nat → Block}
    (rest : AtRest start size content disk) (fits : 0 < size) {buf : Block}
    (clear : getWord buf 0 = 0) :
    AtRest start size content (update disk start buf) where
  clear := by rw [update_self, clear]
  home := by
    intro b outside
    rw [update_of_ne, rest.home b outside]
    intro same
    exact outside ⟨by omega, by omega⟩

namespace Transaction

variable {start size : Nat} (t : Transaction start size) (old cache : Nat → Block)

def after (b : Nat) : Block :=
  if b ∈ t.lh.block.map UInt32.toNat then cache b else old b

def logWrites : List (Nat × Block) :=
  t.lh.block.zipIdx.map fun entry => (start + entry.2 + 1, cache entry.1.toNat)

def homeWrites : List (Nat × Block) :=
  t.lh.block.map fun b => (b.toNat, cache b.toNat)

/-- The header and the log blocks are on the disk; the blocks of the transaction
may be old or new. -/
structure Committed (disk : Nat → Block) : Prop where
  header : LogHeader.load (disk start) = some t.lh
  logged : ∀ entry ∈ t.lh.block.zipIdx,
    disk (start + entry.2 + 1) = cache entry.1.toNat
  kept : ∀ b, ¬InLog start size b → b ∉ t.lh.block.map UInt32.toNat → disk b = old b

variable {t old cache} {disk : Nat → Block} {b : UInt32} {buf : Block}

theorem toNat_ne_start (member : b ∈ t.lh.block) : b.toNat ≠ start := by
  have outside := t.home b member
  have fits := t.fits
  intro same
  exact outside ⟨by omega, by omega⟩

theorem toNat_ne_slot (member : b ∈ t.lh.block) {entry : UInt32 × Nat}
    (listed : entry ∈ t.lh.block.zipIdx) : b.toNat ≠ start + entry.2 + 1 := by
  have outside := t.home b member
  have fits := t.fits
  have below := snd_lt_of_mem_zipIdx listed
  intro same
  change t.lh.block.length < size at fits
  exact outside ⟨by omega, by omega⟩

theorem nodup_toNat : (t.lh.block.map UInt32.toNat).Nodup :=
  t.distinct.map fun _ _ same => UInt32.toNat_inj.mp same

theorem Committed.homeWrite (committed : t.Committed old cache disk) (member : b ∈ t.lh.block)
    (data : Block) :
    t.Committed old cache (update disk b.toNat data) where
  header := by
    rw [update_of_ne (toNat_ne_start member).symm, committed.header]
  logged := by
    intro entry listed
    rw [update_of_ne (toNat_ne_slot member listed).symm,
      committed.logged entry listed]
  kept := by
    intro other outside unlisted
    rw [update_of_ne, committed.kept other outside unlisted]
    intro same
    exact unlisted (same ▸ mem_map_of_mem member)

theorem Committed.homeOverwritten {made : List (Nat × Block)}
    (committed : t.Committed old cache disk)
    (home : ∀ write ∈ made, write.1 ∈ t.lh.block.map UInt32.toNat) :
    t.Committed old cache (writes disk made) := by
  induction made generalizing disk with
  | nil => exact committed
  | cons write rest induction =>
    obtain ⟨b, member, same⟩ := mem_map.mp (home write mem_cons_self)
    rw [writes_cons, ← same]
    exact induction (committed.homeWrite member write.2) fun other inside =>
      home other (mem_cons_of_mem _ inside)

theorem home_of_mem_homeWrites {write : Nat × Block}
    (member : write ∈ t.homeWrites cache) :
    write.1 ∈ t.lh.block.map UInt32.toNat := by
  obtain ⟨b, listed, same⟩ := mem_map.mp member
  rw [← same]
  exact mem_map_of_mem listed

theorem Committed.installed (committed : t.Committed old cache disk) (clear : getWord buf 0 = 0) :
    AtRest start size (t.after old cache)
      (writes disk (t.homeWrites cache ++ [(start, buf)])) where
  clear := by rw [writes_concat, update_self, clear]
  home := by
    intro b outside
    have fits := t.fits
    have other : b ≠ start := by
      intro same
      exact outside ⟨by omega, by omega⟩
    rw [writes_concat, update_of_ne other, after]
    split
    next listed =>
      obtain ⟨entry, member, same⟩ := mem_map.mp listed
      have keys : (t.homeWrites cache).map Prod.fst = t.lh.block.map UInt32.toNat := by
        rw [homeWrites, map_map]
        rfl
      have written : (b, cache b) ∈ t.homeWrites cache := by
        rw [← same]
        exact mem_map.mpr ⟨entry, member, rfl⟩
      exact writes_of_mem (by rw [keys]; exact nodup_toNat) written disk
    next unlisted =>
      rw [writes_of_untouched, committed.kept b outside unlisted]
      intro write member same
      exact unlisted (same ▸ home_of_mem_homeWrites member)

/-- However many of the writes of an installation are made, the transaction is
still committed or complete. -/
theorem Committed.install (committed : t.Committed old cache disk) (clear : getWord buf 0 = 0)
    (cut : Nat) :
    t.Committed old cache
        (writes disk ((t.homeWrites cache ++ [(start, buf)]).take cut)) ∨
      AtRest start size (t.after old cache)
        (writes disk ((t.homeWrites cache ++ [(start, buf)]).take cut)) := by
  cases Nat.lt_or_ge (t.homeWrites cache).length cut with
  | inl all =>
    right
    rw [take_of_length_le]
    · exact committed.installed clear
    · rw [length_append, length_singleton]
      exact all
  | inr part =>
    left
    rw [take_append_of_le_length part]
    apply committed.homeOverwritten
    intro write member
    exact home_of_mem_homeWrites (mem_of_mem_take member)

end Transaction

section

variable {start size : Nat} {content disk : Nat → Block}

theorem recoveryWrites_of_clear (clear : getWord (disk start) 0 = 0) :
    LogState.recoveryWrites start disk =
      some [(start, LogHeader.empty.store (disk start))] := by
  simp only [LogState.recoveryWrites, LogState.recoverFromLog, LogState.readHead,
    LogState.boot, LogHeader.load_of_clear clear, Option.map_some]
  rfl

theorem AtRest.recoverThrough (rest : AtRest start size content disk) (fits : 0 < size)
    (cuts : List Nat) :
    ∃ disk', LogState.recoverThrough start disk cuts = some disk' ∧
      AtRest start size content disk' := by
  have cleared : ∀ {disk}, AtRest start size content disk →
      AtRest start size content
        (writes disk [(start, LogHeader.empty.store (disk start))]) :=
    fun rest => rest.clearHead fits (LogHeader.getWord_store_empty _)
  induction cuts generalizing disk with
  | nil =>
    refine ⟨_, ?_, cleared rest⟩
    rw [LogState.recoverThrough, recoveryWrites_of_clear rest.clear]
    rfl
  | cons cut cuts induction =>
    rw [LogState.recoverThrough, recoveryWrites_of_clear rest.clear, Option.bind_some]
    cases cut with
    | zero => exact induction rest
    | succ cut =>
      rw [take_succ_cons, take_nil]
      exact induction (cleared rest)

end

namespace Transaction

variable {start size : Nat} {t : Transaction start size} {old cache disk : Nat → Block}

theorem apart_install (t : Transaction start size) :
    ∀ p ∈ t.lh.block.zipIdx.map fun entry => (start + entry.2 + 1, entry.1.toNat),
      ∀ q ∈ t.lh.block.zipIdx.map fun entry => (start + entry.2 + 1, entry.1.toNat),
        p.2 ≠ q.1 := by
  intro p first q second
  obtain ⟨source, listed, same⟩ := mem_map.mp first
  obtain ⟨target, listed', same'⟩ := mem_map.mp second
  rw [← same, ← same']
  exact toNat_ne_slot (fst_mem_of_mem_zipIdx listed) listed'

theorem homeWrites_of_logged {source : Nat → Block}
    (logged : ∀ entry ∈ t.lh.block.zipIdx,
      source (start + entry.2 + 1) = cache entry.1.toNat) :
    ((t.lh.block.zipIdx.map fun entry => (start + entry.2 + 1, entry.1.toNat)).map
      fun pair => (pair.2, source pair.1)) = t.homeWrites cache := by
  have entries : (t.lh.block.zipIdx.map fun entry => (entry.1.toNat, cache entry.1.toNat)) =
      t.homeWrites cache := by
    rw [homeWrites, ← zipIdx_map_fst 0 t.lh.block, map_map, zipIdx_map_fst]
    rfl
  rw [map_map, ← entries]
  apply map_congr_left
  intro entry member
  change (entry.1.toNat, source (start + entry.2 + 1)) = _
  rw [logged entry member]

theorem recoveryWrites_of_committed (committed : t.Committed old cache disk) :
    ∃ buf, getWord buf 0 = 0 ∧
      LogState.recoveryWrites start disk = some (t.homeWrites cache ++ [(start, buf)]) := by
  have copied := LogState.copyBlocks_eq (t.apart_install) (⟨disk, [], t.lh⟩)
  rw [homeWrites_of_logged committed.logged] at copied
  refine ⟨LogHeader.empty.store (writes disk (t.homeWrites cache) start),
    LogHeader.getWord_store_empty _, ?_⟩
  simp only [LogState.recoveryWrites, LogState.recoverFromLog, LogState.readHead,
    LogState.boot, committed.header, Option.map_some, LogState.installTrans, copied]
  rfl

theorem Committed.recoverThrough (committed : t.Committed old cache disk)
    (cuts : List Nat) :
    ∃ disk', LogState.recoverThrough start disk cuts = some disk' ∧
      AtRest start size (t.after old cache) disk' := by
  induction cuts generalizing disk with
  | nil =>
    obtain ⟨buf, clear, issued⟩ := recoveryWrites_of_committed committed
    refine ⟨_, ?_, committed.installed clear⟩
    rw [LogState.recoverThrough, issued]
    rfl
  | cons cut cuts induction =>
    obtain ⟨buf, clear, issued⟩ := recoveryWrites_of_committed committed
    rw [LogState.recoverThrough, issued, Option.bind_some]
    cases committed.install clear cut with
    | inl still => exact induction still
    | inr rest => exact rest.recoverThrough (Nat.zero_lt_of_lt t.fits) cuts

theorem nodup_logWrites : ((t.logWrites cache).map Prod.fst).Nodup := by
  have keys : (t.logWrites cache).map Prod.fst =
      (List.range' 0 t.lh.block.length).map fun index => start + index + 1 := by
    rw [logWrites, map_map, ← zipIdx_map_snd 0 t.lh.block, map_map]
    rfl
  rw [keys]
  refine List.Nodup.map ?_ nodup_range'
  intro first second same
  exact Nat.add_left_cancel (Nat.succ.inj same)

theorem logged_logWrites (store : Nat → Block) {entry : UInt32 × Nat}
    (member : entry ∈ t.lh.block.zipIdx) :
    writes store (t.logWrites cache) (start + entry.2 + 1) = cache entry.1.toNat :=
  writes_of_mem nodup_logWrites (mem_map.mpr ⟨entry, member, rfl⟩) store

theorem inLog_of_mem_logWrites {write : Nat × Block} (member : write ∈ t.logWrites cache) :
    start < write.1 ∧ InLog start size write.1 := by
  obtain ⟨entry, listed, same⟩ := mem_map.mp member
  have below := snd_lt_of_mem_zipIdx listed
  have fits : t.lh.block.length < size := t.fits
  rw [← same]
  exact ⟨by omega, by omega, by omega⟩

theorem apart_writeLog (t : Transaction start size) :
    ∀ p ∈ t.lh.block.zipIdx.map fun entry => (entry.1.toNat, start + entry.2 + 1),
      ∀ q ∈ t.lh.block.zipIdx.map fun entry => (entry.1.toNat, start + entry.2 + 1),
        p.2 ≠ q.1 := by
  intro p first q second
  obtain ⟨source, listed, same⟩ := mem_map.mp first
  obtain ⟨target, listed', same'⟩ := mem_map.mp second
  rw [← same, ← same']
  exact (toNat_ne_slot (fst_mem_of_mem_zipIdx listed') listed).symm

theorem issued_commit (t : Transaction start size) (cache : Nat → Block)
    (nonempty : 0 < t.lh.n) :
    ∃ head buf, LogHeader.load head = some t.lh ∧ getWord buf 0 = 0 ∧
      (LogState.commit start ⟨cache, [], t.lh⟩).issued =
        t.logWrites cache ++ (start, head) :: (t.homeWrites cache ++ [(start, buf)]) := by
  have logged : LogState.writeLog start ⟨cache, [], t.lh⟩ =
      ⟨writes cache (t.logWrites cache), t.logWrites cache, t.lh⟩ := by
    rw [LogState.writeLog, LogState.copyBlocks_eq t.apart_writeLog, map_map]
    rfl
  let head := t.lh.store (writes cache (t.logWrites cache) start)
  let headed := update (writes cache (t.logWrites cache)) start head
  have committed : LogState.writeHead start
      ⟨writes cache (t.logWrites cache), t.logWrites cache, t.lh⟩ =
        ⟨headed, t.logWrites cache ++ [(start, head)], t.lh⟩ := rfl
  have sources : ∀ entry ∈ t.lh.block.zipIdx,
      headed (start + entry.2 + 1) = cache entry.1.toNat := by
    intro entry member
    have other : start + entry.2 + 1 ≠ start := by omega
    exact (update_of_ne other _ _).trans (logged_logWrites cache member)
  have installed := LogState.copyBlocks_eq t.apart_install
    ⟨headed, t.logWrites cache ++ [(start, head)], t.lh⟩
  rw [homeWrites_of_logged sources] at installed
  refine ⟨head, LogHeader.empty.store (writes headed (t.homeWrites cache) start),
    LogHeader.load_store _ _, LogHeader.getWord_store_empty _, ?_⟩
  rw [LogState.commit, if_pos nonempty, logged, committed, LogState.installTrans, installed]
  simp [LogState.writeHead, LogState.bwrite]

theorem committed_of_head {head : Block} (loads : LogHeader.load head = some t.lh) :
    t.Committed disk cache
      (update (writes disk (t.logWrites cache)) start head) where
  header := by rw [update_self, loads]
  logged := by
    intro entry member
    have other : start + entry.2 + 1 ≠ start := by omega
    rw [update_of_ne other, logged_logWrites disk member]
  kept := by
    intro b outside _
    have fits := t.fits
    have other : b ≠ start := by
      intro same
      exact outside ⟨by omega, by omega⟩
    rw [update_of_ne other, writes_of_untouched]
    intro write member same
    exact outside (same ▸ (inLog_of_mem_logWrites member).2)

/-- However many of the writes of a commit are made, either the header is not
among them and nothing has happened, or the transaction is committed, or it is
complete. -/
theorem commit_cut (t : Transaction start size) (cache : Nat → Block)
    (clear : getWord (disk start) 0 = 0) (cut : Nat) :
    let crashed := writes disk ((LogState.commit start ⟨cache, [], t.lh⟩).issued.take cut)
    cut ≤ t.lh.n ∧ AtRest start size disk crashed ∨
      t.lh.n < cut ∧ (t.Committed disk cache crashed ∨
        AtRest start size (t.after disk cache) crashed) := by
  intro crashed
  cases Nat.eq_zero_or_pos t.lh.n with
  | inl none =>
    have unchanged : crashed = disk := by
      have idle : ¬t.lh.n > 0 := by omega
      simp only [crashed, LogState.commit, if_neg idle, take_nil]
      rfl
    have vacant : t.lh.block = [] := length_eq_zero_iff.mp none
    rw [unchanged]
    cases Nat.lt_or_ge t.lh.n cut with
    | inl late =>
      refine .inr ⟨late, .inr ⟨clear, fun b _ => ?_⟩⟩
      simp [after, vacant]
    | inr early => exact .inl ⟨early, clear, fun _ _ => rfl⟩
  | inr some =>
    obtain ⟨head, buf, loads, empty, issued⟩ := t.issued_commit cache some
    have length : (t.logWrites cache).length = t.lh.n := by
      rw [logWrites, length_map, length_zipIdx]
      rfl
    cases Nat.lt_or_ge t.lh.n cut with
    | inl late =>
      obtain ⟨rest, equal⟩ : ∃ rest, cut = t.lh.n + (rest + 1) :=
        ⟨cut - t.lh.n - 1, by omega⟩
      have reached : crashed =
          writes (update (writes disk (t.logWrites cache)) start head)
            ((t.homeWrites cache ++ [(start, buf)]).take rest) := by
        simp only [crashed, issued]
        rw [equal, ← length, take_length_add_append, take_succ_cons,
          writes_append, writes_cons]
      rw [reached]
      exact .inr ⟨late, (committed_of_head loads).install empty rest⟩
    | inr early =>
      refine .inl ⟨early, ?_⟩
      have reached : crashed = writes disk ((t.logWrites cache).take cut) := by
        simp only [crashed, issued]
        rw [take_append_of_le_length (length ▸ early)]
      rw [reached]
      refine ⟨?_, ?_⟩
      · rw [writes_of_untouched, clear]
        intro write member
        exact Nat.ne_of_gt (inLog_of_mem_logWrites (mem_of_mem_take member)).1
      · intro b outside
        apply writes_of_untouched
        intro write member same
        exact outside (same ▸ (inLog_of_mem_logWrites (mem_of_mem_take member)).2)

/-- A transaction that fits the log takes place entirely, if its header reached
the disk before the crash, or not at all, through any number of interrupted
recoveries; and recovery leaves the log empty. -/
theorem commit_crash_atomic (t : Transaction start size) (disk cache : Nat → Block)
    (clear : getWord (disk start) 0 = 0) (cut : Nat) (cuts : List Nat) :
    ∃ disk', LogState.recoverThrough start
        (writes disk ((LogState.commit start ⟨cache, [], t.lh⟩).issued.take cut)) cuts =
          some disk' ∧
      getWord (disk' start) 0 = 0 ∧
      ((cut ≤ t.lh.n ∧ ∀ b, ¬InLog start size b → disk' b = disk b) ∨
        (t.lh.n < cut ∧ ∀ b, ¬InLog start size b →
          disk' b = if b ∈ t.lh.block.map UInt32.toNat then cache b else disk b)) := by
  have fits : 0 < size := Nat.zero_lt_of_lt t.fits
  rcases t.commit_cut cache clear cut with ⟨early, rest⟩ | ⟨late, committed | rest⟩
  · obtain ⟨disk', recovered, final⟩ := rest.recoverThrough fits cuts
    exact ⟨disk', recovered, final.clear, .inl ⟨early, final.home⟩⟩
  · obtain ⟨disk', recovered, final⟩ := committed.recoverThrough cuts
    exact ⟨disk', recovered, final.clear, .inr ⟨late, final.home⟩⟩
  · obtain ⟨disk', recovered, final⟩ := rest.recoverThrough fits cuts
    exact ⟨disk', recovered, final.clear, .inr ⟨late, final.home⟩⟩

def twoBlocks : Transaction 2 30 where
  lh := ⟨[70, 71], by decide⟩
  distinct := by decide
  fits := by decide
  home := by simp [InLog]

/-- The crash comes after the first home block is written, and the first recovery
stops after its first write. -/
theorem commit_crash_atomic_twoBlocks :
    ∃ disk', LogState.recoverThrough 2 (writes (fun _ _ => 0)
        ((LogState.commit 2 ⟨fun _ _ => 7, [], twoBlocks.lh⟩).issued.take 4)) [1] =
          some disk' ∧
      getWord (disk' 2) 0 = 0 ∧ disk' 70 = (fun _ => 7) ∧ disk' 71 = (fun _ => 7) := by
  obtain ⟨disk', recovered, clear, early | late⟩ :=
    twoBlocks.commit_crash_atomic (fun _ _ => 0) (fun _ _ => 7) (by decide) 4 [1]
  · exact absurd early.1 (by decide)
  · have outside : ∀ b, 32 ≤ b → ¬InLog 2 30 b := fun b above inside => by
      have := inside.2
      omega
    refine ⟨disk', recovered, clear, ?_, ?_⟩
    · exact (late.2 70 (outside 70 (by decide))).trans (if_pos (by decide))
    · exact (late.2 71 (outside 71 (by decide))).trans (if_pos (by decide))

end Transaction

end StraceXv6.Kernel
