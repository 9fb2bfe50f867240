import Mathlib.Algebra.BigOperators.Ring.Finset
import StraceXv6.Data.Tally
import StraceXv6.Kernel.Bio.Order

namespace StraceXv6.Kernel.Bio

open Option Data

/-! Whether `bget` finds a buffer, and processes that read files at the same time. -/

namespace Cache

variable {P D : Type}

/-- The buffers that wait for the log, which nobody has. -/
def pinned (c : Cache P D) : Nat :=
  (Finset.univ.filter fun b => (c.buf b).busy = false ∧ (c.buf b).dirty = true).card

end Cache

abbrev bsize : Nat := 512

abbrev ndirect : Nat := 12

structure Inode where
  dev : UInt32
  size : UInt32
  addrs : Nat → UInt32

structure File (I : Type) where
  ip : I
  off : UInt32

/-- Where a process is in `fileread`: in the loop of `readi`, before `bread` or after it.
`bmap` may have found a block in the indirect one. -/
inductive Place (F : Type) where
  | out
  | loop (f : F) (off left : UInt32) (found : Option UInt32)
  | block (f : F) (off left : UInt32) (found : Option UInt32)
  deriving DecidableEq

structure System (P I F D : Type) where
  cache : Cache P D
  inode : I → Inode
  file : F → File I
  owner : I → Option P
  place : P → Place F

inductive Call (P F : Type) where
  | fileread (p : P) (f : F) (n : UInt32)
  | bread (p : P)
  | rescan (p : P)
  | stir (p : P)
  | iderw (p : P) (b : BufIx)
  | brelse (p : P) (b : BufIx)
  | iunlock (p : P)

/-- The block that is read next: the indirect block first, if the file needs it. -/
def Inode.wanted (ip : Inode) (off : UInt32) (found : Option UInt32) : UInt32 :=
  found.getD (ip.addrs (min (off.toNat / bsize) ndirect))

namespace System

variable {P I F D : Type} [DecidableEq P] [DecidableEq I] [DecidableEq F]

def setPlace (s : System P I F D) (p : P) (place : Place F) : System P I F D :=
  { s with place := Function.update s.place p place }

def setOwner (s : System P I F D) (ip : I) (owner : Option P) : System P I F D :=
  { s with owner := Function.update s.owner ip owner }

def count (ip : Inode) (off n : UInt32) : Option UInt32 :=
  if ip.size < off ∨ off + n < off then none
  else some (if ip.size < off + n then ip.size - off else n)

def fileread (s : System P I F D) (p : P) (f : F) (n : UInt32) : Option (System P I F D) :=
  let file := s.file f
  if s.place p = .out ∧ s.owner file.ip = none then
    match count (s.inode file.ip) file.off n with
    | none => some s
    | some left =>
      some ((s.setOwner file.ip (some p)).setPlace p (.loop f file.off left none))
  else none

/-- A step within `bread` or `brelse`. -/
def inCache (s : System P I F D) (label : Label P D) : Option (System P I F D) :=
  (s.cache.step label).map fun cache => { s with cache := cache }

def bread (s : System P I F D) (p : P) : Option (System P I F D) :=
  match s.place p with
  | .loop f off left found =>
    let ip := s.inode (s.file f).ip
    if left = 0 then none
    else
      (s.inCache (.bget p ip.dev (ip.wanted off found))).map fun s =>
        s.setPlace p (.block f off left found)
  | _ => none

/-- What `bmap` or `readi` does with a block, up to `brelse`. -/
def brelse (entry : D → Nat → UInt32) (s : System P I F D) (p : P) (b : BufIx) :
    Option (System P I F D) :=
  match s.place p with
  | .block f off left found =>
    let bn := off.toNat / bsize
    let m := min left (.ofNat (bsize - off.toNat % bsize))
    if (s.cache.buf b).valid then
      (s.inCache (.brelse p b)).map fun released =>
        released.setPlace p
          (if ndirect ≤ bn ∧ found = none then
            .loop f off left (some (entry (s.cache.buf b).data (bn - ndirect)))
          else .loop f (off + m) (left - m) none)
    else none
  | _ => none

def iunlock (s : System P I F D) (p : P) : Option (System P I F D) :=
  match s.place p with
  | .loop f off left _ =>
    if left = 0 then
      some ((({ s with file := Function.update s.file f ⟨(s.file f).ip, off⟩ } :
        System P I F D).setOwner (s.file f).ip none).setPlace p .out)
    else none
  | _ => none

def step (entry : D → Nat → UInt32) (s : System P I F D) : Call P F → Option (System P I F D)
  | .fileread p f n => s.fileread p f n
  | .bread p => s.bread p
  | .rescan p => s.inCache (.rescan p)
  | .stir p => s.inCache (.stir p)
  | .iderw p b => s.inCache (.iderw p b)
  | .brelse p b => s.brelse entry p b
  | .iunlock p => s.iunlock p

variable {entry : D → Nat → UInt32} {s s' : System P I F D}

theorem cache_of_step {call : Call P F} (stepped : s.step entry call = some s') :
    s'.cache = s.cache ∨ ∃ label, s.cache.step label = some s'.cache := by
  have within : ∀ {label : Label P D} {t : System P I F D}, s.inCache label = some t →
      ∃ label, s.cache.step label = some t.cache := by
    intro label t entered
    obtain ⟨cache, stepped, rfl⟩ := map_eq_some_iff.mp entered
    exact ⟨label, stepped⟩
  cases call with
  | fileread p f n =>
    simp only [step, fileread] at stepped
    split at stepped
    next =>
      split at stepped
      next => exact .inl (congrArg cache (Option.some.inj stepped)).symm
      next => exact .inl (congrArg cache (Option.some.inj stepped)).symm
    next => cases stepped
  | bread p =>
    simp only [step, bread] at stepped
    split at stepped
    next =>
      split at stepped
      next => cases stepped
      next =>
        obtain ⟨t, entered, rfl⟩ := map_eq_some_iff.mp stepped
        obtain ⟨label, moved⟩ := within entered
        exact .inr ⟨label, moved⟩
    next => cases stepped
  | rescan p | stir p | iderw p b => exact .inr (within stepped)
  | brelse p b =>
    simp only [step, brelse] at stepped
    split at stepped
    next =>
      split at stepped
      next =>
        obtain ⟨t, entered, rfl⟩ := map_eq_some_iff.mp stepped
        obtain ⟨label, moved⟩ := within entered
        exact .inr ⟨label, moved⟩
      next => cases stepped
    next => cases stepped
  | iunlock p =>
    simp only [step, iunlock] at stepped
    split at stepped
    next =>
      split at stepped
      next => exact .inl (congrArg cache (Option.some.inj stepped)).symm
      next => cases stepped
    next => cases stepped

end System

namespace Cache

variable {P D : Type} {c : Cache P D} {order : List BufIx}

theorem Kept.card_busy (kept : Kept c order) :
    (Finset.univ.filter fun b => (c.buf b).busy = true).card = c.handles.length := by
  have fibres : ∀ handles : List (P × BufIx),
      ∑ b : BufIx, (handles.filter fun handle => handle.2 = b).length = handles.length := by
    intro handles
    induction handles with
    | nil => simp
    | cons handle rest induction =>
      have grows : ∀ b, ((handle :: rest).filter fun handle => handle.2 = b).length =
          (rest.filter fun handle => handle.2 = b).length + if handle.2 = b then 1 else 0 := by
        intro b
        by_cases same : handle.2 = b <;> simp [same]
      rw [Finset.sum_congr rfl fun b _ => grows b, Finset.sum_add_distrib, induction,
        Finset.sum_ite_eq, if_pos (Finset.mem_univ _), List.length_cons]
  rw [← fibres, Finset.card_filter]
  exact Finset.sum_congr rfl fun b _ => (kept.holders b).symm

theorem Kept.card_inUse (kept : Kept c order) :
    c.handles.length + c.pinned +
      (Finset.univ.filter fun b => c.clean b = true).card = nbuf := by
  have clean : (Finset.univ.filter fun b => c.clean b = true) =
      ((Finset.univ.filter fun b => ¬(c.buf b).busy = true).filter
        fun b => ¬(c.buf b).dirty = true) := by
    ext b
    simp [Cache.clean]
  have pinned : c.pinned = ((Finset.univ.filter fun b => ¬(c.buf b).busy = true).filter
      fun b => (c.buf b).dirty = true).card := by
    rw [Cache.pinned, Finset.filter_filter]
    simp
  rw [← kept.card_busy, pinned, clean, Nat.add_assoc, Finset.card_filter_add_card_filter_not,
    Finset.card_filter_add_card_filter_not, Finset.card_univ, Fintype.card_fin]

theorem Kept.victim_iff (kept : Kept c order) :
    (∃ b, c.victim = some (some b)) ↔ c.handles.length + c.pinned < nbuf := by
  have total := kept.card_inUse
  rw [kept.victim_eq]
  constructor
  · rintro ⟨b, found⟩
    have member : b ∈ Finset.univ.filter fun b => c.clean b = true :=
      Finset.mem_filter.mpr ⟨Finset.mem_univ b, List.find?_some (Option.some.inj found)⟩
    have positive := Finset.card_pos.mpr ⟨b, member⟩
    omega
  · intro fewer
    obtain ⟨b, member⟩ := Finset.card_pos.mp
      (show 0 < (Finset.univ.filter fun b => c.clean b = true).card by omega)
    have clean := (Finset.mem_filter.mp member).2
    have some := List.find?_isSome.mpr ⟨b, List.mem_reverse.mpr (kept.all b), clean⟩
    obtain ⟨found, is⟩ := isSome_iff_exists.mp some
    exact ⟨found, congrArg Option.some is⟩

theorem Kept.exists_uncached (kept : Kept c order) : ∃ blockno, c.lookup 1 blockno = some none := by
  obtain ⟨blockno, other⟩ := exists_word_ne (by decide) fun b => (c.buf b).blockno
  refine ⟨blockno, ?_⟩
  rw [kept.lookup_eq, List.find?_eq_none.mpr]
  intro b _ here
  exact other b (Prod.mk.inj (Kept.caches_iff.mp here)).2

end Cache

def oneBlockFiles : System (Fin 64) (Fin 50) (Fin 100) Nat where
  cache := .binit 0 fun _ => 0
  inode := fun ip => ⟨1, 512, fun _ => .ofNat (100 + ip.val)⟩
  file := fun f => ⟨Fin.ofNat 50 f.val, 0⟩
  owner := fun _ => none
  place := fun _ => .out

/-- A process reads each of 31 files, and all but the last have a buffer. -/
def readEach : List (Call (Fin 64) (Fin 100)) :=
  (List.range 31).map (fun i => .fileread (Fin.ofNat 64 i) (Fin.ofNat 100 i) 1) ++
    (List.range 30).map fun i => .bread (Fin.ofNat 64 i)

end StraceXv6.Kernel.Bio
