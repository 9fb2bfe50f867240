import StraceXv6.Data.Signed
import StraceXv6.Kernel.Arguments
import StraceXv6.Kernel.Fs.FileWrite
import StraceXv6.Kernel.Memlayout
import StraceXv6.Kernel.Pipes.Machine

namespace StraceXv6.Kernel

open UInt32 List Data Data.Command

/-! The pointers that a process passes to `read` and `write`. -/

abbrev nofile : Nat := 16

inductive OpenFile where
  | pipe (readable writable : Bool) (sections : List Pipes.Pipe)
  | inode (file : Fs.File)

abbrev Ofile : Type := Fin nofile → Option OpenFile

/-- The bytes that the loop of `consoleread` stores, and whether it was killed while it waited
for more input. -/
def consoleread : List UInt8 → Nat → List UInt8 × Bool
  | _, 0 => ([], false)
  | [], _ + 1 => ([], true)
  | c :: input, n + 1 =>
    if c = 4 then ([], false)
    else if c = '\n'.toUInt8 then ([c], false)
    else (c :: (consoleread input n).1, (consoleread input n).2)

/-- `devsw[..].read` -/
def deviceRead (input : List UInt8) (n : Int32) (major : Int16) : Option (Int32 × List UInt8) :=
  if major = 1 then
    let bytes := (consoleread input n.toInt.toNat).1
    some (if (consoleread input n.toInt.toNat).2 then -1 else .ofNat bytes.length, bytes)
  else none

/-- The bytes that a `pipewrite` stores in its sections. -/
def pipewrite : List Pipes.Pipe → List UInt8 → List UInt8
  | [], _ => []
  | pipe :: later, rest => (pipe.fill rest).2.1 ++ pipewrite later (pipe.fill rest).2.2

/-- `devsw[..].write` for the bytes from `i` on, as `filewrite` calls it. -/
def deviceWrite (n : Int32) (i : Nat) (major : Int16) : Option Int32 :=
  if major = 1 then some (.ofNat (min (n.toInt.toNat - i) Fs.filewriteMax)) else none

section

variable (sb : Superblock)

/-- The result and the bytes stored from `addr` on. -/
def fileread (input : List UInt8) (f : OpenFile) (n : Int32) : Fs.FsM (Int32 × List UInt8) :=
  match f with
  | .pipe false _ _ => return (-1, [])
  | .pipe true _ [] => return (-1, [])
  | .pipe true _ (pipe :: _) =>
    let bytes := (pipe.copy n.toInt.toNat).2
    return (.ofNat bytes.length, bytes)
  | .inode file =>
    if !file.readable then return (-1, [])
    else do
      Fs.ilock sb file.ip
      let read ← Fs.readi sb (deviceRead input n) file.ip file.off n.toUInt32
      Fs.iunlock file.ip
      return read

/-- The result, and the bytes that go to a pipe or to the console. -/
def filewrite (f : OpenFile) (src : Nat → UInt8) (n : Int32) : Fs.FsM (Int32 × List UInt8) :=
  match f with
  | .pipe _ false _ => return (-1, [])
  | .pipe _ true sections =>
    let stored := pipewrite sections (Pipes.given src n)
    return (if stored.length = n.toInt.toNat then n else -1, stored)
  | .inode file => do
    let (r, file, _) ← Fs.filewrite sb (deviceWrite n) file src n
    let inode ← Fs.getInode file.ip
    return (r, if inode.type = tDev ∧ inode.major = 1 then Pipes.given src n else [])

end

section

variable {sb : Superblock}

theorem length_consoleread (input : List UInt8) (n : Nat) :
    (consoleread input n).1.length ≤ n := by
  induction n generalizing input with
  | zero => simp [consoleread]
  | succ n induction =>
    cases input with
    | nil => simp [consoleread]
    | cons c input =>
      rw [consoleread]
      split
      next => exact Nat.zero_le _
      next =>
        split
        next => exact Nat.succ_le_succ (Nat.zero_le n)
        next => exact Nat.succ_le_succ (induction input)

theorem length_copy (pipe : Pipes.Pipe) (n : Nat) : (pipe.copy n).2.length ≤ n := by
  induction n generalizing pipe with
  | zero => exact Nat.le_refl 0
  | succ n induction =>
    rw [Pipes.Pipe.copy]
    split
    next => exact Nat.zero_le _
    next => exact Nat.succ_le_succ (induction pipe.drop)

theorem toNat_toUInt32_of_nonneg {size : Int32} (nonneg : 0 ≤ size) :
    size.toUInt32.toNat = size.toInt.toNat ∧ size.toInt.toNat < 2 ^ 31 := by
  have value := toNat_toUInt32 (Int32.le_iff_toInt_le.mp nonneg)
  have limit := size.toInt_lt
  omega

variable {fs : Fs} {ip : Fin ninode} {turns : Nat} {input : List UInt8} {n : Int32} {off : UInt32}
  {f : OpenFile}

theorem readiLoop_length {off n : Nat} :
    Ensures (Fs.readiLoop sb ip turns off n) fs (fun bytes _ => bytes.length ≤ n)
      fun _ => True := by
  induction turns generalizing fs off n with
  | zero => exact Nat.zero_le _
  | succ turns induction =>
    rw [Fs.readiLoop]
    split
    next => exact Nat.zero_le _
    next =>
      refine (ensures_trivial _ fs).seq fun addr fs _ => ?_
      refine (ensures_trivial _ fs).seq fun data fs _ => ?_
      refine induction.seq fun rest fs short => ?_
      change (_ ++ _ : List UInt8).length ≤ n
      rw [length_append, length_map, length_range]
      omega

theorem transfer_deviceRead (input : List UInt8) (n : Int32) (major : Int16) :
    (Fs.transfer (deviceRead input n) (-1, []) major).2.length ≤ n.toInt.toNat := by
  unfold Fs.transfer deviceRead
  split
  next => exact Nat.zero_le _
  next =>
    split
    next => exact length_consoleread input _
    next => exact Nat.zero_le _

theorem readi_length (nonneg : 0 ≤ n) :
    Ensures (Fs.readi sb (deviceRead input n) ip off n.toUInt32) fs
      (fun read _ => read.2.length ≤ n.toInt.toNat) fun _ => True := by
  obtain ⟨value, _⟩ := toNat_toUInt32_of_nonneg nonneg
  unfold Fs.readi
  refine (ensures_trivial _ fs).seq fun inode fs _ => ?_
  split
  next => exact transfer_deviceRead input n inode.major
  next =>
    split
    next => exact Nat.zero_le _
    next inside =>
      refine readiLoop_length.seq fun bytes fs short => ?_
      change bytes.length ≤ n.toInt.toNat
      refine short.trans ?_
      rw [not_or, UInt32.not_lt, UInt32.not_lt, UInt32.le_iff_toNat_le,
        UInt32.le_iff_toNat_le, UInt32.toNat_add] at inside
      split
      next ended =>
        rw [UInt32.lt_iff_toNat_lt, UInt32.toNat_add] at ended
        rw [UInt32.toNat_sub_of_le _ _ (UInt32.le_iff_toNat_le.mpr inside.1), ← value]
        have bound := off.toNat_lt
        have limit := n.toUInt32.toNat_lt
        omega
      next => rw [value]

theorem fileread_length (nonneg : 0 ≤ n) :
    Ensures (fileread sb input f n) fs (fun read _ => read.2.length ≤ n.toInt.toNat)
      fun _ => True := by
  cases f with
  | pipe readable writable sections =>
    cases readable with
    | false => exact Nat.zero_le _
    | true =>
      cases sections with
      | nil => exact Nat.zero_le _
      | cons pipe later => exact length_copy pipe _
  | inode file =>
    rw [fileread]
    split
    next => exact Nat.zero_le _
    next =>
      refine (ensures_trivial _ fs).seq fun _ fs _ => ?_
      refine (readi_length nonneg).seq fun read fs short => ?_
      exact (ensures_trivial _ fs).seq fun _ _ _ => short

variable {src src' : Nat → UInt8}

theorem blit_congr {m : Nat} (same : ∀ k < m, src k = src' k) (data : Block) (start : Nat) :
    Fs.blit data start src m = Fs.blit data start src' m := by
  funext k
  unfold Fs.blit
  split
  next inside => exact same _ (by omega)
  next => rfl

theorem writeiLoop_congr {off n : Nat} (same : ∀ k < n, src k = src' k) :
    Fs.writeiLoop sb ip turns src off n = Fs.writeiLoop sb ip turns src' off n := by
  induction turns generalizing src src' off n with
  | zero => rfl
  | succ turns induction =>
    have first : ∀ data start, Fs.blit data start src (min n (bsize - off % bsize)) =
        Fs.blit data start src' (min n (bsize - off % bsize)) :=
      blit_congr fun k below => same k (by omega)
    rw [Fs.writeiLoop, Fs.writeiLoop]
    simp only [first]
    have rest := @induction (fun k => src (min n (bsize - off % bsize) + k))
      (fun k => src' (min n (bsize - off % bsize) + k)) (off + min n (bsize - off % bsize))
      (n - min n (bsize - off % bsize)) fun k below => same _ (by omega)
    rw [rest]

theorem writei_congr {device : Int16 → Option Int32} {n : UInt32}
    (same : ∀ k < n.toNat, src k = src' k) :
    Fs.writei sb device ip src off n = Fs.writei sb device ip src' off n := by
  unfold Fs.writei
  rw [writeiLoop_congr same]

theorem filewriteLoop_congr {device : Nat → Int16 → Option Int32} {n i : Nat}
    (same : ∀ k < n, src k = src' k) :
    Fs.filewriteLoop sb device ip src n turns i off =
      Fs.filewriteLoop sb device ip src' n turns i off := by
  induction turns generalizing i off with
  | zero => rfl
  | succ turns induction =>
    have turn : Fs.filewriteTurn sb (device i) ip (fun k => src (i + k)) off
          (UInt32.ofNat (min (n - i) Fs.filewriteMax)) =
        Fs.filewriteTurn sb (device i) ip (fun k => src' (i + k)) off
          (UInt32.ofNat (min (n - i) Fs.filewriteMax)) := by
      unfold Fs.filewriteTurn
      rw [writei_congr]
      intro k below
      rw [toNat_ofNat'] at below
      exact same _ (by omega)
    simp only [Fs.filewriteLoop, turn, induction]

theorem given_congr (same : ∀ k < n.toInt.toNat, src k = src' k) :
    Pipes.given src n = Pipes.given src' n :=
  map_congr_left fun k member => same k (mem_range.mp member)

theorem filewrite_congr (same : ∀ k < n.toInt.toNat, src k = src' k) :
    filewrite sb f src n = filewrite sb f src' n := by
  cases f with
  | pipe readable writable sections =>
    cases writable with
    | false => rfl
    | true =>
      simp only [filewrite, given_congr same]
  | inode file =>
    simp only [filewrite, given_congr same, Fs.filewrite, filewriteLoop_congr same]

end

namespace UserSpace

def argfd (u : UserSpace) (ofile : Ofile) (n : UInt32) : Option OpenFile :=
  (u.argint n).bind fun fd =>
    if inside : 0 ≤ fd.toInt ∧ fd.toInt < nofile then ofile ⟨fd.toInt.toNat, by omega⟩ else none

/-- The result and the stores into user memory. -/
def sysRead (sb : Superblock) (input : List UInt8) (u : UserSpace) (ofile : Ofile) :
    Fs.FsM (Int32 × List (UInt32 × UInt8)) :=
  match u.argfd ofile 0, u.argint 2 with
  | some f, some n =>
    match u.argptr 1 n with
    | some p => do
      let (r, bytes) ← fileread sb input f n
      return (r, bytes.mapIdx fun i byte => (p + .ofNat i, byte))
    | none => return (-1, [])
  | _, _ => return (-1, [])

def sysWrite (sb : Superblock) (u : UserSpace) (ofile : Ofile) :
    Fs.FsM (Int32 × List UInt8) :=
  match u.argfd ofile 0, u.argint 2 with
  | some f, some n =>
    match u.argptr 1 n with
    | some p => filewrite sb f (fun i => u.memory (p + .ofNat i)) n
    | none => return (-1, [])
  | _, _ => return (-1, [])

def Agrees (u v : UserSpace) : Prop :=
  v.sz = u.sz ∧ v.esp = u.esp ∧ ∀ addr, addr < u.sz → v.memory addr = u.memory addr

/-- `argptr` does not take a pointer for a negative size. -/
def Guarded (u : UserSpace) (n : UInt32) (size : Int32) : Prop :=
  0 ≤ size ∨ ∀ word, u.argint n = some word →
    u.sz ≤ word.toUInt32 ∨ u.sz < word.toUInt32 + size.toUInt32

section

variable {u v : UserSpace} {p sz addr n : UInt32} {size : Int32}

theorem add_lt_of_bound {count i : Nat} (bound : p.toNat + count ≤ sz.toNat) (inside : i < count) :
    p + .ofNat i < sz := by
  have limit := sz.toNat_lt
  rw [UInt32.lt_iff_toNat_lt, UInt32.toNat_add, UInt32.toNat_ofNat']
  omega

theorem fetchint_eq_some {word : Int32} (fetched : u.fetchint addr = some word)
    (small : u.sz ≤ kernbase) : addr.toNat + 4 ≤ u.sz.toNat ∧ word = (u.word addr).toInt32 := by
  unfold fetchint at fetched
  split at fetched
  next => cases fetched
  next inside =>
    rw [not_or, UInt32.not_le, UInt32.not_lt, UInt32.lt_iff_toNat_lt, UInt32.le_iff_toNat_le,
      UInt32.toNat_add] at inside
    rw [le_iff_toNat_le] at small
    change u.sz.toNat ≤ 0x80000000 at small
    change addr.toNat < u.sz.toNat ∧ (addr.toNat + 4) % 2 ^ 32 ≤ u.sz.toNat at inside
    exact ⟨by omega, (Option.some.inj fetched).symm⟩

theorem fetchint_congr (agrees : Agrees u v) (small : u.sz ≤ kernbase) (addr : UInt32) :
    v.fetchint addr = u.fetchint addr := by
  obtain ⟨sz, _, memory⟩ := agrees
  cases fetched : u.fetchint addr with
  | none =>
    unfold fetchint at fetched ⊢
    rw [sz]
    split at fetched
    next outside => rw [if_pos outside]
    next => cases fetched
  | some word =>
    obtain ⟨bound, value⟩ := fetchint_eq_some fetched small
    have first : v.memory addr = u.memory addr := by
      have same := memory _ (add_lt_of_bound bound (show 0 < 4 by omega))
      rwa [show addr + UInt32.ofNat 0 = addr from add_zero addr] at same
    have second : v.memory (addr + 1) = u.memory (addr + 1) :=
      memory _ (add_lt_of_bound bound (show 1 < 4 by omega))
    have third : v.memory (addr + 2) = u.memory (addr + 2) :=
      memory _ (add_lt_of_bound bound (show 2 < 4 by omega))
    have fourth : v.memory (addr + 3) = u.memory (addr + 3) :=
      memory _ (add_lt_of_bound bound (show 3 < 4 by omega))
    have same : v.word addr = u.word addr := by
      unfold UserSpace.word
      rw [first, second, third, fourth]
    unfold fetchint at fetched ⊢
    rw [sz, same]
    exact fetched

theorem argint_congr (agrees : Agrees u v) (small : u.sz ≤ kernbase) (n : UInt32) :
    v.argint n = u.argint n := by
  rw [argint, argint, agrees.2.1]
  exact fetchint_congr agrees small _

theorem argptr_congr (agrees : Agrees u v) (small : u.sz ≤ kernbase) (n : UInt32)
    (size : Int32) : v.argptr n size = u.argptr n size := by
  rw [argptr, argptr, argint_congr agrees small, agrees.1]

theorem argfd_congr (agrees : Agrees u v) (small : u.sz ≤ kernbase) (ofile : Ofile)
    (n : UInt32) : v.argfd ofile n = u.argfd ofile n := by
  rw [argfd, argfd, argint_congr agrees small]

theorem argptr_eq_some (taken : u.argptr n size = some p) :
    ∃ word, u.argint n = some word ∧ p = word.toUInt32 ∧ word.toUInt32 < u.sz ∧
      word.toUInt32 + size.toUInt32 ≤ u.sz := by
  obtain ⟨word, fetched, checked⟩ := Option.bind_eq_some_iff.mp taken
  split at checked
  next => cases checked
  next inside =>
    rw [not_or, UInt32.not_le, UInt32.not_lt] at inside
    exact ⟨word, fetched, (Option.some.inj checked).symm, inside⟩

/-- A pointer that `argptr` takes for a size that is not negative. -/
theorem argptr_inside (small : u.sz ≤ kernbase) (nonneg : 0 ≤ size)
    (taken : u.argptr n size = some p) : p.toNat + size.toInt.toNat ≤ u.sz.toNat := by
  obtain ⟨word, _, rfl, below, sum⟩ := argptr_eq_some taken
  obtain ⟨value, limit⟩ := toNat_toUInt32_of_nonneg nonneg
  rw [UInt32.lt_iff_toNat_lt] at below
  rw [UInt32.le_iff_toNat_le, UInt32.toNat_add, value] at sum
  rw [UInt32.le_iff_toNat_le] at small
  change u.sz.toNat ≤ 0x80000000 at small
  omega

theorem argptr_iff (small : u.sz ≤ kernbase) (n : UInt32) (size : Int32) :
    (∀ p, u.argptr n size = some p →
      0 ≤ size ∧ p.toNat + size.toInt.toNat ≤ u.sz.toNat) ↔ u.Guarded n size := by
  constructor
  · intro sound
    by_cases nonneg : 0 ≤ size
    · exact .inl nonneg
    · refine .inr fun word fetched => ?_
      by_contra inside
      refine nonneg (sound word.toUInt32 ?_).1
      rw [argptr, fetched, Option.bind_some]
      exact if_neg inside
  · intro guarded p taken
    cases guarded with
    | inl nonneg => exact ⟨nonneg, argptr_inside small nonneg taken⟩
    | inr outside =>
      obtain ⟨word, fetched, _, below, sum⟩ := argptr_eq_some taken
      cases outside word fetched with
      | inl beyond => exact absurd below (UInt32.not_lt.mpr beyond)
      | inr ended => exact absurd sum (UInt32.not_le.mpr ended)

/-- The loop of `fetchstr` finds the first NUL below `sz`. -/
theorem nulFrom_eq_some_iff {turns : Nat} {s found : UInt32} (enough : u.sz.toNat ≤ s.toNat + turns) :
    u.nulFrom turns s = some found ↔
      s ≤ found ∧ found < u.sz ∧ u.memory found = 0 ∧
        ∀ addr, s ≤ addr → addr < found → u.memory addr ≠ 0 := by
  induction turns generalizing s with
  | zero =>
    simp only [nulFrom, le_iff_toNat_le, lt_iff_toNat_lt]
    constructor
    · exact fun none => by cases none
    · rintro ⟨above, below, _⟩
      omega
  | succ turns induction =>
    rw [nulFrom]
    split
    next inside =>
      have below : s.toNat < u.sz.toNat := inside
      have limit := u.sz.toNat_lt
      have next : (s + 1).toNat = s.toNat + 1 := by
        rw [UInt32.toNat_add]
        change (s.toNat + 1) % 2 ^ 32 = _
        omega
      split
      next nul =>
        constructor
        · intro same
          obtain rfl := Option.some.inj same
          exact ⟨UInt32.le_refl s, inside, nul, fun addr above before =>
            absurd before (UInt32.not_lt.mpr above)⟩
        · rintro ⟨above, _, _, first⟩
          by_contra other
          refine first s (UInt32.le_refl s) ?_ nul
          refine UInt32.lt_of_le_of_ne above fun equal => ?_
          exact other (congrArg some equal)
      next nonzero =>
        rw [induction (by omega)]
        simp only [le_iff_toNat_le, next]
        constructor
        · rintro ⟨above, within, nul, first⟩
          refine ⟨by omega, within, nul, fun addr after before => ?_⟩
          by_cases here : addr = s
          · rw [here]
            exact nonzero
          · have differ : addr.toNat ≠ s.toNat := fun same => here (UInt32.toNat_inj.mp same)
            exact first addr (by omega) before
        · rintro ⟨above, within, nul, first⟩
          have differ : found.toNat ≠ s.toNat := fun same =>
            nonzero (UInt32.toNat_inj.mp same ▸ nul)
          exact ⟨by omega, within, nul, fun addr after => first addr (by omega)⟩
    next outside =>
      constructor
      · exact fun none => by cases none
      · rintro ⟨above, below, _⟩
        exact absurd (UInt32.lt_of_le_of_lt above below) outside

theorem toNat_add_ofNat {k : Nat} (below : addr.toNat + k < sz.toNat) :
    (addr + .ofNat k).toNat = addr.toNat + k := by
  have limit := sz.toNat_lt
  rw [UInt32.toNat_add, UInt32.toNat_ofNat']
  omega

/-- `fetchstr` returns the length of the string if its NUL is below `sz`. -/
theorem fetchstr_eq_some_iff (small : u.sz ≤ kernbase) (addr : UInt32) (length : Int32) :
    u.fetchstr addr = some length ↔
      ∃ k : Nat, addr.toNat + k < u.sz.toNat ∧ u.memory (addr + .ofNat k) = 0 ∧
        (∀ j < k, u.memory (addr + .ofNat j) ≠ 0) ∧ length.toInt = k := by
  rw [le_iff_toNat_le] at small
  change u.sz.toNat ≤ 0x80000000 at small
  have enough : addr < u.sz → u.sz.toNat ≤ addr.toNat + (u.sz - addr).toNat := by
    intro below
    rw [UInt32.toNat_sub_of_le _ _ (UInt32.le_of_lt below)]
    omega
  -- the distance of a NUL that the loop finds
  have distance : ∀ found : UInt32, addr ≤ found → found < u.sz →
      (found - addr).toInt32.toInt = (found.toNat - addr.toNat : Nat) := by
    intro found above below
    rw [lt_iff_toNat_lt] at below
    rw [toInt_toInt32 (by rw [UInt32.toNat_sub_of_le _ _ above]; omega),
      UInt32.toNat_sub_of_le _ _ above]
  unfold fetchstr
  constructor
  · intro fetched
    split at fetched
    next => cases fetched
    next inside =>
      have below : addr < u.sz := UInt32.not_le.mp inside
      obtain ⟨found, loop, rfl⟩ := Option.map_eq_some_iff.mp fetched
      obtain ⟨above, within, nul, first⟩ := (nulFrom_eq_some_iff (enough below)).mp loop
      have order : addr.toNat ≤ found.toNat := above
      have bound : found.toNat < u.sz.toNat := within
      have reach : addr + .ofNat (found.toNat - addr.toNat) = found := by
        rw [← UInt32.toNat_inj,
          toNat_add_ofNat (show addr.toNat + (found.toNat - addr.toNat) < u.sz.toNat by omega)]
        omega
      refine ⟨found.toNat - addr.toNat, by omega, by rw [reach, nul], ?_, distance found above within⟩
      intro j earlier
      have value : (addr + .ofNat j).toNat = addr.toNat + j := 
        toNat_add_ofNat (show addr.toNat + j < u.sz.toNat by omega)
      refine first _ ?_ ?_
      · rw [le_iff_toNat_le, value]
        omega
      · rw [lt_iff_toNat_lt, value]
        omega
  · rintro ⟨k, below, nul, first, value⟩
    have reach := toNat_add_ofNat below
    have inside : addr < u.sz := lt_iff_toNat_lt.mpr (by omega)
    have within : addr + .ofNat k < u.sz := lt_iff_toNat_lt.mpr (by omega)
    have above : addr ≤ addr + .ofNat k := le_iff_toNat_le.mpr (by omega)
    rw [if_neg (UInt32.not_le.mpr inside), Option.map_eq_some_iff]
    refine ⟨addr + .ofNat k, (nulFrom_eq_some_iff (enough inside)).mpr ⟨above, within, nul, ?_⟩, ?_⟩
    · intro other after before
      rw [le_iff_toNat_le] at after
      rw [lt_iff_toNat_lt, reach] at before
      have same : addr + .ofNat (other.toNat - addr.toNat) = other := by
        rw [← UInt32.toNat_inj,
          toNat_add_ofNat (show addr.toNat + (other.toNat - addr.toNat) < u.sz.toNat by omega)]
        omega
      exact same ▸ first (other.toNat - addr.toNat) (by omega)
    · rw [← Int32.toInt_inj, distance _ above within, reach, value]
      omega

theorem fetchstr_congr (agrees : Agrees u v) (small : u.sz ≤ kernbase) (addr : UInt32) :
    v.fetchstr addr = u.fetchstr addr := by
  apply Option.ext
  intro length
  rw [fetchstr_eq_some_iff small, fetchstr_eq_some_iff (agrees.1 ▸ small), agrees.1]
  refine exists_congr fun k => and_congr_right fun below => ?_
  have same : ∀ j ≤ k, v.memory (addr + .ofNat j) = u.memory (addr + .ofNat j) := by
    intro j earlier
    exact agrees.2.2 _ (add_lt_of_bound (show addr.toNat + (k + 1) ≤ u.sz.toNat by omega)
      (by omega))
  rw [same k (Nat.le_refl k)]
  refine and_congr_right fun _ => and_congr_left fun _ => ?_
  exact forall_congr' fun j => forall_congr' fun earlier => by rw [same j (Nat.le_of_lt earlier)]

theorem sysRead_stores (sb : Superblock) (input : List UInt8) (ofile : Ofile) (fs : Fs)
    (small : u.sz ≤ kernbase)
    (guarded : ∀ n, u.argint 2 = some n → u.Guarded 1 n) :
    Ensures (u.sysRead sb input ofile) fs
      (fun result _ => ∀ store ∈ result.2, store.1 < u.sz) fun _ => True := by
  have none : ∀ r, Ensures (pure (r, []) : Fs.FsM (Int32 × List (UInt32 × UInt8))) fs
      (fun result _ => ∀ store ∈ result.2, store.1 < u.sz) fun _ => True := fun _ =>
    forall_mem_nil _
  unfold sysRead
  split
  next f n _ count =>
    split
    next p taken =>
      obtain ⟨nonneg, inside⟩ := (argptr_iff small 1 n).mpr (guarded n count) p taken
      refine (fileread_length nonneg).seq fun read fs short => ?_
      intro store member
      obtain ⟨i, below, rfl⟩ := mem_mapIdx.mp member
      exact add_lt_of_bound inside (below.trans_le short)
    next => exact none _
  next => exact none _

theorem sysWrite_congr (sb : Superblock) (ofile : Ofile) (agrees : Agrees u v)
    (small : u.sz ≤ kernbase) : v.sysWrite sb ofile = u.sysWrite sb ofile := by
  unfold sysWrite
  rw [argfd_congr agrees small, argint_congr agrees small]
  split
  next f n _ _ =>
    rw [argptr_congr agrees small]
    split
    next p taken =>
      refine filewrite_congr fun k below => agrees.2.2 _ ?_
      by_cases nonneg : 0 ≤ n
      · exact add_lt_of_bound (argptr_inside small nonneg taken) below
      · rw [Int32.le_iff_toInt_le] at nonneg
        change ¬0 ≤ n.toInt at nonneg
        omega
    next => rfl
  next => rfl

/-- The checks on the pointers of a process, for a pointer argument with a requested size and
for the calls that pass one on. -/
def Checked (sb : Superblock) (u : UserSpace) (n : UInt32) (size : Int32) : Prop :=
  (∀ p, u.argptr n size = some p → 0 ≤ size ∧ p.toNat + size.toInt.toNat ≤ u.sz.toNat) ∧
  ((∀ count, u.argint 2 = some count → n = 1 ∧ size = count) →
    ∀ input ofile fs, Ensures (u.sysRead sb input ofile) fs
      (fun result _ => ∀ store ∈ result.2, store.1 < u.sz) fun _ => True) ∧
  (∀ v, Agrees u v → (∀ ofile, v.sysWrite sb ofile = u.sysWrite sb ofile) ∧
    (∀ addr, v.fetchint addr = u.fetchint addr) ∧ ∀ addr, v.fetchstr addr = u.fetchstr addr) ∧
  ∀ addr length, u.fetchstr addr = some length ↔
    ∃ k : Nat, addr.toNat + k < u.sz.toNat ∧ u.memory (addr + .ofNat k) = 0 ∧
      (∀ j < k, u.memory (addr + .ofNat j) ≠ 0) ∧ length.toInt = k

theorem checked_iff_guarded (sb : Superblock) (small : u.sz ≤ kernbase) (n : UInt32)
    (size : Int32) : u.Checked sb n size ↔ u.Guarded n size := by
  constructor
  · exact fun checked => (argptr_iff small n size).mp checked.1
  · intro guarded
    refine ⟨(argptr_iff small n size).mpr guarded, ?_, ?_, fetchstr_eq_some_iff small⟩
    · intro call input ofile fs
      refine sysRead_stores sb input ofile fs small fun count fetched => ?_
      obtain ⟨rfl, rfl⟩ := call count fetched
      exact guarded
    · exact fun v agrees => ⟨fun ofile => sysWrite_congr sb ofile agrees small,
        fetchint_congr agrees small, fetchstr_congr agrees small⟩

end

def caller (byte : UInt8) : UserSpace where
  sz := 64
  esp := 0
  memory := fun addr => if addr = 8 then 40 else if 12 ≤ addr ∧ addr < 16 then byte else 0

theorem checked_caller : Checked Fs.smallDisk (caller 0) 1 20 :=
  (checked_iff_guarded Fs.smallDisk (by decide) 1 20).mpr (.inl (by decide))

def cachedFile : Fs where
  disk := fun _ _ => 7
  logged := []
  icache := fun _ => ⟨⟨tFile, 0, 0, 1, 100, fun _ => 5⟩, 2, 1, false, true⟩

theorem caller_reads_beyond :
    (caller 255).argint 2 = some (-1) ∧ (caller 255).argptr 1 (-1) = some 40 ∧
      ¬(0 ≤ (-1 : Int32)) ∧
      ((caller 255).sysRead Fs.smallDisk [] (fun _ => some (.inode ⟨1, true, true, 0, 0⟩))
        cachedFile).toOption.map (fun read => (read.1.1, read.1.2.getLast?)) =
          some (100, some (139, 7)) := by
  decide +kernel

end UserSpace

end StraceXv6.Kernel
