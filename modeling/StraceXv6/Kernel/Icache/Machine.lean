import StraceXv6.Data.Run

namespace StraceXv6.Kernel.Icache

open Data

/-! The inode cache, used by any processes.  A section under `icache.lock` is a step, and so
is what is done without it: reading an inode in `ilock`, freeing it in `iput`, finding a free
one in `ialloc`. -/

abbrev ninode : Nat := 50

abbrev Ix : Type := Fin ninode

/-- The fields of the inode on disk that matter here. -/
structure Dinode where
  type : Int16
  nlink : Int16
  deriving DecidableEq

structure Inode extends Dinode where
  dev : UInt32
  inum : UInt32
  ref : Nat
  busy : Bool
  valid : Bool
  deriving DecidableEq

/-- What a process is in: the loop of `ilock`, or what follows it, `iput` between its
sections, `ialloc` before `iget`. -/
inductive Phase where
  | idle
  | asleep (ip : Ix)
  | awake (ip : Ix)
  | loading (ip : Ix)
  | freeing (ip : Ix) (freed : Bool)
  | allocating (dev inum : UInt32)
  deriving DecidableEq

/-- `refs` are the references that were handed out and not put yet; `locked` tells who has
called `ilock` and not `iunlock`. -/
structure Cache (P : Type) where
  inode : Ix → Inode
  disk : UInt32 × UInt32 → Dinode
  phase : P → Phase
  refs : List (P × Ix)
  locked : P × Ix → Bool

inductive Label (P : Type) where
  | iget (p : P) (dev inum : UInt32)
  | idup (p q : P) (ip : Ix)
  | ilock (p : P) (ip : Ix)
  | rescan (p : P)
  | stir (p : P)
  | load (p : P)
  | setNlink (p : P) (ip : Ix) (nlink : Int16)
  | iupdate (p : P) (ip : Ix)
  | iunlock (p : P) (ip : Ix)
  | iput (p : P) (ip : Ix)
  | free (p : P)
  | finish (p : P)
  | ialloc (p : P) (dev inum : UInt32) (type : Int16)
  | allocated (p : P)

def Inode.key (inode : Inode) : UInt32 × UInt32 := (inode.dev, inode.inum)

def Phase.wake (ip : Ix) : Phase → Phase
  | .asleep ip' => if ip' = ip then .awake ip' else .asleep ip'
  | phase => phase

namespace Cache

variable {P : Type}

def setInode (c : Cache P) (ip : Ix) (inode : Inode) : Cache P :=
  { c with inode := Function.update c.inode ip inode }

def wakeup (c : Cache P) (ip : Ix) : Cache P :=
  { c with phase := fun p => (c.phase p).wake ip }

def setDisk (c : Cache P) (key : UInt32 × UInt32) (dip : Dinode) : Cache P :=
  { c with disk := Function.update c.disk key dip }

def cached (c : Cache P) (dev inum : UInt32) : Option Ix :=
  (List.finRange ninode).find? fun ip => 0 < (c.inode ip).ref && (c.inode ip).key = (dev, inum)

def empty (c : Cache P) : Option Ix :=
  (List.finRange ninode).find? fun ip => (c.inode ip).ref = 0

section

variable [DecidableEq P]

def setPhase (c : Cache P) (p : P) (phase : Phase) : Cache P :=
  { c with phase := Function.update c.phase p phase }

def setLocked (c : Cache P) (p : P) (ip : Ix) (locked : Bool) : Cache P :=
  { c with locked := Function.update c.locked (p, ip) locked }

def addRef (c : Cache P) (p : P) (ip : Ix) : Cache P := { c with refs := (p, ip) :: c.refs }

def dropRef (c : Cache P) (p : P) (ip : Ix) : Cache P :=
  { c with refs := c.refs.erase (p, ip) }

def Has (c : Cache P) (p : P) (ip : Ix) : Prop := c.phase p = .idle ∧ (p, ip) ∈ c.refs

def Owns (c : Cache P) (p : P) (ip : Ix) : Prop :=
  c.phase p = .idle ∧ c.locked (p, ip) = true

instance (c : Cache P) (p : P) (ip : Ix) : Decidable (c.Has p ip) :=
  inferInstanceAs (Decidable (_ ∧ _))

instance (c : Cache P) (p : P) (ip : Ix) : Decidable (c.Owns p ip) :=
  inferInstanceAs (Decidable (_ ∧ _))

/-- There is a panic if no entry is free. -/
def iget (c : Cache P) (p : P) (dev inum : UInt32) : Option (Cache P) :=
  match c.cached dev inum with
  | some ip =>
    some (((c.setInode ip { c.inode ip with ref := (c.inode ip).ref + 1 }).addRef p ip).setPhase
      p .idle)
  | none =>
    match c.empty with
    | some ip =>
      some (((c.setInode ip
        { c.inode ip with dev := dev, inum := inum, ref := 1, busy := false,
                          valid := false }).addRef p ip).setPhase p .idle)
    | none => none

/-- From the loop of `ilock` to `sleep`, or until I_BUSY is set. -/
def ilock (c : Cache P) (p : P) (ip : Ix) : Option (Cache P) :=
  if (c.inode ip).busy then some (c.setPhase p (.asleep ip))
  else
    some (((c.setInode ip { c.inode ip with busy := true }).setLocked p ip true).setPhase p
      (if (c.inode ip).valid then .idle else .loading ip))

/-- The rest of `ilock`; there is a panic if the inode is free. -/
def load (c : Cache P) (p : P) (ip : Ix) : Option (Cache P) :=
  if (c.disk (c.inode ip).key).type = 0 then none
  else
    some ((c.setInode ip
      { c.inode ip with toDinode := c.disk (c.inode ip).key, valid := true }).setPhase p .idle)

def iunlock (c : Cache P) (p : P) (ip : Ix) : Option (Cache P) :=
  if !(c.inode ip).busy || (c.inode ip).ref < 1 then none
  else
    some (((c.setInode ip { c.inode ip with busy := false }).setLocked p ip false).wakeup ip)

/-- The first section of `iput`. -/
def iput (c : Cache P) (p : P) (ip : Ix) : Option (Cache P) :=
  if (c.inode ip).ref = 1 ∧ (c.inode ip).valid ∧ (c.inode ip).nlink = 0 then
    if (c.inode ip).busy then none
    else
      some ((c.setInode ip { c.inode ip with busy := true }).setPhase p (.freeing ip false))
  else
    some ((c.setInode ip { c.inode ip with ref := (c.inode ip).ref - 1 }).dropRef p ip)

/-- `itrunc`, and the inode is free on disk. -/
def free (c : Cache P) (p : P) (ip : Ix) : Cache P :=
  ((c.setInode ip { c.inode ip with type := 0 }).setDisk (c.inode ip).key
    { (c.inode ip).toDinode with type := 0 }).setPhase p (.freeing ip true)

def finish (c : Cache P) (p : P) (ip : Ix) : Cache P :=
  (((c.setInode ip
    { c.inode ip with busy := false, valid := false, ref := (c.inode ip).ref - 1 }).dropRef p
      ip).setPhase p .idle).wakeup ip

def step (c : Cache P) : Label P → Option (Cache P)
  | .iget p dev inum => if c.phase p = .idle then c.iget p dev inum else none
  | .idup p q ip =>
    if c.Has p ip then
      some ((c.setInode ip { c.inode ip with ref := (c.inode ip).ref + 1 }).addRef q ip)
    else none
  | .ilock p ip => if c.Has p ip ∧ 1 ≤ (c.inode ip).ref then c.ilock p ip else none
  | .rescan p =>
    match c.phase p with
    | .awake ip => c.ilock p ip
    | _ => none
  | .stir p =>
    match c.phase p with
    | .asleep ip => some (c.setPhase p (.awake ip))
    | _ => none
  | .load p =>
    match c.phase p with
    | .loading ip => c.load p ip
    | _ => none
  | .setNlink p ip nlink =>
    if c.Owns p ip then some (c.setInode ip { c.inode ip with nlink := nlink }) else none
  | .iupdate p ip =>
    if c.Owns p ip then some (c.setDisk (c.inode ip).key (c.inode ip).toDinode) else none
  | .iunlock p ip => if c.Owns p ip then c.iunlock p ip else none
  | .iput p ip => if c.Has p ip then c.iput p ip else none
  | .free p =>
    match c.phase p with
    | .freeing ip false => some (c.free p ip)
    | _ => none
  | .finish p =>
    match c.phase p with
    | .freeing ip true => some (c.finish p ip)
    | _ => none
  | .ialloc p dev inum type =>
    if c.phase p = .idle ∧ (c.disk (dev, inum)).type = 0 then
      some ((c.setDisk (dev, inum) ⟨type, 0⟩).setPhase p (.allocating dev inum))
    else none
  | .allocated p =>
    match c.phase p with
    | .allocating dev inum => c.iget p dev inum
    | _ => none

end

def iinit (disk : UInt32 × UInt32 → Dinode) : Cache P where
  inode := fun _ => ⟨⟨0, 0⟩, 0, 0, 0, false, false⟩
  disk := disk
  phase := fun _ => .idle
  refs := []
  locked := fun _ => false

inductive Moved [DecidableEq P] (c : Cache P) : Label P → Cache P → Prop where
  | got {p : P} {ip : Ix} {label : Label P} :
      (∀ jp freed, c.phase p ≠ .freeing jp freed) → 0 < (c.inode ip).ref →
      Moved c label
        (((c.setInode ip { c.inode ip with ref := (c.inode ip).ref + 1 }).addRef p ip).setPhase
          p .idle)
  | recycled {p : P} {ip : Ix} {dev inum : UInt32} {label : Label P} :
      (∀ jp freed, c.phase p ≠ .freeing jp freed) → (c.inode ip).ref = 0 →
      (∀ jp, 0 < (c.inode jp).ref → (c.inode jp).key ≠ (dev, inum)) →
      Moved c label
        (((c.setInode ip
          { c.inode ip with dev := dev, inum := inum, ref := 1, busy := false,
                            valid := false }).addRef p ip).setPhase p .idle)
  | duplicated {p q : P} {ip : Ix} : c.Has p ip →
      Moved c (.idup p q ip)
        ((c.setInode ip { c.inode ip with ref := (c.inode ip).ref + 1 }).addRef q ip)
  | slept {p : P} {ip : Ix} {label : Label P} : c.Has p ip ∨ c.phase p = .awake ip →
      Moved c label (c.setPhase p (.asleep ip))
  | took {p : P} {ip : Ix} {label : Label P} :
      c.Has p ip ∨ c.phase p = .awake ip → (c.inode ip).busy = false →
      Moved c label
        (((c.setInode ip { c.inode ip with busy := true }).setLocked p ip true).setPhase p
          (if (c.inode ip).valid then .idle else .loading ip))
  | stirred {p : P} {ip : Ix} : c.phase p = .asleep ip →
      Moved c (.stir p) (c.setPhase p (.awake ip))
  | loaded {p : P} {ip : Ix} : c.phase p = .loading ip →
      Moved c (.load p) ((c.setInode ip
        { c.inode ip with toDinode := c.disk (c.inode ip).key, valid := true }).setPhase p .idle)
  | relinked {p : P} {ip : Ix} {nlink : Int16} : c.Owns p ip →
      Moved c (.setNlink p ip nlink) (c.setInode ip { c.inode ip with nlink := nlink })
  | updated {p : P} {ip : Ix} : c.Owns p ip →
      Moved c (.iupdate p ip) (c.setDisk (c.inode ip).key (c.inode ip).toDinode)
  | unlocked {p : P} {ip : Ix} : c.Owns p ip →
      Moved c (.iunlock p ip)
        (((c.setInode ip { c.inode ip with busy := false }).setLocked p ip false).wakeup ip)
  | put {p : P} {ip : Ix} : c.Has p ip →
      Moved c (.iput p ip)
        ((c.setInode ip { c.inode ip with ref := (c.inode ip).ref - 1 }).dropRef p ip)
  | began {p : P} {ip : Ix} : c.Has p ip → (c.inode ip).ref = 1 → (c.inode ip).nlink = 0 →
      (c.inode ip).busy = false →
      Moved c (.iput p ip)
        ((c.setInode ip { c.inode ip with busy := true }).setPhase p (.freeing ip false))
  | freed {p : P} {ip : Ix} : c.phase p = .freeing ip false → Moved c (.free p) (c.free p ip)
  | finished {p : P} {ip : Ix} : c.phase p = .freeing ip true →
      Moved c (.finish p) (c.finish p ip)
  | found {p : P} {dev inum : UInt32} {type : Int16} : c.phase p = .idle →
      Moved c (.ialloc p dev inum type)
        ((c.setDisk (dev, inum) ⟨type, 0⟩).setPhase p (.allocating dev inum))

section

variable [DecidableEq P] {c c' : Cache P} {label : Label P} {p : P}

theorem moved_of_iget {dev inum : UInt32} (quiet : ∀ jp freed, c.phase p ≠ .freeing jp freed)
    (got : c.iget p dev inum = some c') : Moved c label c' := by
  unfold iget at got
  split at got
  next ip found =>
    cases got
    have holds := List.find?_some found
    simp only [Bool.and_eq_true, decide_eq_true_eq] at holds
    exact .got quiet holds.1
  next missing =>
    split at got
    next ip found =>
      cases got
      have free := List.find?_some found
      simp only [decide_eq_true_eq] at free
      refine .recycled quiet free ?_
      intro jp positive same
      have none := List.find?_eq_none.mp missing jp (List.mem_finRange jp)
      simp [positive, same] at none
    next => cases got

theorem moved_of_ilock {ip : Ix} (holds : c.Has p ip ∨ c.phase p = .awake ip)
    (locked : c.ilock p ip = some c') : Moved c label c' := by
  unfold ilock at locked
  split at locked
  next =>
    cases locked
    exact .slept holds
  next idle =>
    cases locked
    exact .took holds (Bool.eq_false_iff.mpr idle)

theorem moved_of_iput {ip : Ix} (has : c.Has p ip) (put : c.iput p ip = some c') :
    Moved c (.iput p ip) c' := by
  unfold iput at put
  split at put
  next last =>
    split at put
    next => cases put
    next idle =>
      cases put
      exact .began has last.1 last.2.2 (Bool.eq_false_iff.mpr idle)
  next =>
    cases put
    exact .put has

theorem moved_of_step (stepped : c.step label = some c') : Moved c label c' := by
  cases label with
  | iget p dev inum =>
    simp only [step] at stepped
    split at stepped
    next idle => exact moved_of_iget (by simp [idle]) stepped
    next => cases stepped
  | idup p q ip =>
    obtain ⟨has, rfl⟩ := of_guard stepped
    exact .duplicated has
  | ilock p ip =>
    simp only [step] at stepped
    split at stepped
    next enabled => exact moved_of_ilock (.inl enabled.1) stepped
    next => cases stepped
  | rescan p =>
    simp only [step] at stepped
    split at stepped
    next ip awake => exact moved_of_ilock (.inr awake) stepped
    next => cases stepped
  | stir p =>
    simp only [step] at stepped
    split at stepped
    next ip asleep =>
      cases stepped
      exact .stirred asleep
    next => cases stepped
  | load p =>
    simp only [step] at stepped
    split at stepped
    next ip loading =>
      unfold load at stepped
      split at stepped
      next => cases stepped
      next =>
        cases stepped
        exact .loaded loading
    next => cases stepped
  | setNlink p ip nlink =>
    obtain ⟨owns, rfl⟩ := of_guard stepped
    exact .relinked owns
  | iupdate p ip =>
    obtain ⟨owns, rfl⟩ := of_guard stepped
    exact .updated owns
  | iunlock p ip =>
    simp only [step] at stepped
    split at stepped
    next owns =>
      unfold iunlock at stepped
      split at stepped
      next => cases stepped
      next =>
        cases stepped
        exact .unlocked owns
    next => cases stepped
  | iput p ip =>
    simp only [step] at stepped
    split at stepped
    next has => exact moved_of_iput has stepped
    next => cases stepped
  | free p =>
    simp only [step] at stepped
    split at stepped
    next ip freeing =>
      cases stepped
      exact .freed freeing
    next => cases stepped
  | finish p =>
    simp only [step] at stepped
    split at stepped
    next ip freeing =>
      cases stepped
      exact .finished freeing
    next => cases stepped
  | ialloc p dev inum type =>
    obtain ⟨enabled, rfl⟩ := of_guard stepped
    exact .found enabled.1
  | allocated p =>
    simp only [step] at stepped
    split at stepped
    next dev inum allocating => exact moved_of_iget (by simp [allocating]) stepped
    next => cases stepped

end

end Cache

end StraceXv6.Kernel.Icache
