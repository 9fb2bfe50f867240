import StraceXv6.Data.Links
import StraceXv6.Data.Run

namespace StraceXv6.Kernel.Bio

open Data

/-! The buffer cache, used by any processes.  A section under `bcache.lock` is a step; the
disk is done with a request in a step. -/

abbrev nbuf : Nat := 30

abbrev BufIx : Type := Fin nbuf

/-- The flags B_BUSY, B_VALID and B_DIRTY, the block, and what is in it. -/
structure Buf (D : Type) where
  busy : Bool
  valid : Bool
  dirty : Bool
  dev : UInt32
  blockno : UInt32
  data : D

inductive Phase where
  | idle
  | asleep (b : BufIx) (dev blockno : UInt32)
  | awake (dev blockno : UInt32)
  deriving DecidableEq

/-- Of the run, `handles` are the buffers that processes have, `released` the calls of
`brelse`, the last one first, `contents` what was last given to each block, and `unsaved`
tells of changes that no `bwrite` or `log_write` followed yet. -/
structure Cache (P D : Type) where
  buf : BufIx → Buf D
  links : Links BufIx
  disk : UInt32 × UInt32 → D
  phase : P → Phase
  handles : List (P × BufIx)
  released : List BufIx
  contents : UInt32 × UInt32 → D
  unsaved : BufIx → Bool

inductive Label (P D : Type) where
  | bget (p : P) (dev blockno : UInt32)
  | rescan (p : P)
  | stir (p : P)
  | iderw (p : P) (b : BufIx)
  | modify (p : P) (b : BufIx) (data : D)
  | mark (p : P) (b : BufIx)
  | brelse (p : P) (b : BufIx)

def Buf.block {D : Type} (buf : Buf D) : UInt32 × UInt32 := (buf.dev, buf.blockno)

def Phase.wake (b : BufIx) : Phase → Phase
  | .asleep b' dev blockno => if b' = b then .awake dev blockno else .asleep b' dev blockno
  | phase => phase

namespace Cache

variable {P D : Type}

def setBuf (c : Cache P D) (b : BufIx) (buf : Buf D) : Cache P D :=
  { c with buf := Function.update c.buf b buf }

def caches (c : Cache P D) (dev blockno : UInt32) (b : BufIx) : Bool :=
  (c.buf b).dev = dev && (c.buf b).blockno = blockno

def lookup (c : Cache P D) (dev blockno : UInt32) : Option (Option BufIx) :=
  Links.scan c.links.next (c.caches dev blockno) nbuf (c.links.next none)

def clean (c : Cache P D) (b : BufIx) : Bool := !(c.buf b).busy && !(c.buf b).dirty

def victim (c : Cache P D) : Option (Option BufIx) :=
  Links.scan c.links.prev c.clean nbuf (c.links.prev none)

section

variable [DecidableEq P]

def setPhase (c : Cache P D) (p : P) (phase : Phase) : Cache P D :=
  { c with phase := Function.update c.phase p phase }

def take (c : Cache P D) (p : P) (b : BufIx) (buf : Buf D) : Cache P D :=
  { (c.setBuf b buf).setPhase p .idle with handles := (p, b) :: c.handles }

/-- From `loop` in `bget` to the end, or to `sleep`. -/
def bget (c : Cache P D) (p : P) (dev blockno : UInt32) : Option (Cache P D) :=
  match c.lookup dev blockno with
  | none => none
  | some (some b) =>
    if (c.buf b).busy then some (c.setPhase p (.asleep b dev blockno))
    else some (c.take p b { c.buf b with busy := true })
  | some none =>
    match c.victim with
    | some (some b) =>
      some (c.take p b
        { c.buf b with dev := dev, blockno := blockno, busy := true, valid := false,
                       dirty := false })
    | _ => none

/-- What `iderw` has done when it returns. -/
def iderw (c : Cache P D) (b : BufIx) : Option (Cache P D) :=
  if (c.buf b).dirty then
    some { c.setBuf b { c.buf b with valid := true, dirty := false } with
      disk := Function.update c.disk (c.buf b).block (c.buf b).data }
  else if (c.buf b).valid then none
  else some (c.setBuf b { c.buf b with valid := true, data := c.disk (c.buf b).block })

def modify (c : Cache P D) (b : BufIx) (data : D) : Cache P D :=
  { c.setBuf b { c.buf b with data := data } with
    contents := Function.update c.contents (c.buf b).block data
    unsaved := Function.update c.unsaved b true }

/-- `log_write`, or `bwrite` up to `iderw`. -/
def mark (c : Cache P D) (b : BufIx) : Cache P D :=
  { c.setBuf b { c.buf b with dirty := true } with
    unsaved := Function.update c.unsaved b false }

def brelse (c : Cache P D) (p : P) (b : BufIx) : Cache P D :=
  { c.setBuf b { c.buf b with busy := false } with
    links := (c.links.unlink b).insertFront b
    phase := fun q => (c.phase q).wake b
    handles := c.handles.erase (p, b)
    released := b :: c.released }

def Has (c : Cache P D) (p : P) (b : BufIx) : Prop := c.phase p = .idle ∧ (p, b) ∈ c.handles

instance (c : Cache P D) (p : P) (b : BufIx) : Decidable (c.Has p b) :=
  inferInstanceAs (Decidable (_ ∧ _))

def step (c : Cache P D) : Label P D → Option (Cache P D)
  | .bget p dev blockno => if c.phase p = .idle then c.bget p dev blockno else none
  | .rescan p =>
    match c.phase p with
    | .awake dev blockno => c.bget p dev blockno
    | _ => none
  | .stir p =>
    match c.phase p with
    | .asleep _ dev blockno => some (c.setPhase p (.awake dev blockno))
    | _ => none
  | .iderw p b => if c.Has p b then c.iderw b else none
  | .modify p b data => if c.Has p b ∧ (c.buf b).valid then some (c.modify b data) else none
  | .mark p b => if c.Has p b ∧ (c.buf b).valid then some (c.mark b) else none
  | .brelse p b => if c.Has p b then some (c.brelse p b) else none

end

def binit (zero : D) (disk : UInt32 × UInt32 → D) : Cache P D where
  buf := fun _ => ⟨false, false, false, -1, 0, zero⟩
  links := (List.finRange nbuf).foldl Links.insertFront .empty
  disk := disk
  phase := fun _ => .idle
  handles := []
  released := []
  contents := disk
  unsaved := fun _ => false

inductive Moved [DecidableEq P] (c : Cache P D) : Label P D → Cache P D → Prop where
  | hit {p : P} {b : BufIx} {dev blockno : UInt32} {label : Label P D} :
      c.lookup dev blockno = some (some b) → (c.buf b).busy = false →
      Moved c label (c.take p b { c.buf b with busy := true })
  | slept {p : P} {b : BufIx} {dev blockno : UInt32} {label : Label P D} :
      Moved c label (c.setPhase p (.asleep b dev blockno))
  | recycled {p : P} {b : BufIx} {dev blockno : UInt32} {label : Label P D} :
      c.lookup dev blockno = some none → c.victim = some (some b) →
      Moved c label (c.take p b
        { c.buf b with dev := dev, blockno := blockno, busy := true, valid := false,
                       dirty := false })
  | stirred {p : P} {dev blockno : UInt32} :
      Moved c (.stir p) (c.setPhase p (.awake dev blockno))
  | stored {p : P} {b : BufIx} : c.Has p b → (c.buf b).dirty = true →
      Moved c (.iderw p b) { c.setBuf b { c.buf b with valid := true, dirty := false } with
        disk := Function.update c.disk (c.buf b).block (c.buf b).data }
  | loaded {p : P} {b : BufIx} : c.Has p b → (c.buf b).dirty = false →
      (c.buf b).valid = false →
      Moved c (.iderw p b)
        (c.setBuf b { c.buf b with valid := true, data := c.disk (c.buf b).block })
  | modified {p : P} {b : BufIx} {data : D} : c.Has p b → (c.buf b).valid = true →
      Moved c (.modify p b data) (c.modify b data)
  | marked {p : P} {b : BufIx} : c.Has p b → (c.buf b).valid = true →
      Moved c (.mark p b) (c.mark b)
  | released {p : P} {b : BufIx} : c.Has p b → Moved c (.brelse p b) (c.brelse p b)

section

variable [DecidableEq P] {c c' : Cache P D} {label : Label P D}

theorem moved_of_bget {p : P} {dev blockno : UInt32} (got : c.bget p dev blockno = some c') :
    Moved c label c' := by
  unfold bget at got
  split at got
  next => cases got
  next b found =>
    split at got
    next =>
      cases got
      exact .slept
    next free =>
      cases got
      exact .hit found (Bool.eq_false_iff.mpr free)
  next missing =>
    split at got
    next b found =>
      cases got
      exact .recycled missing found
    next => cases got

theorem moved_of_step (stepped : c.step label = some c') : Moved c label c' := by
  cases label with
  | bget p dev blockno | rescan p =>
    simp only [step] at stepped
    split at stepped
    next => exact moved_of_bget stepped
    next => cases stepped
  | stir p =>
    simp only [step] at stepped
    split at stepped
    next =>
      cases stepped
      exact .stirred
    next => cases stepped
  | iderw p b =>
    simp only [step] at stepped
    split at stepped
    next has =>
      unfold iderw at stepped
      split at stepped
      next dirty =>
        cases stepped
        exact .stored has dirty
      next clean =>
        split at stepped
        next => cases stepped
        next invalid =>
          cases stepped
          exact .loaded has (Bool.eq_false_iff.mpr clean)
            (Bool.eq_false_iff.mpr invalid)
    next => cases stepped
  | modify p b data =>
    obtain ⟨enabled, rfl⟩ := of_guard stepped
    exact .modified enabled.1 enabled.2
  | mark p b =>
    obtain ⟨enabled, rfl⟩ := of_guard stepped
    exact .marked enabled.1 enabled.2
  | brelse p b =>
    obtain ⟨has, rfl⟩ := of_guard stepped
    exact .released has

end

end Cache

end StraceXv6.Kernel.Bio
