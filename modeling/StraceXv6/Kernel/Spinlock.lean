import Mathlib.Data.List.Nodup
import StraceXv6.Data.Run
import StraceXv6.Data.Update

namespace StraceXv6.Kernel.Spinlock

open Function Data

/-! Spin locks, with any number of CPUs and locks.  A step is one access to a lock that the
other CPUs see. -/

inductive Panic (L : Type) where
  | acquire (lk : L)
  | release (lk : L)
  | popcli
  | popcliInterruptible
  deriving DecidableEq

/-- Where a CPU is: before the second access of `holding` in `acquire` or `release`, in the
loop of `acquire` or after it, or in the rest of `release`. -/
inductive Place (L : Type) where
  | outside
  | comparing (lk : L)
  | spinning (lk : L)
  | recording (lk : L)
  | releasing (lk : L)
  | clearing (lk : L)
  | unlocking (lk : L)
  | popping
  | panicked (why : Panic L)
  deriving DecidableEq

structure Lock (C : Type) where
  locked : Bool
  cpu : Option C

/-- A CPU with its flag IF, the flag it is to have outside the locks, and the locks it took
and did not give back. -/
structure Core (L : Type) where
  place : Place L
  ncli : Int
  intena : Bool
  flag : Bool
  wanted : Bool
  held : List L

structure Machine (C L : Type) where
  lock : L → Lock C
  core : C → Core L

/-- `sti` and `cli` outside the locks, an interrupt and the return from it are `setFlag`;
`setIntena` is what `sched` does when it returns to a process. -/
inductive Action (L : Type) where
  | acquire (lk : L)
  | release (lk : L)
  | advance
  | setFlag (flag : Bool)
  | setIntena (flag : Bool)

namespace Core

variable {L : Type} (core : Core L)

def pushcli : Core L :=
  { core with
    flag := false
    ncli := core.ncli + 1
    intena := if core.ncli = 0 then core.flag else core.intena }

def popcli : Core L :=
  if core.flag then { core with place := .panicked .popcliInterruptible }
  else if core.ncli - 1 < 0 then { core with ncli := core.ncli - 1, place := .panicked .popcli }
  else
    { core with
      ncli := core.ncli - 1
      flag := core.ncli - 1 = 0 && core.intena
      place := .outside }

end Core

namespace Machine

variable {C L : Type} [DecidableEq C] [DecidableEq L]

section

variable (m : Machine C L) (c : C)

def setCore (core : Core L) : Machine C L := { m with core := update m.core c core }

def setLock (lk : L) (lock : Lock C) : Machine C L := { m with lock := update m.lock lk lock }

@[grind =] theorem core_setCore (core : Core L) (d : C) :
    (m.setCore c core).core d = if d = c then core else m.core d :=
  update_apply ..

@[grind =] theorem held_setCore (core : Core L) (d : C) :
    ((m.setCore c core).core d).held = if d = c then core.held else (m.core d).held := by
  rw [core_setCore, apply_ite Core.held]

@[grind =] theorem place_setCore (core : Core L) (d : C) :
    ((m.setCore c core).core d).place = if d = c then core.place else (m.core d).place := by
  rw [core_setCore, apply_ite Core.place]

@[grind =] theorem lock_setCore (core : Core L) (lk : L) :
    (m.setCore c core).lock lk = m.lock lk := rfl

@[grind =] theorem core_setLock (lk : L) (lock : Lock C) (d : C) :
    (m.setLock lk lock).core d = m.core d := rfl

@[grind =] theorem lock_setLock (lk : L) (lock : Lock C) (other : L) :
    (m.setLock lk lock).lock other = if other = lk then lock else m.lock other :=
  update_apply ..

def move (place : Place L) : Machine C L := m.setCore c { m.core c with place := place }

def advance : Place L → Option (Machine C L)
  | .comparing lk =>
    some (m.move c (if (m.lock lk).cpu = some c then .panicked (.acquire lk) else .spinning lk))
  | .spinning lk =>
    if (m.lock lk).locked then some m
    else some ((m.setLock lk { m.lock lk with locked := true }).setCore c
      { m.core c with place := .recording lk, held := lk :: (m.core c).held })
  | .recording lk => some ((m.setLock lk { m.lock lk with cpu := some c }).move c .outside)
  | .releasing lk =>
    some (m.move c (if (m.lock lk).cpu = some c then .clearing lk else .panicked (.release lk)))
  | .clearing lk => some ((m.setLock lk { m.lock lk with cpu := none }).move c (.unlocking lk))
  | .unlocking lk =>
    some ((m.setLock lk { m.lock lk with locked := false }).setCore c
      { m.core c with place := .popping, held := (m.core c).held.erase lk })
  | .popping => some (m.setCore c (m.core c).popcli)
  | .outside | .panicked _ => none

def step : C × Action L → Option (Machine C L)
  | (c, .advance) => m.advance c (m.core c).place
  | (c, .acquire lk) =>
    if (m.core c).place = .outside then
      some (m.setCore c { (m.core c).pushcli with
        place := if (m.lock lk).locked then .comparing lk else .spinning lk })
    else none
  | (c, .release lk) =>
    if (m.core c).place = .outside then
      some (m.move c (if (m.lock lk).locked then .releasing lk else .panicked (.release lk)))
    else none
  | (c, .setFlag flag) =>
    if (m.core c).place = .outside ∧ (m.core c).ncli = 0 then
      some (m.setCore c { m.core c with flag := flag, wanted := flag })
    else none
  | (c, .setIntena flag) =>
    if (m.core c).place = .outside ∧ (m.core c).ncli = 1 then
      some (m.setCore c { m.core c with intena := flag, wanted := flag })
    else none

/-- What `holding` returns if no other CPU is at the lock. -/
def holding (lk : L) : Bool := (m.lock lk).locked && (m.lock lk).cpu = some c

end

def boot (flag : C → Bool) : Machine C L where
  lock := fun _ => ⟨false, none⟩
  core := fun c => ⟨.outside, 0, false, flag c, flag c, []⟩

end Machine

/-- Whether `pushcli` was called for a lock that is not held. -/
def Place.pending {L : Type} : Place L → Int
  | comparing _ | spinning _ | popping | panicked (.acquire _) => 1
  | _ => 0

/-- Whether the two words of every lock say the same about the CPU. -/
def Place.whole {L : Type} : Place L → Bool
  | recording _ | unlocking _ => false
  | _ => true

/-- What the place of a CPU says about the locks it holds. -/
def Place.Fits {L : Type} (held : List L) : Place L → Prop
  | recording lk | clearing lk | unlocking lk | panicked (.acquire lk) => lk ∈ held
  | spinning lk | panicked (.release lk) => lk ∉ held
  | panicked .popcli | panicked .popcliInterruptible => False
  | _ => True

structure Core.Sound {L : Type} (core : Core L) : Prop where
  depth : core.ncli = core.held.length + core.place.pending
  flag : core.flag = if core.ncli = 0 then core.wanted else false
  intena : core.ncli ≠ 0 → core.intena = core.wanted
  nodup : core.held.Nodup
  fits : core.place.Fits core.held

structure Machine.Sound {C L : Type} (m : Machine C L) : Prop where
  core : ∀ c, (m.core c).Sound
  taken : ∀ c lk, lk ∈ (m.core c).held → (m.lock lk).locked
  kept : ∀ lk, (m.lock lk).locked → ∃ c, lk ∈ (m.core c).held
  alone : ∀ c d lk, lk ∈ (m.core c).held → lk ∈ (m.core d).held → c = d
  owner : ∀ c lk, (m.lock lk).cpu = some c ↔ lk ∈ (m.core c).held ∧
    (m.core c).place ≠ .recording lk ∧ (m.core c).place ≠ .unlocking lk

namespace Core.Sound

variable {L : Type} {core : Core L}

theorem pushcli (sound : core.Sound) (outside : core.place = .outside) {place : Place L}
    (pending : place.pending = 1) (fits : place.Fits core.held) :
    { core.pushcli with place := place }.Sound := by
  have ⟨depth, flag, intena, nodup, _⟩ := sound
  constructor <;> grind [Core.pushcli, Place.pending]

theorem popcli (sound : core.Sound) (popping : core.place = .popping) : core.popcli.Sound := by
  have ⟨depth, flag, intena, nodup, _⟩ := sound
  constructor <;> grind [Core.popcli, Place.pending, Place.Fits]

theorem move (sound : core.Sound) {place : Place L} (pending : place.pending = core.place.pending)
    (fits : place.Fits core.held) : { core with place := place }.Sound :=
  ⟨pending ▸ sound.depth, sound.flag, sound.intena, sound.nodup, fits⟩

theorem take (sound : core.Sound) {lk : L} (spinning : core.place = .spinning lk) :
    { core with place := .recording lk, held := lk :: core.held }.Sound := by
  have ⟨depth, flag, intena, nodup, fits⟩ := sound
  constructor <;> grind [Place.pending, Place.Fits]

theorem drop [DecidableEq L] (sound : core.Sound) {lk : L} (unlocking : core.place = .unlocking lk) :
    { core with place := .popping, held := core.held.erase lk }.Sound := by
  have ⟨depth, flag, intena, nodup, fits⟩ := sound
  constructor <;> grind [Place.pending, Place.Fits, List.length_erase_of_mem, List.length_pos_of_mem]

end Core.Sound

namespace Machine.Sound

variable {C L : Type} [DecidableEq C] [DecidableEq L] {m m' : Machine C L} {c : C}

theorem cores_setCore {core : Core L} (sound : ∀ d, (m.core d).Sound) (fine : core.Sound) (d : C) :
    ((m.setCore c core).core d).Sound := by
  grind

/-- A CPU that changes no lock and is not between the two words of one. -/
theorem setCore (sound : m.Sound) {core : Core L} (held : core.held = (m.core c).held)
    (before : (m.core c).place.whole) (after : core.place.whole) (fine : core.Sound) :
    (m.setCore c core).Sound := by
  have ⟨cores, taken, kept, alone, owner⟩ := sound
  constructor
  case core => exact cores_setCore cores fine
  case kept => exact fun lk locked => (kept lk locked).imp fun d there => by grind
  all_goals grind [Place.whole]

theorem move (sound : m.Sound) {place : Place L} (before : (m.core c).place.whole)
    (after : place.whole) (pending : place.pending = (m.core c).place.pending)
    (fits : place.Fits (m.core c).held) : (m.move c place).Sound :=
  sound.setCore rfl before after ((sound.core c).move pending fits)

theorem advance (sound : m.Sound) (stepped : m.advance c (m.core c).place = some m') : m'.Sound := by
  have ⟨cores, taken, kept, alone, owner⟩ := sound
  have fits := (cores c).fits
  cases place : (m.core c).place with simp only [Machine.advance, place, Option.some.injEq] at stepped
  | outside | panicked => cases stepped
  | comparing lk | releasing lk =>
    subst stepped
    apply sound.move <;> grind [Place.whole, Place.pending, Place.Fits]
  | popping =>
    subst stepped
    have fine := (cores c).popcli place
    apply sound.setCore _ _ _ fine <;> grind [Place.whole, Core.popcli]
  | recording lk | clearing lk =>
    subst stepped
    constructor
    case core =>
      refine cores_setCore cores ((cores c).move ?_ ?_)
      · grind [Place.pending]
      · grind [Place.Fits]
    case kept =>
      exact fun lk locked => (kept lk (by grind [Machine.move])).imp fun d there => by grind [Machine.move]
    all_goals grind [Machine.move, Place.Fits]
  | spinning lk =>
    split at stepped
    next => exact Option.some.inj stepped ▸ sound
    next free =>
      cases stepped
      constructor
      case core => exact cores_setCore cores ((cores c).take place)
      case kept =>
        intro other locked
        by_cases same : other = lk
        · exact ⟨c, by grind⟩
        · exact (kept other (by grind)).imp fun d there => by grind
      all_goals grind
  | unlocking lk =>
    subst stepped
    have erased : ∀ other, other ∈ (m.core c).held.erase lk ↔ other ≠ lk ∧ other ∈ (m.core c).held :=
      fun _ => (cores c).nodup.mem_erase_iff
    constructor
    case core => exact cores_setCore cores ((cores c).drop place)
    case kept => exact fun lk locked => (kept lk (by grind)).imp fun d there => by grind
    all_goals grind [Place.Fits]

theorem step (sound : m.Sound) {label : C × Action L} (stepped : m.step label = some m') :
    m'.Sound := by
  have ⟨cores, taken, kept, alone, owner⟩ := sound
  obtain ⟨c, action⟩ := label
  have flag := (cores c).flag
  cases action with
  | advance => exact sound.advance stepped
  | acquire lk =>
    obtain ⟨outside, rfl⟩ := of_guard stepped
    refine sound.setCore rfl (by simp [outside, Place.whole]) (by grind [Place.whole])
      ((cores c).pushcli outside ?_ ?_)
    · grind [Place.pending]
    · grind [Place.Fits]
  | release lk =>
    obtain ⟨outside, rfl⟩ := of_guard stepped
    apply sound.move <;> grind [Place.whole, Place.pending, Place.Fits]
  | setFlag | setIntena =>
    obtain ⟨⟨outside, depth⟩, rfl⟩ := of_guard stepped
    exact sound.setCore rfl (by simp [outside, Place.whole]) (by simp [outside, Place.whole])
      ⟨(cores c).depth, by grind, by grind, (cores c).nodup, (cores c).fits⟩

theorem boot (flag : C → Bool) : (Machine.boot flag : Machine C L).Sound := by
  constructor
  case core =>
    intro c
    constructor <;> simp [Machine.boot, Place.pending, Place.Fits]
  all_goals simp [Machine.boot]

end Machine.Sound

namespace Machine

variable {C L : Type} [DecidableEq C] [DecidableEq L] {m : Machine C L}

/-- No two CPUs hold a lock, `acquire` panics for a lock the CPU holds and `release` for one
it does not hold, and the interrupts are off while the CPU has or wants a lock. -/
theorem spinlocks_exclude {flag : C → Bool} {labels : List (C × Action L)}
    (reached : run step (boot flag) labels = some m) :
    (∀ c d lk, lk ∈ (m.core c).held → lk ∈ (m.core d).held → c = d) ∧
      (∀ lk, (m.lock lk).locked ↔ ∃ c, lk ∈ (m.core c).held) ∧
      (∀ c lk, (m.core c).place = .outside → (m.holding c lk ↔ lk ∈ (m.core c).held)) ∧
      ∀ c, (m.core c).place.Fits (m.core c).held ∧
        (m.core c).ncli = (m.core c).held.length + (m.core c).place.pending ∧
        (m.core c).flag = if (m.core c).ncli = 0 then (m.core c).wanted else false := by
  have sound : m.Sound :=
    run_preserves Sound (fun _ _ _ sound stepped => sound.step stepped) (.boot flag) reached
  have ⟨cores, taken, kept, alone, owner⟩ := sound
  refine ⟨alone, fun lk => ⟨kept lk, fun ⟨c, holds⟩ => taken c lk holds⟩, ?_, ?_⟩
  · grind [holding]
  · exact fun c => ⟨(cores c).fits, (cores c).depth, (cores c).flag⟩

theorem spinlocks_exclude_contended : ∃ labels m, run step (boot fun _ : Bool => true) labels =
    some m ∧ (m.core false).place = .spinning () ∧ ∀ c, () ∈ (m.core c).held → c = true := by
  have reached : run step (boot fun _ => true) [(true, .acquire ()), (false, .acquire ()),
    (true, .advance), (false, .advance)] = some _ := rfl
  refine ⟨_, _, reached, rfl, fun c held => ?_⟩
  exact (spinlocks_exclude reached).1 c true () held (.head _)

end Machine

end StraceXv6.Kernel.Spinlock
